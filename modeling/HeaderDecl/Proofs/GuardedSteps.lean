import HeaderDecl.Proofs.DeadText

/-!
Steps of preprocessing from states that differ in what is known of guards. Only the skipping of whole
files looks at the guards, so any other step does the same from both.
-/

namespace HeaderDecl.Preprocess

variable {α β : Type}

/-- A state with another record of guards. -/
def State.knowing (s : State) (guards : NameMap String) : State := { s with guards }

/-- From states whose guards are related, the second step does what the first one does, and leaves
states whose guards are related. Where they fail, they fail alike. -/
def Shadows (R : NameMap String → NameMap String → Prop) (x y : Step α) : Prop :=
  ∀ s g, R s.guards g → ∃ g', R (outcome x s).2.guards g' ∧
    outcome y (s.knowing g) = ((outcome x s).1, (outcome x s).2.knowing g')

section Rules

variable {R : NameMap String → NameMap String → Prop}

theorem Shadows.bind {x y : Step α} {f g : α → Step β} (first : Shadows R x y)
    (next : ∀ a, Shadows R (f a) (g a)) : Shadows R (x >>= f) (y >>= g) := by
  intro s w related
  obtain ⟨w', related', same⟩ := first s w related
  rw [outcome_bind, outcome_bind, same]
  rcases h : outcome x s with ⟨_ | a, t⟩
  · -- Both fail in the first step.
    rw [h] at related'
    exact ⟨w', related', rfl⟩
  · rw [h] at related'
    exact next a t w' related'

theorem Shadows.pure (a : α) : Shadows R (pure a : Step α) (pure a) :=
  fun _ g related => ⟨g, related, rfl⟩

/-- A step that reads the state sees all of it alike but the guards. -/
theorem Shadows.get {f g : State → Step α}
    (next : ∀ (s : State) w, R s.guards w → Shadows R (f s) (g (s.knowing w))) :
    Shadows R (get >>= f) (get >>= g) := by
  intro s w related
  exact next s w related s w related

theorem Shadows.modify {f : State → State}
    (same : ∀ (s : State) w, f (s.knowing w) = (f s).knowing w)
    (kept : ∀ s : State, (f s).guards = s.guards) : Shadows R (modify f) (modify f) := by
  intro s w related
  refine ⟨w, ?_, ?_⟩
  · rw [outcome_modify, kept]
    exact related
  · rw [outcome_modify, outcome_modify, same]

theorem Shadows.lift (x : Except FatalError α) : Shadows R (liftM x : Step α) (liftM x) :=
  fun _ w related => ⟨w, related, rfl⟩

theorem Shadows.report (kind : DiagnosticKind) (loc : Location) (message : String) :
    Shadows R (report kind loc message) (report kind loc message) :=
  .modify (fun _ _ => rfl) (fun _ => rfl)

end Rules

/-! ### Directives -/

section Directives

variable {R : NameMap String → NameMap String → Prop} (e : Setting)

theorem shadows_condition (hash : Token) (rest : List Token) :
    Shadows R (condition e hash rest) (condition e hash rest) := by
  unfold condition
  apply Shadows.get
  intro s w _
  have sees : e.scope (s.knowing w) = e.scope s := rfl
  have knows : (s.knowing w).macros = s.macros := rfl
  rw [sees, knows]
  dsimp only
  split
  · exact (Shadows.report _ _ _).bind fun _ => .pure _
  · refine (Shadows.lift _).bind fun expanded => ?_
    split
    · exact .pure _
    · exact (Shadows.report _ _ _).bind fun _ => .pure _

theorem shadows_openConditional (holds : Bool) :
    Shadows R (openConditional holds) (openConditional holds) :=
  .modify (fun _ _ => rfl) (fun _ => rfl)

theorem shadows_ifDefined (hash : Token) (rest : List Token) (wanted : Bool) :
    Shadows R (ifDefined hash rest wanted) (ifDefined hash rest wanted) := by
  unfold ifDefined
  apply Shadows.get
  intro s w _
  cases rest.head?.filter Token.isWord with
  | some t => exact shadows_openConditional _
  | none =>
    have skips : (s.knowing w).isSkipping = s.isSkipping := rfl
    dsimp only
    rw [skips]
    split
    · exact (Shadows.report _ _ _).bind fun _ => shadows_openConditional _
    · exact shadows_openConditional _

theorem shadows_if (d : Marker "if") :
    Shadows R (do
      let holds ← if (← get).isSkipping then pure false else condition e d.hash d.rest
      openConditional holds)
      (do
        let holds ← if (← get).isSkipping then pure false else condition e d.hash d.rest
        openConditional holds) := by
  apply Shadows.get
  intro s w _
  have skips : (s.knowing w).isSkipping = s.isSkipping := rfl
  dsimp only
  rw [skips]
  split
  · exact (Shadows.pure _).bind fun holds => shadows_openConditional holds
  · exact (shadows_condition e _ _).bind fun holds => shadows_openConditional holds

theorem shadows_elseIf (hash : Token) (rest : List Token) :
    Shadows R (elseIf e hash rest) (elseIf e hash rest) := by
  unfold elseIf
  apply Shadows.get
  intro s w _
  have stack : (s.knowing w).conditionals = s.conditionals := rfl
  dsimp only
  rw [stack]
  -- Whether or not the condition is asked for, what follows is the same.
  split
  · refine (shadows_condition e _ _).bind fun holds => ?_
    split
    · exact .modify (fun _ _ => rfl) (fun _ => rfl)
    · exact .report _ _ _
  · refine (Shadows.pure _).bind fun holds => ?_
    split
    · exact .modify (fun _ _ => rfl) (fun _ => rfl)
    · exact .report _ _ _

theorem shadows_otherwise (hash : Token) : Shadows R (otherwise hash) (otherwise hash) := by
  unfold otherwise
  apply Shadows.get
  intro s w _
  have stack : (s.knowing w).conditionals = s.conditionals := rfl
  rw [stack]
  split
  · exact .modify (fun _ _ => rfl) (fun _ => rfl)
  · exact .report _ _ _

theorem shadows_endConditional (hash : Token) :
    Shadows R (endConditional hash) (endConditional hash) := by
  unfold endConditional
  apply Shadows.get
  intro s w _
  have stack : (s.knowing w).conditionals = s.conditionals := rfl
  rw [stack]
  split
  · exact .modify (fun _ _ => rfl) (fun _ => rfl)
  · exact .report _ _ _

theorem shadows_defineObject (name : Token) (body : List Token) :
    Shadows R (defineObject e name body) (defineObject e name body) :=
  .modify (fun _ _ => rfl) (fun _ => rfl)

theorem shadows_define (hash : Token) (rest : List Token) :
    Shadows R (define e hash rest) (define e hash rest) := by
  unfold define
  split
  · exact .report _ _ _
  · split
    · exact .report _ _ _
    · split
      · split
        · split
          · exact .modify (fun _ _ => rfl) (fun _ => rfl)
          · exact .report _ _ _
        · exact shadows_defineObject e _ _
      · exact shadows_defineObject e _ _

theorem shadows_undefine (hash : Token) (rest : List Token) :
    Shadows R (undefine hash rest) (undefine hash rest) := by
  unfold undefine
  split
  · exact .modify (fun _ _ => rfl) (fun _ => rfl)
  · exact .report _ _ _

end Directives

/-! ### Files -/

section Files

variable {R : NameMap String → NameMap String → Prop} {e : Setting}
  {processFile processFile' : String → String → Step Unit}

/-- Headers that the sources have are processed alike. -/
def ShadowsFiles (R : NameMap String → NameMap String → Prop) (sources : SourceMap)
    (processFile processFile' : String → String → Step Unit) : Prop :=
  ∀ path text, sources.stored? path = some text →
    Shadows R (processFile path text) (processFile' path text)

theorem stored_of_entry {sources : SourceMap} {p path text : String}
    (h : sources.entry? p = some (path, text)) : sources.stored? path = some text := by
  unfold SourceMap.entry? at h
  split at h
  · rename_i stored
    cases h
    exact stored
  · obtain ⟨found, stored, same⟩ := Option.map_eq_some_iff.mp h
    cases same
    exact stored

theorem stored_of_findInclude {current target path text : String}
    (h : e.findInclude current target = some (path, text)) :
    e.sources.stored? path = some text := by
  unfold Setting.findInclude at h
  rcases Option.or_eq_some_iff.mp h with h | ⟨-, h⟩
  · exact stored_of_entry h
  · exact stored_of_entry h

theorem shadows_includeHeader (inner : ShadowsFiles R e.sources processFile processFile')
    (current : String) (hash : Token) (rest : List Token) :
    Shadows R (includeHeader e processFile current hash rest)
      (includeHeader e processFile' current hash rest) := by
  unfold includeHeader
  split
  · split
    · apply Shadows.get
      intro s w _
      have around : (s.knowing w).includeStack = s.includeStack := rfl
      rw [around]
      split
      · exact .report _ _ _
      · split
        · rename_i found
          exact inner _ _ (stored_of_findInclude found)
        · exact .pure _
    · split
      · exact .pure _
      · exact .report _ _ _
  · exact .report _ _ _

theorem shadows_liveDirective (inner : ShadowsFiles R e.sources processFile processFile')
    (current : String) (hash name : Token) (rest : List Token) :
    Shadows R (liveDirective e processFile current hash name rest)
      (liveDirective e processFile' current hash name rest) := by
  unfold liveDirective
  split
  · exact shadows_define e _ _
  · exact shadows_undefine _ _
  · exact shadows_includeHeader inner _ _ _
  · exact shadows_includeHeader inner _ _ _
  · split
    · exact .modify (fun _ _ => rfl) (fun _ => rfl)
    · exact .pure _
  · exact .report _ _ _
  · exact .report _ _ _
  · exact .pure _
  · exact .pure _
  · exact .pure _
  · split
    · exact .pure _
    · exact .report _ _ _

theorem shadows_plain (inner : ShadowsFiles R e.sources processFile processFile')
    (current : String) {l : Line} (free : l.isConditional = false) :
    Shadows R (processLine e processFile current l) (processLine e processFile' current l) := by
  cases l with
  | text tokens =>
    unfold processLine
    apply Shadows.get
    intro s w _
    have skips : (s.knowing w).isSkipping = s.isSkipping := rfl
    have sees : e.scope (s.knowing w) = e.scope s := rfl
    rw [skips, sees]
    split
    · exact (Shadows.lift _).bind fun _ => .modify (fun _ _ => rfl) (fun _ => rfl)
    · exact .pure _
  | directive hash line =>
    cases line with
    | nil => exact .pure _
    | cons name rest =>
      rw [processLine_directive _ _ _ free, processLine_directive _ _ _ free]
      apply Shadows.get
      intro s w _
      have skips : (s.knowing w).isSkipping = s.isSkipping := rfl
      rw [skips]
      split
      · exact .pure _
      · exact shadows_liveDirective inner _ _ _ _

theorem shadows_processLine (inner : ShadowsFiles R e.sources processFile processFile')
    (current : String) (l : Line) :
    Shadows R (processLine e processFile current l) (processLine e processFile' current l) := by
  obtain ⟨m, rfl⟩ : ∃ m : Mark, m.line = l := ⟨_, Mark.line_ofLine l⟩
  cases m with
  | plain l free => exact shadows_plain inner current free
  | opens opening =>
    cases opening with
    | ifTrue d =>
      simp only [Mark.line, Opening.line, processLine_if]
      exact shadows_if e d
    | ifdef d =>
      simp only [Mark.line, Opening.line, processLine_ifdef]
      exact shadows_ifDefined _ _ _
    | ifndef d =>
      simp only [Mark.line, Opening.line, processLine_ifndef]
      exact shadows_ifDefined _ _ _
  | elseIf d =>
    simp only [Mark.line, processLine_elif]
    exact shadows_elseIf e _ _
  | otherwise d =>
    simp only [Mark.line, processLine_else]
    exact shadows_otherwise _
  | close d =>
    simp only [Mark.line, processLine_endif]
    exact shadows_endConditional _

theorem shadows_lines (inner : ShadowsFiles R e.sources processFile processFile')
    (current : String) (ls : List Line) :
    Shadows R (forM ls (processLine e processFile current))
      (forM ls (processLine e processFile' current)) := by
  induction ls with
  | nil => exact .pure _
  | cons l ls ih => exact (shadows_processLine inner current l).bind fun _ => ih

theorem shadows_reportOpen (tokens : List Token) :
    Shadows R (reportOpen tokens) (reportOpen tokens) := by
  unfold reportOpen
  apply Shadows.get
  intro s w _
  have stack : (s.knowing w).conditionals = s.conditionals := rfl
  dsimp only
  rw [stack]
  split
  · exact .report _ _ _
  · exact .pure _

end Files

end HeaderDecl.Preprocess
