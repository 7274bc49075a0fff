import HeaderDecl.Proofs.OpenFiles

/-!
Properties of the state that every run upholds. It is enough that each line of a file that is read
upholds them: opening and closing files touches neither the macros nor what has been put out.
-/

namespace HeaderDecl.Preprocess

variable {e : Setting} {m m' : Moment}

/-- The files that are open at a moment. -/
def Moment.files : Moment → List OpenFile
  | reading files _ => files
  | failed _ _ => []

/-- Whether what is left of a file are the last ones of its lines. -/
def OpenFile.Partial (f : OpenFile) : Prop := f.rest <:+ Line.ofTokens (lex f.path f.text)

/-- At the end of a step the same files are open. -/
theorem Moment.files_ofOutcome {around : List OpenFile} {o : Except FatalError Unit × State}
    {f : OpenFile} (opened : f ∈ (ofOutcome around o).files) : f ∈ around := by
  rcases o with ⟨_ | _, s⟩
  · cases opened
  · exact opened

/-- A property that a file has when it is opened, and keeps when a line of it has been taken. -/
structure OfFiles (e : Setting) (P : OpenFile → Prop) : Prop where
  opened : ∀ path text outer, e.sources.stored? path = some text →
    P ⟨path, text, Line.ofTokens (lex path text), outer⟩
  taken : ∀ f l ls, f.rest = l :: ls → P f → P { f with rest := ls }

namespace OfFiles

variable {P : OpenFile → Prop}

theorem call (h : OfFiles e P) {path text : String} {around : List OpenFile} {s : State}
    (stored : e.sources.stored? path = some text) (others : ∀ f ∈ around, P f) :
    ∀ f ∈ (Moment.call e path text around s).files, P f := by
  intro f opened
  unfold Moment.call at opened
  split at opened
  · exact others f opened
  · split at opened
    · cases opened
    · rcases List.mem_cons.mp opened with rfl | other
      · exact h.opened path text s.conditionals stored
      · exact others f other

theorem next (h : OfFiles e P) (step : m.next e = some m') (before : ∀ f ∈ m.files, P f) :
    ∀ f ∈ m'.files, P f := by
  obtain ⟨f, around, s, rfl, comes⟩ := Moment.next_cases step
  have others : ∀ g ∈ around, P g := fun g opened => before g (List.mem_cons_of_mem f opened)
  rcases comes with ⟨-, rfl⟩ | ⟨l, ls, rest, comes⟩
  · exact fun g opened => others g (Moment.files_ofOutcome opened)
  · have less : ∀ g ∈ { f with rest := ls } :: around, P g :=
      List.forall_mem_cons.mpr ⟨h.taken f l ls rest (before f List.mem_cons_self), others⟩
    rcases comes with ⟨path, text, included, rfl⟩ | ⟨-, rfl⟩
    · exact h.call (stored_of_includedBy included) less
    · exact fun g opened => less g (Moment.files_ofOutcome opened)

theorem reaches (h : OfFiles e P) {main : String} (run : Reaches e (.start e main) m) :
    ∀ f ∈ m.files, P f := by
  induction run with
  | refl =>
    unfold Moment.start
    split
    · exact h.call (stored_of_entry ‹_›) (List.forall_mem_nil _)
    · exact List.forall_mem_nil _
  | tail _ step ih => exact h.next step ih

end OfFiles

theorem partial_of_reaches {main : String} (h : Reaches e (.start e main) m) :
    ∀ f ∈ m.files, f.Partial := by
  refine OfFiles.reaches ⟨fun path text outer _ => List.suffix_refl _, ?_⟩ h
  intro f l ls rest whole
  rw [OpenFile.Partial, rest] at whole
  exact (List.suffix_cons l ls).trans whole

theorem stored_of_reaches {main : String} (h : Reaches e (.start e main) m) :
    ∀ f ∈ m.files, e.sources.stored? f.path = some f.text :=
  OfFiles.reaches ⟨fun _ _ _ stored => stored, fun _ _ _ _ stored => stored⟩ h

/-- The end of a file touches neither the macros nor what has been put out. -/
theorem Moment.close_aside (f : OpenFile) (s : State) :
    (outcome (close f) s).2.macros = s.macros ∧ (outcome (close f) s).2.constants = s.constants ∧
      (outcome (close f) s).2.output = s.output := by
  have quiet := quietly_reportOpen (lex f.path f.text) s
  unfold close
  rw [outcome_bind]
  rcases reported : outcome (reportOpen (lex f.path f.text)) s with ⟨_ | _, t⟩
  all_goals
    rw [reported] at quiet
    exact ⟨quiet.macros, quiet.constants, quiet.output⟩

/-- A property that holds at the start and that every line of a file upholds, where it concerns only
the macros, the constants and what has been put out. -/
structure Upheld (e : Setting) (P : State → Prop) : Prop where
  initial : P (.initial e.config)
  aside : ∀ s t, t.macros = s.macros → t.constants = s.constants → t.output = s.output → P s → P t
  line : ∀ path text l s t, l ∈ Line.ofTokens (lex path text) → P s → Changes e s l t → P t

namespace Upheld

variable {P : State → Prop}

theorem call (h : Upheld e P) {path text : String} {around : List OpenFile} {s : State} (now : P s) :
    P (Moment.call e path text around s).state := by
  rcases Moment.state_call e path text around s with same | ⟨-, entered⟩
  · rwa [same]
  · rw [entered]
    exact h.aside s _ rfl rfl rfl now

theorem close (h : Upheld e P) (f : OpenFile) {s : State} (now : P s) :
    P (outcome (Moment.close f) s).2 := by
  obtain ⟨macros, constants, output⟩ := Moment.close_aside f s
  exact h.aside s _ macros constants output now

theorem next (h : Upheld e P) (step : m.next e = some m') (files : ∀ f ∈ m.files, f.Partial)
    (now : P m.state) : P m'.state := by
  obtain ⟨f, around, s, rfl, ⟨-, rfl⟩ | ⟨l, ls, rest, ⟨path, text, -, rfl⟩ | ⟨-, rfl⟩⟩⟩ :=
    Moment.next_cases step
  · rw [Moment.state_ofOutcome]
    exact h.close f now
  · exact h.call now
  · rw [Moment.state_ofOutcome]
    have whole : f.Partial := files f List.mem_cons_self
    have listed : l ∈ f.rest := rest ▸ List.mem_cons_self
    exact h.line f.path f.text l s _ (whole.mem listed) now (changes_processLine e f.path l s)

theorem reaches (h : Upheld e P) {main : String} (run : Reaches e (.start e main) m) : P m.state := by
  induction run with
  | refl =>
    unfold Moment.start
    split
    · exact h.call h.initial
    · exact h.initial
  | tail before step ih => exact h.next step (partial_of_reaches before) ih

/-- A run that ends well puts out what a state has that upholds the property, or no file is found. -/
theorem run (h : Upheld e P) {main : String} {p : Preprocessed} {ds : List Diagnostic}
    (ran : run e main = (.ok p, ds)) :
    p = ⟨[.eofAt .synthetic], []⟩ ∨ ∃ path s, P s ∧
      p = ⟨s.output.toList ++ [.eofAt (endLocation path s.output)], s.constants⟩ := by
  obtain ⟨last, reached, -, result⟩ := reaches_result e main
  have now := h.reaches reached
  rw [ran] at result
  unfold Moment.result at result
  split at result
  · cases result
    exact .inl rfl
  · cases result
    exact .inr ⟨_, _, now, rfl⟩
  · cases result

end Upheld

end HeaderDecl.Preprocess
