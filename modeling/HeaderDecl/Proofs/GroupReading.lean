import HeaderDecl.Proofs.DeadText

/-!
The recursive reading of conditional groups: the conditions of a group in order up to the first one
that holds, then its branch. Under a live stack the lines of the groups come to the same.
-/

namespace HeaderDecl.Preprocess

variable {α : Type}

/-! ### The recursive reading -/

/-- Whether a macro is defined, or is not, as wanted. -/
def testMacro (hash : Token) (rest : List Token) (wanted : Bool) : Step Bool := do
  let s ← get
  match rest.head?.filter Token.isWord with
  | some t => return s.macros.contains t.text == wanted
  | none =>
    malformed hash "expected a macro name"
    return false

def Opening.holds (e : Setting) : Opening → Step Bool
  | .ifTrue d => condition e d.hash d.rest
  | .ifdef d => testMacro d.hash d.rest true
  | .ifndef d => testMacro d.hash d.rest false

/-- A plain line of a branch that is read. -/
def readLine (e : Setting) (processFile : String → String → Step Unit) (current : String) :
    Line → Step Unit
  | .directive _ [] => pure ()
  | .directive hash (name :: rest) => liveDirective e processFile current hash name rest
  | .text tokens => do
    let s ← get
    let expanded ← Macro.expand (e.scope s) [] tokens
    modify fun s => { s with output := s.output ++ expanded }

mutual

/-- Reads plain lines in order, and of each group the branch of the first condition that holds. -/
def Parts.read (e : Setting) (processFile : String → String → Step Unit) (current : String) :
    Parts → Step Unit
  | .nil => pure ()
  | .plain l _ rest => do
    readLine e processFile current l
    rest.read e processFile current
  | .group opening body later rest => do
    if ← opening.holds e then body.read e processFile current
    else later.read e processFile current
    rest.read e processFile current

def Branches.read (e : Setting) (processFile : String → String → Step Unit) (current : String) :
    Branches → Step Unit
  | .elseIf d body later => do
    if ← condition e d.hash d.rest then body.read e processFile current
    else later.read e processFile current
  | .otherwise _ body _ => body.read e processFile current
  | .close _ => pure ()

end

/-! ### Live text -/

theorem Mirrors.of_same {a b : List Conditional} {x x' y : Step α}
    (same : ∀ s : State, outcome x (s.under a) = outcome x' (s.under a)) (h : Mirrors a b x' y) :
    Mirrors a b x y := by
  intro s
  rw [same]
  exact h s

theorem Mirrors.of_first {β : Type} {a b : List Conditional} {x x' : Step β} {f : β → Step α}
    {y : Step α} (same : ∀ s : State, outcome x (s.under a) = outcome x' (s.under a))
    (h : Mirrors a b (x' >>= f) y) : Mirrors a b (x >>= f) y := by
  refine .of_same (fun s => ?_) h
  rw [outcome_bind, outcome_bind, same]

theorem Mirrors.after_silent {a b c : List Conditional} {x : Step Unit} {f : Unit → Step α}
    {y : Step α} (first : Silent a b x) (next : Mirrors b c (f ()) y) :
    Mirrors a c (x >>= f) y := by
  intro s
  rw [outcome_bind, first s]
  exact next s

theorem Mirrors.then_silent {a b c : List Conditional} {x y : Step Unit} {f : Unit → Step Unit}
    (first : Mirrors a b x y) (next : Silent b c (f ())) : Mirrors a c (x >>= f) y := by
  intro s
  obtain ⟨last, same, kept⟩ := first s
  rw [outcome_bind, same]
  rcases h : outcome y s with ⟨_ | v, t⟩
  · exact ⟨last, rfl, fun _ hv => by cases hv⟩
  · rw [h] at kept
    obtain ⟨rfl, here⟩ := kept v rfl
    exact ⟨c, next t, fun _ _ => ⟨rfl, here⟩⟩

theorem Mirrors.append {a b c : List Conditional} {read : Line → Step Unit} {ls ls' : List Line}
    {y y' : Step Unit} (first : Mirrors a b (forM ls read) y)
    (next : Mirrors b c (forM ls' read) y') :
    Mirrors a c (forM (ls ++ ls') read) (y >>= fun _ => y') := by
  rw [List.forM_append]
  exact first.bind fun _ => next

theorem Mirrors.append_silent {a b c : List Conditional} {read : Line → Step Unit}
    {ls ls' : List Line} {y : Step Unit} (first : Mirrors a b (forM ls read) y)
    (next : Silent b c (forM ls' read)) : Mirrors a c (forM (ls ++ ls') read) y := by
  rw [List.forM_append]
  exact first.then_silent next

theorem Mirrors.silent_append {a b c : List Conditional} {read : Line → Step Unit}
    {ls ls' : List Line} {y : Step Unit} (first : Silent a b (forM ls read))
    (next : Mirrors b c (forM ls' read) y) : Mirrors a c (forM (ls ++ ls') read) y := by
  rw [List.forM_append]
  exact .after_silent first next

theorem blind_testMacro (hash : Token) (rest : List Token) (wanted : Bool) :
    Blind (testMacro hash rest wanted) := by
  intro stack
  unfold testMacro
  apply Mirrors.get
  intro s
  cases rest.head?.filter Token.isWord with
  | some t => exact .pure _
  | none => exact (blind_report _ _ _ stack).bind fun _ => .pure _

theorem Opening.blind_holds (e : Setting) (o : Opening) : Blind (o.holds e) := by
  cases o with
  | ifTrue d => exact blind_condition e d.hash d.rest
  | ifdef d => exact blind_testMacro d.hash d.rest true
  | ifndef d => exact blind_testMacro d.hash d.rest false

theorem ifDefined_live {s : State} (live : s.isSkipping = false) (hash : Token)
    (rest : List Token) (wanted : Bool) :
    outcome (ifDefined hash rest wanted) s =
      outcome (testMacro hash rest wanted >>= openConditional) s := by
  unfold ifDefined testMacro
  rw [bind_assoc, outcome_bind, outcome_bind, outcome_get]
  cases rest.head?.filter Token.isWord with
  | some t => rfl
  | none =>
    simp only [live]
    rfl

/-- Two ways to process the headers that are included, under every stack. -/
def Mirrored (processFile processFile' : String → String → Step Unit) : Prop :=
  ∀ stack path text, Mirrors stack stack (processFile path text) (processFile' path text)

section Live

variable (e : Setting) {processFile processFile' : String → String → Step Unit} (current : String)
  {stack : List Conditional}

theorem opening_live (live : Conditional.isSkipping stack = false) (o : Opening) (s : State) :
    outcome (processLine e processFile current o.line) (s.under stack) =
      outcome (o.holds e >>= openConditional) (s.under stack) := by
  have reads : (s.under stack).isSkipping = false := live
  cases o with
  | ifTrue d =>
    show outcome (processLine e processFile current d.line) _ = _
    rw [processLine_if, outcome_bind, outcome_get]
    simp only [reads]
    rfl
  | ifdef d =>
    show outcome (processLine e processFile current d.line) _ = _
    rw [processLine_ifdef]
    exact ifDefined_live reads _ _ _
  | ifndef d =>
    show outcome (processLine e processFile current d.line) _ = _
    rw [processLine_ifndef]
    exact ifDefined_live reads _ _ _

theorem mirrors_plain (inner : Mirrored processFile processFile')
    (live : Conditional.isSkipping stack = false)
    {l : Line} (free : l.isConditional = false) :
    Mirrors stack stack (processLine e processFile current l)
      (readLine e processFile' current l) := by
  cases l with
  | text tokens =>
    unfold processLine readLine
    apply Mirrors.get
    intro s
    have reads : (s.under stack).isSkipping = false := live
    have sees : e.scope (s.under stack) = e.scope s := rfl
    simp only [reads, sees]
    exact (blind_lift _ stack).bind fun _ => .modify (fun _ => rfl) (fun _ => rfl)
  | directive hash line =>
    cases line with
    | nil => exact .pure ()
    | cons name rest =>
      refine .of_same (fun s => ?_) (mirrors_liveDirective (inner stack) current hash name rest)
      have reads : (s.under stack).isSkipping = false := live
      rw [processLine_directive e processFile current free, outcome_bind, outcome_get]
      simp only [reads]
      rfl

/-- The next condition of a group of which no branch has been taken. -/
theorem elif_live (stack : List Conditional) (d : Marker "elif") (s : State) :
    outcome (processLine e processFile current d.line) (s.under (⟨.skipping, false⟩ :: stack)) =
      outcome (condition e d.hash d.rest >>= fun holds => modify fun s =>
        s.under ((if holds then ⟨.active, true⟩ else ⟨.skipping, false⟩) :: stack))
        (s.under (⟨.skipping, false⟩ :: stack)) := by
  rw [processLine_elif]
  rfl

theorem silent_else_live (stack : List Conditional) (d : Marker "else") :
    Silent (⟨.skipping, false⟩ :: stack) (⟨.active, true⟩ :: stack)
      (processLine e processFile current d.line) := by
  intro s
  rw [processLine_else]
  rfl

theorem silent_enter (live : Conditional.isSkipping stack = false) (holds : Bool) :
    Silent stack ((if holds then ⟨.active, true⟩ else ⟨.skipping, false⟩) :: stack)
      (openConditional holds) := by
  intro s
  have opened : Conditional.opened stack holds =
      (if holds then ⟨.active, true⟩ else ⟨.skipping, false⟩) :: stack := by
    cases holds <;> simp [Conditional.opened, live]
  rw [← opened]
  rfl

mutual

/-- Under a live stack the lines of nested groups do what their recursive reading does. -/
theorem mirrors_parts (inner : Mirrored processFile processFile') {stack : List Conditional}
    (live : Conditional.isSkipping stack = false) :
    (p : Parts) → Mirrors stack stack (forM p.lines (processLine e processFile current))
      (p.read e processFile' current)
  | .nil => .pure ()
  | .plain _ free rest =>
    (mirrors_plain e current inner live free).bind fun _ => mirrors_parts inner live rest
  | .group opening body later rest => by
    apply Mirrors.of_first (opening_live e current live opening)
    rw [bind_assoc]
    refine (opening.blind_holds e stack).bind fun holds => ?_
    apply Mirrors.after_silent (silent_enter live holds)
    have after := mirrors_parts inner live rest
    cases holds with
    | true =>
      have skipped : Silent (⟨.active, true⟩ :: stack) stack _ :=
        silent_branches e processFile current rfl stack later
      exact (mirrors_parts inner rfl body).append (.silent_append skipped after)
    | false =>
      have skipped : Silent (⟨.skipping, false⟩ :: stack) _ _ :=
        silent_parts e processFile current rfl body
      exact .silent_append skipped ((mirrors_branches inner live later).append after)

theorem mirrors_branches (inner : Mirrored processFile processFile') {stack : List Conditional}
    (live : Conditional.isSkipping stack = false) :
    (b : Branches) → Mirrors (⟨.skipping, false⟩ :: stack) stack
      (forM b.lines (processLine e processFile current)) (b.read e processFile' current)
  | .elseIf d body later => by
    apply Mirrors.of_first (elif_live e current stack d)
    rw [bind_assoc]
    refine (blind_condition e d.hash d.rest _).bind fun holds => ?_
    apply Mirrors.after_silent fun _ => rfl
    cases holds with
    | true =>
      have skipped : Silent (⟨.active, true⟩ :: stack) stack _ :=
        silent_branches e processFile current rfl stack later
      exact (mirrors_parts inner rfl body).append_silent skipped
    | false =>
      have skipped : Silent (⟨.skipping, false⟩ :: stack) _ _ :=
        silent_parts e processFile current rfl body
      exact .silent_append skipped (mirrors_branches inner live later)
  | .otherwise d body close => by
    apply Mirrors.after_silent (silent_else_live e current stack d)
    have closed := silent_endif e processFile current ⟨.active, true⟩ stack close
    exact (mirrors_parts inner rfl body).append_silent (closed.cons (.pure stack))
  | .close d => by
    have closed := silent_endif e processFile current ⟨.skipping, false⟩ stack d
    exact .after_silent closed (.pure ())

end

end Live

end HeaderDecl.Preprocess
