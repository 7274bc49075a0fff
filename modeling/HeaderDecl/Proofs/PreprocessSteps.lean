import HeaderDecl.Preprocess

/-!
Steps of preprocessing as functions of the state. A step mirrors another one when it does the same
from a stack of conditionals that only the first of them sees.
-/

namespace HeaderDecl.Preprocess

variable {α β : Type}

/-- What a step gives at a state, with the state it leaves. -/
def outcome (x : Step α) (s : State) : Except FatalError α × State := x.run.run s

theorem outcome_get (s : State) : outcome get s = (.ok s, s) := rfl

theorem outcome_modify (f : State → State) (s : State) : outcome (modify f) s = (.ok (), f s) := rfl

theorem outcome_bind (x : Step α) (f : α → Step β) (s : State) :
    outcome (x >>= f) s = match outcome x s with
      | (.ok a, t) => outcome (f a) t
      | (.error err, t) => (.error err, t) := by
  unfold outcome
  rw [ExceptT.run_bind, StateT.run_bind]
  rcases x.run.run s with ⟨_ | a, t⟩
  · rfl
  · rfl

/-! ### Stacks of conditionals -/

/-- A state with another stack of conditionals. -/
def State.under (s : State) (stack : List Conditional) : State := { s with conditionals := stack }

/-- From one stack to another, a step does what a second step does that leaves the stack alone. Where
they fail, they fail alike. -/
def Mirrors (before after : List Conditional) (x y : Step α) : Prop :=
  ∀ s, ∃ last, outcome x (s.under before) = ((outcome y s).1, (outcome y s).2.under last) ∧
    ∀ a, (outcome y s).1 = .ok a → last = after ∧ (outcome y s).2.conditionals = s.conditionals

theorem Mirrors.bind {a b c : List Conditional} {x y : Step α} {f g : α → Step β}
    (first : Mirrors a b x y) (next : ∀ v, Mirrors b c (f v) (g v)) :
    Mirrors a c (x >>= f) (y >>= g) := by
  intro s
  obtain ⟨last, same, kept⟩ := first s
  rw [outcome_bind, outcome_bind, same]
  rcases h : outcome y s with ⟨_ | v, t⟩
  · -- Both fail in the first step, wherever its stack has got to.
    exact ⟨last, rfl, fun _ hv => by cases hv⟩
  · rw [h] at kept
    obtain ⟨rfl, here⟩ := kept v rfl
    obtain ⟨last', same', kept'⟩ := next v t
    refine ⟨last', same', fun w hw => ?_⟩
    obtain ⟨there, still⟩ := kept' w hw
    exact ⟨there, still.trans here⟩

/-- A step that leaves the stack alone and does the same under every stack. -/
def Blind (x : Step α) : Prop := ∀ stack, Mirrors stack stack x x

theorem Mirrors.pure {stack : List Conditional} (a : α) :
    Mirrors stack stack (pure a : Step α) (pure a) :=
  fun _ => ⟨stack, rfl, fun _ _ => ⟨rfl, rfl⟩⟩

/-- A step that reads the state may look at all of it but the stack. -/
theorem Mirrors.get {a b : List Conditional} {f g : State → Step α}
    (next : ∀ s : State, Mirrors a b (f (s.under a)) (g s)) :
    Mirrors a b (get >>= f) (get >>= g) := by
  intro s
  exact next s s

theorem Mirrors.modify {a b : List Conditional} {f g : State → State}
    (same : ∀ s : State, f (s.under a) = (g s).under b)
    (kept : ∀ s : State, (g s).conditionals = s.conditionals) :
    Mirrors a b (modify f) (modify g) := by
  intro s
  refine ⟨b, ?_, fun _ _ => ⟨rfl, kept s⟩⟩
  rw [outcome_modify, outcome_modify, same]

theorem blind_modify {f : State → State}
    (same : ∀ (s : State) stack, f (s.under stack) = (f s).under stack)
    (kept : ∀ s : State, (f s).conditionals = s.conditionals) : Blind (modify f) :=
  fun stack => .modify (fun s => same s stack) kept

theorem blind_lift (x : Except FatalError α) : Blind (liftM x) :=
  fun stack _ => ⟨stack, rfl, fun _ _ => ⟨rfl, rfl⟩⟩

theorem blind_report (kind : DiagnosticKind) (loc : Location) (message : String) :
    Blind (report kind loc message) :=
  blind_modify (fun _ _ => rfl) (fun _ => rfl)

/-! ### Conditions and live directives -/

theorem blind_condition (e : Setting) (hash : Token) (rest : List Token) :
    Blind (condition e hash rest) := by
  intro stack
  unfold condition
  apply Mirrors.get
  intro s
  have sees : e.scope (s.under stack) = e.scope s := rfl
  have knows : (s.under stack).macros = s.macros := rfl
  rw [sees, knows]
  dsimp only
  split
  · exact (blind_report _ _ _ stack).bind fun _ => .pure _
  · refine (blind_lift _ stack).bind fun expanded => ?_
    split
    · exact .pure _
    · exact (blind_report _ _ _ stack).bind fun _ => .pure _

theorem blind_defineObject (e : Setting) (name : Token) (body : List Token) :
    Blind (defineObject e name body) :=
  blind_modify (fun _ _ => rfl) (fun _ => rfl)

theorem blind_define (e : Setting) (hash : Token) (rest : List Token) :
    Blind (define e hash rest) := by
  unfold define
  split
  · exact blind_report _ _ _
  · split
    · exact blind_report _ _ _
    · split
      · split
        · split
          · exact blind_modify (fun _ _ => rfl) (fun _ => rfl)
          · exact blind_report _ _ _
        · exact blind_defineObject _ _ _
      · exact blind_defineObject _ _ _

theorem blind_undefine (hash : Token) (rest : List Token) : Blind (undefine hash rest) := by
  unfold undefine
  split
  · exact blind_modify (fun _ _ => rfl) (fun _ => rfl)
  · exact blind_report _ _ _

section Includes

variable {e : Setting} {processFile processFile' : String → String → Step Unit}
  {stack : List Conditional}

theorem mirrors_includeHeader
    (inner : ∀ path text, Mirrors stack stack (processFile path text) (processFile' path text))
    (current : String) (hash : Token) (rest : List Token) :
    Mirrors stack stack (includeHeader e processFile current hash rest)
      (includeHeader e processFile' current hash rest) := by
  unfold includeHeader
  split
  · split
    · apply Mirrors.get
      intro s
      show Mirrors stack stack (if _ ≤ s.includeStack.length then _ else _) _
      split
      · exact blind_report _ _ _ stack
      · split
        · exact inner _ _
        · exact .pure _
    · split
      · exact .pure _
      · exact blind_report _ _ _ stack
  · exact blind_report _ _ _ stack

/-- A live directive does not look at the conditionals, if the headers that it includes do not. -/
theorem mirrors_liveDirective
    (inner : ∀ path text, Mirrors stack stack (processFile path text) (processFile' path text))
    (current : String) (hash name : Token) (rest : List Token) :
    Mirrors stack stack (liveDirective e processFile current hash name rest)
      (liveDirective e processFile' current hash name rest) := by
  unfold liveDirective
  split
  · exact blind_define _ _ _ stack
  · exact blind_undefine _ _ stack
  · exact mirrors_includeHeader inner _ _ _
  · exact mirrors_includeHeader inner _ _ _
  · split
    · exact .modify (fun _ => rfl) (fun _ => rfl)
    · exact .pure _
  · exact blind_report _ _ _ stack
  · exact blind_report _ _ _ stack
  · exact .pure _
  · exact .pure _
  · exact .pure _
  · split
    · exact .pure _
    · exact blind_report _ _ _ stack

end Includes

end HeaderDecl.Preprocess
