import HeaderDecl.Config
import HeaderDecl.Macro.Replacement

/-!
Macro expansion. A macro is not replaced within its own replacement, so each level of replacement has
fewer macros to offer, and on one level the tokens run out.
-/

namespace HeaderDecl.Macro

/-- The macros in force, and the names of those that vanish from the text. -/
structure Scope where
  table : MacroTable
  stripped : List String

namespace Scope

def isStripped (s : Scope) (name : String) : Bool := s.stripped.contains name

/-- Whether the parentheses after a stripped name go with it. They stay only after the name of an
object-like macro. -/
def stripsArguments (s : Scope) (name : String) : Bool :=
  (s.table.get? name).all MacroDef.isFunctionLike

/-- The number of definitions whose names are not being replaced. -/
def available (s : Scope) (active : List String) : Nat :=
  s.table.names.countP fun n => !active.contains n

theorem available_cons_lt {s : Scope} {active : List String} {name : String} {m : MacroDef}
    (hm : s.table.get? name = some m) (ha : active.contains name = false) :
    s.available (name :: active) < s.available active := by
  have hmem := NameMap.mem_names_of_get? hm
  simp only [available]
  generalize s.table.names = names at hmem
  have hle : ∀ l : List String, l.countP (fun n => !(name :: active).contains n) ≤
      l.countP (fun n => !active.contains n) := by
    intro l
    refine List.countP_mono_left fun x _ hx => ?_
    simp only [List.contains_cons, Bool.not_or, Bool.and_eq_true] at hx
    exact hx.2
  induction names with
  | nil => simp at hmem
  | cons n names ih =>
    have := hle names
    rcases List.mem_cons.1 hmem with rfl | h
    · simp only [List.countP_cons, List.contains_cons, beq_self_eq_true, Bool.true_or, ha]
      simp only [Bool.not_true, Bool.not_false, Bool.false_eq_true, if_false, if_true]
      simp only [List.contains_cons] at this
      omega
    · have := ih h
      simp only [List.countP_cons]
      have : (if (!(name :: active).contains n) = true then 1 else 0) ≤
          if (!active.contains n) = true then 1 else 0 := by
        simp only [List.contains_cons]
        cases active.contains n <;> cases n == name <;> simp
      omega

end Scope

/-- The error of a malformed token. -/
def lexFailure (t : Token) (e : LexError) : FatalError := ⟨t.loc.file, t.loc.position, .lex e⟩

/-- The tokens after a stripped name, its arguments left out if they go with it. -/
def afterStripped (s : Scope) (name : String) (ts : List Token) : List Token :=
  if s.stripsArguments name then
    match invocation ts with
    | some (_, rest) => rest
    | none => ts
  else ts

theorem length_afterStripped_le (s : Scope) (name : String) (ts : List Token) :
    (afterStripped s name ts).length ≤ ts.length := by
  unfold afterStripped
  split
  · split
    · rename_i h
      have := extent_invocation h
      omega
    · exact Nat.le_refl _
  · exact Nat.le_refl _

/-- Expands the macros in a text. The active names are those of the macros being replaced around it;
they stand for themselves, as does a function-like macro without arguments. -/
def expand (s : Scope) (active : List String) : List Token → Except FatalError (List Token)
  | [] => .ok []
  | t :: ts =>
    match t.kind with
    | .error e => .error (lexFailure t e)
    | kind =>
      if ha : !kind.isWord || active.contains t.text then do
        let rest ← expand s active ts
        return t :: rest
      else if s.isStripped t.text then
        have := length_afterStripped_le s t.text ts
        expand s active (afterStripped s t.text ts)
      else
        match hm : s.table.get? t.text with
        | none => do
          let rest ← expand s active ts
          return t :: rest
        | some m =>
          have hfree : active.contains t.text = false := by
            simp only [Bool.or_eq_true, not_or, Bool.not_eq_true] at ha
            exact ha.2
          have := Scope.available_cons_lt hm hfree
          match m.params with
          | none => do
            -- The replacement is expanded by itself, without the text after it.
            let replaced ← expand s (t.text :: active) (relocate t m.body)
            let rest ← expand s active ts
            return replaced ++ rest
          | some params =>
            match hi : invocation ts with
            | none => do
              let rest ← expand s active ts
              return t :: rest
            | some (args, after) => do
              have := extent_invocation hi
              let arranged := (arrange params m.variadic.isSome args).attach.map fun ⟨a, hmem⟩ =>
                have := length_le_of_mem_arrange hmem
                Arg.mk a ⟨fun _ => expand s active a⟩
              let body ← substitute (argOf params m.variadic arranged) [] m.body
              let replaced ← expand s (t.text :: active) (relocate t body)
              let rest ← expand s active after
              return replaced ++ rest
termination_by ts => (s.available active, ts.length)

end HeaderDecl.Macro
