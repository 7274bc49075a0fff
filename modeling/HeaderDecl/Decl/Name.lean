/-!
Qualified names: segments joined by `::`. A separator within template arguments joins no segments.
-/

namespace HeaderDecl.Name

/-- The nesting of angle brackets after a character. -/
def nesting (depth : Nat) (c : Char) : Nat :=
  if c = '<' then depth + 1 else if c = '>' then depth - 1 else depth

/-- Splits at the last separator outside of brackets. -/
def splitLast : Nat → List Char → Option (List Char × List Char)
  | _, [] => none
  | depth, c :: cs =>
    match splitLast (nesting depth c) cs with
    -- A later separator comes first.
    | some (scope, last) => some (c :: scope, last)
    | none => if depth = 0 && c = ':' && cs.head? = some ':' then some ([], cs.tail) else none

def splitChars (name : List Char) : List Char × List Char := (splitLast 0 name).getD ([], name)

/-- The scope of a qualified name, and its last segment. -/
def splitScope (name : String) : String × String :=
  let (scope, last) := splitChars name.toList
  (String.ofList scope, String.ofList last)

/-- A name within a scope. The global scope is empty. -/
def qualify (scope name : String) : String :=
  if scope.isEmpty then name else scope ++ "::" ++ name

theorem length_splitLast_lt {depth : Nat} {cs scope last : List Char}
    (h : splitLast depth cs = some (scope, last)) : scope.length < cs.length := by
  induction cs generalizing depth scope with
  | nil => simp [splitLast] at h
  | cons c cs ih =>
    simp only [splitLast] at h
    split at h
    · rename_i a b hs
      simp only [Option.some.injEq, Prod.mk.injEq] at h
      obtain ⟨rfl, rfl⟩ := h
      have := ih hs
      simp only [List.length_cons]
      omega
    · simp only [Option.ite_none_right_eq_some, Option.some.injEq, Prod.mk.injEq] at h
      obtain ⟨_, rfl, _⟩ := h
      simp

theorem length_splitChars_lt {name : List Char} (h : name ≠ []) :
    (splitChars name).1.length < name.length := by
  unfold splitChars
  cases hs : splitLast 0 name with
  | none => exact List.length_pos_iff.2 h
  | some p => exact length_splitLast_lt hs

theorem length_splitScope_lt {name : String} (h : (splitScope name).1 ≠ "") :
    (splitScope name).1.length < name.length := by
  have hne : name.toList ≠ [] := by
    intro hn
    simp [splitScope, hn, splitChars, splitLast] at h
  simpa [splitScope, String.length_toList] using length_splitChars_lt hne

/-- A scope and the scopes around it, innermost first, ending with the global one. -/
def enclosingChars (scope : List Char) : List (List Char) :=
  if h : scope = [] then [[]]
  else
    have := length_splitChars_lt h
    scope :: enclosingChars (splitChars scope).1
termination_by scope.length

def enclosing (scope : String) : List String :=
  (enclosingChars scope.toList).map String.ofList

end HeaderDecl.Name
