import HeaderDecl.Macro.Arguments
import HeaderDecl.Token.Literal

/-!
Questions in conditions: whether a macro is defined, and whether a header or a feature exists. Each is
answered by a number in its place before macros are expanded.
-/

namespace HeaderDecl.Condition

/-- The number one or zero in place of a token. -/
def numberToken (site : Token) (value : Bool) : Token :=
  { site with kind := .number, text := if value then "1" else "0" }

def includeQueries : List String := ["__has_include", "__has_include_next"]

/-- The names of features that no compiler is there to have. -/
def featureQueries : List String :=
  ["__has_attribute", "__has_cpp_attribute", "__has_builtin", "__has_feature", "__has_extension"]

/-- The macro name after the word `defined`, and the tokens after the query. A parenthesis before the
name takes the token after the name with it. -/
def definedName (ts : List Token) : Option (String × List Token) :=
  match ts with
  | t :: rest =>
    if t.is .lparen then
      match rest with
      -- Whether it is a closing parenthesis is not asked.
      | n :: rest => if n.isWord then some (n.text, rest.drop 1) else none
      | [] => none
    else if t.isWord then some (t.text, rest) else none
  | [] => none

theorem length_definedName_lt {ts rest : List Token} {name : String}
    (h : definedName ts = some (name, rest)) : rest.length < ts.length := by
  unfold definedName at h
  split at h
  · split at h
    · split at h
      · simp only [Option.ite_none_right_eq_some, Option.some.injEq, Prod.mk.injEq] at h
        obtain ⟨_, _, rfl⟩ := h
        simp
        omega
      · simp at h
    · simp only [Option.ite_none_right_eq_some, Option.some.injEq, Prod.mk.injEq] at h
      obtain ⟨_, _, rfl⟩ := h
      simp
  · simp at h

/-- The header in quotes that begins the arguments of a query. -/
def queriedHeader (args : List (List Token)) : Option String :=
  match args with
  | (t :: _) :: _ => if t.kind == .string then some (Literal.string t.text) else none
  | _ => none

/-- Answers the queries in a condition, or tells what is missing in one. -/
def resolveQueries (isDefined isHeader : String → Bool) : List Token → Except String (List Token)
  | [] => .ok []
  | t :: ts =>
    if t.text = "defined" then
      match h : definedName ts with
      | none => .error "expected a macro name after `defined`"
      | some (name, rest) => do
        have := length_definedName_lt h
        let rest ← resolveQueries isDefined isHeader rest
        return numberToken t (isDefined name) :: rest
    else if includeQueries.contains t.text || featureQueries.contains t.text then
      match h : Macro.invocation ts with
      | none => .error s!"expected `(` after `{t.text}`"
      | some (args, rest) => do
        have := Macro.extent_invocation h
        -- No feature is ever found, whatever the arguments are.
        let found := includeQueries.contains t.text && (queriedHeader args).any isHeader
        let rest ← resolveQueries isDefined isHeader rest
        return numberToken t found :: rest
    else do
      let rest ← resolveQueries isDefined isHeader ts
      return t :: rest
termination_by ts => ts.length

end HeaderDecl.Condition
