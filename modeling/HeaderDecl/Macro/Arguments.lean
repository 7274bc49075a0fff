import HeaderDecl.Macro.Definition

/-!
The arguments of a macro invocation. Commas separate arguments outside of inner parentheses.
-/

namespace HeaderDecl.Macro

/-- The first argument, the others, and the tokens after the closing parenthesis. There is always a
first argument, perhaps an empty one; an invocation that is never closed has none at all. -/
def collectArgs : Nat → List Token → Option (List Token × List (List Token) × List Token)
  | _, [] => none
  | depth, t :: ts =>
    if depth = 0 && t.is .rparen then some ([], [], ts)
    else if depth = 0 && t.is .comma then
      (collectArgs 0 ts).map fun (arg, args, rest) => ([], arg :: args, rest)
    else
      let inner := if t.is .lparen then depth + 1 else if t.is .rparen then depth - 1 else depth
      (collectArgs inner ts).map fun (arg, args, rest) => (t :: arg, args, rest)

/-- The arguments of an invocation whose macro name has been read, if a parenthesis follows, and the
tokens after it. -/
def invocation : List Token → Option (List (List Token) × List Token)
  | t :: ts =>
    if t.is .lparen then (collectArgs 0 ts).map fun (arg, args, rest) => (arg :: args, rest)
    else none
  | [] => none

/-- The number of tokens that arguments took in the source, counting one to end each. -/
def extent : List (List Token) → Nat
  | [] => 0
  | a :: args => a.length + 1 + extent args

theorem extent_collectArgs {depth : Nat} {ts arg rest : List Token} {args : List (List Token)}
    (h : collectArgs depth ts = some (arg, args, rest)) :
    extent (arg :: args) + rest.length ≤ ts.length := by
  induction ts generalizing depth arg args rest with
  | nil => simp [collectArgs] at h
  | cons t ts ih =>
    simp only [collectArgs] at h
    split at h
    · simp only [Option.some.injEq, Prod.mk.injEq] at h
      obtain ⟨rfl, rfl, rfl⟩ := h
      simp [extent]
      omega
    · split at h <;> obtain ⟨⟨arg', args', rest'⟩, h', he⟩ := Option.map_eq_some_iff.1 h <;>
        have := ih h' <;> simp only [Prod.mk.injEq] at he <;> obtain ⟨rfl, rfl, rfl⟩ := he <;>
        simp only [extent, List.length_nil, List.length_cons] at * <;> omega

theorem extent_invocation {ts rest : List Token} {args : List (List Token)}
    (h : invocation ts = some (args, rest)) : extent args + rest.length < ts.length := by
  cases ts with
  | nil => simp [invocation] at h
  | cons t ts =>
    simp only [invocation, Option.ite_none_right_eq_some] at h
    obtain ⟨_, h⟩ := h
    obtain ⟨⟨arg', args', rest'⟩, h', he⟩ := Option.map_eq_some_iff.1 h
    simp only [Prod.mk.injEq] at he
    obtain ⟨rfl, rfl⟩ := he
    have := extent_collectArgs h'
    simp only [List.length_cons]
    omega

/-- Arguments put back together with commas between them. -/
def joinArgs : List (List Token) → List Token
  | [] => []
  | [a] => a
  | a :: args => a ++ .synthetic (.punct .comma) "," :: joinArgs args

/-- The arguments in the order of a macro's parameters, the variadic ones joined to one. Parentheses
with nothing between them are no argument for a macro without parameters. -/
def arrange (params : List String) (variadic : Bool) (args : List (List Token)) : List (List Token) :=
  let args := if params.isEmpty && args == [[]] then [] else args
  if variadic then
    args.take params.length ++ List.replicate (params.length - args.length) [] ++
      [joinArgs (args.drop params.length)]
  else args

theorem length_lt_extent {args : List (List Token)} {a : List Token} (h : a ∈ args) :
    a.length < extent args := by
  induction args with
  | nil => simp at h
  | cons b args ih =>
    rcases List.mem_cons.1 h with rfl | h
    · simp only [extent]; omega
    · have := ih h
      simp only [extent]; omega

theorem extent_drop_le (n : Nat) (args : List (List Token)) : extent (args.drop n) ≤ extent args := by
  induction args generalizing n with
  | nil => simp
  | cons a args ih =>
    cases n with
    | zero => simp
    | succ n =>
      have := ih n
      simp only [List.drop_succ_cons, extent]
      omega

theorem length_joinArgs_le (args : List (List Token)) : (joinArgs args).length ≤ extent args := by
  induction args with
  | nil => simp [joinArgs]
  | cons a args ih =>
    cases args with
    | nil => simp [joinArgs, extent]
    | cons b args =>
      simp only [joinArgs, extent, List.length_append, List.length_cons] at *
      omega

/-- No arranged argument is longer than the invocation it comes from. -/
theorem length_le_of_mem_arrange {params : List String} {variadic : Bool}
    {args : List (List Token)} {a : List Token} (h : a ∈ arrange params variadic args) :
    a.length ≤ extent args := by
  unfold arrange at h
  have hsub : ∀ b ∈ (if params.isEmpty && args == [[]] then [] else args), b ∈ args := by
    intro b hb
    split at hb
    · simp at hb
    · exact hb
  have hext : ∀ n, extent ((if params.isEmpty && args == [[]] then [] else args).drop n) ≤
      extent args := by
    intro n
    refine Nat.le_trans (extent_drop_le n _) ?_
    split
    · simp [extent]
    · exact Nat.le_refl _
  dsimp only at h
  split at h
  · rcases List.mem_append.1 h with h | h
    · rcases List.mem_append.1 h with h | h
      · exact Nat.le_of_lt (length_lt_extent (hsub a (List.mem_of_mem_take h)))
      · simp [List.eq_of_mem_replicate h]
    · rw [List.mem_singleton.1 h]
      exact Nat.le_trans (length_joinArgs_le _) (hext _)
  · exact Nat.le_of_lt (length_lt_extent (hsub a h))

end HeaderDecl.Macro
