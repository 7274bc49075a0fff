import HeaderDecl.Macro.Expansion

/-!
What macro expansion gives: it fails on malformed tokens only, and text without macros stands for
itself.
-/

namespace HeaderDecl.Macro

/-- A parameter stands for one of the arguments, or for nothing. -/
theorem mem_of_argOf {params : List String} {variadic : Option String} {args : List Arg}
    {name : String} {a : Arg} (bound : argOf params variadic args name = some a) :
    a ∈ args ∨ a = ⟨[], .pure (.ok [])⟩ := by
  have nth (i : Nat) (h : args[i]?.getD ⟨[], .pure (.ok [])⟩ = a) :
      a ∈ args ∨ a = ⟨[], .pure (.ok [])⟩ := by
    cases there : args[i]? with
    | some b =>
      rw [there] at h
      exact .inl (List.mem_of_getElem? (there.trans (congrArg some h)))
    | none =>
      rw [there] at h
      exact .inr h.symm
  unfold argOf at bound
  cases position : params.idxOf? name with
  | some i =>
    simp only [position, Option.some.injEq] at bound
    exact nth i bound
  | none =>
    simp only [position, Option.ite_none_right_eq_some, Option.some.injEq] at bound
    exact nth _ bound.2

/-! ### Failures -/

/-- Whether a failure is that of a malformed token. -/
def FailsOnToken {α : Type} (r : Except FatalError α) : Prop :=
  ∀ e, r = .error e → ∃ t l, t.kind = .error l ∧ e = lexFailure t l

section Failures

variable {α β : Type}

theorem FailsOnToken.ok (a : α) : FailsOnToken (.ok a) := fun _ h => by cases h

theorem FailsOnToken.bind {r : Except FatalError α} {f : α → Except FatalError β}
    (first : FailsOnToken r) (next : ∀ a, FailsOnToken (f a)) : FailsOnToken (r >>= f) := by
  intro e failed
  cases r with
  | error e' =>
    have same : e' = e := Except.error.inj failed
    exact first e (congrArg _ same)
  | ok a => exact next a e failed

theorem failsOnToken_substitute {args : String → Option Arg}
    (argument : ∀ name a, args name = some a → FailsOnToken a.expanded.get)
    (produced body : List Token) : FailsOnToken (substitute args produced body) := by
  fun_induction substitute args produced body with
  | case1 produced => exact .ok _
  | case2 _ _ _ _ _ _ _ ih | case3 _ _ _ _ _ _ ih | case4 _ _ _ ih | case5 _ _ _ _ _ _ ih
  | case6 _ _ _ ih => exact ih
  | case7 _ _ _ _ _ _ _ _ _ _ ih | case9 _ _ _ _ _ _ _ _ ih => exact ih
  | case8 _ t _ a _ _ _ _ _ bound ih =>
    have asked : args t.text = some a := by
      split at bound
      · exact bound
      · cases bound
    exact (argument t.text a asked).bind ih

theorem failsOnToken_expand (s : Scope) (active : List String) (ts : List Token) :
    FailsOnToken (expand s active ts) := by
  fun_induction expand s active ts with
  | case1 active => exact .ok _
  | case2 active t ts l malformed =>
    intro e failed
    exact ⟨t, l, malformed, (Except.error.inj failed).symm⟩
  | case4 _ _ _ _ _ _ _ ih => exact ih
  | case3 _ _ _ _ _ ih | case5 _ _ _ _ _ _ _ ih | case7 _ _ _ _ _ _ _ _ _ _ _ _ _ ih =>
    exact ih.bind fun _ => .ok _
  | case6 _ _ _ _ _ _ _ _ _ _ _ body after =>
    exact body.bind fun _ => after.bind fun _ => .ok _
  | case8 _ _ _ _ _ _ _ _ _ _ _ _ arranged _ _ _ _ argument body after =>
    refine (failsOnToken_substitute (fun name a bound => ?_) _ _).bind fun replacement =>
      (body replacement).bind fun _ => after.bind fun _ => .ok _
    rcases mem_of_argOf bound with there | rfl
    · obtain ⟨⟨ts', mem⟩, _, rfl⟩ := List.mem_map.1 there
      exact argument ts' mem
    · exact .ok _

end Failures

/-! ### Plain text -/

/-- A token that expansion leaves as it is, wherever it stands. -/
structure IsPlain (s : Scope) (t : Token) : Prop where
  wellFormed : ∀ e, t.kind ≠ .error e
  shown : s.isStripped t.text = false
  unknown : s.table.get? t.text = none

theorem expand_plain {s : Scope} {active : List String} {ts : List Token}
    (plain : ∀ t ∈ ts, IsPlain s t) : expand s active ts = .ok ts := by
  fun_induction expand s active ts with
  | case1 active => rfl
  | case2 active t ts e malformed =>
    exact absurd malformed ((plain t List.mem_cons_self).wellFormed e)
  | case3 _ _ _ _ _ ih | case5 _ _ _ _ _ _ _ ih =>
    rw [ih fun u hu => plain u (List.mem_cons_of_mem _ hu)]
    rfl
  | case4 _ t _ stripped =>
    rw [(plain t List.mem_cons_self).shown] at stripped
    cases stripped
  | case6 _ t _ _ m found | case7 _ t _ _ m found | case8 _ t _ _ m found =>
    rw [(plain t List.mem_cons_self).unknown] at found
    cases found

end HeaderDecl.Macro
