import HeaderDecl.Proofs.VisitedTokens

/-!
Where expanded tokens stand. What is put in the place of a name stands where the name does, however
deep the replacements go that it went through; a token that is not replaced stays as it is.
-/

namespace HeaderDecl

/-- Whether a token stands at the place of another one. -/
structure Token.StandsAt (t site : Token) : Prop where
  span : t.span = site.span
  loc : t.loc = site.loc

namespace Token.StandsAt

theorem refl (t : Token) : t.StandsAt t := ⟨rfl, rfl⟩

theorem trans {t u v : Token} (h : t.StandsAt u) (h' : u.StandsAt v) : t.StandsAt v :=
  ⟨h.span.trans h'.span, h.loc.trans h'.loc⟩

end Token.StandsAt

namespace Macro

variable {s : Scope} {active : List String} {site t : Token} {ts out : List Token}

/-! ### Tokens behind a token -/

theorem suffix_of_collectArgs {depth : Nat} {arg rest : List Token} {args : List (List Token)}
    (collected : collectArgs depth ts = some (arg, args, rest)) : rest <:+ ts := by
  induction ts generalizing depth arg args rest with
  | nil => cases collected
  | cons t ts ih =>
    rw [collectArgs] at collected
    split at collected
    · cases collected
      exact List.suffix_cons t ts
    split at collected <;>
      obtain ⟨⟨arg', args', rest'⟩, more, eq⟩ := Option.map_eq_some_iff.mp collected <;>
      cases eq <;> exact (ih more).trans (List.suffix_cons t ts)

theorem suffix_of_invocation {rest : List Token} {args : List (List Token)}
    (invoked : invocation ts = some (args, rest)) : rest <:+ ts := by
  cases ts with
  | nil => cases invoked
  | cons t ts =>
    obtain ⟨-, found⟩ := Option.ite_none_right_eq_some.mp invoked
    obtain ⟨⟨arg, args', rest'⟩, collected, eq⟩ := Option.map_eq_some_iff.mp found
    cases eq
    exact (suffix_of_collectArgs collected).trans (List.suffix_cons t ts)

theorem behindInvocation_suffix (ts : List Token) : behindInvocation ts <:+ ts := by
  unfold behindInvocation
  split
  · exact suffix_of_invocation ‹_›
  · exact List.suffix_refl ts

theorem Scope.behind_suffix (s : Scope) (active : List String) (t : Token) (ts : List Token) :
    s.behind active t ts <:+ ts := by
  have invoked := behindInvocation_suffix ts
  unfold behind
  split
  · split
    · exact List.suffix_refl ts
    all_goals
      split
      · exact invoked
      · exact List.suffix_refl ts
  · exact List.suffix_refl ts

/-! ### Replacements -/

theorem standsAt_relocate (site : Token) (ts : List Token) :
    ∀ t ∈ relocate site ts, t.StandsAt site := by
  cases ts with
  | nil => exact List.forall_mem_nil _
  | cons u us =>
    refine List.forall_mem_cons.mpr ⟨⟨rfl, rfl⟩, fun t mem => ?_⟩
    obtain ⟨v, -, rfl⟩ := List.mem_map.mp mem
    exact ⟨rfl, rfl⟩

/-- What a name is replaced with, at its own place and before it is expanded: the body of its macro, or
the body with the arguments of an invocation in it. -/
inductive Scope.Replaces (s : Scope) (active : List String) (t : Token) (ts : List Token) :
    List Token → Prop
  | object {m : MacroDef} (word : t.isWord = true) (fate : s.fate active t.text = .replaced m)
      (object : m.params = none) : s.Replaces active t ts (relocate t m.body)
  | invocation {m : MacroDef} {params : List String} {args : List (List Token)}
      {after body : List Token} (word : t.isWord = true) (fate : s.fate active t.text = .replaced m)
      (function : m.params = some params) (invoked : invocation ts = some (args, after))
      (replaced : substitute (s.boundArgs active m params args) [] m.body = .ok body) :
      s.Replaces active t ts (relocate t body)

/-- What a token comes to, given the text behind it: itself, nothing if its name is stripped, or what
its replacement is expanded to. -/
inductive Scope.Yields (s : Scope) (active : List String) (t : Token) (ts : List Token) :
    List Token → Prop
  | kept (stays : t.isWord = true → s.fate active t.text = .kept ∨
      ∃ m params, s.fate active t.text = .replaced m ∧ m.params = some params ∧
        invocation ts = none) : s.Yields active t ts [t]
  | stripped {arguments : Bool} (word : t.isWord = true)
      (fate : s.fate active t.text = .stripped arguments) : s.Yields active t ts []
  | replaced {text own : List Token} (replaces : s.Replaces active t ts text)
      (expands : expand s (t.text :: active) text = .ok own) : s.Yields active t ts own

theorem Scope.Replaces.standsAt {text : List Token} (h : s.Replaces active t ts text) :
    ∀ u ∈ text, u.StandsAt t := by
  cases h with
  | object => exact standsAt_relocate t _
  | invocation => exact standsAt_relocate t _

theorem Scope.Replaces.available_lt {text : List Token} (h : s.Replaces active t ts text) :
    s.available (t.text :: active) < s.available active := by
  obtain ⟨m, fate⟩ : ∃ m, s.fate active t.text = .replaced m := by
    cases h with
    | object _ fate => exact ⟨_, fate⟩
    | invocation _ fate => exact ⟨_, fate⟩
  obtain ⟨free, -, found⟩ := fate_eq_replaced fate
  exact Scope.available_cons_lt found free

theorem ok_of_bind {α β : Type} {r : Except FatalError α} {f : α → Except FatalError β} {b : β}
    (h : r >>= f = .ok b) : ∃ a, r = .ok a ∧ f a = .ok b := by
  cases r with
  | error e => cases h
  | ok a => exact ⟨a, rfl, h⟩

/-- What a text comes to is what its first token comes to, and then what the text behind does. -/
theorem exists_yields (expands : expand s active (t :: ts) = .ok out) : ∃ own rest,
    out = own ++ rest ∧ s.Yields active t ts own ∧ expand s active (s.behind active t ts) = .ok rest := by
  have wellFormed := wellFormed_of_succeeds ⟨out, expands⟩
  -- A token that stays has all the others behind it.
  have stays (behind : s.behind active t ts = ts)
      (step : expand s active (t :: ts) = (do let rest ← expand s active ts; return t :: rest))
      (yields : s.Yields active t ts [t]) : ∃ own rest, out = own ++ rest ∧
        s.Yields active t ts own ∧ expand s active (s.behind active t ts) = .ok rest := by
    rw [step] at expands
    obtain ⟨rest, later, eq⟩ := ok_of_bind expands
    cases eq
    exact ⟨[t], rest, rfl, yields, by rw [behind, later]⟩
  by_cases word : t.isWord = true
  · cases fate : s.fate active t.text with
    | kept =>
      refine stays ?_ (expand_kept wellFormed fun _ => fate) (.kept fun _ => .inl fate)
      rw [Scope.behind, if_pos word, fate]
    | stripped arguments =>
      refine ⟨[], out, rfl, .stripped word fate, ?_⟩
      rw [← expands, expand_stripped word fate, Scope.behind, if_pos word, fate]
    | replaced m =>
      have step : expand s active (t :: ts) = _ := expand_replaced word fate
      cases function : m.params with
      | none =>
        rw [step, function] at expands
        obtain ⟨own, body, others⟩ := ok_of_bind expands
        obtain ⟨rest, later, eq⟩ := ok_of_bind others
        cases eq
        refine ⟨own, rest, rfl, .replaced (.object word fate function) body, ?_⟩
        rw [Scope.behind, if_pos word, fate]
        simpa [MacroDef.isFunctionLike, function] using later
      | some params =>
        rw [function] at step
        have functionLike : m.isFunctionLike = true := by simp [MacroDef.isFunctionLike, function]
        cases invoked : invocation ts with
        | none =>
          rw [invoked] at step
          refine stays ?_ step (.kept fun _ => .inr ⟨m, params, fate, function, invoked⟩)
          rw [Scope.behind, if_pos word, fate]
          simp [functionLike, behindInvocation, invoked]
        | some found =>
          obtain ⟨args, after⟩ := found
          rw [invoked] at step
          rw [step] at expands
          obtain ⟨body, replaced, others⟩ := ok_of_bind expands
          obtain ⟨own, inner, others⟩ := ok_of_bind others
          obtain ⟨rest, later, eq⟩ := ok_of_bind others
          cases eq
          refine ⟨own, rest, rfl, .replaced (.invocation word fate function invoked replaced) inner, ?_⟩
          rw [Scope.behind, if_pos word, fate]
          simpa [functionLike, behindInvocation, invoked] using later
  · refine stays ?_ (expand_kept wellFormed (absurd · word)) (.kept (absurd · word))
    rw [Scope.behind, if_neg word]

/-- Text that stands at one place stays there. A replacement is moved to the name that it replaces, so
nothing has to be known of bodies and arguments. -/
theorem standsAt_expand (s : Scope) (site : Token) (active : List String) :
    ∀ ts, (∀ t ∈ ts, t.StandsAt site) → ∀ out, expand s active ts = .ok out →
      ∀ t ∈ out, t.StandsAt site
  | [], _, out, expands => by
    rw [expand] at expands
    cases expands
    exact List.forall_mem_nil _
  | t :: ts, there, out, expands => by
    obtain ⟨own, rest, rfl, yields, later⟩ := exists_yields expands
    obtain ⟨here, others⟩ := List.forall_mem_cons.mp there
    have := length_behind_le s active t ts
    have behind := standsAt_expand s site active (s.behind active t ts)
      (fun u mem => others u ((s.behind_suffix active t ts).mem mem)) rest later
    refine List.forall_mem_append.mpr ⟨?_, behind⟩
    cases yields with
    | kept => exact List.forall_mem_singleton.mpr here
    | stripped => exact List.forall_mem_nil _
    | @replaced text _ replaces inner =>
      have := replaces.available_lt
      exact standsAt_expand s site (t.text :: active) text
        (fun u mem => (replaces.standsAt u mem).trans here) own inner
termination_by ts => (s.available active, ts.length)
decreasing_by
  · exact .right _ (Nat.lt_succ_of_le this)
  · exact .left _ _ this

theorem Scope.Yields.standsAt {own : List Token} (h : s.Yields active t ts own) :
    ∀ u ∈ own, u.StandsAt t := by
  cases h with
  | kept => exact List.forall_mem_singleton.mpr (.refl t)
  | stripped => exact List.forall_mem_nil _
  | replaced replaces expands => exact standsAt_expand s t _ _ replaces.standsAt _ expands

/-! ### Texts -/

/-- A token that expansion comes to in a text itself, not in an argument or a replacement, and the text
behind it. -/
inductive Scope.Outermost (s : Scope) (active : List String) : List Token → Token → List Token → Prop
  | here {t : Token} {ts : List Token} : s.Outermost active (t :: ts) t ts
  | behind {t u : Token} {ts us : List Token} (h : s.Outermost active (s.behind active t ts) u us) :
      s.Outermost active (t :: ts) u us

theorem Scope.Outermost.suffix {us : List Token} (h : s.Outermost active ts t us) : t :: us <:+ ts := by
  induction h with
  | here => exact List.suffix_refl _
  | behind _ ih => exact (ih.trans (s.behind_suffix active _ _)).trans (List.suffix_cons _ _)

/-- Each token that a text comes to, paired with the token of the text that it comes from. -/
structure Scope.Traces (s : Scope) (active : List String) (ts : List Token)
    (pairs : List (Token × Token)) : Prop where
  yielded : ∀ p ∈ pairs, ∃ us own, s.Outermost active ts p.1 us ∧ s.Yields active p.1 us own ∧ p.2 ∈ own
  ordered : (pairs.map Prod.fst).Pairwise fun t u => t = u ∨ [t, u].Sublist ts

theorem exists_traces (s : Scope) (active : List String) : ∀ ts out, expand s active ts = .ok out →
    ∃ pairs, out = pairs.map Prod.snd ∧ s.Traces active ts pairs
  | [], out, expands => by
    rw [expand] at expands
    cases expands
    exact ⟨[], rfl, List.forall_mem_nil _, .nil⟩
  | t :: ts, out, expands => by
    obtain ⟨own, rest, rfl, yields, later⟩ := exists_yields expands
    have := length_behind_le s active t ts
    obtain ⟨pairs, rfl, traces⟩ := exists_traces s active (s.behind active t ts) rest later
    have part := (s.behind_suffix active t ts).sublist
    have sites : ∀ u ∈ pairs.map Prod.fst, u ∈ s.behind active t ts := by
      intro u mem
      obtain ⟨p, there, rfl⟩ := List.mem_map.mp mem
      obtain ⟨us, _, outermost, -⟩ := traces.yielded p there
      exact outermost.suffix.mem List.mem_cons_self
    refine ⟨own.map (t, ·) ++ pairs, ?_, ?_, ?_⟩
    · simp [Function.comp_def]
    · refine List.forall_mem_append.mpr ⟨fun p there => ?_, fun p there => ?_⟩
      · obtain ⟨u, mem, rfl⟩ := List.mem_map.mp there
        exact ⟨ts, own, .here, yields, mem⟩
      · obtain ⟨us, own', outermost, yields', mem⟩ := traces.yielded p there
        exact ⟨us, own', .behind outermost, yields', mem⟩
    · have same : (own.map (t, ·)).map Prod.fst = own.map fun _ => t := by
        rw [List.map_map]
        rfl
      rw [List.map_append, same, List.pairwise_append]
      refine ⟨List.pairwise_map.mpr (List.pairwise_of_forall fun _ _ => .inl rfl),
        traces.ordered.imp fun before => ?_, fun u mem u' mem' => ?_⟩
      · exact before.imp_right fun before => (before.trans part).cons t
      · obtain ⟨_, -, rfl⟩ := List.mem_map.mp mem
        exact .inr ((List.singleton_sublist.mpr (part.subset (sites u' mem'))).cons_cons t)
termination_by ts => ts.length
decreasing_by exact Nat.lt_succ_of_le this

end Macro

end HeaderDecl
