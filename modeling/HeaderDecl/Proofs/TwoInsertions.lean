import HeaderDecl.Proofs.GrowingModel
import HeaderDecl.Proofs.InsertionLaw

/-!
Two entries of one name, inserted one after the other. Both are kept if and only if their identities
differ.
-/

namespace HeaderDecl.Model

variable {log : List Inserted} {m m' : Model} {i : Nat} {s : Scope} {e e₁ e₂ old : Entry} {q : String}
  {r r' : DeclRef}

/-- Whether what an entry declares stands at a place under a name. -/
def Stands (m : Model) (q : String) (e : Entry) (r : DeclRef) : Prop :=
  r ∈ m.refs q ∧ ∃ old, m.entry? r = some old ∧ old.decl.identity = e.decl.identity

/-- Whether nothing under a name is what an entry declares. -/
def Lacks (m : Model) (q : String) (e : Entry) : Prop := ∀ r, ¬ m.Stands q e r

/-- What becomes of two entries that go into a scope one after the other: they stand in two places, and
of the second one nothing is reported that the first one has brought about. Where neither was declared
before, nothing is reported at all. -/
structure KeptApart (m : Model) (i : Nat) (q : String) (e₁ e₂ : Entry) : Prop where
  places : ∃ r₁ r₂, r₁ ≠ r₂ ∧
    Stands ((m.insert i e₁).1.insert i e₂).1 q e₁ r₁ ∧
    Stands ((m.insert i e₁).1.insert i e₂).1 q e₂ r₂
  report : ((m.insert i e₁).1.insertReporting i e₂).2 = (m.insertReporting i e₂).2
  added : m.Lacks q e₁ → m.Lacks q e₂ →
    lookup ((m.insert i e₁).1.insert i e₂).1 q = m.lookup q ++ [e₁, e₂] ∧
      (m.insertReporting i e₁).2 = [] ∧ ((m.insert i e₁).1.insertReporting i e₂).2 = []

/-- What becomes of a second entry that is taken for a further declaration of the first one. -/
structure Collapsed (m : Model) (i : Nat) (q : String) (e₁ e₂ : Entry) : Prop where
  lookup : Model.lookup ((m.insert i e₁).1.insert i e₂).1 q =
    m.lookup q ++ [if reconcile e₁.decl e₂.decl = .replace then e₂ else e₁]
  report : ((m.insert i e₁).1.insertReporting i e₂).2 =
    if reconcile e₁.decl e₂.decl = .conflict then [conflictDiagnostic (some q) e₂ e₁.origin] else []

/-! ### Where a declaration stands -/

theorem Stands.grows (h : m.Stands q e r) (grows : m.Grows m') : m'.Stands q e r := by
  obtain ⟨there, old, held, same⟩ := h
  obtain ⟨new, held', keeps⟩ := grows.held r old held
  exact ⟨(grows.refs q).subset there, new, held', keeps.identity_eq.trans same⟩

/-- A declaration stands where a further one is found to repeat it. -/
theorem History.existing?_eq_some (h : History log m) (qualified : qualifiedName s e = some q) :
    m.existing? i s e = some r ↔ m.Stands q e r := by
  obtain ⟨id, identified⟩ := Option.isSome_iff_exists.mp (identity_isSome (isSome_of_qualified qualified))
  have stands : m.Stands q e r ↔ ∃ old, m.Stores q id r old := by
    simp only [Stands, Stores, identified, exists_and_left]
  rw [existing?_of_named identified qualified, ← List.head?_filter, stands]
  simp only [h.tracks.stores_iff_mem_filter]
  constructor
  · intro first
    have inside := List.mem_of_mem_head? first
    obtain ⟨old, held⟩ := Option.isSome_iff_exists.mp (h.filled q r (List.mem_filter.mp inside).1)
    exact ⟨old, held, inside⟩
  · rintro ⟨old, -, inside⟩
    -- Any other place that the search could meet would be the same one.
    obtain ⟨first, rest, whole⟩ := List.exists_cons_of_ne_nil (List.ne_nil_of_mem inside)
    have same := h.tracks.places_subsingleton q id inside (by rw [whole]; exact List.mem_cons_self)
    rw [whole, List.head?_cons, same]

theorem History.existing?_eq_none (h : History log m) (qualified : qualifiedName s e = some q) :
    m.existing? i s e = none ↔ m.Lacks q e := by
  rw [Option.eq_none_iff_forall_ne_some]
  exact forall_congr' fun r => not_congr (h.existing?_eq_some qualified)

theorem History.stands_unique (h : History log m) (qualified : qualifiedName s e = some q)
    (first : m.Stands q e r) (second : m.Stands q e r') : r = r' := by
  have found := (h.existing?_eq_some (i := global) qualified).mpr first
  have found' := (h.existing?_eq_some (i := global) qualified).mpr second
  exact Option.some.inj (found.symm.trans found')

/-! ### The second insertion -/

theorem qualifiedName_of_paths {s' : Scope} (same : s'.path = s.path) (e : Entry) :
    qualifiedName s' e = qualifiedName s e := by
  unfold qualifiedName
  rw [same]

/-- An insertion leaves what is something else as it is. -/
theorem entry?_insert_of_ne (hs : m.scopes[i]? = some s) (held : m.entry? r = some old)
    (other : old.decl.identity ≠ e.decl.identity) : entry? (m.insert i e).1 r = some old := by
  cases met : m.existing? i s e with
  | none =>
    rw [insert_of_new hs met, entry?_append hs, if_neg (ne_end_of_held hs held), held]
  | some r' =>
    obtain ⟨old', held', same, -⟩ := exists_of_met hs met
    have apart : r ≠ r' := by
      rintro rfl
      obtain rfl : old = old' := Option.some.inj (held.symm.trans held')
      exact other same
    rw [insert_of_met hs met held']
    cases reconcile old'.decl e.decl with
    | same | conflict => exact held
    | replace =>
      dsimp only
      split
      · rw [entry?_replaceEntry held', if_neg apart, held]
      · exact held

/-- What an entry declares stands in the model from its insertion on. -/
theorem History.exists_stands (h : History log m) (hs : m.scopes[i]? = some s)
    (qualified : qualifiedName s e = some q) : ∃ r, Stands (m.insert i e).1 q e r := by
  cases met : m.existing? i s e with
  | none =>
    refine ⟨⟨i, s.entries.length⟩, ?_, e, ?_, rfl⟩
    · rw [insert_of_new hs met, refs_append, if_pos qualified]
      exact List.mem_append_right _ List.mem_cons_self
    · rw [insert_of_new hs met, entry?_append hs, if_pos rfl]
  | some r =>
    have stands := (h.existing?_eq_some qualified).mp met
    exact ⟨r, stands.grows (grows_insert m i e)⟩

/-- A place that comes under a name is that of the entry inserted. -/
theorem mem_refs_insert (hs : m.scopes[i]? = some s) (there : r ∈ (m.insert i e).1.refs q) :
    r ∈ m.refs q ∨ entry? (m.insert i e).1 r = some e := by
  cases met : m.existing? i s e with
  | none =>
    rw [insert_of_new hs met, refs_append] at there
    split at there
    · rcases List.mem_append.mp there with there | new
      · exact .inl there
      · rw [insert_of_new hs met, entry?_append hs, if_pos (List.mem_singleton.mp new)]
        exact .inr rfl
    · exact .inl there
  | some r' =>
    obtain ⟨old, held, -, -⟩ := exists_of_met hs met
    rw [insert_of_met hs met held] at there
    left
    cases decided : reconcile old.decl e.decl with
    | same | conflict =>
      rw [decided] at there
      exact there
    | replace =>
      rw [decided] at there
      dsimp only at there
      split at there <;> exact there

/-- The insertion of something else does not change where a declaration stands. -/
theorem History.stands_insert_of_ne (h : History log m) (hs : m.scopes[i]? = some s)
    (other : e₁.decl.identity ≠ e₂.decl.identity) :
    Stands (m.insert i e₁).1 q e₂ r ↔ m.Stands q e₂ r := by
  constructor
  · rintro ⟨there, new, held', same⟩
    rcases mem_refs_insert hs there with there | first
    · -- What stands there now was there before, or its forward declaration was.
      obtain ⟨old, held⟩ := Option.isSome_iff_exists.mp (h.filled q r there)
      obtain ⟨new', held'', keeps⟩ := (grows_insert m i e₁).held r old held
      obtain rfl : new = new' := Option.some.inj (held'.symm.trans held'')
      exact ⟨there, old, held, keeps.identity_eq.symm.trans same⟩
    · obtain rfl : new = e₁ := Option.some.inj (held'.symm.trans first)
      exact False.elim (other same)
  · exact fun stands => stands.grows (grows_insert m i e₁)

/-- Whatever a second entry would repeat without the first one, it repeats. -/
theorem History.existing?_insert_of_ne (h : History log m) (hs : m.scopes[i]? = some s) {s₁ : Scope}
    (same : s₁.path = s.path) (qualified : qualifiedName s e₂ = some q)
    (other : e₁.decl.identity ≠ e₂.decl.identity) :
    existing? (m.insert i e₁).1 i s₁ e₂ = m.existing? i s e₂ := by
  have qualified₁ : qualifiedName s₁ e₂ = some q := (qualifiedName_of_paths same e₂).trans qualified
  apply Option.ext
  intro r
  rw [(h.insert hs e₁).existing?_eq_some qualified₁, h.existing?_eq_some qualified,
    h.stands_insert_of_ne hs other]

/-! ### Reports -/

theorem History.report_insert_of_ne (h : History log m) (hs : m.scopes[i]? = some s)
    (qualified : qualifiedName s e₂ = some q) (other : e₁.decl.identity ≠ e₂.decl.identity) :
    ((m.insert i e₁).1.insertReporting i e₂).2 = (m.insertReporting i e₂).2 := by
  obtain ⟨s₁, hs₁, same⟩ := keepsPaths_insert hs e₁ i s hs
  have repeats := h.existing?_insert_of_ne hs same qualified other
  cases met : m.existing? i s e₂ with
  | none => rw [insertReporting_of_new hs met, insertReporting_of_new hs₁ (repeats.trans met)]
  | some r =>
    obtain ⟨old, held, identity, -⟩ := exists_of_met hs met
    have apart : old.decl.identity ≠ e₁.decl.identity := by
      rw [identity]
      exact other.symm
    have held₁ := entry?_insert_of_ne hs held apart
    rw [report_of_met hs met held, report_of_met hs₁ (repeats.trans met) held₁, same]

/-! ### Lookups -/

theorem lookup_concat (refs : m'.refs q = m.refs q ++ [r])
    (before : ∀ r' ∈ m.refs q, m'.entry? r' = m.entry? r') (last : m'.entry? r = some e) :
    m'.lookup q = m.lookup q ++ [e] := by
  unfold lookup
  rw [refs, List.filterMap_append, List.filterMap_congr before]
  simp only [List.filterMap_cons, last, List.filterMap_nil]

/-- The place behind the entries of a scope is under no name. -/
theorem Filled.end_notMem (filled : m.Filled) (hs : m.scopes[i]? = some s) (q : String) :
    ⟨i, s.entries.length⟩ ∉ m.refs q := by
  intro there
  obtain ⟨old, held⟩ := Option.isSome_iff_exists.mp (filled q _ there)
  exact ne_end_of_held hs held rfl

theorem Filled.lookup_append (filled : m.Filled) (hs : m.scopes[i]? = some s)
    (qualified : qualifiedName s e = some q) : lookup (m.append i s e).1 q = m.lookup q ++ [e] := by
  refine lookup_concat (by rw [refs_append, if_pos qualified]) ?_ (by rw [entry?_append hs, if_pos rfl])
  intro r there
  rw [entry?_append hs, if_neg]
  rintro rfl
  exact filled.end_notMem hs q there

/-! ### Two entries of one name -/

theorem History.added_of_ne (h : History log m) (hs : m.scopes[i]? = some s)
    (qualified₁ : qualifiedName s e₁ = some q) (qualified₂ : qualifiedName s e₂ = some q)
    (other : e₁.decl.identity ≠ e₂.decl.identity) (lacks₁ : m.Lacks q e₁) (lacks₂ : m.Lacks q e₂) :
    lookup ((m.insert i e₁).1.insert i e₂).1 q = m.lookup q ++ [e₁, e₂] ∧
      (m.insertReporting i e₁).2 = [] ∧ ((m.insert i e₁).1.insertReporting i e₂).2 = [] := by
  have unmet₁ := (h.existing?_eq_none (i := i) qualified₁).mpr lacks₁
  have unmet₂ := (h.existing?_eq_none (i := i) qualified₂).mpr lacks₂
  obtain ⟨s₁, hs₁, same⟩ := keepsPaths_insert hs e₁ i s hs
  have unmet := (h.existing?_insert_of_ne hs same qualified₂ other).trans unmet₂
  refine ⟨?_, congrArg Prod.snd (insertReporting_of_new hs unmet₁),
    congrArg Prod.snd (insertReporting_of_new hs₁ unmet)⟩
  rw [insert_of_new hs₁ unmet, (h.insert hs e₁).filled.lookup_append hs₁
    ((qualifiedName_of_paths same e₂).trans qualified₂), insert_of_new hs unmet₁,
    h.filled.lookup_append hs qualified₁, List.append_assoc]
  rfl

/-- Two entries are kept apart if and only if they have different identities. -/
theorem History.keptApart_iff (h : History log m) (hs : m.scopes[i]? = some s)
    (qualified₁ : qualifiedName s e₁ = some q) (qualified₂ : qualifiedName s e₂ = some q) :
    m.KeptApart i q e₁ e₂ ↔ e₁.decl.identity ≠ e₂.decl.identity := by
  obtain ⟨s₁, hs₁, same⟩ := keepsPaths_insert hs e₁ i s hs
  have first := h.insert hs e₁
  have both := first.insert hs₁ e₂
  constructor
  · -- With one identity the two would stand in one place.
    rintro ⟨⟨r₁, r₂, apart, ⟨there, old, held, identity⟩, stands⟩, -, -⟩ equal
    have stands₁ : Stands ((m.insert i e₁).1.insert i e₂).1 q e₂ r₁ :=
      ⟨there, old, held, identity.trans equal⟩
    exact apart (both.stands_unique qualified₂ stands₁ stands)
  · intro other
    refine ⟨?_, h.report_insert_of_ne hs qualified₂ other,
      h.added_of_ne hs qualified₁ qualified₂ other⟩
    obtain ⟨r₁, stands₁⟩ := h.exists_stands hs qualified₁
    obtain ⟨r₂, stands₂⟩ := first.exists_stands hs₁ ((qualifiedName_of_paths same e₂).trans qualified₂)
    have stands₁ := stands₁.grows (grows_insert _ i e₂)
    refine ⟨r₁, r₂, ?_, stands₁, stands₂⟩
    rintro rfl
    -- One place holds one entry, which has one identity.
    obtain ⟨-, old, held, identity⟩ := stands₁
    obtain ⟨-, old', held', identity'⟩ := stands₂
    obtain rfl : old = old' := Option.some.inj (held.symm.trans held')
    exact other (identity.symm.trans identity')

/-- Where nothing was declared before, a second entry of the same identity meets the first one. -/
theorem History.collapsed (h : History log m) (hs : m.scopes[i]? = some s)
    (qualified₁ : qualifiedName s e₁ = some q) (qualified₂ : qualifiedName s e₂ = some q)
    (equal : e₁.decl.identity = e₂.decl.identity) (lacks : m.Lacks q e₁) :
    m.Collapsed i q e₁ e₂ := by
  have unmet := (h.existing?_eq_none (i := i) qualified₁).mpr lacks
  have first := h.insert hs e₁
  obtain ⟨s₁, hs₁, same⟩ := keepsPaths_insert hs e₁ i s hs
  have qualified := (qualifiedName_of_paths same e₂).trans qualified₂
  have place : (m.insert i e₁).1.refs q = m.refs q ++ [⟨i, s.entries.length⟩] := by
    rw [insert_of_new hs unmet, refs_append, if_pos qualified₁]
  have held : entry? (m.insert i e₁).1 ⟨i, s.entries.length⟩ = some e₁ := by
    rw [insert_of_new hs unmet, entry?_append hs, if_pos rfl]
  have found : m.lookup q ++ [e₁] = lookup (m.insert i e₁).1 q := by
    rw [insert_of_new hs unmet, h.filled.lookup_append hs qualified₁]
  -- The second entry is compared to the first one, which nothing has changed so far.
  have met := (first.existing?_eq_some (i := i) qualified).mpr
    ⟨by rw [place]; exact List.mem_append_right _ List.mem_cons_self, e₁, held, equal⟩
  refine ⟨?_, ?_⟩
  · rw [insert_of_met hs₁ met held]
    cases reconcile e₁.decl e₂.decl with
    | same | conflict => exact found.symm
    | replace =>
      have named : e₂.decl.name.isSome := isSome_of_qualified qualified₂
      rw [if_pos named, if_pos rfl]
      refine lookup_concat place ?_ (by rw [entry?_replaceEntry held, if_pos rfl])
      intro r there
      have apart : r ≠ ⟨i, s.entries.length⟩ := by
        rintro rfl
        exact h.filled.end_notMem hs q there
      rw [entry?_replaceEntry held, if_neg apart, insert_of_new hs unmet, entry?_append hs,
        if_neg apart]
  · rw [report_of_met hs₁ met held, verdict]
    have name : e₂.decl.name.map (Name.qualify s₁.path) = some q := qualified
    rw [name]

end HeaderDecl.Model
