import HeaderDecl.Proofs.ModelTracking

/-!
The three tables of a model in step: its scopes, the index of scopes by path and the index of
declarations by qualified name.
-/

namespace HeaderDecl

namespace Name

theorem append_separator_inj {a b n n' : List Char} (hn : ':' ∉ n) (hn' : ':' ∉ n')
    (h : a ++ ':' :: n = b ++ ':' :: n') : a = b ∧ n = n' := by
  rcases List.append_eq_append_iff.mp h with ⟨c, hb, hc⟩ | ⟨c, ha, hc⟩
  · cases c with
    | nil => exact ⟨by simpa using hb.symm, (List.cons.inj hc).2⟩
    | cons d c => exact False.elim (hn (by simp [(List.cons.inj hc).2]))
  · cases c with
    | nil => exact ⟨by simpa using ha, (List.cons.inj hc).2.symm⟩
    | cons d c => exact False.elim (hn' (by simp [(List.cons.inj hc).2]))

theorem toList_qualify (scope name : String) :
    (qualify scope name).toList =
      if scope = "" then name.toList else scope.toList ++ ':' :: ':' :: name.toList := by
  unfold qualify
  simp only [String.isEmpty_iff]
  split
  · rfl
  · simp

/-- A name without colons is the last segment of the qualified names that it is in. -/
theorem qualify_injective {scope scope' name name' : String} (hn : ':' ∉ name.toList)
    (hn' : ':' ∉ name'.toList) (h : qualify scope name = qualify scope' name') :
    scope = scope' ∧ name = name' := by
  have hl := congrArg String.toList h
  rw [toList_qualify, toList_qualify] at hl
  -- Behind the last separator there are no colons, so it stands at the same place in both.
  by_cases hs : scope = "" <;> by_cases hs' : scope' = ""
  · rw [if_pos hs, if_pos hs'] at hl
    exact ⟨hs.trans hs'.symm, String.toList_inj.mp hl⟩
  · rw [if_pos hs, if_neg hs'] at hl
    exact False.elim (hn (by simp [hl]))
  · rw [if_neg hs, if_pos hs'] at hl
    exact False.elim (hn' (by simp [← hl]))
  · rw [if_neg hs, if_neg hs', List.append_cons, List.append_cons _ _ (':' :: name'.toList)] at hl
    obtain ⟨hp, hq⟩ := append_separator_inj hn hn' hl
    exact ⟨String.toList_inj.mp (List.append_cancel_right hp), String.toList_inj.mp hq⟩

end Name

/-- Whether the name of an entry, if it may be declared forward, is one segment. -/
def Entry.IsPlain (e : Entry) : Prop :=
  e.decl.completeness?.isSome → ∀ n, e.decl.name = some n → ':' ∉ n.toList

/-- A struct without members, declared forward or defined. -/
def Entry.ofStruct (name : String) (complete : Bool) (line : Nat) : Entry :=
  ⟨.record { RecordDecl.forward name .struct with complete }, ⟨"node.h", line, 1⟩⟩

namespace Model

/-- The models that come of opening scopes, inserting and merging. -/
inductive Reachable : Model → Prop
  | empty : Reachable .empty
  | scopeOrInsert {m : Model} (h : Reachable m) (path : String) (kind : ScopeKind) :
      Reachable (m.scopeOrInsert path kind).1
  | insert {m : Model} (h : Reachable m) (i : Nat) {e : Entry} (he : e.IsPlain) :
      Reachable (m.insert i e).1
  | insertReporting {m : Model} (h : Reachable m) (i : Nat) {e : Entry} (he : e.IsPlain) :
      Reachable (m.insertReporting i e).1
  | merge {m other : Model} (h : Reachable m) (h' : Reachable other) : Reachable (m.merge other).1

/-- Whether the entry at a place bears a qualified name. -/
def Bears (m : Model) (q : String) (r : DeclRef) (e : Entry) : Prop :=
  ∃ s, m.scopes[r.scope]? = some s ∧ s.entries[r.entry]? = some e ∧ qualifiedName s e = some q

/-- A model whose tables agree. -/
structure Consistent (m : Model) : Prop where
  root : ∃ s, m.scopes[0]? = some s ∧ s.path = "" ∧ s.kind = .global ∧ s.parent = none
  parent : ∀ i s, m.scopes[i]? = some s → i ≠ 0 →
    ∃ j p, s.parent = some j ∧ j < i ∧ m.scopes[j]? = some p ∧ p.path = (Name.splitScope s.path).1
  paths : (m.scopes.map (·.path)).Nodup
  scopeIndex : ∀ path i, m.scopeIndex.get? path = some i ↔
    ∃ s, m.scopes[i]? = some s ∧ s.path = path
  names : ∀ q r, r ∈ m.refs q ↔ ∃ e, m.Bears q r e
  once : ∀ q, (m.refs q).Nodup
  identities : ∀ q r r' e e', m.Bears q r e → m.Bears q r' e' →
    e.decl.identity = e'.decl.identity → r = r'

/-! ### Plain histories -/

variable {log : List Inserted} {m : Model} {x : Inserted}

theorem kept_mem (hx : x ∈ log) : ∃ z ∈ log, kept log x = z.entry := by
  rcases kept_cases log x with h | ⟨z, hz, -, -, -, h⟩
  · exact ⟨x, hx, h⟩
  · exact ⟨z, hz, h⟩

/-- What is kept of plain entries bears the name that the first one had, and in the same scope. -/
theorem kept_qualifiedName (hp : ∀ x ∈ log, x.entry.IsPlain) (hx : x ∈ log) :
    (kept log x).decl.name.map (Name.qualify x.path) = x.qualifiedName := by
  rcases kept_cases log x with h | ⟨z, hz, hk, hs, hc, h⟩
  · rw [h]
    rfl
  · obtain ⟨k, hk'⟩ := Option.isSome_iff_exists.mp hs
    obtain ⟨hxq, hxid⟩ := key?_eq_some.mp hk'
    obtain ⟨hzq, hzid⟩ := key?_eq_some.mp (hk.trans hk')
    obtain ⟨n, hn, hnq⟩ := Option.map_eq_some_iff.mp hxq
    obtain ⟨n', hn', hnq'⟩ := Option.map_eq_some_iff.mp hzq
    simp only [Entry.isComplete, decide_eq_true_eq] at hc
    have hzc : z.entry.decl.completeness?.isSome := by
      rw [hc]
      rfl
    have hxc : x.entry.decl.completeness?.isSome := by
      rw [completeness?_isSome_of_identity hxid hzid]
      exact hzc
    obtain ⟨-, hnn⟩ := Name.qualify_injective (hp x hx hxc n hn) (hp z hz hzc n' hn')
      (hnq.trans hnq'.symm)
    rw [h, hn', Option.map_some, hxq, ← hnn, hnq]

namespace Tracks

/-- In a plain history the index lists the entries that bear a name. -/
theorem mem_refs (h : Tracks log m) (hp : ∀ x ∈ log, x.entry.IsPlain) (q : String) (r : DeclRef) :
    r ∈ m.refs q ↔ ∃ e, m.Bears q r e := by
  rw [h.refs]
  simp only [List.mem_filterMap, List.mem_filter, decide_eq_true_eq]
  constructor
  · rintro ⟨x, ⟨hx, hq⟩, hr⟩
    have hr := Inserted.place?_eq_some.mp hr
    obtain ⟨t, ht, he⟩ := entry?_eq_some.mp (h.entry?_of_added hx hr)
    obtain ⟨s, hs, hpath⟩ := h.located x hx r hr
    obtain rfl : s = t := Option.some.inj (hs.symm.trans ht)
    refine ⟨_, s, hs, he, ?_⟩
    rw [qualifiedName, hpath, kept_qualifiedName hp hx, hq]
  · rintro ⟨e, s, hs, he, hq⟩
    have hslot : m.entry? r = some e := entry?_eq_some.mpr ⟨s, hs, he⟩
    obtain ⟨x, hx, hr, rfl⟩ := (h.slots r e).mp hslot
    obtain ⟨s', hs', hpath⟩ := h.located x hx r hr
    obtain rfl : s = s' := Option.some.inj (hs.symm.trans hs')
    rw [qualifiedName, hpath, kept_qualifiedName hp hx] at hq
    exact ⟨x, ⟨hx, hq⟩, Inserted.place?_eq_some.mpr hr⟩

theorem refs_nodup (h : Tracks log m) (q : String) : (m.refs q).Nodup := by
  rw [h.refs]
  exact h.places.sublist (List.filter_sublist.filterMap _)

/-- In a plain history an entry that bears a name stands in the place of its class. -/
theorem eq_place (h : Tracks log m) (hp : ∀ x ∈ log, x.entry.IsPlain) {q : String} {id : Identity}
    {r : DeclRef} {e : Entry} (hb : m.Bears q r e) (hid : e.decl.identity = some id) :
    r ∈ (m.refs q).filter fun r => (m.entry? r).any (hasIdentity true id) := by
  refine List.mem_filter.mpr ⟨(h.mem_refs hp q r).mpr ⟨e, hb⟩, ?_⟩
  obtain ⟨s, hs, he, hq⟩ := hb
  have hslot : m.entry? r = some e := entry?_eq_some.mpr ⟨s, hs, he⟩
  rw [hslot, Option.any_some, hasIdentity_iff]
  exact ⟨isSome_of_qualified hq, hid⟩

theorem places_subsingleton (h : Tracks log m) (q : String) (id : Identity) {r r' : DeclRef}
    (hr : r ∈ (m.refs q).filter fun r => (m.entry? r).any (hasIdentity true id))
    (hr' : r' ∈ (m.refs q).filter fun r => (m.entry? r).any (hasIdentity true id)) : r = r' := by
  rw [h.refs_filter] at hr hr'
  cases hc : log.filter (·.key? = some (q, id)) with
  | nil => simp [hc] at hr
  | cons x rest =>
    obtain ⟨r₀, hr₀, -⟩ := h.classes _ x rest hc
    rw [h.places_of_class hc hr₀, List.mem_singleton] at hr hr'
    exact hr.trans hr'.symm

theorem consistent (h : Tracks log m) (hp : ∀ x ∈ log, x.entry.IsPlain) : m.Consistent := by
  refine ⟨h.valid.root, h.valid.parent, ?_, h.valid.index, h.mem_refs hp, h.refs_nodup, ?_⟩
  · rw [List.nodup_iff_injective_getElem]
    intro i j hij
    simp only [List.getElem_map] at hij
    exact Fin.ext (h.valid.path_injective (List.getElem?_eq_getElem _)
      (List.getElem?_eq_getElem _) hij)
  · intro q r r' e e' hb hb' hid
    have hb₀ := hb
    obtain ⟨s, -, -, hq⟩ := hb₀
    obtain ⟨id, hid'⟩ := Option.isSome_iff_exists.mp (identity_isSome (isSome_of_qualified hq))
    exact h.places_subsingleton q id (h.eq_place hp hb hid') (h.eq_place hp hb' (hid ▸ hid'))

end Tracks

/-! ### Reachable models -/

theorem insert_of_noScope {i : Nat} (h : m.scopes[i]? = none) (e : Entry) :
    (m.insert i e).1 = m ∧ (m.insertReporting i e).1 = m := by
  simp [Model.insert, Model.insertReporting, h]

theorem Tracks.mem_of_entry (h : Tracks log m) {s : Scope} (hs : s ∈ m.scopes) {e : Entry}
    (he : e ∈ s.entries) : ∃ x ∈ log, x.entry = e := by
  obtain ⟨i, hi⟩ := List.mem_iff_getElem?.mp hs
  obtain ⟨j, hj⟩ := List.mem_iff_getElem?.mp he
  have hslot : m.entry? ⟨i, j⟩ = some e := entry?_eq_some.mpr ⟨s, hi, hj⟩
  obtain ⟨x, hx, -, rfl⟩ := (h.slots _ _).mp hslot
  obtain ⟨z, hz, hk⟩ := kept_mem hx
  exact ⟨z, hz, hk.symm⟩

/-- Whether a model comes of inserting entries with a property only. -/
def HasHistoryOf (G : Entry → Prop) (m : Model) : Prop :=
  ∃ log, History log m ∧ ∀ x ∈ log, G x.entry

theorem hasHistoryOf_empty (G : Entry → Prop) : HasHistoryOf G .empty :=
  ⟨[], .empty, List.forall_mem_nil _⟩

theorem HasHistoryOf.entries {G : Entry → Prop} (h : m.HasHistoryOf G) :
    ∀ s ∈ m.scopes, ∀ e ∈ s.entries, G e := by
  obtain ⟨log, h, all⟩ := h
  intro s hs e he
  obtain ⟨x, hx, rfl⟩ := h.tracks.mem_of_entry hs he
  exact all x hx

/-- What is merged was an entry of the other model. -/
theorem HasHistoryOf.merge {G : Entry → Prop} (h : m.HasHistoryOf G) {other : Model}
    (all : ∀ s ∈ other.scopes, ∀ e ∈ s.entries, G e) : HasHistoryOf G (m.merge other).1 := by
  obtain ⟨log, h, before⟩ := h
  obtain ⟨more, hmore, hmap, -⟩ := h.mergeScopes other.scopes
  refine ⟨log ++ more, hmore, fun x hx => ?_⟩
  rcases List.mem_append.mp hx with hx | hx
  · exact before x hx
  · have hd : (x.path, x.entry) ∈ declarations other.scopes := by
      rw [← hmap]
      exact List.mem_map_of_mem hx
    obtain ⟨s, hs, he⟩ := List.mem_flatMap.mp hd
    obtain ⟨e, he, same⟩ := List.mem_map.mp he
    exact (Prod.mk.inj same).2 ▸ all s hs e he

/-- Whether a model comes of inserting plain entries only. -/
def HasPlainHistory (m : Model) : Prop :=
  ∃ log, History log m ∧ ∀ x ∈ log, x.entry.IsPlain

theorem HasPlainHistory.insert (h : m.HasPlainHistory) (i : Nat) {e : Entry} (he : e.IsPlain) :
    HasPlainHistory (m.insert i e).1 := by
  obtain ⟨log, h, hp⟩ := h
  cases hs : m.scopes[i]? with
  | none =>
    rw [(insert_of_noScope hs e).1]
    exact ⟨log, h, hp⟩
  | some s =>
    refine ⟨_, h.insert hs e, ?_⟩
    intro x hx
    rcases List.mem_append.mp hx with hx | hx
    · exact hp x hx
    · rw [List.mem_singleton.mp hx]
      exact he

theorem HasPlainHistory.merge {other : Model} (h : m.HasPlainHistory)
    (h' : other.HasPlainHistory) : HasPlainHistory (m.merge other).1 := by
  have plain : other.HasHistoryOf Entry.IsPlain := h'
  exact HasHistoryOf.merge (G := Entry.IsPlain) h plain.entries

theorem Reachable.hasPlainHistory (h : Reachable m) : m.HasPlainHistory := by
  induction h with
  | empty => exact ⟨[], .empty, by simp⟩
  | scopeOrInsert _ path kind ih =>
    obtain ⟨log, h, hp⟩ := ih
    exact ⟨log, h.scopeOrInsert path kind, hp⟩
  | insert _ i he ih => exact ih.insert i he
  | @insertReporting m _ i e he ih =>
    -- A report does not change what is inserted.
    have heq : (m.insertReporting i e).1 = (m.insert i e).1 := by
      cases hs : m.scopes[i]? with
      | none => rw [(insert_of_noScope hs e).1, (insert_of_noScope hs e).2]
      | some s => rw [insertReporting_eq hs]
    rw [heq]
    exact ih.insert i he
  | merge _ _ ih ih' => exact ih.merge ih'

/-- Every reachable model is consistent. -/
theorem reachable_consistent (h : Reachable m) : m.Consistent := by
  obtain ⟨log, h, hp⟩ := h.hasPlainHistory
  exact h.tracks.consistent hp

/-- Scopes of two models, opened in different orders, with a struct that the merge completes. -/
def mergedModel : Model :=
  let forward :=
    ((empty.scopeOrInsert "a::b" .namespaceScope).1.insert 2 (.ofStruct "Node" false 1)).1
  let defined :=
    ((empty.scopeOrInsert "b" .namespaceScope).1.scopeOrInsert "a::b" .namespaceScope).1
  (((defined.insert 3 (.ofStruct "Node" true 2)).1.merge forward).1.merge defined).1

theorem reachable_consistent_merged : Reachable mergedModel ∧ mergedModel.Consistent := by
  have plain (complete : Bool) (line : Nat) : (Entry.ofStruct "Node" complete line).IsPlain := by
    intro _ n hn
    obtain rfl : "Node" = n := Option.some.inj hn
    decide
  have hforward := (Reachable.empty.scopeOrInsert "a::b" .namespaceScope).insert 2 (plain false 1)
  have hdefined := (Reachable.empty.scopeOrInsert "b" .namespaceScope).scopeOrInsert "a::b"
    .namespaceScope
  have h : Reachable mergedModel :=
    ((hdefined.insert 3 (plain true 2)).merge hforward).merge hdefined
  exact ⟨h, reachable_consistent h⟩

end Model

end HeaderDecl
