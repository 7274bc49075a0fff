import HeaderDecl.Model.Insert

/-!
The scopes of a model in step with the index of scopes by path.
-/

namespace HeaderDecl.Model

/-- The global scope comes first, and every other scope after its parent, which has the path without
the last segment. The index has the paths of the scopes and no others. -/
structure Scoped (m : Model) : Prop where
  root : ∃ s, m.scopes[0]? = some s ∧ s.path = "" ∧ s.kind = .global ∧ s.parent = none
  parent : ∀ i s, m.scopes[i]? = some s → i ≠ 0 →
    ∃ j p, s.parent = some j ∧ j < i ∧ m.scopes[j]? = some p ∧ p.path = (Name.splitScope s.path).1
  index : ∀ path i, m.scopeIndex.get? path = some i ↔ ∃ s, m.scopes[i]? = some s ∧ s.path = path

theorem scoped_empty : empty.Scoped := by
  refine ⟨⟨⟨"", .global, none, []⟩, rfl, rfl, rfl, rfl⟩, ?_, ?_⟩
  · intro i s h hi
    cases i with
    | zero => exact False.elim (hi rfl)
    | succ i => simp [empty] at h
  · intro path i
    cases i <;> simp [empty, global, eq_comm]

namespace Scoped

variable {m : Model}

theorem path_injective (h : m.Scoped) {i j : Nat} {s t : Scope} (hs : m.scopes[i]? = some s)
    (ht : m.scopes[j]? = some t) (hp : s.path = t.path) : i = j := by
  have hi := (h.index s.path i).mpr ⟨s, hs, rfl⟩
  have hj := (h.index s.path j).mpr ⟨t, ht, hp.symm⟩
  exact Option.some.inj (hi.symm.trans hj)

/-- What a scope is apart from its entries. -/
def frame (s : Scope) : String × ScopeKind × Option Nat := (s.path, s.kind, s.parent)

theorem exists_of_frame {m' : Model}
    (hf : ∀ i : Nat, m'.scopes[i]?.map frame = m.scopes[i]?.map frame) {i : Nat} {s : Scope}
    (hs : m'.scopes[i]? = some s) :
    ∃ t, m.scopes[i]? = some t ∧ t.path = s.path ∧ t.kind = s.kind ∧ t.parent = s.parent := by
  have hi := hf i
  rw [hs, Option.map_some] at hi
  obtain ⟨t, ht, heq⟩ := Option.map_eq_some_iff.mp hi.symm
  simp only [frame, Prod.mk.injEq] at heq
  exact ⟨t, ht, heq⟩

/-- Entries have no part in it. -/
theorem of_frames (h : m.Scoped) {m' : Model} (hi : m'.scopeIndex = m.scopeIndex)
    (hf : ∀ i : Nat, m'.scopes[i]?.map frame = m.scopes[i]?.map frame) : m'.Scoped := by
  have back {i : Nat} {s : Scope} (hs : m'.scopes[i]? = some s) := exists_of_frame hf hs
  have forth {i : Nat} {t : Scope} (ht : m.scopes[i]? = some t) :=
    exists_of_frame (fun i => (hf i).symm) ht
  refine ⟨?_, ?_, ?_⟩
  · obtain ⟨t, ht, hp, hk, hn⟩ := h.root
    obtain ⟨s, hs, hp', hk', hn'⟩ := forth ht
    exact ⟨s, hs, hp'.trans hp, hk'.trans hk, hn'.trans hn⟩
  · intro i s hs hne
    obtain ⟨t, ht, hp, -, hn⟩ := back hs
    obtain ⟨j, p, hj, hlt, hpj, hpp⟩ := h.parent i t ht hne
    obtain ⟨p', hp', hpath, -, -⟩ := forth hpj
    exact ⟨j, p', hn ▸ hj, hlt, hp', by rw [hpath, hpp, hp]⟩
  · intro path i
    rw [hi, h.index]
    constructor
    · rintro ⟨t, ht, hp⟩
      obtain ⟨s, hs, hp', -, -⟩ := forth ht
      exact ⟨s, hs, hp'.trans hp⟩
    · rintro ⟨s, hs, hp⟩
      obtain ⟨t, ht, hp', -, -⟩ := back hs
      exact ⟨t, ht, hp'.trans hp⟩

end Scoped

/-! ### Opening scopes -/

/-- What opening a scope comes to: it is there at some place, and other new scopes are empty and have
shorter paths. -/
structure Opened (m : Model) (path : String) (m' : Model) (id : Nat) : Prop where
  valid : m'.Scoped
  here : ∃ s, m'.scopes[id]? = some s ∧ s.path = path
  added : ∃ new, m'.scopes = m.scopes ++ new ∧ ∀ s ∈ new, s.entries = []
  index : m'.index = m.index
  longer : ∀ q, path.length < q.length → m'.scopeIndex.get? q = m.scopeIndex.get? q

section AddScope

variable {m : Model} {path : String} {kind : ScopeKind} {parent : Nat}

theorem getElem?_scopes_addScope {i : Nat} {s : Scope} :
    (m.addScope path kind parent).1.scopes[i]? = some s ↔
      m.scopes[i]? = some s ∨ i = m.scopes.length ∧ s = ⟨path, kind, some parent, []⟩ := by
  show (m.scopes ++ [⟨path, kind, some parent, []⟩])[i]? = some s ↔ _
  -- The new scope stands behind all others.
  rcases Nat.lt_trichotomy i m.scopes.length with hi | rfl | hi
  · have hne : i ≠ m.scopes.length := by omega
    simp only [List.getElem?_append_left hi, hne, false_and, or_false]
  · rw [List.getElem?_concat_length, List.getElem?_eq_none (Nat.le_refl _)]
    simp [eq_comm]
  · have hlast : m.scopes.length + 1 ≤ i := hi
    have hne : i ≠ m.scopes.length := by omega
    rw [List.getElem?_eq_none (by simpa using hlast), List.getElem?_eq_none (by omega)]
    simp [hne]

theorem scoped_addScope (h : m.Scoped) (hn : m.scopeIndex.get? path = none)
    (hp : ∃ p, m.scopes[parent]? = some p ∧ p.path = (Name.splitScope path).1) :
    (m.addScope path kind parent).1.Scoped := by
  obtain ⟨p, hp, hpath⟩ := hp
  have old {i : Nat} {s : Scope} (hs : m.scopes[i]? = some s) :
      (m.addScope path kind parent).1.scopes[i]? = some s :=
    getElem?_scopes_addScope.mpr (Or.inl hs)
  refine ⟨?_, ?_, ?_⟩
  · obtain ⟨s, hs, hr⟩ := h.root
    exact ⟨s, old hs, hr⟩
  · intro i s hs hne
    rcases getElem?_scopes_addScope.mp hs with hs | ⟨rfl, rfl⟩
    · obtain ⟨j, q, hj, hji, hq, hqp⟩ := h.parent i s hs hne
      exact ⟨j, q, hj, hji, old hq, hqp⟩
    · exact ⟨parent, p, rfl, (List.getElem?_eq_some_iff.mp hp).1, old hp, hpath⟩
  · intro q i
    simp only [getElem?_scopes_addScope]
    show (m.scopeIndex.insert path m.scopes.length).get? q = some i ↔ _
    rw [NameMap.get?_insert]
    by_cases hq : q = path
    · subst hq
      rw [if_pos rfl, Option.some.injEq]
      constructor
      · rintro rfl
        exact ⟨_, Or.inr ⟨rfl, rfl⟩, rfl⟩
      · rintro ⟨s, hs | ⟨rfl, -⟩, hsp⟩
        · -- The path was not in the index, so no scope had it.
          have hi := (h.index q i).mpr ⟨s, hs, hsp⟩
          rw [hn] at hi
          cases hi
        · rfl
    · rw [if_neg hq, h.index]
      constructor
      · rintro ⟨s, hs, hsp⟩
        exact ⟨s, Or.inl hs, hsp⟩
      · rintro ⟨s, hs | ⟨-, rfl⟩, hsp⟩
        · exact ⟨s, hs, hsp⟩
        · exact False.elim (hq hsp.symm)

theorem opened_addScope (h : m.Scoped) (hn : m.scopeIndex.get? path = none)
    (hp : ∃ p, m.scopes[parent]? = some p ∧ p.path = (Name.splitScope path).1) :
    Opened m path (m.addScope path kind parent).1 (m.addScope path kind parent).2 := by
  have here : (m.addScope path kind parent).1.scopes[m.scopes.length]? =
      some ⟨path, kind, some parent, []⟩ :=
    getElem?_scopes_addScope.mpr (Or.inr ⟨rfl, rfl⟩)
  refine ⟨scoped_addScope h hn hp, ⟨_, here, rfl⟩, ⟨_, rfl, by simp⟩, rfl, ?_⟩
  intro q hq
  have hne : q ≠ path := by
    rintro rfl
    exact Nat.lt_irrefl _ hq
  simp only [addScope, NameMap.get?_insert, if_neg hne]

end AddScope

/-- Opening a scope keeps the scopes in step with their index. -/
theorem opened_scopeOrInsert {m : Model} (h : m.Scoped) (path : String) (kind : ScopeKind) :
    Opened m path (m.scopeOrInsert path kind).1 (m.scopeOrInsert path kind).2 := by
  -- Along the recursion: the scopes around a path are opened before its own.
  fun_induction scopeOrInsert m path kind with
  | case1 path kind id hid =>
    exact ⟨h, (h.index path id).mp hid, ⟨[], by simp⟩, rfl, fun _ _ => rfl⟩
  | case2 path kind hn around hg =>
    obtain ⟨s, hs, hp, -, -⟩ := h.root
    exact opened_addScope h hn ⟨s, hs, hp.trans hg.symm⟩
  | case3 path kind hn around hg hlt m' parent heq ih =>
    have ho : Opened m around m' parent := by
      rw [heq] at ih
      exact ih
    -- The scopes around have shorter paths, so the path is still new.
    have hn' : m'.scopeIndex.get? path = none := (ho.longer path hlt).trans hn
    have hadd : Opened m' path (m'.addScope path kind parent).1 _ :=
      opened_addScope ho.valid hn' ho.here
    obtain ⟨new, hnew, hempty⟩ := ho.added
    obtain ⟨new', hnew', hempty'⟩ := hadd.added
    refine ⟨hadd.valid, hadd.here, ⟨new ++ new', ?_, ?_⟩, hadd.index.trans ho.index, ?_⟩
    · rw [hnew', hnew, List.append_assoc]
    · intro s hs
      rcases List.mem_append.mp hs with hs | hs
      · exact hempty s hs
      · exact hempty' s hs
    · intro q hq
      exact (hadd.longer q hq).trans (ho.longer q (Nat.lt_trans hlt hq))

end HeaderDecl.Model
