import HeaderDecl.Proofs.ModelScopes

/-!
What the operations on a model change: the entry at each place, the places under each name, and
nothing about the scopes but their entries.
-/

namespace HeaderDecl.Model

variable {m : Model} {i : Nat} {s : Scope} {e : Entry}

theorem entry?_of_scope (hs : m.scopes[i]? = some s) (j : Nat) :
    m.entry? ⟨i, j⟩ = s.entries[j]? := by
  simp only [ entry?, hs, Option.bind_some]

theorem entry?_eq_some {r : DeclRef} : m.entry? r = some e ↔
    ∃ t, m.scopes[r.scope]? = some t ∧ t.entries[r.entry]? = some e :=
  Option.bind_eq_some_iff

/-- The entry at a place depends on the entries of its scope alone. -/
theorem entry?_congr {m' : Model} {r : DeclRef}
    (h : m'.scopes[r.scope]?.map (·.entries) = m.scopes[r.scope]?.map (·.entries)) :
    m'.entry? r = m.entry? r := by
  have key (n : Model) : n.entry? r = (n.scopes[r.scope]?.map (·.entries)).bind (·[r.entry]?) := by
    simp only [ entry?, Option.bind_map, Function.comp_def]
  rw [key, key, h]

/-- Every scope keeps its path, whatever becomes of its entries. -/
def KeepsPaths (m m' : Model) : Prop :=
  ∀ (j : Nat) (t : Scope), m.scopes[j]? = some t → ∃ t', m'.scopes[j]? = some t' ∧ t'.path = t.path

theorem KeepsPaths.refl (m : Model) : m.KeepsPaths m := fun _ t ht => ⟨t, ht, rfl⟩

/-! ### Appending -/

theorem place_append : (m.append i s e).2 = ⟨i, s.entries.length⟩ := by
  unfold append
  split <;> rfl

theorem scopes_append :
    (m.append i s e).1.scopes = m.scopes.set i { s with entries := s.entries ++ [e] } := by
  unfold append
  split <;> rfl

theorem scopeIndex_append : (m.append i s e).1.scopeIndex = m.scopeIndex := by
  unfold append
  split <;> rfl

theorem refs_append (q : String) :
    (m.append i s e).1.refs q =
      if qualifiedName s e = some q then m.refs q ++ [⟨i, s.entries.length⟩] else m.refs q := by
  unfold append
  cases hq : qualifiedName s e with
  | none => simp [refs]
  | some name =>
    by_cases h : q = name
    · subst h
      simp [refs]
    · have h' : name ≠ q := fun hn => h hn.symm
      simp [refs, h, h']

theorem getElem?_scopes_append (hs : m.scopes[i]? = some s) (j : Nat) :
    (m.append i s e).1.scopes[j]? =
      if j = i then some { s with entries := s.entries ++ [e] } else m.scopes[j]? := by
  have hi : i < m.scopes.length := (List.getElem?_eq_some_iff.mp hs).1
  rw [scopes_append, List.getElem?_set]
  by_cases h : i = j
  · subst h
    rw [if_pos rfl, if_pos hi, if_pos rfl]
  · rw [if_neg h, if_neg (Ne.symm h)]

theorem entry?_append (hs : m.scopes[i]? = some s) (r : DeclRef) :
    entry? (m.append i s e).1 r = if r = ⟨i, s.entries.length⟩ then some e else m.entry? r := by
  -- Other scopes keep their entries, and this one has a further entry behind the last.
  obtain ⟨j, k⟩ := r
  by_cases hj : j = i
  · subst hj
    have hget := getElem?_scopes_append (e := e) hs j
    rw [if_pos rfl] at hget
    rw [entry?_of_scope hget, entry?_of_scope hs]
    simp only [DeclRef.mk.injEq, true_and]
    by_cases hk : k = s.entries.length
    · rw [if_pos hk, hk, List.getElem?_concat_length]
    · rw [if_neg hk, List.getElem?_append]
      split
      · rfl
      · rw [List.getElem?_eq_none (by simp; omega), List.getElem?_eq_none (by omega)]
  · have hget := getElem?_scopes_append (e := e) hs j
    rw [if_neg hj] at hget
    rw [if_neg (fun h => hj (congrArg DeclRef.scope h))]
    exact entry?_congr (by rw [hget])

theorem keepsPaths_append (hs : m.scopes[i]? = some s) : m.KeepsPaths (m.append i s e).1 := by
  intro j t ht
  rw [getElem?_scopes_append hs]
  by_cases hj : j = i
  · subst hj
    obtain rfl : s = t := Option.some.inj (hs.symm.trans ht)
    rw [if_pos rfl]
    exact ⟨_, rfl, rfl⟩
  · rw [if_neg hj]
    exact ⟨t, ht, rfl⟩

theorem scoped_append (h : m.Scoped) (hs : m.scopes[i]? = some s) : (m.append i s e).1.Scoped := by
  apply h.of_frames scopeIndex_append
  intro j
  rw [getElem?_scopes_append hs]
  split
  · rename_i hj
    subst hj
    rw [hs]
    rfl
  · rfl

/-! ### Replacing -/

theorem getElem?_scopes_replaceEntry (r : DeclRef) (j : Nat) :
    (m.replaceEntry r e).scopes[j]? = m.scopes[j]?.map fun t =>
      if j = r.scope then { t with entries := t.entries.set r.entry e } else t := by
  simp only [replaceEntry, List.getElem?_modify]
  cases m.scopes[j]? with
  | none => rfl
  | some t =>
    by_cases h : r.scope = j
    · simp [h]
    · simp [h, Ne.symm h]

theorem entry?_replaceEntry {old : Entry} {r : DeclRef} (h : m.entry? r = some old) (r' : DeclRef) :
    entry? (m.replaceEntry r e) r' = if r' = r then some e else m.entry? r' := by
  obtain ⟨j, k⟩ := r
  obtain ⟨j', k'⟩ := r'
  obtain ⟨t, ht, hold⟩ := entry?_eq_some.mp h
  have hk : k < t.entries.length := (List.getElem?_eq_some_iff.mp hold).1
  have hget := getElem?_scopes_replaceEntry (m := m) (e := e) ⟨j, k⟩ j'
  by_cases hj : j' = j
  · subst hj
    rw [ht, Option.map_some, if_pos rfl] at hget
    rw [entry?_of_scope hget, entry?_of_scope ht, List.getElem?_set]
    simp only [DeclRef.mk.injEq, true_and]
    by_cases hk' : k = k'
    · rw [if_pos hk', if_pos hk, if_pos hk'.symm]
    · rw [if_neg hk', if_neg (Ne.symm hk')]
  · rw [if_neg (fun h => hj (congrArg DeclRef.scope h))]
    apply entry?_congr
    simp only [hget, hj, if_false, Option.map_id']

theorem keepsPaths_replaceEntry (r : DeclRef) : m.KeepsPaths (m.replaceEntry r e) := by
  intro j t ht
  rw [getElem?_scopes_replaceEntry, ht]
  refine ⟨_, rfl, ?_⟩
  split <;> rfl

theorem scoped_replaceEntry (h : m.Scoped) (r : DeclRef) : (m.replaceEntry r e).Scoped := by
  have hi : (m.replaceEntry r e).scopeIndex = m.scopeIndex := rfl
  apply h.of_frames hi
  intro j
  rw [getElem?_scopes_replaceEntry]
  cases m.scopes[j]? with
  | none => rfl
  | some t =>
    simp only [Option.map_some, Scoped.frame]
    split <;> rfl

/-! ### Inserting -/

/-- An insertion appends the entry, or meets one that it leaves as it is or takes the place of. -/
theorem insert_cases (hs : m.scopes[i]? = some s) (e : Entry) :
    m.insert i e = ((m.append i s e).1, .added ⟨i, s.entries.length⟩) ∨
      ∃ r old, m.entry? r = some old ∧ (m.insert i e = (m, .duplicate r) ∨
        m.insert i e = (m.replaceEntry r e, .completed r) ∧ e.decl.name.isSome ∨
        m.insert i e = (m, .conflict r old.origin)) := by
  unfold insert
  rw [hs]
  dsimp only
  -- What is found decides: nothing, or an entry that the new one is compared to.
  cases hex : (m.existing? i s e).bind fun r => (m.entry? r).map (r, ·) with
  | none =>
    left
    rw [← place_append (e := e) (m := m)]
  | some found =>
    right
    obtain ⟨r, old⟩ := found
    obtain ⟨r', -, hr'⟩ := Option.bind_eq_some_iff.mp hex
    obtain ⟨old', hold, heq⟩ := Option.map_eq_some_iff.mp hr'
    obtain ⟨rfl, rfl⟩ := Prod.mk.inj heq
    refine ⟨r', old', hold, ?_⟩
    dsimp only
    cases reconcile old'.decl e.decl with
    | same => exact Or.inl rfl
    | conflict => exact Or.inr (Or.inr rfl)
    | replace =>
      dsimp only
      split
      · rename_i hn
        exact Or.inr (Or.inl ⟨rfl, hn⟩)
      · exact Or.inl rfl

theorem keepsPaths_insert (hs : m.scopes[i]? = some s) (e : Entry) :
    m.KeepsPaths (m.insert i e).1 := by
  rcases insert_cases hs e with h | ⟨r, old, -, h | ⟨h, -⟩ | h⟩ <;> rw [h]
  · exact keepsPaths_append hs
  · exact KeepsPaths.refl m
  · exact keepsPaths_replaceEntry r
  · exact KeepsPaths.refl m

/-! ### Opening a scope -/

theorem Opened.entry?_eq {path : String} {m' : Model} {id : Nat} (h : Opened m path m' id)
    (r : DeclRef) : m'.entry? r = m.entry? r := by
  obtain ⟨new, hnew, hempty⟩ := h.added
  simp only [Model.entry?, hnew, List.getElem?_append]
  split
  · rfl
  · -- A place in a new scope is free, since new scopes are empty.
    rename_i hlt
    rw [List.getElem?_eq_none (by omega : m.scopes.length ≤ r.scope)]
    cases ht : new[r.scope - m.scopes.length]? with
    | none => rfl
    | some t => simp [hempty t (List.mem_of_getElem? ht)]

theorem Opened.refs_eq {path : String} {m' : Model} {id : Nat} (h : Opened m path m' id)
    (q : String) : m'.refs q = m.refs q := by
  simp only [Model.refs, h.index]

theorem Opened.keepsPaths {path : String} {m' : Model} {id : Nat} (h : Opened m path m' id) :
    m.KeepsPaths m' := by
  intro j t ht
  obtain ⟨new, hnew, -⟩ := h.added
  refine ⟨t, ?_, rfl⟩
  rw [hnew, List.getElem?_append_left (List.getElem?_eq_some_iff.mp ht).1, ht]

end HeaderDecl.Model
