import HeaderDecl.Proofs.RegisteredNames
import HeaderDecl.Resolution.Unit
import Mathlib.Data.List.Nodup
import Mathlib.Data.List.Perm.Subperm

/-!
The meanings that a file gives to names. A name has those of the declarations that bear it, in their
order; where they are all the same, it is looked up alike whatever is being resolved.
-/

namespace HeaderDecl.Resolution

/-! ### Declarations and their meanings -/

/-- The declaration of a visit, with the view that it is seen from. -/
def Visit.declaration? : Visit → Option (View × ParsedDecl)
  | .scope _ _ => none
  | .decl d _ v => some (v, d)

/-- The declarations of a file in order, each with the view that it is seen from. -/
def declarations (items : List Item) : List (View × ParsedDecl) :=
  (visitAll {} items).filterMap Visit.declaration?

/-- The meaning that a declaration gives to a qualified name. -/
def meaningUnder (q : String) (x : View × ParsedDecl) : Option Meaning :=
  (Registry.meaningOf x.1 x.2).bind fun (name, m) =>
    if Name.qualify x.1.scope name = q then some m else none

theorem mem_declarations {items : List Item} {v : View} {d : ParsedDecl} :
    (v, d) ∈ declarations items ↔ ∃ origin, Visit.decl d origin v ∈ visitAll {} items := by
  rw [declarations, List.mem_filterMap]
  constructor
  · rintro ⟨_ | ⟨d', origin, v'⟩, hw, same⟩
    · cases same
    · cases same
      exact ⟨origin, hw⟩
  · rintro ⟨origin, hw⟩
    exact ⟨_, hw, rfl⟩

namespace Registry

theorem meanings_ofNames (ws : List Visit) (q : String) :
    ((ofNames ws).meanings.get? q).getD [] =
      (ws.filterMap Visit.declaration?).filterMap (meaningUnder q) := by
  induction ws with
  | nil => rfl
  | cons w ws ih =>
    cases w with
    | scope path kind => exact ih
    | decl d origin v =>
      change _ = ((v, d) :: ws.filterMap Visit.declaration?).filterMap (meaningUnder q)
      rw [ofNames, precede, List.filterMap_cons, ← ih]
      unfold meaningUnder
      rcases meaningOf v d with _ | ⟨name, m⟩
      · rfl
      · -- The meaning is put in front of those that the later declarations give.
        simp only [Option.bind_some, NameMap.get?_insert]
        by_cases here : Name.qualify v.scope name = q
        · simp [here]
        · rw [if_neg here, if_neg (Ne.symm here)]

theorem ofVisits_of_unspecialized {ws : List Visit}
    (none : ∀ s origin v, Visit.decl (.specialization s) origin v ∉ ws) : ofVisits ws = ofNames ws := by
  unfold ofVisits
  generalize ofNames ws = r
  fun_induction addSpecializations r ws with
  | case1 => rfl
  | case2 r s o v rest ih => exact absurd List.mem_cons_self (none s o v)
  | case3 r w rest _ ih => exact ih fun s o v mem => none s o v (List.mem_cons_of_mem _ mem)

theorem patterns_ofNames (ws : List Visit) : (ofNames ws).patterns = .empty := by
  induction ws with
  | nil => rfl
  | cons w ws ih =>
    cases w with
    | scope path kind => exact ih
    | decl d origin v => exact ih

/-! ### Looking names up -/

variable {r : Registry} {name : String}

/-- Where all meanings of a name are the same, it does not matter what is being resolved. -/
theorem find?_of_same {m : Meaning} (known : r.Knows name)
    (same : ∀ m' ∈ (r.meanings.get? name).getD [], m' = m) (resolving : List String)
    (kind : Option NamedKind) :
    r.find? resolving kind name = if m.fits kind then some m else none := by
  obtain ⟨first, rest, ms⟩ := List.exists_cons_of_ne_nil known
  unfold find?
  rw [ms] at same ⊢
  obtain rfl : first = m := same first List.mem_cons_self
  have all (p : Meaning → Bool) :
      (first :: rest).find? p = if p first then some first else none := by
    rw [List.find?_cons]
    cases hp : p first with
    | true => rfl
    | false =>
      refine List.find?_eq_none.mpr fun m mem => ?_
      rw [same m (List.mem_cons_of_mem _ mem), hp]
      exact Bool.false_ne_true
  dsimp only
  rw [all, all]
  -- Either it is taken at once, or, while the name is being resolved, for want of another one.
  cases first.fits kind with
  | false => rfl
  | true => cases resolving.contains name && first.isTypedef <;> rfl

theorem find?_of_unknown (unknown : ¬ r.Knows name) (resolving : List String)
    (kind : Option NamedKind) : r.find? resolving kind name = none := by
  have none : (r.meanings.get? name).getD [] = [] := not_not.mp unknown
  unfold find?
  rw [none]
  rfl

/-! ### How many names there are -/

theorem length_le_foldl_weight (ms : List Meaning) (n : Nat) :
    n + ms.length ≤ ms.foldl (fun n m => n + m.weight) n := by
  induction ms generalizing n with
  | nil => exact Nat.le_refl n
  | cons m ms ih =>
    have pos : 1 ≤ m.weight := by
      unfold Meaning.weight
      split <;> omega
    have later := ih (n + m.weight)
    rw [List.length_cons, List.foldl_cons]
    omega

theorem pair_of_knows (known : r.Knows name) : ∃ ms, (name, ms) ∈ r.meanings.pairs ∧ ms ≠ [] := by
  unfold Knows NameMap.get? at known
  generalize r.meanings.pairs = pairs at known ⊢
  induction pairs with
  | nil => exact absurd rfl known
  | cons p ps ih =>
    obtain ⟨key, ms⟩ := p
    unfold NameMap.find at known
    split at known
    · obtain rfl : name = key := ‹_›
      exact ⟨ms, List.mem_cons_self, known⟩
    · obtain ⟨ms', mem, filled⟩ := ih known
      exact ⟨ms', List.mem_cons_of_mem _ mem, filled⟩

theorem length_filled_le (pairs : List (String × List Meaning)) :
    (pairs.filter fun p => !p.2.isEmpty).length ≤ (pairs.flatMap (·.2)).length := by
  induction pairs with
  | nil => exact Nat.le_refl 0
  | cons p ps ih =>
    rw [List.flatMap_cons, List.length_append]
    cases filled : !p.2.isEmpty with
    | true =>
      rw [List.filter_cons_of_pos (by simpa using filled)]
      have pos : 0 < p.2.length := List.length_pos_iff.mpr (by simpa using filled)
      rw [List.length_cons]
      omega
    | false =>
      rw [List.filter_cons_of_neg (by simpa using filled)]
      omega

/-- There are fewer names with a meaning than types may be under way at once. -/
theorem length_lt_depthBound {names : List String} (distinct : names.Nodup)
    (known : ∀ name ∈ names, r.Knows name) : names.length < r.depthBound := by
  -- Each name stands in front of a meaning of its own.
  have keyed : names ⊆ (r.meanings.pairs.filter fun p => !p.2.isEmpty).map (·.1) := by
    intro name mem
    obtain ⟨ms, here, filled⟩ := pair_of_knows (known name mem)
    exact List.mem_map.mpr ⟨(name, ms), List.mem_filter.mpr ⟨here, by simpa using filled⟩, rfl⟩
  have fewer : names.length ≤ (r.meanings.pairs.flatMap (·.2)).length := by
    have each := (List.subperm_of_subset distinct keyed).length_le
    rw [List.length_map] at each
    exact Nat.le_trans each (length_filled_le _)
  have weight : names.length ≤ r.weight := by
    unfold weight
    have := length_le_foldl_weight (r.meanings.pairs.flatMap (·.2)) 0
    omega
  calc names.length < r.weight + 2 := by omega
    _ ≤ (r.weight + 2) * (r.weight + 2) * (r.weight + 2) := by
      rw [Nat.mul_assoc]
      exact Nat.le_mul_of_pos_right _ (Nat.mul_pos (Nat.succ_pos _) (Nat.succ_pos _))
    _ = r.depthBound := rfl

end Registry

end HeaderDecl.Resolution
