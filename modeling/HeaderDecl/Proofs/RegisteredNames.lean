import HeaderDecl.Resolution.Registry

/-!
The names that a file registers before anything is resolved: those of its declarations, and those of
templates that are known from specializations alone.
-/

namespace HeaderDecl.Resolution

def Registry.Knows (r : Registry) (n : String) : Prop := (r.meanings.get? n).getD [] ≠ []

/-! ### What a name is found to mean -/

namespace Registry

variable {r : Registry} {resolving : List String} {kind : Option NamedKind} {name : String} {m : Meaning}

theorem mem_of_find? (h : r.find? resolving kind name = some m) :
    m ∈ (r.meanings.get? name).getD [] := by
  simp only [find?, Option.orElse_eq_orElse, Option.orElse_eq_or, Option.or_eq_some_iff] at h
  rcases h with first | ⟨-, last⟩
  · exact List.mem_of_find?_eq_some first
  · exact List.mem_of_find?_eq_some last

theorem fits_of_find? (h : r.find? resolving kind name = some m) : m.fits kind = true := by
  simp only [find?, Option.orElse_eq_orElse, Option.orElse_eq_or, Option.or_eq_some_iff] at h
  rcases h with first | ⟨-, last⟩
  · have both := List.find?_some first
    exact (Bool.and_eq_true_iff.mp both).1
  · exact List.find?_some last

/-- Whether a name is found does not depend on the typedefs under resolution. -/
theorem find?_eq_none : r.find? resolving kind name = none ↔
    ∀ m ∈ (r.meanings.get? name).getD [], m.fits kind = false := by
  simp only [find?, Option.orElse_eq_orElse, Option.orElse_eq_or, Option.or_eq_none_iff,
    List.find?_eq_none, Bool.not_eq_true]
  refine ⟨fun none => none.2, fun none => ⟨fun m mem => ?_, none⟩⟩
  rw [none m mem, Bool.false_and]

theorem knows_of_find (h : r.find? resolving kind name = some m) : r.Knows name :=
  List.ne_nil_of_mem (mem_of_find? h)

end Registry

/-! ### Names that are registered -/

theorem Registry.knows_addMeaning {r : Registry} {name n : String} {m : Meaning} :
    (r.addMeaning name m).Knows n ↔ n = name ∨ r.Knows n := by
  unfold Registry.Knows Registry.addMeaning Registry.push
  rw [NameMap.get?_insert]
  by_cases h : n = name
  · simp [h]
  · simp [h]

/-- The qualified name that a declaration is inserted under. -/
def Visit.declares : Visit → Option String
  | .scope _ _ => none
  | .decl d _ v => d.name.map (Name.qualify v.scope)

theorem name_of_meaningOf {v : View} {d : ParsedDecl} {name : String} {m : Meaning}
    (h : Registry.meaningOf v d = some (name, m)) : d.name = some name := by
  cases d with
  | record r =>
    obtain ⟨q, hq, same⟩ := Option.map_eq_some_iff.mp h
    cases same
    exact hq
  | enum e =>
    obtain ⟨q, hq, same⟩ := Option.map_eq_some_iff.mp h
    cases same
    exact hq
  | template t =>
    obtain ⟨q, hq, same⟩ := Option.map_eq_some_iff.mp h
    cases same
    exact hq
  | typedef t =>
    cases h
    rfl
  | function f => cases h
  | var v => cases h
  | constant c => cases h
  | specialization s => cases h

namespace Registry

variable {r : Registry} {n : String} {vs : List Visit}

theorem knows_precede {v : View} {d : ParsedDecl} (h : (r.precede v d).Knows n) :
    r.Knows n ∨ d.name.map (Name.qualify v.scope) = some n := by
  unfold Knows precede at h
  cases hm : meaningOf v d with
  | none =>
    rw [hm] at h
    exact Or.inl h
  | some p =>
    obtain ⟨name, m⟩ := p
    rw [hm] at h
    simp only [NameMap.get?_insert] at h
    -- Either the name is that of the declaration, or it had its meaning before.
    by_cases same : n = Name.qualify v.scope name
    · right
      rw [name_of_meaningOf hm, Option.map_some, same]
    · rw [if_neg same] at h
      exact Or.inl h

theorem knows_ofNames (h : (ofNames vs).Knows n) : ∃ w ∈ vs, w.declares = some n := by
  induction vs with
  | nil => exact False.elim (h rfl)
  | cons w vs ih =>
    cases w with
    | scope path kind =>
      obtain ⟨w, hw, hn⟩ := ih h
      exact ⟨w, List.mem_cons_of_mem _ hw, hn⟩
    | decl d o v =>
      rcases knows_precede h with h | h
      · obtain ⟨w, hw, hn⟩ := ih h
        exact ⟨w, List.mem_cons_of_mem _ hw, hn⟩
      · exact ⟨_, List.mem_cons_self, h⟩

/-- A name of a template that is registered for a specialization, since nothing declares the
template. -/
def IsOrphan (r : Registry) (vs : List Visit) (n : String) : Prop :=
  n ∈ r.orphans ∧
    ∃ s o v, Visit.decl (.specialization s) o v ∈ vs ∧ n = Name.qualify v.scope s.template

theorem knows_addSpecialization {v : View} {s : SpecializationDecl TypeExpr ArgExpr PathExpr}
    (h : (r.addSpecialization v s).Knows n) : r.Knows n ∨
      (n ∈ (r.addSpecialization v s).orphans ∧ n = Name.qualify v.scope s.template) := by
  unfold addSpecialization at h ⊢
  dsimp only at h ⊢
  split at h
  · exact Or.inl h
  · rcases knows_addMeaning.mp h with rfl | h
    · exact Or.inr ⟨List.mem_cons_self, rfl⟩
    · exact Or.inl h

theorem orphans_addSpecialization {v : View} {s : SpecializationDecl TypeExpr ArgExpr PathExpr}
    (h : n ∈ r.orphans) : n ∈ (r.addSpecialization v s).orphans := by
  unfold addSpecialization
  dsimp only
  split
  · exact h
  · exact List.mem_cons_of_mem _ h

theorem orphans_addSpecializations (h : n ∈ r.orphans) : n ∈ (r.addSpecializations vs).orphans := by
  fun_induction addSpecializations r vs with
  | case1 => exact h
  | case2 r s o v rest ih => exact ih (orphans_addSpecialization h)
  | case3 r w rest _ ih => exact ih h

theorem knows_addSpecializations (h : (r.addSpecializations vs).Knows n) :
    r.Knows n ∨ (r.addSpecializations vs).IsOrphan vs n := by
  fun_induction addSpecializations r vs with
  | case1 => exact Or.inl h
  | case2 r s o v rest ih =>
    rcases ih h with h | ⟨orphan, s', o', v', hs, hn⟩
    · rcases knows_addSpecialization h with h | ⟨orphan, hn⟩
      · exact Or.inl h
      · exact Or.inr ⟨orphans_addSpecializations orphan, s, o, v, List.mem_cons_self, hn⟩
    · exact Or.inr ⟨orphan, s', o', v', List.mem_cons_of_mem _ hs, hn⟩
  | case3 r w rest _ ih =>
    rcases ih h with h | ⟨orphan, s, o, v, hs, hn⟩
    · exact Or.inl h
    · exact Or.inr ⟨orphan, s, o, v, List.mem_cons_of_mem _ hs, hn⟩

/-- What is registered is declared, or is the name of a template without a declaration. -/
theorem knows_ofVisits (h : (ofVisits vs).Knows n) :
    (∃ w ∈ vs, w.declares = some n) ∨ (ofVisits vs).IsOrphan vs n := by
  rcases knows_addSpecializations h with h | h
  · exact Or.inl (knows_ofNames h)
  · exact Or.inr h

/-! ### Patterns -/

/-- Whether no argument of a specialization has been resolved. -/
def Fresh (r : Registry) : Prop :=
  ∀ name ps, r.patterns.get? name = some ps → ∀ p ∈ ps, p.progress = .pending

theorem fresh_addPattern (h : r.Fresh) {template : String} {p : Pattern}
    (hp : p.progress = .pending) :
    (r.addPattern template p).Fresh := by
  intro name ps hps q hq
  unfold addPattern push at hps
  rw [NameMap.get?_insert] at hps
  split at hps
  · cases hps
    rcases List.mem_append.mp hq with hq | hq
    · cases old : r.patterns.get? template with
      | none => simp [old] at hq
      | some ps =>
        rw [old] at hq
        exact h template ps old q hq
    · rw [List.mem_singleton.mp hq]
      exact hp
  · exact h name ps hps q hq

theorem fresh_addSpecialization (h : r.Fresh) {v : View}
    {s : SpecializationDecl TypeExpr ArgExpr PathExpr} : (r.addSpecialization v s).Fresh := by
  unfold addSpecialization
  dsimp only
  split
  · exact fresh_addPattern h rfl
  · exact fresh_addPattern h rfl

theorem fresh_ofNames : (ofNames vs).Fresh := by
  induction vs with
  | nil => exact fun name ps h => by cases h
  | cons w vs ih =>
    cases w with
    | scope path kind => exact ih
    | decl d o v => exact ih

theorem fresh_ofVisits : (ofVisits vs).Fresh := by
  have start : (ofNames vs).Fresh := fresh_ofNames
  unfold ofVisits
  generalize ofNames vs = r at start
  fun_induction addSpecializations r vs with
  | case1 => exact start
  | case2 r s o v rest ih => exact ih (fresh_addSpecialization start)
  | case3 r w rest _ ih => exact ih start

end Registry

end HeaderDecl.Resolution
