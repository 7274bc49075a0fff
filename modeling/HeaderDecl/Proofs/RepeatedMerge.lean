import HeaderDecl.Proofs.GrowingModel
import HeaderDecl.Proofs.PlainText

/-!
Merging a model a second time. It reports what the first merge reported, and adds nothing but the
entries without an identity.
-/

namespace HeaderDecl.Model

/-- The second model has further entries behind those of the first, by the paths of their scopes. -/
structure Gains (m m' : Model) (extra : String → List Entry) : Prop where
  index : m'.index = m.index
  scopeIndex : m'.scopeIndex = m.scopeIndex
  scopes : ∀ j : Nat, m'.scopes[j]? =
    m.scopes[j]?.map fun t => { t with entries := t.entries ++ extra t.path }

section Gains

variable {m m' m'' : Model} {i : Nat} {s : Scope} {e : Entry}

theorem Gains.refl (m : Model) : m.Gains m fun _ => [] := by
  refine ⟨rfl, rfl, fun j => ?_⟩
  simp only [List.append_nil, Option.map_id']

theorem Gains.trans {extra extra' : String → List Entry} (first : m.Gains m' extra)
    (next : m'.Gains m'' extra') : m.Gains m'' fun path => extra path ++ extra' path := by
  refine ⟨next.index.trans first.index, next.scopeIndex.trans first.scopeIndex, fun j => ?_⟩
  rw [next.scopes, first.scopes, Option.map_map]
  simp only [Function.comp_def, List.append_assoc]

theorem Gains.congr {extra extra' : String → List Entry} (h : m.Gains m' extra)
    (same : ∀ path, extra path = extra' path) : m.Gains m' extra' := by
  have agree : extra = extra' := funext same
  rw [← agree]
  exact h

/-- A nameless entry goes behind those of its scope, and into no index. -/
theorem gains_append (valid : m.Scoped) (hs : m.scopes[i]? = some s)
    (nameless : qualifiedName s e = none) :
    m.Gains (m.append i s e).1 fun path => if path = s.path then [e] else [] := by
  refine ⟨?_, scopeIndex_append, fun j => ?_⟩
  · unfold append
    rw [nameless]
  · rw [getElem?_scopes_append hs]
    by_cases hj : j = i
    · subst hj
      rw [if_pos rfl, hs, Option.map_some, if_pos rfl]
    · rw [if_neg hj]
      cases ht : m.scopes[j]? with
      | none => rfl
      | some t =>
        have apart : t.path ≠ s.path := fun same => hj (valid.path_injective ht hs same)
        rw [Option.map_some, if_neg apart, List.append_nil]

/-- A model that gains nothing in any of its scopes is the same. -/
theorem Gains.eq_iff {extra : String → List Entry} (h : m.Gains m' extra) :
    m' = m ↔ ∀ (j : Nat) t, m.scopes[j]? = some t → extra t.path = [] := by
  constructor
  · rintro rfl j t ht
    have same := h.scopes j
    rw [ht, Option.map_some, Option.some.injEq] at same
    have entries := congrArg Scope.entries same
    exact List.self_eq_append_right.mp entries
  · intro nothing
    have scopes : m'.scopes = m.scopes := by
      apply List.ext_getElem?
      intro j
      rw [h.scopes]
      cases ht : m.scopes[j]? with
      | none => rfl
      | some t => rw [Option.map_some, nothing j t ht, List.append_nil]
    cases m
    cases m'
    cases h.index
    cases h.scopeIndex
    cases scopes
    rfl

end Gains

/-! ### Merging again -/

/-- The entries without an identity. -/
def unidentified (es : List Entry) : List Entry := es.filter (·.decl.identity.isNone)

/-- The entries without an identity in the scopes with a path. -/
def strays (ss : List Scope) (path : String) : List Entry :=
  unidentified ((ss.filter (·.path = path)).flatMap (·.entries))

variable {log log' : List Inserted} {m m' : Model} {i : Nat} {s : Scope} {e : Entry}

theorem nameless_of_unidentified (strange : e.decl.identity = none) : qualifiedName s e = none := by
  cases named : e.decl.name with
  | none => rw [qualifiedName, named, Option.map_none]
  | some n =>
    have known := identity_isSome (d := e.decl) (by rw [named]; rfl)
    rw [strange] at known
    cases known

/-- Entries inserted again in a scope of a model that has grown. -/
theorem insertAll_again {path : String} (h : History log m)
    (hs : ∃ s, m.scopes[i]? = some s ∧ s.path = path) (h' : History log' m') (es : List Entry)
    (grows : (m.insertAll i es).1.Grows m') :
    (m'.insertAll i es).2 = (m.insertAll i es).2 ∧ (∃ more, History more (m'.insertAll i es).1) ∧
      m'.Gains (m'.insertAll i es).1 fun p => if p = path then unidentified es else [] := by
  induction es generalizing log log' m m' with
  | nil =>
    refine ⟨rfl, ⟨log', h'⟩, (Gains.refl m').congr fun p => ?_⟩
    split <;> rfl
  | cons e es ih =>
    obtain ⟨s, hs, rfl⟩ := hs
    have h₁ := h.insertReporting hs e
    have grows₁ : (m.insertReporting i e).1.Grows m' := (grows_insertAll _ i es).trans grows
    have hs₁ := (grows_insertReporting m i e).paths i s hs
    cases identified : e.decl.identity with
    | some id =>
      have settled := h.settled_insert hs (e := e) (by rw [identified]; rfl)
      have same := (settled.grows h₁.filled grows₁).insertReporting
      obtain ⟨reports, history, gains⟩ := ih h₁ hs₁ h' grows
      simp only [insertAll, same]
      refine ⟨by rw [reports], history, gains.congr fun p => ?_⟩
      simp [unidentified, identified]
    | none =>
      -- The entry goes behind those that the scope has now.
      obtain ⟨s', hs', path⟩ := ((grows_insertReporting m i e).trans grows₁).paths i s hs
      have first := insertReporting_of_new hs (existing?_of_strange identified)
      have again := insertReporting_of_new hs' (existing?_of_strange identified)
      have grows₂ := grows.trans (grows_insertReporting m' i e)
      obtain ⟨reports, history, gains⟩ := ih h₁ hs₁ (h'.insertReporting hs' e) grows₂
      have stray := gains_append h'.tracks.valid hs' (nameless_of_unidentified (s := s') identified)
      simp only [insertAll]
      refine ⟨by rw [reports, first, again], history, ?_⟩
      rw [again] at gains ⊢
      refine (stray.trans gains).congr fun p => ?_
      rw [path]
      by_cases hp : p = s.path
      · simp [hp, unidentified, identified]
      · simp [hp]

theorem scopeOrInsert_of_known {path : String} {kind : ScopeKind}
    (known : m.scopeIndex.get? path = some i) : m.scopeOrInsert path kind = (m, i) := by
  rw [scopeOrInsert, known]

/-- Scopes merged again into a model that has grown. -/
theorem mergeScopes_again (h : History log m) (h' : History log' m') (ss : List Scope)
    (grows : (m.mergeScopes ss).1.Grows m') :
    (m'.mergeScopes ss).2 = (m.mergeScopes ss).2 ∧
      m'.Gains (m'.mergeScopes ss).1 (strays ss) := by
  induction ss generalizing log log' m m' with
  | nil => exact ⟨rfl, Gains.refl m'⟩
  | cons t ts ih =>
    have opened := opened_scopeOrInsert h.tracks.valid t.path t.kind
    have h₀ := h.scopeOrInsert t.path t.kind
    obtain ⟨more, h₁, -, -⟩ := h₀.insertAll opened.here t.entries
    have grows₁ := (h₁.grows_mergeScopes ts).trans grows
    -- The scope is there, at the place that it was opened at.
    have known : m'.scopeOrInsert t.path t.kind = (m', (m.scopeOrInsert t.path t.kind).2) := by
      obtain ⟨s, hs, path⟩ := opened.here
      have there := ((grows_insertAll _ _ _).trans grows₁).paths _ s hs
      rw [path] at there
      exact scopeOrInsert_of_known ((h'.tracks.valid.index t.path _).mpr there)
    obtain ⟨reports, ⟨more', h₂⟩, gains⟩ := insertAll_again h₀ opened.here h' t.entries grows₁
    obtain ⟨reports', gains'⟩ := ih h₁ h₂ (grows.trans (grows_insertAll m' _ _))
    simp only [mergeScopes, known]
    refine ⟨by rw [reports, reports'], (gains.trans gains').congr fun p => ?_⟩
    by_cases hp : t.path = p
    · simp [strays, unidentified, hp]
    · simp [strays, unidentified, hp, Ne.symm hp]

/-- Merging opens every scope of the other model. -/
theorem History.opens_mergeScopes (h : History log m) (ss : List Scope) :
    ∀ s ∈ ss, ∃ (j : Nat) (t : Scope), (m.mergeScopes ss).1.scopes[j]? = some t ∧
      t.path = s.path := by
  induction ss generalizing log m with
  | nil => exact fun s hs => by cases hs
  | cons t ts ih =>
    have opened := opened_scopeOrInsert h.tracks.valid t.path t.kind
    obtain ⟨more, h₁, -, -⟩ := (h.scopeOrInsert t.path t.kind).insertAll opened.here t.entries
    intro s hs
    rcases List.mem_cons.mp hs with rfl | hs
    · obtain ⟨u, hu, path⟩ := opened.here
      obtain ⟨u', hu', path'⟩ := ((grows_insertAll _ _ _).trans (h₁.grows_mergeScopes ts)).paths _ u hu
      exact ⟨_, u', hu', path'.trans path⟩
    · exact ih h₁ s hs

/-- Only records without a name have no identity. -/
theorem identity_eq_none_iff {d : ResolvedDecl} :
    d.identity = none ↔ ∃ r, d = .record r ∧ r.name = none := by
  cases d <;> simp [Decl.identity]

/-- Merging a model twice reports twice the same and adds, behind the entries of each scope, those of
the model that have no identity. So the second merge changes nothing if and only if every record has a
name. -/
theorem merge_again (h : History log m) (p : Model) :
    ((m.merge p).1.merge p).2 = (m.merge p).2 ∧
    (m.merge p).1.Gains ((m.merge p).1.merge p).1 (strays p.scopes) ∧
    (((m.merge p).1.merge p).1 = (m.merge p).1 ↔
      ∀ s ∈ p.scopes, ∀ e ∈ s.entries, ∀ r, e.decl = .record r → r.name.isSome) := by
  obtain ⟨more, h', -, -⟩ := h.mergeScopes p.scopes
  obtain ⟨reports, gains⟩ := mergeScopes_again h h' p.scopes (Grows.refl _)
  refine ⟨reports, gains, gains.eq_iff.trans ⟨?_, ?_⟩⟩
  · intro nothing s hs e he r record
    obtain ⟨j, t, ht, path⟩ := h.opens_mergeScopes p.scopes s hs
    have none := nothing j t ht
    rw [path] at none
    rw [Option.isSome_iff_ne_none]
    intro nameless
    -- A record without a name would be added to its scope again.
    have strange : e.decl.identity = .none := identity_eq_none_iff.mpr ⟨r, record, nameless⟩
    have stray : e ∈ strays p.scopes s.path := by
      simp only [strays, unidentified, List.mem_filter, List.mem_flatMap, decide_eq_true_eq]
      exact ⟨⟨s, ⟨hs, rfl⟩, he⟩, by rw [strange]; rfl⟩
    rw [none] at stray
    cases stray
  · intro named j t _
    rw [strays, unidentified, List.filter_eq_nil_iff]
    intro e he strange
    obtain ⟨s, hs, he⟩ := List.mem_flatMap.mp he
    obtain ⟨r, record, nameless⟩ := identity_eq_none_iff.mp (Option.isNone_iff_eq_none.mp strange)
    have name := named s (List.mem_filter.mp hs).1 e he r record
    rw [nameless] at name
    cases name

/-- A header whose records have names, with overloads, an enum without a name and a struct that is
declared forward. -/
def nodeHeader : String := "struct Node; enum { A, B }; void f(int); void f(Node *); struct Node {};"

theorem merge_again_node : ∃ p, (extractFile (headerFile nodeHeader) "a.h" {}).model = some p ∧
    History [] empty ∧ ((empty.merge p).1.merge p).2 = (empty.merge p).2 ∧
    ((empty.merge p).1.merge p).1 = (empty.merge p).1 := by
  have extracted : (extractFile (headerFile nodeHeader) "a.h" {}).model = headerModel nodeHeader :=
    extractFile_header (by decide +kernel) (by decide +kernel) (by decide +kernel)
      (by decide +kernel)
  have known : (headerModel nodeHeader).map (fun p =>
      p.scopes.all fun s => s.entries.all fun e => e.decl.identity.isSome) = some true := by
    decide +kernel
  obtain ⟨p, found, known⟩ := Option.map_eq_some_iff.mp known
  have named : ∀ s ∈ p.scopes, ∀ e ∈ s.entries, ∀ r, e.decl = .record r → r.name.isSome := by
    intro s hs e he r record
    rw [Option.isSome_iff_ne_none]
    intro nameless
    have identified := List.all_eq_true.mp (List.all_eq_true.mp known s hs) e he
    rw [identity_eq_none_iff.mpr ⟨r, record, nameless⟩] at identified
    cases identified
  obtain ⟨reports, -, unchanged⟩ := merge_again .empty p
  exact ⟨p, extracted.trans found, .empty, reports, unchanged.mpr named⟩

/-- A header with a union that has no name. -/
def unionHeader : String := "static union { int a; };"

/-- The second merge of the union adds it once more. -/
theorem merge_again_union : ∃ p, (extractFile (headerFile unionHeader) "a.h" {}).model = some p ∧
    History [] empty ∧ (empty.merge p).2 = [] ∧
    ((empty.merge p).1.merge p).1 ≠ (empty.merge p).1 := by
  have extracted : (extractFile (headerFile unionHeader) "a.h" {}).model = headerModel unionHeader :=
    extractFile_header (by decide +kernel) (by decide +kernel) (by decide +kernel)
      (by decide +kernel)
  have sizes : (headerModel unionHeader).map (fun p => ((empty.merge p).1.size, (empty.merge p).2,
      ((empty.merge p).1.merge p).1.size)) = some (1, [], 2) := by
    decide +kernel
  obtain ⟨p, found, sizes⟩ := Option.map_eq_some_iff.mp sizes
  simp only [Prod.mk.injEq] at sizes
  obtain ⟨once, silent, twice⟩ := sizes
  refine ⟨p, extracted.trans found, .empty, silent, fun same => ?_⟩
  rw [same, once] at twice
  cases twice

end HeaderDecl.Model
