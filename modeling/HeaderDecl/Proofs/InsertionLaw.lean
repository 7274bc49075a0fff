import HeaderDecl.Proofs.ModelIndex

/-!
The law of insertion. After any history a model holds one entry of each class, where the first of the
class was appended: the first complete one if there is one, and the first one otherwise.
-/

namespace HeaderDecl.Model

variable {log : List Inserted} {m : Model} {i : Nat} {s : Scope} {e : Entry}

/-- How a model holds a class: in one place, with what is kept there. -/
structure HoldsClass (m : Model) (q : String) (id : Identity) (first : Inserted)
    (rest : List Inserted) (r : DeclRef) : Prop where
  appended : first.outcome = .added r
  scope : ∃ s, m.scopes[r.scope]? = some s ∧ s.path = first.path
  only : ((m.refs q).filter fun r => (m.entry? r).any (hasIdentity true id)) = [r]
  held : m.entry? r = some (((first :: rest).find? (·.entry.isComplete)).getD first).entry
  repeated : ∀ y ∈ rest, y.outcome.Repeats r

/-- Whether a model has an entry with some identity under a name, at a place. -/
def Stores (m : Model) (q : String) (id : Identity) (r : DeclRef) (old : Entry) : Prop :=
  r ∈ m.refs q ∧ m.entry? r = some old ∧ old.decl.identity = some id

/-- What an insertion into a scope does. -/
structure InsertsLawfully (m : Model) (i : Nat) (s : Scope) (e : Entry) : Prop where
  added : ∀ r, (m.insert i e).2 = .added r →
    r = ⟨i, s.entries.length⟩ ∧ (m.insert i e).1 = (m.append i s e).1
  duplicate : ∀ r, (m.insert i e).2 = .duplicate r → (m.insert i e).1 = m
  conflict : ∀ r o, (m.insert i e).2 = .conflict r o → (m.insert i e).1 = m
  completed : ∀ r, (m.insert i e).2 = .completed r → (m.insert i e).1 = m.replaceEntry r e ∧
    ∀ r', entry? (m.insert i e).1 r' = if r' = r then some e else m.entry? r'
  conflict_iff : ∀ q id, qualifiedName s e = some q → e.decl.identity = some id → ∀ r o,
    (m.insert i e).2 = .conflict r o ↔ ∃ old, m.Stores q id r old ∧ old.isFinal ∧ e.isFinal ∧
      old.decl.normalized ≠ e.decl.normalized ∧ o = old.origin
  reporting : (m.insertReporting i e).1 = (m.insert i e).1
  reports : (∃ r o, (m.insert i e).2 = .conflict r o) →
    ∃ d, (m.insertReporting i e).2 = [d] ∧ d.kind = .conflictingRedeclaration
  silent : (¬∃ r o, (m.insert i e).2 = .conflict r o) → (m.insertReporting i e).2 = []

/-! ### Classes -/

theorem kept_of_class {x : Inserted} {k : String × Identity} {rest : List Inserted}
    (hc : log.filter (·.key? = some k) = x :: rest) :
    kept log x = (((x :: rest).find? (·.entry.isComplete)).getD x).entry := by
  have hk : x.key? = some k := (Tracks.mem_of_class hc).2
  rw [← hc, List.find?_filter, kept, hk]
  simp

namespace Tracks

theorem holdsClass (h : Tracks log m) {q : String} {id : Identity} {first : Inserted}
    {rest : List Inserted} (hc : log.filter (·.key? = some (q, id)) = first :: rest) :
    ∃ r, m.HoldsClass q id first rest r := by
  obtain ⟨hx, -⟩ := mem_of_class hc
  obtain ⟨r, hr, hrest⟩ := h.classes _ first rest hc
  refine ⟨r, hr, h.located first hx r hr, ?_, ?_, hrest⟩
  · rw [h.refs_filter, h.places_of_class hc hr]
  · rw [h.entry?_of_added hx hr, kept_of_class hc]

theorem stores_iff_mem_filter (h : Tracks log m) (q : String) (id : Identity) (r : DeclRef)
    (old : Entry) : m.Stores q id r old ↔ m.entry? r = some old ∧
      r ∈ (m.refs q).filter fun r => (m.entry? r).any (hasIdentity true id) := by
  simp only [Stores, List.mem_filter]
  constructor
  · rintro ⟨hr, he, hid⟩
    refine ⟨he, hr, ?_⟩
    rw [he, Option.any_some, hasIdentity_iff]
    refine ⟨?_, hid⟩
    -- A place of the name was filled by an entry that bore it.
    obtain ⟨x, hx, hxr, rfl⟩ := (h.slots r old).mp he
    rw [h.refs] at hr
    obtain ⟨y, hy, hyr⟩ := List.mem_filterMap.mp hr
    obtain ⟨hy, hq⟩ := List.mem_filter.mp hy
    obtain rfl := h.apart hx hy hxr (Inserted.place?_eq_some.mp hyr)
    rw [(kept_identity log x).2]
    exact isSome_of_qualified (of_decide_eq_true hq)
  · rintro ⟨he, hr, hi⟩
    rw [he, Option.any_some, hasIdentity_iff] at hi
    exact ⟨hr, he, hi.2⟩

/-- What is stored of a class is what is kept in its place. -/
theorem stores_iff (h : Tracks log m) (q : String) (id : Identity) (r : DeclRef) (old : Entry) :
    m.Stores q id r old ↔ ∃ first rest, log.filter (·.key? = some (q, id)) = first :: rest ∧
      first.outcome = .added r ∧ kept log first = old := by
  rw [h.stores_iff_mem_filter, h.refs_filter]
  constructor
  · rintro ⟨he, hr⟩
    cases hc : log.filter (·.key? = some (q, id)) with
    | nil => simp [hc] at hr
    | cons x rest =>
      obtain ⟨r₀, hr₀, -⟩ := h.classes _ x rest hc
      rw [h.places_of_class hc hr₀, List.mem_singleton] at hr
      subst hr
      rw [h.entry?_of_added (mem_of_class hc).1 hr₀] at he
      exact ⟨x, rest, rfl, hr₀, Option.some.inj he⟩
  · rintro ⟨x, rest, hc, hr, rfl⟩
    refine ⟨h.entry?_of_added (mem_of_class hc).1 hr, ?_⟩
    rw [h.places_of_class hc hr]
    exact List.mem_singleton.mpr rfl

/-! ### Single insertions -/

theorem conflict_iff (h : Tracks log m) (hs : m.scopes[i]? = some s) {q : String} {id : Identity}
    (hq : qualifiedName s e = some q) (hid : e.decl.identity = some id) (r : DeclRef) (o : Origin) :
    (m.insert i e).2 = .conflict r o ↔ ∃ old, m.Stores q id r old ∧ old.isFinal ∧ e.isFinal ∧
      old.decl.normalized ≠ e.decl.normalized ∧ o = old.origin := by
  simp only [h.stores_iff, Entry.isFinal, decide_eq_true_eq]
  cases hc : log.filter (·.key? = some (q, id)) with
  | nil =>
    rw [h.insert_first hs hq hid hc]
    simp
  | cons x rest =>
    obtain ⟨r₀, hr₀, -⟩ := h.classes _ x rest hc
    have hxid : (kept log x).decl.identity = some id :=
      (kept_identity log x).1.trans (key?_eq_some.mp (mem_of_class hc).2).2
    have hrec := reconcile_eq_conflict hxid hid
    rw [h.insert_again hs hq hid hc hr₀]
    constructor
    · intro hi
      cases hcase : reconcile (kept log x).decl e.decl with
      | same => simp [hcase] at hi
      | replace => simp [hcase] at hi
      | conflict =>
        simp only [hcase, Insertion.conflict.injEq] at hi
        obtain ⟨rfl, rfl⟩ := hi
        obtain ⟨hold, hnew, hne⟩ := hrec.mp hcase
        exact ⟨_, ⟨x, rest, rfl, hr₀, rfl⟩, hold, hnew, hne, rfl⟩
    · rintro ⟨old, ⟨x', rest', hcons, hr, rfl⟩, hold, hnew, hne, rfl⟩
      obtain ⟨rfl, rfl⟩ := List.cons.inj hcons
      obtain rfl : r₀ = r := Insertion.added.inj (hr₀.symm.trans hr)
      rw [hrec.mpr ⟨hold, hnew, hne⟩]

end Tracks

/-- Whatever an insertion answers, it has done to the model. -/
theorem Tracks.insertsLawfully (h : Tracks log m) (hs : m.scopes[i]? = some s) (e : Entry) :
    m.InsertsLawfully i s e := by
  have hrep := insertReporting_eq hs e
  rcases insert_cases hs e with hi | ⟨r, old, hold, hi | ⟨hi, -⟩ | hi⟩
  · refine ⟨?_, ?_, ?_, ?_, fun q id hq hid => h.conflict_iff hs hq hid, ?_, ?_, ?_⟩ <;>
      simp [hrep, hi, reported]
  · refine ⟨?_, ?_, ?_, ?_, fun q id hq hid => h.conflict_iff hs hq hid, ?_, ?_, ?_⟩ <;>
      simp [hrep, hi, reported]
  · refine ⟨?_, ?_, ?_, ?_, fun q id hq hid => h.conflict_iff hs hq hid, ?_, ?_, ?_⟩
    · simp [hi]
    · simp [hi]
    · simp [hi]
    · intro r' hr'
      rw [hi] at hr' ⊢
      obtain rfl := Insertion.completed.inj hr'
      exact ⟨rfl, entry?_replaceEntry hold⟩
    · simp [hrep]
    · simp [hi]
    · simp [hrep, hi, reported]
  · refine ⟨?_, ?_, ?_, ?_, fun q id hq hid => h.conflict_iff hs hq hid, ?_, ?_, ?_⟩
    · simp [hi]
    · simp [hi]
    · simp [hi]
    · simp [hi]
    · simp [hrep]
    · intro _
      exact ⟨_, by rw [hrep, hi]; rfl, rfl⟩
    · simp [hi]

/-- A forward declaration, another struct and the definition. -/
def nodeModel : Model :=
  (((empty.insert 0 (.ofStruct "Node" false 1)).1.insert 0 (.ofStruct "Other" true 2)).1.insert 0
    (.ofStruct "Node" true 3)).1

theorem history_node : History [⟨"", .ofStruct "Node" false 1, .added ⟨0, 0⟩⟩,
    ⟨"", .ofStruct "Other" true 2, .added ⟨0, 1⟩⟩,
    ⟨"", .ofStruct "Node" true 3, .completed ⟨0, 0⟩⟩] nodeModel := by
  have h₁ := History.empty.insert (i := 0) rfl (.ofStruct "Node" false 1)
  have h₂ := h₁.insert (i := 0) rfl (.ofStruct "Other" true 2)
  exact h₂.insert (i := 0) rfl (.ofStruct "Node" true 3)

end HeaderDecl.Model
