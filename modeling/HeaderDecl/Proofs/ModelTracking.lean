import HeaderDecl.Proofs.ModelHistory
import Mathlib.Data.List.Nodup
import Mathlib.Data.List.Pairwise

/-!
What a history of insertions leaves in a model: of each class one entry, in the place that the first of
the class was appended at.
-/

namespace HeaderDecl.Model

variable {log : List Inserted} {x y : Inserted}

/-- How a model stands to its history: the places are those that something was appended at, with what
is kept there; a name has the places of the entries that bore it; and of each class only the first
entry was appended. -/
structure Tracks (log : List Inserted) (m : Model) : Prop where
  valid : m.Scoped
  slots : ∀ r e, m.entry? r = some e ↔ ∃ x ∈ log, x.outcome = .added r ∧ kept log x = e
  refs : ∀ q, m.refs q = (log.filter (·.qualifiedName = some q)).filterMap (·.place?)
  located : ∀ x ∈ log, ∀ r, x.outcome = .added r →
    ∃ s, m.scopes[r.scope]? = some s ∧ s.path = x.path
  places : (log.filterMap (·.place?)).Nodup
  classes : ∀ k x rest, log.filter (·.key? = some k) = x :: rest →
    ∃ r, x.outcome = .added r ∧ ∀ y ∈ rest, y.outcome.Repeats r

theorem tracks_empty : Tracks [] empty := by
  refine ⟨scoped_empty, ?_, fun q => rfl, by simp, by simp, by simp⟩
  intro r e
  obtain ⟨i, j⟩ := r
  cases i <;> simp [Model.entry?, empty]

namespace Tracks

variable {m : Model}

/-- What was appended at a place is still there, or its completion is. -/
theorem entry?_of_added (h : Tracks log m) (hx : x ∈ log) {r : DeclRef}
    (hr : x.outcome = .added r) : m.entry? r = some (kept log x) :=
  (h.slots r _).mpr ⟨x, hx, hr, rfl⟩

/-- The places of a name that hold some identity are those of the class. -/
theorem refs_filter (h : Tracks log m) (q : String) (id : Identity) :
    ((m.refs q).filter fun r => (m.entry? r).any (hasIdentity true id)) =
      (log.filter (·.key? = some (q, id))).filterMap (·.place?) := by
  rw [h.refs, List.filter_filterMap, List.filterMap_filter, List.filterMap_filter]
  -- Entry by entry: what is kept for one has its identity, and a name if it has one.
  apply List.filterMap_congr
  intro x hx
  have hk : (x.key? = some (q, id)) ↔ x.qualifiedName = some q ∧ x.entry.decl.identity = some id :=
    key?_eq_some
  by_cases hq : x.qualifiedName = some q
  · cases hp : x.place? with
    | none => simp
    | some r =>
      have hn : (kept log x).decl.name.isSome = true := by
        rw [(kept_identity log x).2]
        exact isSome_of_qualified hq
      have he := h.entry?_of_added hx (Inserted.place?_eq_some.mp hp)
      have hi : hasIdentity true id (kept log x) = true ↔ x.entry.decl.identity = some id := by
        rw [hasIdentity_iff, (kept_identity log x).1]
        simp [hn]
      by_cases hid : x.entry.decl.identity = some id
      · simp [hq, hk, hid, he, hi.mpr hid]
      · have hf : hasIdentity true id (kept log x) = false := by
          simpa [hid] using hi
        simp [hq, hk, hid, he, hf]
  · simp [hq, hk]

theorem mem_of_class {k : String × Identity} {rest : List Inserted}
    (hc : log.filter (·.key? = some k) = x :: rest) : x ∈ log ∧ x.key? = some k := by
  have hmem : x ∈ log.filter (·.key? = some k) := by
    rw [hc]
    exact List.mem_cons_self
  have := List.mem_filter.mp hmem
  exact ⟨this.1, by simpa using this.2⟩

theorem places_of_class (h : Tracks log m) {k : String × Identity} {rest : List Inserted}
    {r : DeclRef} (hc : log.filter (·.key? = some k) = x :: rest) (hr : x.outcome = .added r) :
    (log.filter (·.key? = some k)).filterMap (·.place?) = [r] := by
  obtain ⟨r', hr', hrest⟩ := h.classes k x rest hc
  -- Nothing else of the class was appended.
  have hnone : rest.filterMap (·.place?) = [] := by
    apply List.filterMap_eq_nil_iff.mpr
    intro y hy
    have hy' := hrest y hy
    unfold Inserted.place?
    cases ho : y.outcome with
    | added s => simp [ho, Insertion.Repeats] at hy'
    | _ => rfl
  rw [hc, List.filterMap_cons, Inserted.place?_eq_some.mpr hr, hnone]

theorem apart (h : Tracks log m) (hx : x ∈ log) (hy : y ∈ log) {r : DeclRef}
    (hxr : x.outcome = .added r) (hyr : y.outcome = .added r) : x = y := by
  by_contra hne
  -- Two entries at one place would stand twice in the list of places.
  have hp := List.pairwise_filterMap.mp h.places
  have hsymm : Std.Symm fun a b : Inserted =>
      ∀ r, a.place? = some r → ∀ r', b.place? = some r' → r ≠ r' :=
    ⟨fun _ _ hab r' hr' r hr => (hab r hr r' hr').symm⟩
  have hxp := Inserted.place?_eq_some.mpr hxr
  have hyp := Inserted.place?_eq_some.mpr hyr
  exact hp.forall hx hy hne r hxp r hyp rfl

/-! ### Insertions -/

variable {i : Nat} {s : Scope} {e : Entry}

theorem insert_first (h : Tracks log m) (hs : m.scopes[i]? = some s) {q : String} {id : Identity}
    (hq : qualifiedName s e = some q) (hid : e.decl.identity = some id)
    (hc : log.filter (·.key? = some (q, id)) = []) :
    m.insert i e = ((m.append i s e).1, .added ⟨i, s.entries.length⟩) := by
  have hex : m.existing? i s e = none := by
    unfold existing?
    rw [hid, hq]
    have hf := h.refs_filter q id
    rw [hc, List.filterMap_nil] at hf
    simp only [List.find?_eq_none]
    exact List.filter_eq_nil_iff.mp hf
  unfold insert
  rw [hs]
  simp only [hex, Option.bind_none]
  rw [← place_append (e := e) (m := m)]

/-- A further entry of a class is compared to what is kept of it. -/
theorem insert_again (h : Tracks log m) (hs : m.scopes[i]? = some s) {q : String} {id : Identity}
    (hq : qualifiedName s e = some q) (hid : e.decl.identity = some id) {rest : List Inserted}
    {r : DeclRef} (hc : log.filter (·.key? = some (q, id)) = x :: rest)
    (hr : x.outcome = .added r) :
    m.insert i e = match reconcile (kept log x).decl e.decl with
      | .same => (m, .duplicate r)
      | .replace => (m.replaceEntry r e, .completed r)
      | .conflict => (m, .conflict r (kept log x).origin) := by
  obtain ⟨hx, -⟩ := mem_of_class hc
  -- The lookup meets the place of the class and no other one.
  have hex : m.existing? i s e = some r := by
    unfold existing?
    rw [hid, hq]
    have hf := h.refs_filter q id
    rw [h.places_of_class hc hr] at hf
    simp only [← List.head?_filter, hf, List.head?_cons]
  have hn : e.decl.name.isSome = true := isSome_of_qualified hq
  unfold insert
  rw [hs]
  have hold := h.entry?_of_added hx hr
  cases hrec : reconcile (kept log x).decl e.decl with
  | same => simp only [hex, Option.bind_some, hold, Option.map_some, hrec]
  | replace => simp only [hex, Option.bind_some, hold, Option.map_some, hrec, hn, if_true]
  | conflict => simp only [hex, Option.bind_some, hold, Option.map_some, hrec]

theorem refs_concat {q : String} :
    ((log ++ [y]).filter (·.qualifiedName = some q)).filterMap (·.place?) =
      (log.filter (·.qualifiedName = some q)).filterMap (·.place?) ++
        if y.qualifiedName = some q then y.place?.toList else [] := by
  by_cases hq : y.qualifiedName = some q
  · cases hp : y.place? <;> simp [hq, hp]
  · simp [hq]

/-- The first entry of a class begins it, and other classes stay as they are. -/
theorem classes_concat_first (h : Tracks log m) {r : DeclRef} (hr : y.outcome = .added r)
    (hc : ∀ k, y.key? = some k → log.filter (·.key? = some k) = []) (k : String × Identity)
    (x : Inserted) (rest : List Inserted)
    (hk : (log ++ [y]).filter (·.key? = some k) = x :: rest) :
    ∃ r, x.outcome = .added r ∧ ∀ z ∈ rest, z.outcome.Repeats r := by
  rw [List.filter_append] at hk
  by_cases hyk : y.key? = some k
  · rw [hc k hyk] at hk
    simp only [List.filter_cons, hyk, decide_true, if_true, List.filter_nil, List.nil_append,
      List.cons.injEq] at hk
    obtain ⟨rfl, rfl⟩ := hk
    exact ⟨r, hr, by simp⟩
  · simp only [List.filter_cons, hyk, decide_false, Bool.false_eq_true, if_false, List.filter_nil,
      List.append_nil] at hk
    exact h.classes k x rest hk

theorem classes_concat_again (h : Tracks log m) {k : String × Identity} {rest : List Inserted}
    {r : DeclRef} (hyk : y.key? = some k) (hc : log.filter (·.key? = some k) = x :: rest)
    (hr : x.outcome = .added r) (hy : y.outcome.Repeats r) (k' : String × Identity) (x' : Inserted)
    (rest' : List Inserted) (hk : (log ++ [y]).filter (·.key? = some k') = x' :: rest') :
    ∃ r, x'.outcome = .added r ∧ ∀ z ∈ rest', z.outcome.Repeats r := by
  rw [List.filter_append] at hk
  -- Only the class itself gets longer, and at its end.
  by_cases hkk : k = k'
  · subst hkk
    rw [hc] at hk
    simp only [List.filter_cons, hyk, decide_true, if_true, List.filter_nil, List.cons_append,
      List.cons.injEq] at hk
    obtain ⟨rfl, rfl⟩ := hk
    obtain ⟨r', hr', hrest⟩ := h.classes k x rest hc
    have hrr : r' = r := Insertion.added.inj (hr'.symm.trans hr)
    refine ⟨r, hr, ?_⟩
    intro z hz
    rcases List.mem_append.mp hz with hz | hz
    · rw [← hrr]
      exact hrest z hz
    · rw [List.mem_singleton.mp hz]
      exact hy
  · have hne : ¬y.key? = some k' := by
      rw [hyk]
      exact fun he => hkk (Option.some.inj he)
    simp only [List.filter_cons, hne, decide_false, Bool.false_eq_true, if_false, List.filter_nil,
      List.append_nil] at hk
    exact h.classes k' x' rest' hk

theorem located_of_paths (h : Tracks log m) {m' : Model} (hm : m.KeepsPaths m') (hx : x ∈ log)
    {r : DeclRef} (hr : x.outcome = .added r) :
    ∃ s, m'.scopes[r.scope]? = some s ∧ s.path = x.path := by
  obtain ⟨t, ht, hp⟩ := h.located x hx r hr
  obtain ⟨t', ht', hp'⟩ := hm _ t ht
  exact ⟨t', ht', hp'.trans hp⟩

/-- The place behind the entries of a scope is free. -/
theorem not_added_at_end (h : Tracks log m) (hs : m.scopes[i]? = some s) (hx : x ∈ log) :
    x.outcome ≠ .added ⟨i, s.entries.length⟩ := by
  intro hr
  have hfree : m.entry? ⟨i, s.entries.length⟩ = none := by
    rw [entry?_of_scope hs]
    exact List.getElem?_eq_none (Nat.le_refl _)
  rw [h.entry?_of_added hx hr] at hfree
  cases hfree

/-- An entry that goes behind those of a scope. -/
def appended (i : Nat) (s : Scope) (e : Entry) : Inserted :=
  ⟨s.path, e, .added ⟨i, s.entries.length⟩⟩

theorem slots_append (h : Tracks log m) (hs : m.scopes[i]? = some s)
    (hc : ∀ k, (appended i s e).key? = some k → log.filter (·.key? = some k) = []) (r : DeclRef)
    (e' : Entry) : entry? (m.append i s e).1 r = some e' ↔
      ∃ x ∈ log ++ [appended i s e], x.outcome = .added r ∧
        kept (log ++ [appended i s e]) x = e' := by
  rw [entry?_append hs]
  by_cases hr : r = ⟨i, s.entries.length⟩
  · subst hr
    rw [if_pos rfl, Option.some.injEq]
    constructor
    · rintro rfl
      exact ⟨_, List.mem_append_right _ (List.mem_singleton.mpr rfl), rfl, kept_concat_self hc⟩
    · rintro ⟨x, hx, hxr, rfl⟩
      rcases List.mem_append.mp hx with hx | hx
      · exact False.elim (h.not_added_at_end hs hx hxr)
      · rw [List.mem_singleton.mp hx, kept_concat_self hc]
        rfl
  · rw [if_neg hr, h.slots]
    constructor
    · rintro ⟨x, hx, hxr, rfl⟩
      exact ⟨x, List.mem_append_left _ hx, hxr, kept_concat_first hc hx⟩
    · rintro ⟨x, hx, hxr, rfl⟩
      rcases List.mem_append.mp hx with hx | hx
      · exact ⟨x, hx, hxr, (kept_concat_first hc hx).symm⟩
      · rw [List.mem_singleton.mp hx] at hxr
        exact False.elim (hr (Insertion.added.inj hxr).symm)

theorem added (h : Tracks log m) (hs : m.scopes[i]? = some s)
    (hc : ∀ k, (appended i s e).key? = some k → log.filter (·.key? = some k) = []) :
    Tracks (log ++ [appended i s e]) (m.append i s e).1 := by
  refine ⟨scoped_append h.valid hs, h.slots_append hs hc, ?_, ?_, ?_, h.classes_concat_first rfl hc⟩
  · intro q
    rw [refs_append, refs_concat, ← h.refs]
    have hq : (appended i s e).qualifiedName = qualifiedName s e := rfl
    rw [hq]
    split
    · rfl
    · exact (List.append_nil _).symm
  · intro x hx r hr
    rcases List.mem_append.mp hx with hx | hx
    · exact h.located_of_paths (keepsPaths_append hs) hx hr
    · rw [List.mem_singleton.mp hx] at hr ⊢
      rw [← Insertion.added.inj hr]
      exact keepsPaths_append hs i s hs
  · rw [List.filterMap_append, List.nodup_append]
    refine ⟨h.places, List.nodup_singleton _, ?_⟩
    intro r hr r' hr' hrr
    obtain ⟨x, hx, hxr⟩ := List.mem_filterMap.mp hr
    rw [hrr, List.mem_singleton.mp hr'] at hxr
    exact h.not_added_at_end hs hx (Inserted.place?_eq_some.mp hxr)

/-- An insertion that appends nothing, whatever it changes in the entries. -/
theorem unappended (h : Tracks log m) {m' : Model} (hp : y.place? = none) (hv : m'.Scoped)
    (hrefs : ∀ q, m'.refs q = m.refs q)
    (hpaths : m.KeepsPaths m')
    (hslots : ∀ r, ∀ x ∈ log, x.outcome = .added r → m'.entry? r = some (kept (log ++ [y]) x))
    (hnone : ∀ r, m.entry? r = none → m'.entry? r = none)
    (hclasses : ∀ k x rest, (log ++ [y]).filter (·.key? = some k) = x :: rest →
      ∃ r, x.outcome = .added r ∧ ∀ z ∈ rest, z.outcome.Repeats r) :
    Tracks (log ++ [y]) m' := by
  -- Every place that is filled was filled before.
  have hny (r : DeclRef) : y.outcome ≠ .added r := by
    intro hr
    rw [Inserted.place?_eq_some.mpr hr] at hp
    cases hp
  have hmem {x : Inserted} (hx : x ∈ log ++ [y]) {r : DeclRef} (hr : x.outcome = .added r) :
      x ∈ log := by
    rcases List.mem_append.mp hx with hx | hx
    · exact hx
    · rw [List.mem_singleton.mp hx] at hr
      exact False.elim (hny r hr)
  refine ⟨hv, ?_, ?_, ?_, ?_, hclasses⟩
  · intro r e
    constructor
    · intro he
      cases hm : m.entry? r with
      | none =>
        rw [hnone r hm] at he
        cases he
      | some old =>
        obtain ⟨x, hx, hr, -⟩ := (h.slots r old).mp hm
        rw [hslots r x hx hr] at he
        exact ⟨x, List.mem_append_left _ hx, hr, Option.some.inj he⟩
    · rintro ⟨x, hx, hr, rfl⟩
      exact hslots r x (hmem hx hr) hr
  · intro q
    rw [hrefs, refs_concat, hp, h.refs]
    simp
  · intro x hx r hr
    exact h.located_of_paths hpaths (hmem hx hr) hr
  · rw [List.filterMap_append, List.filterMap_cons, hp]
    simpa using h.places

/-- An insertion that changes nothing. -/
theorem unchanged (h : Tracks log m) (hp : y.place? = none)
    (hkept : ∀ r, ∀ x ∈ log, x.outcome = .added r → kept (log ++ [y]) x = kept log x)
    (hclasses : ∀ k x rest, (log ++ [y]).filter (·.key? = some k) = x :: rest →
      ∃ r, x.outcome = .added r ∧ ∀ z ∈ rest, z.outcome.Repeats r) :
    Tracks (log ++ [y]) m := by
  refine h.unappended hp h.valid (fun _ => rfl) (KeepsPaths.refl m) ?_ (fun _ hr => hr)
    hclasses
  intro r x hx hr
  rw [hkept r x hx hr]
  exact h.entry?_of_added hx hr

/-- Only the first entry of a class was appended. -/
theorem eq_first (h : Tracks log m) {k : String × Identity} {rest : List Inserted}
    (hc : log.filter (·.key? = some k) = x :: rest) {z : Inserted} (hz : z ∈ log)
    (hk : z.key? = some k) {r : DeclRef} (hr : z.outcome = .added r) : z = x := by
  have hmem : z ∈ log.filter (·.key? = some k) := List.mem_filter.mpr ⟨hz, by simpa using hk⟩
  rw [hc] at hmem
  rcases List.mem_cons.mp hmem with hzx | hzr
  · exact hzx
  · obtain ⟨r', -, hrest⟩ := h.classes k x rest hc
    have hrep := hrest z hzr
    rw [hr] at hrep
    exact False.elim hrep

/-- Unless a definition completes what is held of its class, nothing is exchanged. -/
theorem kept_stays (h : Tracks log m) {k : String × Identity} {rest : List Inserted}
    (hc : log.filter (·.key? = some k) = x :: rest) (hy : y.key? = some k)
    (hno : reconcile (kept log x).decl y.entry.decl ≠ .replace) (r : DeclRef) (z : Inserted)
    (hz : z ∈ log) (hr : z.outcome = .added r) : kept (log ++ [y]) z = kept log z := by
  by_cases hzk : z.key? = some k
  · obtain rfl := h.eq_first hc hz hzk hr
    by_cases hcomp : y.entry.isComplete
    · -- A definition that completes nothing meets a definition.
      apply kept_concat_of_complete hz
      have hid := (kept_identity log z).1.trans (key?_eq_some.mp hzk).2
      have hsome := completeness?_isSome_of_identity hid (key?_eq_some.mp hy).2
      rw [Ne, reconcile_eq_replace] at hno
      simp only [Entry.isComplete, decide_eq_true_eq] at hcomp ⊢
      rcases hkc : (kept log z).decl.completeness? with _ | _ | _ <;> simp_all
    · apply kept_concat_of_not
      exact fun hk => hcomp hk.2.2
  · apply kept_concat_of_not
    exact fun hk => hzk (hk.1.symm.trans hy)

/-- A definition takes the place of the forward declaration that was held. -/
theorem completed (h : Tracks log m) {k : String × Identity} {rest : List Inserted} {r : DeclRef}
    (hc : log.filter (·.key? = some k) = x :: rest) (hr : x.outcome = .added r)
    (hy : y.key? = some k) (ho : y.outcome = .completed r)
    (hrep : reconcile (kept log x).decl y.entry.decl = .replace) :
    Tracks (log ++ [y]) (m.replaceEntry r y.entry) := by
  obtain ⟨hx, hxk⟩ := mem_of_class hc
  obtain ⟨hold, hnew⟩ := reconcile_eq_replace.mp hrep
  have hheld := h.entry?_of_added hx hr
  have hp : y.place? = none := by
    unfold Inserted.place?
    rw [ho]
  have hrepeats : y.outcome.Repeats r := by
    rw [ho]
    rfl
  refine h.unappended hp (scoped_replaceEntry h.valid r) (fun _ => rfl)
    (keepsPaths_replaceEntry r) ?_ ?_ (h.classes_concat_again hy hc hr hrepeats)
  · intro r' z hz hzr
    rw [entry?_replaceEntry hheld]
    by_cases hrr : r' = r
    · subst hrr
      obtain rfl := h.apart hz hx hzr hr
      rw [if_pos rfl, kept_concat_completes (hy.trans hxk.symm) (by simp [hxk])
        (by simp [Entry.isComplete, hold]) (by simp [Entry.isComplete, hnew])]
    · rw [if_neg hrr, kept_concat_of_not]
      · exact h.entry?_of_added hz hzr
      · -- Only the first entry of the class was appended, and at another place.
        rintro ⟨hk, -, -⟩
        obtain rfl := h.eq_first hc hz (hk.symm.trans hy) hzr
        exact hrr (Insertion.added.inj (hzr.symm.trans hr))
  · intro r' hr'
    rw [entry?_replaceEntry hheld, if_neg, hr']
    rintro rfl
    rw [hr'] at hheld
    cases hheld

theorem unkeyed (h : Tracks log m) (hp : y.place? = none) (hy : y.key? = none) :
    Tracks (log ++ [y]) m := by
  refine h.unchanged hp ?_ ?_
  · intro r x _ _
    apply kept_concat_of_not
    rintro ⟨hk, hsome, -⟩
    rw [← hk, hy] at hsome
    cases hsome
  · intro k x rest hk
    rw [List.filter_append, List.filter_cons, hy] at hk
    exact h.classes k x rest (by simpa using hk)

theorem insert_of_unnamed (h : Tracks log m) (hs : m.scopes[i]? = some s)
    (hn : e.decl.name = none) :
    Tracks (log ++ [⟨s.path, e, (m.insert i e).2⟩]) (m.insert i e).1 := by
  have hkey (o : Insertion) : Inserted.key? ⟨s.path, e, o⟩ = none := by
    simp [Inserted.key?, Inserted.qualifiedName, hn]
  rcases insert_cases hs e with hi | ⟨r, old, -, hi | ⟨-, hno⟩ | hi⟩
  · rw [hi]
    refine h.added hs fun k hk => ?_
    have hnone : none = some k := (hkey _).symm.trans hk
    cases hnone
  · rw [hi]
    exact h.unkeyed rfl (hkey _)
  · simp [hn] at hno
  · rw [hi]
    exact h.unkeyed rfl (hkey _)

/-- An insertion keeps the model in step with its history. -/
theorem insert (h : Tracks log m) (hs : m.scopes[i]? = some s) (e : Entry) :
    Tracks (log ++ [⟨s.path, e, (m.insert i e).2⟩]) (m.insert i e).1 := by
  cases hn : e.decl.name with
  | none => exact h.insert_of_unnamed hs hn
  | some n =>
    have hq : qualifiedName s e = some (Name.qualify s.path n) := by simp [qualifiedName, hn]
    obtain ⟨id, hid⟩ := Option.isSome_iff_exists.mp (identity_isSome (isSome_of_qualified hq))
    have hkey (o : Insertion) :
        Inserted.key? ⟨s.path, e, o⟩ = some (Name.qualify s.path n, id) :=
      key?_eq_some.mpr ⟨hq, hid⟩
    -- A class is begun, or what is held of it decides.
    cases hc : log.filter (·.key? = some (Name.qualify s.path n, id)) with
    | nil =>
      rw [h.insert_first hs hq hid hc]
      apply h.added hs
      intro k hk
      have hkk : some (Name.qualify s.path n, id) = some k := (hkey _).symm.trans hk
      rw [← Option.some.inj hkk, hc]
    | cons x rest =>
      obtain ⟨r, hr, -⟩ := h.classes _ x rest hc
      rw [h.insert_again hs hq hid hc hr]
      cases hcase : reconcile (kept log x).decl e.decl with
      | same =>
        exact h.unchanged rfl (h.kept_stays hc (hkey _) (by simp [hcase]))
          (h.classes_concat_again (hkey _) hc hr rfl)
      | conflict =>
        exact h.unchanged rfl (h.kept_stays hc (hkey _) (by simp [hcase]))
          (h.classes_concat_again (hkey _) hc hr rfl)
      | replace => exact h.completed hc hr (hkey _) rfl hcase

end Tracks

/-- Every model with a history stands to it as it should. -/
theorem History.tracks {m : Model} (h : History log m) : Tracks log m := by
  induction h with
  | empty => exact tracks_empty
  | @scopeOrInsert log m _ path kind ih =>
    have ho := opened_scopeOrInsert ih.valid path kind
    refine ⟨ho.valid, ?_, ?_, ?_, ih.places, ih.classes⟩
    · intro r e
      rw [ho.entry?_eq]
      exact ih.slots r e
    · intro q
      rw [ho.refs_eq]
      exact ih.refs q
    · intro x hx r hr
      exact ih.located_of_paths ho.keepsPaths hx hr
  | insert _ hs e ih => exact ih.insert hs e

/-! ### Merging -/

/-- What merging a model inserts: its entries with the paths of their scopes, scope by scope. -/
def declarations (scopes : List Scope) : List (String × Entry) :=
  scopes.flatMap fun s => s.entries.map (s.path, ·)

/-- What is reported of an insertion. -/
def reported (x : Inserted) : Option Diagnostic :=
  match x.outcome with
  | .conflict _ previous => some (conflictDiagnostic x.qualifiedName x.entry previous)
  | _ => none

variable {m : Model} {i : Nat} {s : Scope}

theorem insertReporting_eq (hs : m.scopes[i]? = some s) (e : Entry) :
    m.insertReporting i e =
      ((m.insert i e).1, (reported ⟨s.path, e, (m.insert i e).2⟩).toList) := by
  simp only [insertReporting, hs, Option.bind_some, reported]
  rcases m.insert i e with ⟨m', o⟩
  cases o <;> rfl

/-- Inserting in turn makes a history, and every refusal is reported. -/
theorem History.insertAll {path : String} (h : History log m)
    (hs : ∃ s, m.scopes[i]? = some s ∧ s.path = path) (es : List Entry) :
    ∃ more, History (log ++ more) (m.insertAll i es).1 ∧
      more.map (fun x => (x.path, x.entry)) = es.map (path, ·) ∧
      (m.insertAll i es).2 = more.filterMap reported := by
  induction es generalizing log m with
  | nil => exact ⟨[], by simpa [Model.insertAll] using h, rfl, rfl⟩
  | cons e es ih =>
    obtain ⟨s, hs, rfl⟩ := hs
    -- The scope has other entries now, but the same path.
    have hkeep := keepsPaths_insert hs e i s hs
    obtain ⟨more, hmore, hmap, hds⟩ := ih (h.insert hs e) hkeep
    refine ⟨⟨s.path, e, (m.insert i e).2⟩ :: more, ?_, ?_, ?_⟩
    · rw [List.append_cons]
      simpa only [Model.insertAll, insertReporting_eq hs] using hmore
    · simp only [List.map_cons, hmap]
    · simp only [Model.insertAll, insertReporting_eq hs, hds, List.filterMap_cons]
      cases reported ⟨s.path, e, (m.insert i e).2⟩ <;> rfl

/-- Merging makes a history: it inserts what the other model has, scope by scope and in order. -/
theorem History.mergeScopes (h : History log m) (ss : List Scope) :
    ∃ more, History (log ++ more) (m.mergeScopes ss).1 ∧
      more.map (fun x => (x.path, x.entry)) = declarations ss ∧
      (m.mergeScopes ss).2 = more.filterMap reported := by
  induction ss generalizing log m with
  | nil => exact ⟨[], by simpa [Model.mergeScopes] using h, rfl, rfl⟩
  | cons t ts ih =>
    have ho := opened_scopeOrInsert h.tracks.valid t.path t.kind
    obtain ⟨more, hmore, hmap, hds⟩ := (h.scopeOrInsert t.path t.kind).insertAll ho.here t.entries
    obtain ⟨more', hmore', hmap', hds'⟩ := ih hmore
    refine ⟨more ++ more', ?_, ?_, ?_⟩
    · rw [← List.append_assoc]
      exact hmore'
    · rw [List.map_append, hmap, hmap']
      rfl
    · rw [List.filterMap_append, ← hds, ← hds']
      rfl

end HeaderDecl.Model
