import HeaderDecl.Proofs.ModelTracking

/-!
Models that grow by insertions. Every entry stays in its place, or its definition takes that place, so
an insertion that changed nothing changes nothing later on.
-/

namespace HeaderDecl.Model

variable {m m' m'' : Model} {i : Nat} {s : Scope} {e old new : Entry} {r : DeclRef}

/-! ### The insertion of an entry that is declared already -/

theorem reconcile_self (d : ResolvedDecl) : reconcile d d = .same := by
  unfold reconcile
  rcases d.completeness? with _ | _ | _ <;> simp

theorem existing?_of_strange (strange : e.decl.identity = none) : m.existing? i s e = none := by
  unfold existing?
  rw [strange]

theorem existing?_of_named {q : String} {id : Identity} (identified : e.decl.identity = some id)
    (named : qualifiedName s e = some q) : m.existing? i s e =
      (m.refs q).find? fun r => (m.entry? r).any (hasIdentity true id) := by
  unfold existing?
  rw [identified, named]

theorem existing?_of_nameless {id : Identity} (identified : e.decl.identity = some id)
    (nameless : qualifiedName s e = none) : m.existing? i s e =
      (s.entries.findIdx? (hasIdentity false id)).map (⟨i, ·⟩) := by
  unfold existing?
  rw [identified, nameless]

theorem insert_of_new (hs : m.scopes[i]? = some s) (unmet : m.existing? i s e = none) :
    m.insert i e = ((m.append i s e).1, .added ⟨i, s.entries.length⟩) := by
  unfold insert
  rw [hs]
  dsimp only
  rw [unmet, Option.bind_none, ← place_append (e := e) (m := m)]

theorem insert_of_met (hs : m.scopes[i]? = some s) (met : m.existing? i s e = some r)
    (held : m.entry? r = some old) :
    m.insert i e = match reconcile old.decl e.decl with
      | .same => (m, .duplicate r)
      | .replace =>
        if e.decl.name.isSome then (m.replaceEntry r e, .completed r) else (m, .duplicate r)
      | .conflict => (m, .conflict r old.origin) := by
  unfold insert
  rw [hs]
  dsimp only
  cases decided : reconcile old.decl e.decl <;>
    simp only [met, Option.bind_some, held, Option.map_some, decided]

/-- What an entry is found to repeat has its identity, and a name if it has one. -/
theorem exists_of_met (hs : m.scopes[i]? = some s) (met : m.existing? i s e = some r) :
    ∃ old, m.entry? r = some old ∧ old.decl.identity = e.decl.identity ∧
      old.decl.name.isSome = e.decl.name.isSome := by
  cases identified : e.decl.identity with
  | none =>
    rw [existing?_of_strange identified] at met
    cases met
  | some id =>
    cases named : e.decl.name with
    | none =>
      have nameless : qualifiedName s e = none := by rw [qualifiedName, named, Option.map_none]
      rw [existing?_of_nameless identified nameless] at met
      obtain ⟨k, found, rfl⟩ := Option.map_eq_some_iff.mp met
      obtain ⟨inside, there, -⟩ := List.findIdx?_eq_some_iff_getElem.mp found
      refine ⟨s.entries[k], ?_, (hasIdentity_iff.mp there).symm⟩
      rw [entry?_of_scope hs]
      exact List.getElem?_eq_getElem inside
    | some n =>
      have qualified : qualifiedName s e = some (Name.qualify s.path n) := by
        rw [qualifiedName, named, Option.map_some]
      rw [existing?_of_named identified qualified] at met
      have has := List.find?_some met
      cases held : m.entry? r with
      | none =>
        rw [held] at has
        cases has
      | some old =>
        rw [held, Option.any_some] at has
        exact ⟨old, rfl, (hasIdentity_iff.mp has).symm⟩

/-! ### Growing -/

/-- An entry is still in its place, or its definition is. -/
def Keeps (old new : Entry) : Prop :=
  new = old ∨ old.decl.completeness? = some false ∧ new.decl.completeness? = some true ∧
    new.decl.identity = old.decl.identity ∧ old.decl.name.isSome ∧ new.decl.name.isSome

theorem Keeps.trans {last : Entry} (first : Keeps old new) (next : Keeps new last) :
    Keeps old last := by
  rcases next with rfl | completes
  · exact first
  · rcases first with rfl | ⟨-, complete, -⟩
    · exact .inr completes
    · -- A definition is not completed again.
      rw [completes.1] at complete
      cases complete

theorem Keeps.identity_eq (keeps : Keeps old new) : new.decl.identity = old.decl.identity := by
  rcases keeps with rfl | ⟨-, -, same, -⟩
  · rfl
  · exact same

theorem Keeps.hasIdentity_eq (keeps : Keeps old new) (named : Bool) (id : Identity) :
    hasIdentity named id new = hasIdentity named id old := by
  rcases keeps with rfl | ⟨-, -, same, was, is⟩
  · rfl
  · simp only [hasIdentity, same, was, is]

/-- What a model has is in a second one as well. -/
structure Grows (m m' : Model) : Prop where
  paths : m.KeepsPaths m'
  refs : ∀ q, m.refs q <+: m'.refs q
  held : ∀ r old, m.entry? r = some old → ∃ new, m'.entry? r = some new ∧ Keeps old new

theorem Grows.refl (m : Model) : m.Grows m :=
  ⟨KeepsPaths.refl m, fun _ => List.prefix_refl _, fun _ old held => ⟨old, held, .inl rfl⟩⟩

theorem Grows.trans (first : m.Grows m') (next : m'.Grows m'') : m.Grows m'' := by
  refine ⟨?_, fun q => (first.refs q).trans (next.refs q), ?_⟩
  · intro j t ht
    obtain ⟨t', ht', same⟩ := first.paths j t ht
    obtain ⟨t'', ht'', same'⟩ := next.paths j t' ht'
    exact ⟨t'', ht'', same'.trans same⟩
  · intro r old held
    obtain ⟨new, held', keeps⟩ := first.held r old held
    obtain ⟨last, held'', keeps'⟩ := next.held r new held'
    exact ⟨last, held'', keeps.trans keeps'⟩

/-- The place behind the entries of a scope is free. -/
theorem ne_end_of_held (hs : m.scopes[i]? = some s) (held : m.entry? r = some old) :
    r ≠ ⟨i, s.entries.length⟩ := by
  rintro rfl
  rw [entry?_of_scope hs, List.getElem?_eq_none (Nat.le_refl _)] at held
  cases held

theorem grows_append (hs : m.scopes[i]? = some s) (e : Entry) : m.Grows (m.append i s e).1 := by
  refine ⟨keepsPaths_append hs, ?_, ?_⟩
  · intro q
    rw [refs_append]
    split
    · exact List.prefix_append _ _
    · exact List.prefix_refl _
  · intro r old held
    rw [entry?_append hs, if_neg (ne_end_of_held hs held)]
    exact ⟨old, held, .inl rfl⟩

theorem grows_replaceEntry (held : m.entry? r = some old) (keeps : Keeps old e) :
    m.Grows (m.replaceEntry r e) := by
  refine ⟨keepsPaths_replaceEntry r, fun q => List.prefix_refl _, ?_⟩
  intro r' old' held'
  rw [entry?_replaceEntry held]
  split
  · rename_i same
    subst same
    obtain rfl : old = old' := Option.some.inj (held.symm.trans held')
    exact ⟨e, rfl, keeps⟩
  · exact ⟨old', held', .inl rfl⟩

theorem grows_insert (m : Model) (i : Nat) (e : Entry) : m.Grows (m.insert i e).1 := by
  cases hs : m.scopes[i]? with
  | none =>
    unfold insert
    rw [hs]
    exact .refl m
  | some s =>
    cases met : m.existing? i s e with
    | none =>
      rw [insert_of_new hs met]
      exact grows_append hs e
    | some r =>
      obtain ⟨old, held, identity, names⟩ := exists_of_met hs met
      rw [insert_of_met hs met held]
      cases decided : reconcile old.decl e.decl with
      | same => exact .refl m
      | conflict => exact .refl m
      | replace =>
        obtain ⟨incomplete, complete⟩ := reconcile_eq_replace.mp decided
        dsimp only
        split
        · rename_i named
          exact grows_replaceEntry held
            (.inr ⟨incomplete, complete, identity.symm, by rw [names, named], named⟩)
        · exact .refl m

theorem insertReporting_fst (m : Model) (i : Nat) (e : Entry) :
    (m.insertReporting i e).1 = (m.insert i e).1 := by
  unfold insertReporting
  rcases m.insert i e with ⟨m', o⟩
  cases o <;> rfl

theorem grows_insertReporting (m : Model) (i : Nat) (e : Entry) :
    m.Grows (m.insertReporting i e).1 := by
  rw [insertReporting_fst]
  exact grows_insert m i e

theorem History.insertReporting {log : List Inserted} (h : History log m)
    (hs : m.scopes[i]? = some s) (e : Entry) :
    History (log ++ [⟨s.path, e, (m.insert i e).2⟩]) (m.insertReporting i e).1 := by
  rw [insertReporting_fst]
  exact h.insert hs e

theorem grows_insertAll (m : Model) (i : Nat) (es : List Entry) :
    m.Grows (m.insertAll i es).1 := by
  induction es generalizing m with
  | nil => exact .refl m
  | cons e es ih => exact (grows_insertReporting m i e).trans (ih _)

theorem Opened.grows {path : String} (opened : Opened m path m' i) : m.Grows m' := by
  refine ⟨opened.keepsPaths, ?_, ?_⟩
  · intro q
    exact ⟨[], by rw [List.append_nil, opened.refs_eq]⟩
  · intro r old held
    rw [opened.entry?_eq]
    exact ⟨old, held, .inl rfl⟩

theorem History.grows_mergeScopes {log : List Inserted} (h : History log m) (ss : List Scope) :
    m.Grows (m.mergeScopes ss).1 := by
  induction ss generalizing log m with
  | nil => exact .refl m
  | cons t ts ih =>
    have opened := opened_scopeOrInsert h.tracks.valid t.path t.kind
    obtain ⟨more, inserted, -, -⟩ := (h.scopeOrInsert t.path t.kind).insertAll opened.here t.entries
    exact (opened.grows.trans (grows_insertAll _ _ _)).trans (ih inserted)

/-! ### Insertions that change nothing -/

/-- Every place under a name is taken. -/
def Filled (m : Model) : Prop := ∀ q, ∀ r ∈ m.refs q, (m.entry? r).isSome

theorem History.filled {log : List Inserted} (h : History log m) : m.Filled := by
  intro q r there
  rw [h.tracks.refs] at there
  obtain ⟨x, hx, placed⟩ := List.mem_filterMap.mp there
  rw [h.tracks.entry?_of_added (List.mem_filter.mp hx).1 (Inserted.place?_eq_some.mp placed)]
  rfl

/-- The places of a name go on to hold what identity they hold. -/
theorem Grows.find?_refs (grows : m.Grows m') (filled : m.Filled) (q : String) (id : Identity) :
    ((m.refs q).find? fun r => (m'.entry? r).any (hasIdentity true id)) =
      (m.refs q).find? fun r => (m.entry? r).any (hasIdentity true id) := by
  have agree : ∀ r ∈ m.refs q, (m'.entry? r).any (hasIdentity true id) =
      (m.entry? r).any (hasIdentity true id) := by
    intro r there
    obtain ⟨old, held⟩ := Option.isSome_iff_exists.mp (filled q r there)
    obtain ⟨new, held', keeps⟩ := grows.held r old held
    rw [held, held', Option.any_some, Option.any_some, keeps.hasIdentity_eq]
  rw [← List.head?_filter, List.filter_congr agree, List.head?_filter]

theorem Grows.findIdx?_entries (grows : m.Grows m') (hs : m.scopes[i]? = some s) {s' : Scope}
    (hs' : m'.scopes[i]? = some s') {id : Identity} {k : Nat}
    (found : s.entries.findIdx? (hasIdentity false id) = some k) :
    s'.entries.findIdx? (hasIdentity false id) = some k := by
  obtain ⟨inside, has, before⟩ := List.findIdx?_eq_some_iff_getElem.mp found
  have kept (j : Nat) (hj : j < s.entries.length) : ∃ hj' : j < s'.entries.length,
      hasIdentity false id s'.entries[j] = hasIdentity false id s.entries[j] := by
    have held : m.entry? ⟨i, j⟩ = some s.entries[j] := by
      rw [entry?_of_scope hs]
      exact List.getElem?_eq_getElem hj
    obtain ⟨new, held', keeps⟩ := grows.held _ _ held
    rw [entry?_of_scope hs'] at held'
    obtain ⟨hj', rfl⟩ := List.getElem?_eq_some_iff.mp held'
    exact ⟨hj', keeps.hasIdentity_eq false id⟩
  obtain ⟨inside', same⟩ := kept k inside
  refine List.findIdx?_eq_some_iff_getElem.mpr ⟨inside', same.trans has, fun j hj => ?_⟩
  obtain ⟨hj', same'⟩ := kept j (by omega)
  rw [same']
  exact before j hj

theorem Grows.existing? (grows : m.Grows m') (filled : m.Filled) (hs : m.scopes[i]? = some s)
    (met : m.existing? i s e = some r) :
    ∃ s', m'.scopes[i]? = some s' ∧ s'.path = s.path ∧ m'.existing? i s' e = some r := by
  obtain ⟨s', hs', path⟩ := grows.paths i s hs
  refine ⟨s', hs', path, ?_⟩
  have name : qualifiedName s' e = qualifiedName s e := by simp only [qualifiedName, path]
  cases identified : e.decl.identity with
  | none =>
    rw [existing?_of_strange identified] at met
    cases met
  | some id =>
    cases qualified : qualifiedName s e with
    | some q =>
      rw [existing?_of_named identified qualified] at met
      obtain ⟨more, longer⟩ := grows.refs q
      rw [existing?_of_named identified (name.trans qualified), ← longer, List.find?_append,
        grows.find?_refs filled, met, Option.some_or]
    | none =>
      rw [existing?_of_nameless identified qualified] at met
      obtain ⟨k, found, rfl⟩ := Option.map_eq_some_iff.mp met
      rw [existing?_of_nameless identified (name.trans qualified),
        grows.findIdx?_entries hs hs' found]
      rfl

/-- What is reported where an entry meets another one under a path. -/
def verdict (path : String) (e old : Entry) : List Diagnostic :=
  if reconcile old.decl e.decl = .conflict then
    [conflictDiagnostic (e.decl.name.map (Name.qualify path)) e old.origin]
  else []

theorem insertReporting_of_new (hs : m.scopes[i]? = some s) (unmet : m.existing? i s e = none) :
    m.insertReporting i e = ((m.append i s e).1, []) := by
  rw [insertReporting_eq hs, insert_of_new hs unmet]
  rfl

theorem report_of_met (hs : m.scopes[i]? = some s) (met : m.existing? i s e = some r)
    (held : m.entry? r = some old) : (m.insertReporting i e).2 = verdict s.path e old := by
  rw [insertReporting_eq hs, insert_of_met hs met held]
  unfold verdict
  cases reconcile old.decl e.decl with
  | same => rfl
  | conflict => rfl
  | replace =>
    dsimp only
    split <;> rfl

/-- Inserting the entry would change nothing and report the diagnostics. -/
structure Settled (m : Model) (i : Nat) (path : String) (e : Entry) (ds : List Diagnostic) : Prop where
  meets : ∃ s r old, m.scopes[i]? = some s ∧ s.path = path ∧ m.existing? i s e = some r ∧
    m.entry? r = some old ∧ ds = verdict path e old ∧
    (reconcile old.decl e.decl = .replace → e.decl.name = none)

variable {path : String} {ds : List Diagnostic}

theorem Settled.insertReporting (h : Settled m i path e ds) : m.insertReporting i e = (m, ds) := by
  obtain ⟨s, r, old, hs, rfl, met, held, rfl, stays⟩ := h.meets
  refine Prod.ext ?_ (report_of_met hs met held)
  rw [insertReporting_fst, insert_of_met hs met held]
  cases decided : reconcile old.decl e.decl with
  | same | conflict => rfl
  | replace =>
    rw [stays decided]
    rfl

theorem Settled.grows (h : Settled m i path e ds) (filled : m.Filled) (grows : m.Grows m') :
    Settled m' i path e ds := by
  obtain ⟨s, r, old, hs, rfl, met, held, rfl, stays⟩ := h.meets
  obtain ⟨s', hs', path, met'⟩ := grows.existing? filled hs met
  obtain ⟨new, held', keeps⟩ := grows.held r old held
  refine ⟨s', r, new, hs', path, met', held', ?_⟩
  rcases keeps with rfl | ⟨incomplete, complete, same, named, -⟩
  · exact ⟨rfl, stays⟩
  · -- The entry is a forward declaration too, so it agrees with the definition.
    obtain ⟨old', held'', identity, names⟩ := exists_of_met hs met
    obtain rfl : old = old' := Option.some.inj (held.symm.trans held'')
    obtain ⟨id, identified⟩ := Option.isSome_iff_exists.mp (identity_isSome named)
    have kinds := completeness?_isSome_of_identity identified (identity.symm.trans identified)
    have forward : e.decl.completeness? = some false := by
      rw [reconcile_eq_replace] at stays
      rw [incomplete] at kinds
      rcases known : e.decl.completeness? with _ | _ | _
      · rw [known] at kinds
        cases kinds
      · rfl
      · have nameless := stays ⟨incomplete, known⟩
        rw [names, nameless] at named
        cases named
    have before : reconcile old.decl e.decl = .same := by
      unfold reconcile
      rw [incomplete, forward]
    have after : reconcile new.decl e.decl = .same := by
      unfold reconcile
      rw [complete, forward]
    refine ⟨?_, fun replaces => ?_⟩
    · simp [verdict, before, after]
    · rw [after] at replaces
      cases replaces

/-- An entry that has just been appended is found at its place. -/
theorem existing?_append (filled : m.Filled) (hs : m.scopes[i]? = some s)
    (identified : e.decl.identity.isSome) (unmet : m.existing? i s e = none) :
    existing? (m.append i s e).1 i { s with entries := s.entries ++ [e] } e =
      some ⟨i, s.entries.length⟩ := by
  obtain ⟨id, identified⟩ := Option.isSome_iff_exists.mp identified
  have here : entry? (m.append i s e).1 ⟨i, s.entries.length⟩ = some e := by
    rw [entry?_append hs, if_pos rfl]
  have name : qualifiedName { s with entries := s.entries ++ [e] } e = qualifiedName s e := rfl
  cases qualified : qualifiedName s e with
  | some q =>
    have named : hasIdentity true id e = true :=
      hasIdentity_iff.mpr ⟨isSome_of_qualified qualified, identified⟩
    rw [existing?_of_named identified qualified] at unmet
    rw [existing?_of_named identified (name.trans qualified), refs_append, if_pos qualified, List.find?_append,
      (grows_append hs e).find?_refs filled, unmet, Option.none_or]
    simp [here, named]
  | none =>
    have nameless : hasIdentity false id e = true := by
      refine hasIdentity_iff.mpr ⟨?_, identified⟩
      rw [← Option.isSome_map (f := Name.qualify s.path)]
      exact congrArg Option.isSome qualified
    rw [existing?_of_nameless identified qualified, Option.map_eq_none_iff] at unmet
    rw [existing?_of_nameless identified (name.trans qualified), List.findIdx?_append, unmet]
    simp [nameless]

/-- What has been inserted is settled, with the report that it had. -/
theorem History.settled_insert {log : List Inserted} (h : History log m)
    (hs : m.scopes[i]? = some s) (identified : e.decl.identity.isSome) :
    Settled (m.insertReporting i e).1 i s.path e (m.insertReporting i e).2 := by
  have selfStays : reconcile e.decl e.decl = .replace → e.decl.name = none := by
    rw [reconcile_self]
    intro replaces
    cases replaces
  cases met : m.existing? i s e with
  | none =>
    rw [insertReporting_of_new hs met]
    refine ⟨_, _, e, ?_, ?_, existing?_append h.filled hs identified met, ?_, ?_, selfStays⟩
    · rw [getElem?_scopes_append hs, if_pos rfl]
    · rfl
    · rw [entry?_append hs, if_pos rfl]
    · simp [verdict, reconcile_self]
  | some r =>
    obtain ⟨old, held, -, -⟩ := exists_of_met hs met
    by_cases stays : reconcile old.decl e.decl = .replace → e.decl.name = none
    · have settled : Settled m i s.path e (verdict s.path e old) :=
        ⟨s, r, old, hs, rfl, met, held, rfl, stays⟩
      rw [settled.insertReporting]
      exact settled
    · obtain ⟨replaces, named⟩ := Classical.not_imp.mp stays
      have inserted : m.insert i e = (m.replaceEntry r e, .completed r) := by
        rw [insert_of_met hs met held, replaces]
        exact if_pos (Option.isSome_iff_ne_none.mpr named)
      obtain ⟨s', hs', path, met'⟩ := (grows_insert m i e).existing? h.filled hs met
      rw [inserted] at hs' met'
      rw [insertReporting_eq hs, inserted]
      refine ⟨s', r, e, hs', path, met', ?_, ?_, selfStays⟩
      · rw [entry?_replaceEntry held, if_pos rfl]
      · simp [verdict, reconcile_self, reported]

end HeaderDecl.Model
