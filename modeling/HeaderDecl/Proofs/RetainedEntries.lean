import HeaderDecl.Proofs.GrowingModel
import HeaderDecl.Proofs.PlainItems

/-!
What is left of an insertion in the end. Where names are identifiers, entries with one qualified name stand
in one scope, so that each entry is found in the scope that it was inserted in.
-/

namespace HeaderDecl

/-- An entry whose scope is told by its qualified name. -/
def Inserted.Fair (x : Inserted) : Prop :=
  (x.path = "" ∧ ∃ c, x.entry.decl = .constant c) ∨
    ∃ inRecord, x.entry.decl.Named inRecord ∧ (inRecord = false → Name.Bare x.path)

namespace Model

/-- Whether the scope with a path has an entry with the name and the identity of a given one. Without
an identity it has to have the entry itself. -/
def Retains (m : Model) (path : String) (e : Entry) : Prop :=
  ∃ s, m.scope? path = some s ∧ ∃ kept ∈ s.entries, kept.decl.name = e.decl.name ∧
    kept.decl.identity = e.decl.identity ∧ (e.decl.identity = none → kept = e)

variable {log : List Inserted} {m : Model} {x y : Inserted} {r : DeclRef}

/-! ### One scope for one name -/

/-- The names of functions may have colons in them, and only functions have the identity of one. -/
theorem plain_of_named {d : ResolvedDecl} {inRecord : Bool} (h : d.Named inRecord)
    (other : ∀ params isConst, d.identity ≠ some (.function params isConst)) :
    ∀ n ∈ d.name, Name.Plain n := by
  intro n hn
  cases d with
  | function f => exact absurd rfl (other _ _)
  | constant c => exact False.elim h
  | typedef t =>
    rw [show n = t.name from (Option.mem_some_iff.mp hn).symm]
    exact h
  | var v =>
    rw [show n = v.name from (Option.mem_some_iff.mp hn).symm]
    exact h
  | record r => exact h n hn
  | enum e => exact h n hn
  | template t => exact h n hn
  | specialization s => exact h n hn

theorem function_of_identity {d : ResolvedDecl} {inRecord : Bool} (h : d.Named inRecord)
    {params : List String} {isConst : Bool} (id : d.identity = some (.function params isConst)) :
    inRecord = false ∧ ∀ n ∈ d.name, ':' ∉ Name.word n.toList := by
  cases d with
  | function f =>
    refine ⟨h.1, fun n hn => ?_⟩
    rw [show n = f.name from (Option.mem_some_iff.mp hn).symm]
    exact h.2
  | record r => cases named : r.name <;> simp [Decl.identity, named] at id
  | enum e => cases named : e.name <;> simp [Decl.identity, named] at id
  | typedef t => cases id
  | var v => cases id
  | constant c => cases id
  | template t => cases id
  | specialization s => cases id

/-- Only constants have the identity of one. -/
theorem constant_of_identity {d : ResolvedDecl} (h : d.identity = some .constant) :
    ∃ c, d = .constant c := by
  cases d with
  | constant c => exact ⟨c, rfl⟩
  | record r => cases named : r.name <;> simp [Decl.identity, named] at h
  | enum e => cases named : e.name <;> simp [Decl.identity, named] at h
  | typedef t => cases h
  | function f => cases h
  | var v => cases h
  | template t => cases h
  | specialization s => cases h

/-- Entries of one class stand in one scope under one name. -/
theorem scope_of_class (hx : x.Fair) (hy : y.Fair) {k : String × Identity}
    (hxk : x.key? = some k) (hyk : y.key? = some k) :
    x.path = y.path ∧ x.entry.decl.name = y.entry.decl.name := by
  obtain ⟨hxq, hxi⟩ := key?_eq_some.mp hxk
  obtain ⟨hyq, hyi⟩ := key?_eq_some.mp hyk
  obtain ⟨n, hn, hxn⟩ := Option.map_eq_some_iff.mp hxq
  obtain ⟨n', hn', hyn⟩ := Option.map_eq_some_iff.mp hyq
  have same : Name.qualify x.path n = Name.qualify y.path n' := hxn.trans hyn.symm
  rw [hn, hn']
  rcases hx with ⟨rootx, c, hc⟩ | ⟨inRecord, named, bare⟩
  · -- Constants stand in the global scope.
    rw [hc] at hxi
    obtain ⟨c', hc'⟩ := constant_of_identity (hyi.trans hxi.symm)
    rcases hy with ⟨rooty, -⟩ | ⟨_, named', -⟩
    · rw [rootx, rooty] at same ⊢
      exact ⟨rfl, congrArg some (Name.qualify_right_injective same)⟩
    · rw [hc'] at named'
      exact False.elim named'
  · rcases hy with ⟨-, c', hc'⟩ | ⟨inRecord', named', bare'⟩
    · rw [hc'] at hyi
      obtain ⟨c, hc⟩ := constant_of_identity (hxi.trans hyi.symm)
      rw [hc] at named
      exact False.elim named
    · by_cases function : ∃ params isConst, k.2 = .function params isConst
      · obtain ⟨params, isConst, hk⟩ := function
        obtain ⟨outside, words⟩ := function_of_identity named (hxi.trans (congrArg some hk))
        obtain ⟨outside', words'⟩ := function_of_identity named' (hyi.trans (congrArg some hk))
        obtain ⟨path, name⟩ := Name.qualify_injective_of_bare (bare outside) (bare' outside')
          (words n hn) (words' n' hn') same
        exact ⟨path, congrArg some name⟩
      · -- All other names are identifiers, and are told from any path.
        have other {d : ResolvedDecl} (id : d.identity = some k.2) (params : List String)
            (isConst : Bool) : d.identity ≠ some (.function params isConst) := by
          rw [id]
          exact fun is => function ⟨params, isConst, Option.some.inj is⟩
        obtain ⟨path, name⟩ := Name.qualify_injective (plain_of_named named (other hxi) n hn).colon
          (plain_of_named named' (other hyi) n' hn').colon same
        exact ⟨path, congrArg some name⟩

/-! ### What is kept -/

/-- What is kept in the place of an entry has its name and its identity. -/
theorem kept_named (fair : ∀ y ∈ log, y.Fair) (hx : x ∈ log) :
    (kept log x).decl.name = x.entry.decl.name ∧
      (kept log x).decl.identity = x.entry.decl.identity := by
  refine ⟨?_, (kept_identity log x).1⟩
  rcases kept_cases log x with same | ⟨z, hz, hk, hs, -, same⟩
  · rw [same]
  · -- Another one of the class is kept, which has the name too.
    obtain ⟨k, hxk⟩ := Option.isSome_iff_exists.mp hs
    rw [same]
    exact (scope_of_class (fair z hz) (fair x hx) (hk.trans hxk) hxk).2

/-- An entry without an identity is kept as it is. -/
theorem kept_of_strange (strange : x.entry.decl.identity = none) : kept log x = x.entry := by
  rcases kept_cases log x with same | ⟨z, -, -, hs, -, -⟩
  · exact same
  · obtain ⟨k, hk⟩ := Option.isSome_iff_exists.mp hs
    have id := (key?_eq_some.mp hk).2
    rw [strange] at id
    cases id

/-- Where an entry was appended, there is what is kept of its class, in the scope with its path. -/
theorem Tracks.held_of_added (h : Tracks log m) (hx : x ∈ log) (hr : x.outcome = .added r) :
    ∃ s, m.scopes[r.scope]? = some s ∧ s.path = x.path ∧ s.entries[r.entry]? = some (kept log x) := by
  obtain ⟨s, hs, path⟩ := h.located x hx r hr
  refine ⟨s, hs, path, ?_⟩
  rw [← entry?_of_scope hs]
  exact h.entry?_of_added hx hr

theorem Tracks.retains_of_added (h : Tracks log m) (fair : ∀ y ∈ log, y.Fair) (hx : x ∈ log)
    (hr : x.outcome = .added r) : m.Retains x.path x.entry := by
  obtain ⟨s, hs, path, held⟩ := h.held_of_added hx hr
  refine ⟨s, ?_, kept log x, List.mem_of_getElem? held, ?_⟩
  · rw [scope?, (h.valid.index x.path r.scope).mpr ⟨s, hs, path⟩]
    exact hs
  · obtain ⟨name, id⟩ := kept_named fair hx
    exact ⟨name, id, kept_of_strange⟩

/-- An entry without a name was appended, or it repeats one in its own scope. -/
theorem History.added_of_nameless (h : History log m) (hx : x ∈ log)
    (nameless : x.entry.decl.name = none) : ∃ y ∈ log, (∃ r, y.outcome = .added r) ∧
      y.path = x.path ∧ y.entry.decl.name = none ∧ y.entry.decl.identity = x.entry.decl.identity ∧
        (x.entry.decl.identity = none → y = x) := by
  induction h with
  | empty => cases hx
  | scopeOrInsert h path kind ih => exact ih hx
  | @insert log m h i s hs e ih =>
    rcases List.mem_append.mp hx with hx | hx
    · obtain ⟨y, hy, rest⟩ := ih hx
      exact ⟨y, List.mem_append_left _ hy, rest⟩
    · obtain rfl := List.mem_singleton.mp hx
      have own : qualifiedName s e = none := by rw [qualifiedName, nameless, Option.map_none]
      cases met : m.existing? i s e with
      | none =>
        have last := List.mem_append_right log hx
        exact ⟨_, last, ⟨_, congrArg Prod.snd (insert_of_new hs met)⟩, rfl, nameless, rfl, fun _ => rfl⟩
      | some r =>
        -- It repeats an entry of the scope, which was appended there.
        obtain ⟨old, held, id, unnamed⟩ := exists_of_met hs met
        obtain ⟨y, hy, hr, same⟩ := (h.tracks.slots r old).mp held
        obtain ⟨keptId, keptName⟩ := kept_identity log y
        have name : y.entry.decl.name = none := by
          rw [← Option.isNone_iff_eq_none, ← Option.not_isSome, ← keptName, same, unnamed, nameless]
          rfl
        cases identified : e.decl.identity with
        | none =>
          rw [existing?_of_strange identified] at met
          cases met
        | some k =>
          rw [existing?_of_nameless identified own] at met
          obtain ⟨j, -, rfl⟩ := Option.map_eq_some_iff.mp met
          obtain ⟨s', hs', path⟩ := h.tracks.located y hy _ hr
          obtain rfl : s = s' := Option.some.inj (hs.symm.trans hs')
          refine ⟨y, List.mem_append_left _ hy, ⟨_, hr⟩, path.symm, name, ?_, ?_⟩
          · rw [← keptId, same, id]
            exact identified
          · intro none
            cases none

/-- Whatever became of an insertion, the scope has an entry of that name and identity. -/
theorem History.retains (h : History log m) (fair : ∀ y ∈ log, y.Fair) (hx : x ∈ log) :
    m.Retains x.path x.entry := by
  cases named : x.entry.decl.name with
  | none =>
    obtain ⟨y, hy, ⟨r, hr⟩, path, name, id, whole⟩ := h.added_of_nameless hx named
    obtain ⟨s, hs, kept, hk, keptName, keptId, keptWhole⟩ := h.tracks.retains_of_added fair hy hr
    refine ⟨s, path ▸ hs, kept, hk, ?_, keptId.trans id, fun strange => ?_⟩
    · rw [keptName, name, named]
    · rw [keptWhole (id.trans strange), whole strange]
  | some n =>
    have keyed : x.key?.isSome := by rw [key?_isSome, named, Option.isSome_some]
    obtain ⟨k, hk⟩ := Option.isSome_iff_exists.mp keyed
    -- The first of the class was appended, and it stands in the same scope.
    cases members : log.filter (·.key? = some k) with
    | nil => exact absurd (decide_eq_true hk) (List.filter_eq_nil_iff.mp members x hx)
    | cons first rest =>
      obtain ⟨hfirst, firstKey⟩ := Tracks.mem_of_class members
      obtain ⟨r, hr, -⟩ := h.tracks.classes k first rest members
      obtain ⟨path, name⟩ := scope_of_class (fair first hfirst) (fair x hx) firstKey hk
      obtain ⟨s, hs, kept, hkept, keptName, keptId, -⟩ := h.tracks.retains_of_added fair hfirst hr
      have id := (key?_eq_some.mp hk).2
      refine ⟨s, path ▸ hs, kept, hkept, keptName.trans name, ?_, fun strange => ?_⟩
      · rw [keptId, (key?_eq_some.mp firstKey).2, id]
      · rw [strange] at id
        cases id

/-! ### The order of entries -/

/-- In every scope the entries stand in the order in which they were appended. -/
theorem History.places_increase (h : History log m) : (log.filterMap (·.place?)).Pairwise
    fun r r' => r.scope = r'.scope → r.entry < r'.entry := by
  induction h with
  | empty => exact .nil
  | scopeOrInsert h path kind ih => exact ih
  | @insert log m h i s hs e ih =>
    rw [List.filterMap_append, List.pairwise_append]
    refine ⟨ih, List.Pairwise.filterMap _ ?_ (List.pairwise_singleton (fun _ _ => False) _), ?_⟩
    · exact fun _ _ absurd => absurd.elim
    intro r hr r' hr' same
    obtain ⟨x, hx, place⟩ := List.mem_filterMap.mp hr
    obtain ⟨y, hy, place'⟩ := List.mem_filterMap.mp hr'
    obtain rfl := List.mem_singleton.mp hy
    have added := Inserted.place?_eq_some.mp place'
    obtain ⟨t, ht, -, held⟩ := h.tracks.held_of_added hx (Inserted.place?_eq_some.mp place)
    -- A new entry goes behind those of its scope.
    rcases insert_cases hs e with hi | ⟨_, _, -, hi | ⟨hi, -⟩ | hi⟩
    · rw [hi] at added
      obtain rfl := Insertion.added.inj added
      rw [same] at ht
      obtain rfl : s = t := Option.some.inj (hs.symm.trans ht)
      exact (List.getElem?_eq_some_iff.mp held).1
    · rw [hi] at added
      cases added
    · rw [hi] at added
      cases added
    · rw [hi] at added
      cases added

end Model

end HeaderDecl
