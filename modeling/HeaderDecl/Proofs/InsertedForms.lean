import HeaderDecl.Proofs.ClosedModel
import HeaderDecl.Proofs.ReorderedUnits
import HeaderDecl.Proofs.RetainedEntries

/-!
The resolved forms of a unit in its model. All that is inserted is implied or the resolved form of a
declaration, and whatever is inserted, the model has something that was inserted under the same name with
the same identity.
-/

namespace HeaderDecl

namespace Model

variable {log : List Inserted} {m : Model} {x : Inserted}

/-- Of all that was inserted under a name with an identity, something is left in the end. -/
theorem History.exists_entry (h : History log m) (hx : x ∈ log) :
    ∃ z ∈ log, (∃ s ∈ m.scopes, z.entry ∈ s.entries) ∧ z.qualifiedName = x.qualifiedName ∧
      z.entry.decl.identity = x.entry.decl.identity := by
  have held {r : DeclRef} {e : Entry} (he : m.entry? r = some e) : ∃ s ∈ m.scopes, e ∈ s.entries := by
    obtain ⟨s, hs, here⟩ := entry?_eq_some.mp he
    exact ⟨s, List.mem_of_getElem? hs, List.mem_of_getElem? here⟩
  cases key : x.key? with
  | none =>
    -- It has no name, and repeats something in its own scope that has none either.
    have nameless : x.entry.decl.name = none := by
      rw [← Option.isNone_iff_eq_none, ← Option.not_isSome, ← key?_isSome, key]
      rfl
    obtain ⟨y, hy, ⟨r, added⟩, path, unnamed, id, -⟩ := h.added_of_nameless hx nameless
    have own : kept log y = y.entry := by
      rcases kept_cases log y with same | ⟨_, -, -, keyed, -, -⟩
      · exact same
      · rw [key?_isSome, unnamed] at keyed
        cases keyed
    refine ⟨y, hy, ?_, ?_, id⟩
    · rw [← own]
      exact held (h.tracks.entry?_of_added hy added)
    · rw [Inserted.qualifiedName, Inserted.qualifiedName, unnamed, nameless]
      rfl
  | some k =>
    have member : x ∈ log.filter (·.key? = some k) := by simp [hx, key]
    obtain ⟨y, rest, members⟩ := List.exists_cons_of_ne_nil (List.ne_nil_of_mem member)
    obtain ⟨hy, firstKey⟩ := Tracks.mem_of_class members
    obtain ⟨r, added, -⟩ := h.tracks.classes k y rest members
    have there := held (h.tracks.entry?_of_added hy added)
    have alike {z : Inserted} (hz : z.key? = some k) : z.qualifiedName = x.qualifiedName ∧
        z.entry.decl.identity = x.entry.decl.identity := by
      obtain ⟨name, id⟩ := key?_eq_some.mp hz
      obtain ⟨name', id'⟩ := key?_eq_some.mp key
      exact ⟨name.trans name'.symm, id.trans id'.symm⟩
    -- The first of the class was appended, and it or a complete one of the class is kept.
    rcases kept_cases log y with same | ⟨z, hz, hk, -, -, same⟩
    · exact ⟨y, hy, same ▸ there, alike firstKey⟩
    · exact ⟨z, hz, same ▸ there, alike (hk.trans firstKey)⟩

end Model

namespace Resolution

/-- What was inserted up to some point of a resolution: all of it is implied, or the resolved form of a
declaration in the scope of its view. -/
structure Logged (items : List Item) (constants : List MacroConstant) (config : Config)
    (log : List Inserted) (s : State) : Prop where
  sound : Sound (visitAll {} items) log s
  forms : ∀ x ∈ log, Implied x.entry ∨ ∃ d origin view d',
    ResolvesTo items constants config d origin view d' ∧ x.path = view.scope ∧ x.entry = ⟨d', origin⟩

section Logged

variable {items : List Item} {constants : List MacroConstant} {config : Config} {log : List Inserted}
  {s t : State} {before behind : List Visit}

theorem resolveSome_snoc {w : Visit} (run : resolveSome items constants config before = (.ok (), s)) :
    resolveSome items constants config (before ++ [w]) =
      resolveVisit (jumpWithin (Registry.ofVisits (visitAll {} items)).depthBound)
        config.maxTypedefDepth w s := by
  obtain ⟨_, u, added, visited⟩ := bind_eq_ok run
  rw [resolveSome_of_added added, each_append_of_ok visited, Resolver.each, bind_run]
  rcases resolveVisit _ _ w s with ⟨e | _, t⟩ <;> rfl

theorem Logged.append {more : List Inserted} (h : Logged items constants config log s)
    (sound : Sound (visitAll {} items) (log ++ more) t)
    (forms : ∀ x ∈ more, Implied x.entry ∨ ∃ d origin view d',
      ResolvesTo items constants config d origin view d' ∧ x.path = view.scope ∧
        x.entry = ⟨d', origin⟩) : Logged items constants config (log ++ more) t := by
  refine ⟨sound, fun x hx => ?_⟩
  rcases List.mem_append.mp hx with hx | hx
  · exact h.forms x hx
  · exact forms x hx

/-- A declaration is inserted in its resolved form. -/
theorem Logged.declare (h : Logged items constants config log s) {d : ParsedDecl} {origin : Origin}
    {view : View} (split : visitAll {} items = before ++ .decl d origin view :: behind)
    (run : resolveSome items constants config before = (.ok (), s)) {d' : ResolvedDecl}
    (resolved : resolveDecl (jumpWithin (Registry.ofVisits (visitAll {} items)).depthBound)
      ⟨config.maxTypedefDepth, origin, [], view⟩ d s = (.ok d', t)) :
    ∃ more, Logged items constants config (log ++ more)
        (t.declare view.scope .namespaceScope ⟨d', origin⟩) ∧
      ∃ x ∈ more, x.path = view.scope ∧ x.entry = ⟨d', origin⟩ := by
  have mem : .decl d origin view ∈ visitAll {} items := by simp [split]
  obtain ⟨implied, x, byTypes, path, entry, sound⟩ :=
    declare_sound (resolves_jumpWithin _) mem h.sound resolved
  refine ⟨implied ++ [x], h.append sound fun y hy => ?_, x, by simp, path, entry⟩
  rcases List.mem_append.mp hy with hy | hy
  · exact Or.inl (byTypes y hy)
  · rw [List.mem_singleton.mp hy]
    exact Or.inr ⟨d, origin, view, d', ⟨before, behind, s, t, split, run, resolved⟩, path, entry⟩

theorem Logged.visits {rest : List Visit} (h : Logged items constants config log s)
    (split : visitAll {} items = before ++ (behind ++ rest))
    (run : resolveSome items constants config before = (.ok (), s))
    (later : Resolver.each (resolveVisit (jumpWithin (Registry.ofVisits (visitAll {} items)).depthBound)
      config.maxTypedefDepth) behind s = (.ok (), t)) :
    ∃ more, Logged items constants config (log ++ more) t := by
  induction behind generalizing before log s with
  | nil =>
    cases later
    exact ⟨[], by rwa [List.append_nil]⟩
  | cons w behind ih =>
    obtain ⟨_, u, here, later⟩ := bind_eq_ok later
    have run' : resolveSome items constants config (before ++ [w]) = (.ok (), u) :=
      (resolveSome_snoc run).trans here
    have split' : visitAll {} items = (before ++ [w]) ++ (behind ++ rest) := by simpa using split
    cases w with
    | scope path kind =>
      cases here
      exact ih ⟨h.sound.scope path kind, h.forms⟩ split' run' later
    | decl d origin view =>
      obtain ⟨d', v, resolved, rfl⟩ := resolveVisit_eq_ok here
      obtain ⟨more, declared, -⟩ := h.declare split run resolved
      obtain ⟨more', ht⟩ := ih declared split' run' later
      exact ⟨more ++ more', by rwa [← List.append_assoc]⟩

/-- At every point of a resolution there is an account of what was inserted. -/
theorem exists_logged (split : visitAll {} items = before ++ behind)
    (run : resolveSome items constants config before = (.ok (), s)) :
    ∃ log, Logged items constants config log s := by
  obtain ⟨_, u, added, visited⟩ := bind_eq_ok run
  obtain ⟨first, sound, implied⟩ := each_addConstant_sound (sound_start (visitAll {} items)) added
  have start : Logged items constants config first u := ⟨sound, fun x hx => Or.inl (implied x hx)⟩
  obtain ⟨more, logged⟩ := start.visits split (resolveSome_of_added added config []) visited
  exact ⟨_, logged⟩

/-- When all is resolved, a declaration was resolved and added to the model, and the rest came behind it. -/
theorem ResolvesTo.exists_run {d : ParsedDecl} {origin : Origin} {view : View} {d' : ResolvedDecl}
    (h : ResolvesTo items constants config d origin view d')
    (whole : resolveSome items constants config (visitAll {} items) = (.ok (), t)) :
    ∃ before behind s u, visitAll {} items = before ++ .decl d origin view :: behind ∧
      resolveSome items constants config before = (.ok (), s) ∧
      resolveDecl (jumpWithin (Registry.ofVisits (visitAll {} items)).depthBound)
        ⟨config.maxTypedefDepth, origin, [], view⟩ d s = (.ok d', u) ∧
      Resolver.each (resolveVisit (jumpWithin (Registry.ofVisits (visitAll {} items)).depthBound)
        config.maxTypedefDepth) behind (u.declare view.scope .namespaceScope ⟨d', origin⟩) =
          (.ok (), t) := by
  obtain ⟨before, behind, s, u, split, run, resolved⟩ := h
  refine ⟨before, behind, s, u, split, run, resolved, ?_⟩
  rw [split] at whole
  obtain ⟨s', run', later⟩ := resolveSome_append whole
  rw [run] at run'
  cases run'
  obtain ⟨_, v, here, later⟩ := bind_eq_ok later
  obtain ⟨_, _, again, rfl⟩ := resolveVisit_eq_ok here
  rw [resolved] at again
  cases again
  exact later

/-- The resolved form of a declaration was inserted when all is resolved. -/
theorem ResolvesTo.logged {d : ParsedDecl} {origin : Origin} {view : View} {d' : ResolvedDecl}
    (h : ResolvesTo items constants config d origin view d')
    (whole : resolveSome items constants config (visitAll {} items) = (.ok (), t)) :
    ∃ log, Logged items constants config log t ∧
      ∃ x ∈ log, x.path = view.scope ∧ x.entry = ⟨d', origin⟩ := by
  obtain ⟨before, behind, s, u, split, run, resolved, later⟩ := h.exists_run whole
  obtain ⟨log, hs⟩ := exists_logged split run
  obtain ⟨more, declared, x, hx, path, entry⟩ := hs.declare split run resolved
  have run' : resolveSome items constants config (before ++ [.decl d origin view]) =
      (.ok (), u.declare view.scope .namespaceScope ⟨d', origin⟩) := by
    rw [resolveSome_snoc run, resolveVisit, bind_run, resolved]
    exact run_declare _ _ _ _
  have split' : visitAll {} items = (before ++ [.decl d origin view]) ++ (behind ++ []) := by
    simpa using split
  obtain ⟨more', logged⟩ := declared.visits split' run' later
  exact ⟨_, logged, x, by simp [hx], path, entry⟩

end Logged

end Resolution

end HeaderDecl
