import HeaderDecl.Proofs.ClosedModel
import HeaderDecl.Proofs.GrowingModel
import HeaderDecl.Proofs.InsertionLaw
import HeaderDecl.Proofs.ResolutionReports
import HeaderDecl.Proofs.TypedefChains

/-!
Files of typedefs that form a chain. Such a file has a model if and only if the chain is within the
bound, and then each typedef ends in the type that the chain ends in.
-/

namespace HeaderDecl

/-- A class of which something was inserted has an entry. -/
theorem Model.History.exists_lookup {log : List Inserted} {m : Model} (h : Model.History log m)
    {x : Inserted} (hx : x ∈ log) {q : String} {id : Identity} (key : x.key? = some (q, id)) :
    ∃ e ∈ m.lookup q, e.decl.identity = some id := by
  have member : x ∈ log.filter (·.key? = some (q, id)) := by simp [hx, key]
  obtain ⟨first, rest, hc⟩ := List.exists_cons_of_ne_nil (List.ne_nil_of_mem member)
  obtain ⟨r, appended, -⟩ := h.tracks.classes _ first rest hc
  obtain ⟨listed, there, identity⟩ :=
    (h.tracks.stores_iff q id r _).mpr ⟨first, rest, hc, appended, rfl⟩
  exact ⟨_, List.mem_filterMap.mpr ⟨r, listed, there⟩, identity⟩

theorem Decl.typedef_of_identity {d : ResolvedDecl} (h : d.identity = some .typedef) :
    ∃ t, d = .typedef t := by
  cases d with
  | typedef t => exact ⟨t, rfl⟩
  | record r =>
    dsimp only [identity] at h
    split at h <;> cases h
  | enum e =>
    have identity := Option.some.inj h
    split at identity <;> cases identity
  | function _ | var _ | constant _ | template _ | specialization _ => cases h

namespace Resolution

/-! ### What is inserted -/

theorem State.history_declare {log : List Inserted} {s : State} (h : Model.History log s.model)
    (path : String) (kind : ScopeKind) (e : Entry) :
    ∃ outcome, Model.History (log ++ [⟨path, e, outcome⟩]) (s.declare path kind e).model := by
  obtain ⟨sc, hsc, rfl⟩ := (Model.opened_scopeOrInsert h.tracks.valid path kind).here
  exact ⟨_, (h.scopeOrInsert sc.path kind).insertReporting hsc e⟩

/-- Constants are added to the model and to nothing else. -/
theorem each_addConstant_run {log : List Inserted} {s : State} (h : Model.History log s.model)
    (cs : List MacroConstant) : ∃ more m ds,
      Resolver.each addConstant cs s = (.ok (), { s with model := m, diagnostics := ds }) ∧
      Model.History (log ++ more) m ∧ ∀ x ∈ more, ∃ c, x.entry.decl = .constant c := by
  induction cs generalizing log s with
  | nil => exact ⟨[], s.model, s.diagnostics, rfl, by rwa [List.append_nil], by simp⟩
  | cons c cs ih =>
    obtain ⟨root, hroot, -⟩ := h.tracks.valid.root
    obtain ⟨more, m, ds, run, history, constants⟩ := ih (s := { s with
      model := (s.model.insertReporting Model.global ⟨.constant ⟨c.name, c.value⟩, c.loc⟩).1
      diagnostics := s.diagnostics ++
        (s.model.insertReporting Model.global ⟨.constant ⟨c.name, c.value⟩, c.loc⟩).2 })
      (h.insertReporting hroot ⟨.constant ⟨c.name, c.value⟩, c.loc⟩)
    rw [List.append_assoc] at history
    refine ⟨_, m, ds, run, history, fun x hx => ?_⟩
    rcases List.mem_append.mp hx with hx | hx
    · rw [List.mem_singleton.mp hx]
      exact ⟨_, rfl⟩
    · exact constants x hx

section Chains

variable {items : List Item} {scope : String} {chain rest : List (TypedefDecl TypeExpr)}
  {base : Primitive} {t : TypedefDecl TypeExpr} {log : List Inserted} {s : State}

/-- All typedefs that were inserted stand in one scope and end in one type. -/
def Filed (scope : String) (base : Primitive) (log : List Inserted) : Prop :=
  ∀ x ∈ log, ∀ d, x.entry.decl = .typedef d → x.path = scope ∧ d.ty.terminal = .primitive base

/-- The resolution of a typedef leaves it in the model, with the end of its chain. -/
structure Filing (items : List Item) (scope : String) (chain : List (TypedefDecl TypeExpr))
    (base : Primitive) (ts : List (TypedefDecl TypeExpr)) (bound : Nat) (log : List Inserted)
    (s : State) : Prop where
  walked : Walked items scope chain base s
  history : Model.History log s.model
  filed : Filed scope base log
  short : ∀ t ∈ ts, ∀ rest, t :: rest <:+ chain → rest.length + 1 ≤ bound
  inserted : ∀ t ∈ ts, ∃ x ∈ log, x.key? = some (Name.qualify scope t.name, .typedef)

theorem Filing.ends {ts : List (TypedefDecl TypeExpr)} {bound : Nat}
    (h : Filing items scope chain base ts bound log s) {name : String} {e : Entry}
    (he : e ∈ s.model.lookup (Name.qualify scope name)) {d : TypedefDecl TypeRef}
    (decl : e.decl = .typedef d) : d.name = name ∧ d.ty.terminal = .primitive base := by
  obtain ⟨x, hx, rfl, named⟩ := h.history.mem_lookup he
  obtain ⟨path, terminal⟩ := h.filed x hx d decl
  rw [Inserted.qualifiedName, path, decl] at named
  exact ⟨Name.qualify_right_injective (Option.some.inj named), terminal⟩

theorem Filing.exists_lookup {ts : List (TypedefDecl TypeExpr)} {bound : Nat}
    (h : Filing items scope chain base ts bound log s) (ht : t ∈ ts) :
    ∃ e ∈ s.model.lookup (Name.qualify scope t.name), ∃ ty, e.decl = .typedef ⟨t.name, ty⟩ := by
  obtain ⟨x, hx, key⟩ := h.inserted t ht
  obtain ⟨e, he, identity⟩ := h.history.exists_lookup hx key
  obtain ⟨d, decl⟩ := Decl.typedef_of_identity identity
  obtain ⟨named, -⟩ := h.ends he decl
  exact ⟨e, he, d.ty, by rw [decl, ← named]⟩

/-- The typedef that a visit declares. -/
def Visit.typedef? : Visit → Option (TypedefDecl TypeExpr)
  | .decl (.typedef t) _ _ => some t
  | _ => none

theorem Linked.of_suffix {declared : List String} {ahead : List (TypedefDecl TypeExpr)}
    (h : Linked scope declared base chain) (suffix : ahead <:+ chain) (more : ahead ≠ []) :
    Linked scope declared base ahead := by
  induction h with
  | first target =>
    rcases List.suffix_cons_iff.mp suffix with rfl | none
    · exact .first target
    · exact absurd (List.suffix_nil.mp none) more
  | next target names before ih =>
    rcases List.suffix_cons_iff.mp suffix with rfl | within
    · exact .next target names before
    · exact ih within

theorem resolveVisit_typedef (jump : Jump) (bound : Nat) (origin : Origin) (s : State) :
    resolveVisit jump bound (.decl (.typedef t) origin ⟨scope, []⟩) s =
      match resolveTypedef jump { maxDepth := bound, origin, view := ⟨scope, []⟩ }
        (Name.qualify scope t.name) t.ty s with
      | (.ok u, s') => (.ok (), s'.declare scope .namespaceScope ⟨.typedef ⟨t.name, u⟩, origin⟩)
      | (.error e, s') => (.error e, s') := by
  change Resolver.bind (Resolver.bind _ _) _ s = _
  unfold Resolver.bind
  dsimp only
  rcases resolveTypedef jump { maxDepth := bound, origin, view := ⟨scope, []⟩ }
    (Name.qualify scope t.name) t.ty s with ⟨e | u, s'⟩
  · rfl
  · exact run_declare scope .namespaceScope ⟨.typedef ⟨t.name, u⟩, origin⟩ s'

/-- The error for a chain that is longer than the bound. -/
def Exceeds (scope : String) (chain : List (TypedefDecl TypeExpr)) (bound : Nat) (e : FatalError) :
    Prop :=
  bound < chain.length ∧ ∃ q ∈ typedefNames scope chain, e.cause = .cyclicTypedef q bound

variable {bound : Nat} {done : List (TypedefDecl TypeExpr)}

/-- A typedef that is within the bound goes into the model behind the others. -/
theorem Filing.declare (h : TypedefChain items scope chain base) (suffix : t :: rest <:+ chain)
    (hs : Filing items scope chain base done bound log s) {s' : State}
    (walked : Walked items scope chain base s') (model : s'.model = s.model) {u : TypeRef}
    (terminal : u.terminal = .primitive base) (within : rest.length + 1 ≤ bound) (origin : Origin) :
    ∃ log', Filing items scope chain base (done ++ [t]) bound log'
      (s'.declare scope .namespaceScope ⟨.typedef ⟨t.name, u⟩, origin⟩) := by
  have history := hs.history
  rw [← model] at history
  obtain ⟨outcome, history⟩ := State.history_declare history scope .namespaceScope
    ⟨.typedef ⟨t.name, u⟩, origin⟩
  -- The log is longer by this typedef; of the others all is known already.
  refine ⟨_, ⟨⟨walked.registry, walked.terminals, walked.lengths⟩, history, ?_, ?_, ?_⟩⟩
  · intro x hx d decl
    rcases List.mem_append.mp hx with hx | hx
    · exact hs.filed x hx d decl
    · rw [List.mem_singleton.mp hx] at decl ⊢
      cases decl
      exact ⟨rfl, terminal⟩
  · intro t' ht' rest' suffix'
    rcases List.mem_append.mp ht' with ht' | ht'
    · exact hs.short t' ht' rest' suffix'
    · rw [List.mem_singleton.mp ht'] at suffix'
      rwa [suffix_unique h.distinct suffix' suffix (Eq.refl (Name.qualify scope t.name))]
  · intro t' ht'
    rcases List.mem_append.mp ht' with ht' | ht'
    · obtain ⟨x, hx, key⟩ := hs.inserted t' ht'
      exact ⟨x, List.mem_append_left _ hx, key⟩
    · rw [List.mem_singleton.mp ht']
      exact ⟨_, List.mem_append_right _ List.mem_cons_self, rfl⟩

theorem files_resolveVisit (h : TypedefChain items scope chain base) (suffix : t :: rest <:+ chain)
    (origin : Origin) (hs : Filing items scope chain base done bound log s) :
    match resolveVisit (jumpWithin (Registry.ofVisits (visitAll {} items)).depthBound) bound
      (.decl (.typedef t) origin ⟨scope, []⟩) s with
    | (.ok _, s') => ∃ log', Filing items scope chain base (done ++ [t]) bound log' s'
    | (.error e, _) => Exceeds scope chain bound e := by
  have shorter : rest.length + 1 ≤ chain.length := suffix.length_le
  have begins : Site.Approaches scope chain (t :: rest)
      { maxDepth := bound, origin, view := ⟨scope, []⟩ } :=
    ⟨rfl, by simp, by simp⟩
  have walks := walks_resolveTypedef h (h.linked.of_suffix suffix (List.cons_ne_nil _ _)) rfl suffix
    (Nat.lt_trans shorter h.length_lt_depthBound) begins s hs.walked
  rw [resolveVisit_typedef]
  rcases run : resolveTypedef (jumpWithin (Registry.ofVisits (visitAll {} items)).depthBound)
    { maxDepth := bound, origin, view := ⟨scope, []⟩ } (Name.qualify scope t.name) t.ty s
    with ⟨e | u, s'⟩
  · rw [run] at walks
    obtain ⟨long, cause⟩ := walks
    dsimp only [List.length_nil] at long
    exact ⟨by omega, cause⟩
  · rw [run] at walks
    obtain ⟨walked, model, terminal, length⟩ := walks
    obtain ⟨v, -, within, rfl⟩ := resolveTypedef_eq_ok run
    have measured : rest.length + 1 = chainLength v.lengths u := by
      dsimp only at length
      rw [NameMap.get?_insert, if_pos rfl] at length
      exact (Option.some.inj length).symm
    rw [← measured] at within
    exact hs.declare h suffix walked model terminal within origin

theorem files_each (h : TypedefChain items scope chain base) {ws : List Visit}
    (only : ∀ x ∈ ws.filterMap Visit.declaration?, ∃ t ∈ chain, x = (⟨scope, []⟩, .typedef t))
    (hs : Filing items scope chain base done bound log s) :
    match Resolver.each
      (resolveVisit (jumpWithin (Registry.ofVisits (visitAll {} items)).depthBound) bound) ws s with
    | (.ok _, s') => ∃ log',
        Filing items scope chain base (done ++ ws.filterMap Visit.typedef?) bound log' s'
    | (.error e, _) => Exceeds scope chain bound e := by
  induction ws generalizing done log s with
  | nil => exact ⟨log, by simpa using hs⟩
  | cons w ws ih =>
    cases w with
    | scope path kind =>
      -- The beginning of a scope inserts nothing.
      have opened : Filing items scope chain base done bound log
          { s with model := (s.model.scopeOrInsert path kind).1 } :=
        ⟨⟨hs.walked.registry, hs.walked.terminals, hs.walked.lengths⟩,
          hs.history.scopeOrInsert path kind, hs.filed, hs.short, hs.inserted⟩
      exact ih only opened
    | decl d origin v =>
      obtain ⟨t, ht, same⟩ := only (v, d) (List.mem_filterMap.mpr ⟨_, List.mem_cons_self, rfl⟩)
      cases same
      obtain ⟨others, rest, split⟩ := List.append_of_mem ht
      have visit := files_resolveVisit h ⟨others, split.symm⟩ origin hs
      rw [Resolver.each, bind_run]
      rcases run : resolveVisit (jumpWithin (Registry.ofVisits (visitAll {} items)).depthBound) bound
        (.decl (.typedef t) origin ⟨scope, []⟩) s with ⟨e | _, s'⟩
      · rw [run] at visit
        exact visit
      · rw [run] at visit
        obtain ⟨log', hs'⟩ := visit
        have later := ih (fun x hx => only x (by
          obtain ⟨w, hw, same⟩ := List.mem_filterMap.mp hx
          exact List.mem_filterMap.mpr ⟨w, List.mem_cons_of_mem _ hw, same⟩)) hs'
        simpa [Visit.typedef?] using later

end Chains

/-! ### Files -/

/-- A chain of typedefs has a model if and only if the bound allows for all of them. All types in the
model end where the chain does, and otherwise the error names one of the typedefs and the bound. -/
theorem resolve_typedefChain {items : List Item} {scope : String}
    {chain : List (TypedefDecl TypeExpr)} {base : Primitive}
    (h : TypedefChain items scope chain base) (constants : List MacroConstant) (config : Config) :
    ((∃ m, (resolve items constants config).1 = .ok m) ↔ chain.length ≤ config.maxTypedefDepth) ∧
    (∀ m, (resolve items constants config).1 = .ok m → ∀ t ∈ chain,
      (∃ e ∈ m.lookup (Name.qualify scope t.name), ∃ ty, e.decl = .typedef ⟨t.name, ty⟩) ∧
      ∀ e ∈ m.lookup (Name.qualify scope t.name), ∀ d, e.decl = .typedef d →
        d.name = t.name ∧ d.ty.terminal = .primitive base) ∧
    ∀ e, (resolve items constants config).1 = .error e →
      ∃ t ∈ chain, e.cause = .cyclicTypedef (Name.qualify scope t.name) config.maxTypedefDepth := by
  obtain ⟨log, m₀, ds, added, history, constant⟩ := each_addConstant_run
    (s := { registry := Registry.ofVisits (visitAll {} items) }) .empty constants
  -- The constants are in the model, and no typedef is.
  have start : Filing items scope chain base [] config.maxTypedefDepth log
      { registry := Registry.ofVisits (visitAll {} items), model := m₀, diagnostics := ds } := by
    refine ⟨⟨rfl, by simp, by simp⟩, history, fun x hx d decl => ?_, by simp, by simp⟩
    obtain ⟨c, same⟩ := constant x hx
    rw [same] at decl
    cases decl
  have only (x : View × ParsedDecl) (hx : x ∈ declarations items) :
      ∃ t ∈ chain, x = (⟨scope, []⟩, .typedef t) := by
    obtain ⟨t, ht, same⟩ := List.mem_map.mp (h.declared.mem_iff.mp hx)
    exact ⟨t, ht, same.symm⟩
  have visited (t : TypedefDecl TypeExpr) (ht : t ∈ chain) :
      t ∈ (visitAll {} items).filterMap Visit.typedef? := by
    obtain ⟨origin, hw⟩ := mem_declarations.mp (h.declared.mem_iff.mpr (List.mem_map_of_mem ht))
    exact List.mem_filterMap.mpr ⟨_, hw, rfl⟩
  have files := files_each h only start
  have whole := resolveSome_of_added added config (visitAll {} items)
  rw [resolve_result]
  rcases run : resolveSome items constants config (visitAll {} items) with ⟨e | u, s⟩
  · rw [← whole, run] at files
    obtain ⟨long, q, hq, cause⟩ := files
    obtain ⟨t, ht, rfl⟩ := List.mem_map.mp hq
    refine ⟨⟨nofun, fun short => absurd long (Nat.not_lt.mpr short)⟩, nofun, ?_⟩
    intro e' failed
    cases failed
    exact ⟨t, ht, cause⟩
  · rw [← whole, run] at files
    obtain ⟨log', filing⟩ := files
    -- The first typedef of the chain has all the others behind it.
    have short : chain.length ≤ config.maxTypedefDepth := by
      cases chain with
      | nil => exact Nat.zero_le _
      | cons t rest => exact filing.short t (visited t List.mem_cons_self) rest (List.suffix_refl _)
    refine ⟨⟨fun _ => short, fun _ => ⟨_, rfl⟩⟩, ?_, nofun⟩
    intro m ok t ht
    cases ok
    exact ⟨filing.exists_lookup (visited t ht), fun e he d decl => filing.ends he decl⟩

/-- Two typedefs in a namespace, of which the first one names the second. -/
def lengthInMetres : List (TypedefDecl TypeExpr) :=
  [⟨"length", .qualified ⟨false, true⟩ (.path (.simple "metre"))⟩,
    ⟨"metre", .qualified ⟨true, false⟩ (.primitive .int)⟩]

def unitsNamespace : List Item :=
  [.namespaceItem (some "units") (lengthInMetres.map fun t => .decl (.typedef t) [] ⟨"main.h", 1, 1⟩)
    ⟨"main.h", 1, 1⟩]

theorem resolve_typedefChain_units :
    (∃ m, (resolve unitsNamespace [] { maxTypedefDepth := 2 }).1 = .ok m ∧
      ∀ e ∈ m.lookup "units::length", ∀ d, e.decl = .typedef d → d.ty.terminal = .primitive .int) ∧
    ∃ e, (resolve unitsNamespace [] { maxTypedefDepth := 1 }).1 = .error e := by
  have chain : TypedefChain unitsNamespace "units" lengthInMetres .int :=
    { declared := List.Perm.refl _
      distinct := by decide
      linked := .next rfl (names_simple (by decide)) (.first rfl) }
  obtain ⟨bounded, ends, -⟩ := resolve_typedefChain chain [] { maxTypedefDepth := 2 }
  obtain ⟨m, ok⟩ := bounded.mpr (Nat.le_refl 2)
  obtain ⟨-, terminal⟩ := ends m ok _ List.mem_cons_self
  refine ⟨⟨m, ok, fun e he d decl => (terminal e he d decl).2⟩, ?_⟩
  have exceeded := (resolve_typedefChain chain [] { maxTypedefDepth := 1 }).1
  cases run : (resolve unitsNamespace [] { maxTypedefDepth := 1 }).1 with
  | ok m => exact absurd (exceeded.mp ⟨m, run⟩) (by decide)
  | error e => exact ⟨e, rfl⟩

end Resolution

end HeaderDecl
