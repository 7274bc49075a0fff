import HeaderDecl.Proofs.ClosedModel
import HeaderDecl.Proofs.DeclaredMeanings
import HeaderDecl.Proofs.GrowingModel
import HeaderDecl.Proofs.InsertionLaw
import HeaderDecl.Proofs.PlainNames
import HeaderDecl.Proofs.ResolutionWalks

/-!
Typedef chains and their bound. A chain of typedefs resolves if and only if it is no longer than the
bound, in whatever order its typedefs are declared: what is kept of earlier ones only saves the way.
-/

namespace HeaderDecl

/-! ### Qualifiers -/

namespace TypeExpr

/-- A type without the qualifiers in front of it. -/
def bare : TypeExpr → TypeExpr
  | .qualified _ t => t.bare
  | t => t

/-- A resolved type behind the qualifiers in front of a written one. -/
def requalify : TypeExpr → TypeRef → TypeRef
  | .qualified q t, u => .withQualifiers q (t.requalify u)
  | _, u => u

end TypeExpr

namespace TypeRef

theorem terminal_withQualifiers (q : Qualifiers) (t : TypeRef) :
    (withQualifiers q t).terminal = t.terminal := by
  unfold withQualifiers
  split
  · rfl
  · split <;> rfl

theorem terminal_requalify (t : TypeExpr) (u : TypeRef) : (t.requalify u).terminal = u.terminal := by
  fun_induction TypeExpr.requalify t u with
  | case1 q t u ih => rw [terminal_withQualifiers, ih]
  | case2 => rfl

/-- Qualifiers that stand on one another are joined to one layer. -/
theorem unqualified_requalify (t : TypeExpr) {u : TypeRef} (plain : ∀ q v, u ≠ .qualified q v) :
    (t.requalify u).unqualified = u := by
  -- Whatever number of layers was written, at most one is left.
  have layer : t.requalify u = u ∨ ∃ q, t.requalify u = .qualified q u := by
    fun_induction TypeExpr.requalify t u with
    | case1 q t u ih =>
      unfold withQualifiers
      rcases ih plain with same | ⟨r, same⟩
      · rw [same]
        split
        · exact .inl rfl
        · split
          · exact absurd rfl (plain _ _)
          · exact .inr ⟨q, rfl⟩
      · rw [same]
        split
        · exact .inr ⟨r, rfl⟩
        · exact .inr ⟨_, rfl⟩
    | case2 => exact .inl rfl
  rcases layer with same | ⟨q, same⟩
  · rw [same]
    unfold unqualified
    split
    · exact absurd rfl (plain _ _)
    · rfl
  · rw [same]
    rfl

end TypeRef

namespace Resolution

/-- Qualifiers make no difference to how a type is resolved. -/
theorem resolveType_bare (jump : Jump) (site : Site) (t : TypeExpr) (s : State) :
    resolveType jump site t s =
      ((resolveType jump site t.bare s).1.map t.requalify, (resolveType jump site t.bare s).2) := by
  fun_induction TypeExpr.bare t with
  | case1 q t ih =>
    change Resolver.bind (resolveType jump site t) _ s = _
    unfold Resolver.bind
    rw [ih]
    rcases resolveType jump site t.bare s with ⟨e | u, s'⟩ <;> rfl
  | case2 t =>
    have same : t.requalify = id := by
      funext u
      cases t <;> simp_all [TypeExpr.requalify]
    rw [same]
    rcases resolveType jump site t s with ⟨e | u, s'⟩ <;> rfl

/-! ### Chains -/

/-- Whether a name that is written in a scope is a declared one: of the names that it might stand for,
it is the first that is declared. -/
def Names (scope : String) (declared : List String) (p : PathExpr) (q : String) : Prop :=
  (∀ s ∈ p.scope, s.args = none) ∧
    ((lookupScopes ⟨scope, []⟩ p.absolute).map (Name.qualify · p.plainName)).find?
      (declared.contains ·) = some q

/-- Typedefs in a scope, each of which names the next one in the list. The last one names a type that
needs no declaration. Qualifiers may stand anywhere. -/
inductive Linked (scope : String) (declared : List String) (base : Primitive) :
    List (TypedefDecl TypeExpr) → Prop
  | first {t : TypedefDecl TypeExpr} (target : t.ty.bare = .primitive base) :
      Linked scope declared base [t]
  | next {t prev : TypedefDecl TypeExpr} {rest : List (TypedefDecl TypeExpr)} {p : PathExpr}
      (target : t.ty.bare = .path p)
      (names : Names scope declared p (Name.qualify scope prev.name))
      (before : Linked scope declared base (prev :: rest)) :
      Linked scope declared base (t :: prev :: rest)

/-- The qualified names of typedefs in a scope. -/
def typedefNames (scope : String) (ts : List (TypedefDecl TypeExpr)) : List String :=
  ts.map fun t => Name.qualify scope t.name

/-- A file that declares the typedefs of a chain in one scope and nothing else, in any order. -/
structure TypedefChain (items : List Item) (scope : String) (chain : List (TypedefDecl TypeExpr))
    (base : Primitive) : Prop where
  declared : List.Perm (declarations items) (chain.map fun t => (⟨scope, []⟩, .typedef t))
  distinct : (chain.map (·.name)).Nodup
  linked : Linked scope (typedefNames scope chain) base chain

section Lookup

variable {r : Registry} {declared : List String} {q name : String} {m : Meaning}

theorem findIn_of_first {resolving scopes : List String}
    (first : (scopes.map (Name.qualify · name)).find? (declared.contains ·) = some q)
    (here : r.find? resolving none q = some m)
    (unknown : ∀ n, n ∉ declared → r.find? resolving none n = none) :
    findIn r resolving none name scopes = some (q, m) := by
  induction scopes with
  | nil => cases first
  | cons scope scopes ih =>
    rw [List.map_cons, List.find?_cons] at first
    unfold findIn
    dsimp only
    split at first
    · cases first
      rw [here]
    · rename_i other
      rw [unknown _ (by simpa using other)]
      exact ih first

/-- A simple name names what the scope itself declares. -/
theorem names_simple {scope : String} (h : Name.qualify scope name ∈ declared) :
    Names scope declared (.simple name) (Name.qualify scope name) := by
  have innermost : ∃ outer, lookupScopes ⟨scope, []⟩ false = scope :: outer := by
    unfold lookupScopes Name.enclosing Name.enclosingChars
    by_cases root : scope.toList = []
    · refine ⟨[], ?_⟩
      rw [dif_pos root, ← root]
      simp
    · rw [dif_neg root]
      exact ⟨_, by simp; rfl⟩
  obtain ⟨outer, scopes⟩ := innermost
  refine ⟨fun s hs => (by cases hs), ?_⟩
  have plain : NamePath.plainName (NamePath.simple name : PathExpr) = name := by
    simp [NamePath.plainName, NamePath.segments, NamePath.simple]
  rw [plain]
  change (List.map _ (lookupScopes ⟨scope, []⟩ false)).find? _ = _
  rw [scopes, List.map_cons, List.find?_cons_of_pos (by simpa using h)]

end Lookup

section Chains

variable {items : List Item} {scope : String} {chain rest : List (TypedefDecl TypeExpr)}
  {base : Primitive} {t : TypedefDecl TypeExpr}

namespace TypedefChain

/-! ### What a chain registers -/

theorem mem_meanings (h : TypedefChain items scope chain base) {q : String} {m : Meaning} :
    m ∈ ((Registry.ofVisits (visitAll {} items)).meanings.get? q).getD [] ↔
      ∃ t ∈ chain, Name.qualify scope t.name = q ∧ m = .typedef t.ty ⟨scope, []⟩ := by
  have unspecialized : ∀ s origin v, Visit.decl (.specialization s) origin v ∉ visitAll {} items := by
    intro s origin v hw
    have mem := h.declared.mem_iff.mp (mem_declarations.mpr ⟨origin, hw⟩)
    simp at mem
  rw [Registry.ofVisits_of_unspecialized unspecialized, Registry.meanings_ofNames]
  change m ∈ (declarations items).filterMap (meaningUnder q) ↔ _
  rw [(h.declared.filterMap (meaningUnder q)).mem_iff]
  simp [meaningUnder, Registry.meaningOf, eq_comm]

theorem find?_declared (h : TypedefChain items scope chain base) (ht : t ∈ chain)
    (resolving : List String) :
    (Registry.ofVisits (visitAll {} items)).find? resolving none (Name.qualify scope t.name) =
      some (.typedef t.ty ⟨scope, []⟩) := by
  have here : .typedef t.ty ⟨scope, []⟩ ∈ ((Registry.ofVisits (visitAll {} items)).meanings.get?
      (Name.qualify scope t.name)).getD [] := h.mem_meanings.mpr ⟨t, ht, rfl, rfl⟩
  refine Registry.find?_of_same (List.ne_nil_of_mem here) (fun m hm => ?_) resolving none
  obtain ⟨t', ht', same, rfl⟩ := h.mem_meanings.mp hm
  have named : t'.name = t.name := Name.qualify_right_injective same
  rw [List.inj_on_of_nodup_map h.distinct ht' ht named]

theorem find?_undeclared (h : TypedefChain items scope chain base) {q : String}
    (hq : q ∉ typedefNames scope chain) (resolving : List String) :
    (Registry.ofVisits (visitAll {} items)).find? resolving none q = none := by
  refine Registry.find?_of_unknown (fun known => ?_) resolving none
  obtain ⟨m, hm⟩ := List.exists_mem_of_ne_nil _ known
  obtain ⟨t, ht, same, -⟩ := h.mem_meanings.mp hm
  exact hq (List.mem_map.mpr ⟨t, ht, same⟩)

/-- More types may be under way at once than there are typedefs in the chain. -/
theorem length_lt_depthBound (h : TypedefChain items scope chain base) :
    chain.length < (Registry.ofVisits (visitAll {} items)).depthBound := by
  have distinct : (typedefNames scope chain).Nodup := by
    have injective : Function.Injective (Name.qualify scope) := fun _ _ same =>
      Name.qualify_right_injective same
    have each := h.distinct.map injective
    rwa [List.map_map] at each
  have length : (typedefNames scope chain).length = chain.length := List.length_map _
  rw [← length]
  refine Registry.length_lt_depthBound distinct fun q hq => ?_
  obtain ⟨t, ht, rfl⟩ := List.mem_map.mp hq
  exact List.ne_nil_of_mem (h.mem_meanings.mpr ⟨t, ht, rfl, rfl⟩)

end TypedefChain

/-! ### Walking along a chain -/

/-- What holds while a chain is resolved: nothing else is registered, and what is kept of a typedef is
right. -/
structure Walked (items : List Item) (scope : String) (chain : List (TypedefDecl TypeExpr))
    (base : Primitive) (s : State) : Prop where
  registry : s.registry = Registry.ofVisits (visitAll {} items)
  terminals : ∀ t rest, t :: rest <:+ chain → ∀ u,
    s.terminals.get? (Name.qualify scope t.name) = some u → u.terminal = .primitive base ∧
      s.lengths.get? (Name.qualify scope t.name) = some (rest.length + 1)
  lengths : ∀ t rest, t :: rest <:+ chain → ∀ n,
    s.lengths.get? (Name.qualify scope t.name) = some n → n = rest.length + 1

/-- The end of a chain was reached from a typedef that has some others behind it. -/
structure ReachesEnd (items : List Item) (scope : String) (chain : List (TypedefDecl TypeExpr))
    (base : Primitive) (t : TypedefDecl TypeExpr) (rest : List (TypedefDecl TypeExpr)) (u : TypeRef)
    (s s' : State) : Prop where
  walked : Walked items scope chain base s'
  model : s'.model = s.model
  terminal : u.terminal = .primitive base
  length : s'.lengths.get? (Name.qualify scope t.name) = some (rest.length + 1)

/-- The error for a chain that has a number of typedefs still to go. -/
structure TooLong (scope : String) (chain : List (TypedefDecl TypeExpr)) (site : Site) (n : Nat)
    (e : FatalError) : Prop where
  bound : site.maxDepth < site.resolving.length + n
  cause : ∃ q ∈ typedefNames scope chain, e.cause = .cyclicTypedef q site.maxDepth

/-- A place in a scope from which typedefs led that are other ones than some that are still to go. -/
structure Site.Approaches (scope : String) (chain ahead : List (TypedefDecl TypeExpr))
    (site : Site) : Prop where
  view : site.view = ⟨scope, []⟩
  led : ∀ q ∈ site.resolving, q ∈ typedefNames scope chain
  fresh : ∀ q ∈ site.resolving, q ∉ typedefNames scope ahead

/-- A name leads to the end of a part of a chain, or the chain is too long from there. -/
def Walks (items : List Item) (scope : String) (chain : List (TypedefDecl TypeExpr))
    (base : Primitive) (site : Site) (t : TypedefDecl TypeExpr) (rest : List (TypedefDecl TypeExpr))
    (x : Resolver TypeRef) : Prop :=
  ∀ s, Walked items scope chain base s →
    match x s with
    | (.ok u, s') => ReachesEnd items scope chain base t rest u s s'
    | (.error e, _) => TooLong scope chain site (rest.length + 1) e

theorem names_apart (distinct : (chain.map (·.name)).Nodup) (suffix : t :: rest <:+ chain) :
    ∀ u ∈ rest, Name.qualify scope u.name ≠ Name.qualify scope t.name := by
  intro u hu same
  have nodup := (suffix.map (·.name)).sublist.nodup distinct
  rw [List.map_cons, List.nodup_cons, ← Name.qualify_right_injective same] at nodup
  exact nodup.1 (List.mem_map_of_mem hu)

theorem suffix_unique (distinct : (chain.map (·.name)).Nodup) {t' : TypedefDecl TypeExpr}
    {rest' : List (TypedefDecl TypeExpr)} (h : t :: rest <:+ chain) (h' : t' :: rest' <:+ chain)
    (same : Name.qualify scope t.name = Name.qualify scope t'.name) : rest = rest' := by
  -- Of two ends of a chain one lies within the other, where a name comes only once.
  rcases List.suffix_or_suffix_of_suffix h h' with within | within
  · rcases List.suffix_cons_iff.mp within with equal | inner
    · exact (List.cons.inj equal).2
    · exact absurd same (names_apart distinct h' t (inner.subset List.mem_cons_self))
  · rcases List.suffix_cons_iff.mp within with equal | inner
    · exact (List.cons.inj equal).2.symm
    · exact absurd same.symm (names_apart distinct h t' (inner.subset List.mem_cons_self))

section Kept

variable {s : State} (hs : Walked items scope chain base s) (distinct : (chain.map (·.name)).Nodup)
  (suffix : t :: rest <:+ chain)

include hs distinct suffix

theorem Walked.kept {u : TypeRef} (terminal : u.terminal = .primitive base)
    (length : s.lengths.get? (Name.qualify scope t.name) = some (rest.length + 1)) :
    Walked items scope chain base
      { s with terminals := s.terminals.insert (Name.qualify scope t.name) u } := by
  refine ⟨hs.registry, fun t' rest' suffix' v hv => ?_, hs.lengths⟩
  dsimp only at hv ⊢
  rw [NameMap.get?_insert] at hv
  split at hv
  · rename_i same
    cases hv
    rw [same, suffix_unique distinct suffix' suffix same]
    exact ⟨terminal, length⟩
  · exact hs.terminals t' rest' suffix' v hv

theorem Walked.measured : Walked items scope chain base
    { s with lengths := s.lengths.insert (Name.qualify scope t.name) (rest.length + 1) } := by
  refine ⟨hs.registry, fun t' rest' suffix' v hv => ?_, fun t' rest' suffix' n hn => ?_⟩
  · obtain ⟨terminal, length⟩ := hs.terminals t' rest' suffix' v hv
    refine ⟨terminal, ?_⟩
    dsimp only
    rw [NameMap.get?_insert]
    split
    · rw [suffix_unique distinct suffix' suffix ‹_›]
    · exact length
  · dsimp only at hn
    rw [NameMap.get?_insert] at hn
    split at hn
    · cases hn
      rw [suffix_unique distinct suffix' suffix ‹_›]
    · exact hs.lengths t' rest' suffix' n hn

end Kept

/-- What is kept of a chain makes no difference to where it ends. -/
theorem walks_terminalOf {jump : Jump} {site : Site} (distinct : (chain.map (·.name)).Nodup)
    (suffix : t :: rest <:+ chain)
    (walks : Walks items scope chain base site t rest
      (resolveTypedef jump site (Name.qualify scope t.name) t.ty)) :
    Walks items scope chain base site t rest
      (terminalOf jump site (Name.qualify scope t.name) t.ty) := by
  intro s hs
  rw [terminalOf_run]
  cases kept : s.terminals.get? (Name.qualify scope t.name) with
  | some u =>
    obtain ⟨terminal, length⟩ := hs.terminals t rest suffix u kept
    exact ⟨hs, rfl, terminal, length⟩
  | none =>
    -- It is resolved here, and the end is kept with the length beside it.
    have resolved := walks s hs
    rcases run : resolveTypedef jump site (Name.qualify scope t.name) t.ty s with ⟨e | u, s'⟩
    · rw [run] at resolved
      exact resolved
    · rw [run] at resolved
      obtain ⟨walked, model, terminal, length⟩ := resolved
      rw [← terminal_chainEnd] at terminal
      exact ⟨walked.kept distinct suffix terminal length, model, terminal, length⟩

theorem look_typedef (h : TypedefChain items scope chain base) {site : Site}
    (view : site.view = ⟨scope, []⟩) {p : PathExpr} (ht : t ∈ chain)
    (names : Names scope (typedefNames scope chain) p (Name.qualify scope t.name)) {s : State}
    (hs : Walked items scope chain base s) :
    look site none p s = (.ok (.meaning (Name.qualify scope t.name) (.typedef t.ty ⟨scope, []⟩)), s) := by
  obtain ⟨bare, first⟩ := names
  have own : ownType? site.view p = none := by
    have unsubstituted : p.scope.any (·.args.isSome) = false := by
      rw [List.any_eq_false]
      intro segment mem
      rw [bare segment mem]
      exact Bool.false_ne_true
    simp [ownType?, view, unsubstituted]
  -- Typedefs that are being resolved are found like all others, for nothing else has their names.
  have found := findIn_of_first first (h.find?_declared ht site.resolving)
    fun q hq => h.find?_undeclared hq site.resolving
  rw [← hs.registry, ← view] at found
  unfold look
  rw [own]
  dsimp only
  rw [bind_run]
  dsimp only [Resolver.get]
  rw [found, view]
  rfl

theorem Site.Approaches.pass {site : Site} {prev : TypedefDecl TypeExpr}
    (h : site.Approaches scope chain (t :: prev :: rest)) (distinct : (chain.map (·.name)).Nodup)
    (suffix : t :: prev :: rest <:+ chain) :
    Site.Approaches scope chain (prev :: rest)
      { site with resolving := site.resolving ++ [Name.qualify scope t.name] } := by
  refine ⟨h.view, fun q hq => ?_, fun q hq later => ?_⟩
  · rcases List.mem_append.mp hq with hq | hq
    · exact h.led q hq
    · rw [List.mem_singleton.mp hq]
      exact List.mem_map_of_mem (suffix.subset List.mem_cons_self)
  · rcases List.mem_append.mp hq with hq | hq
    · exact h.fresh q hq (List.mem_cons_of_mem _ later)
    · rw [List.mem_singleton.mp hq] at later
      obtain ⟨u, hu, same⟩ := List.mem_map.mp later
      exact names_apart distinct suffix u hu same

/-- The length of a chain is measured at its beginning, so it does not matter how its end was reached. -/
theorem walks_resolveTypedef_of_target {jump : Jump} {site : Site}
    (distinct : (chain.map (·.name)).Nodup) (suffix : t :: rest <:+ chain)
    (approaches : site.Approaches scope chain (t :: rest))
    (target : ∀ s, Walked items scope chain base s →
      match jump { site with resolving := site.resolving ++ [Name.qualify scope t.name] } t.ty s with
      | (.ok u, s') => Walked items scope chain base s' ∧ s'.model = s.model ∧
          u.terminal = .primitive base ∧ chainLength s'.lengths u = rest.length + 1
      | (.error e, _) => site.maxDepth < site.resolving.length + 1 + rest.length ∧
          ∃ q ∈ typedefNames scope chain, e.cause = .cyclicTypedef q site.maxDepth) :
    Walks items scope chain base site t rest
      (resolveTypedef jump site (Name.qualify scope t.name) t.ty) := by
  have declared : Name.qualify scope t.name ∈ typedefNames scope chain :=
    List.mem_map_of_mem (suffix.subset List.mem_cons_self)
  intro s hs
  unfold resolveTypedef
  cases may : site.mayResolve (Name.qualify scope t.name) with
  | true =>
    have reached := target s hs
    rw [if_pos rfl, bind_run]
    rcases run : jump { site with resolving := site.resolving ++ [Name.qualify scope t.name] } t.ty s
      with ⟨e | u, s'⟩
    · rw [run] at reached
      exact ⟨by have := reached.1; omega, reached.2⟩
    · rw [run] at reached
      obtain ⟨walked, model, terminal, length⟩ := reached
      dsimp only
      rw [bind_run]
      dsimp only [Resolver.get]
      rw [length]
      by_cases long : site.maxDepth < rest.length + 1
      · rw [if_pos long]
        exact ⟨by omega, _, declared, rfl⟩
      · rw [if_neg long]
        refine ⟨walked.measured distinct suffix, model, terminal, ?_⟩
        dsimp only
        rw [NameMap.get?_insert, if_pos rfl]
  | false =>
    -- The typedef is not being resolved, so the stack is full.
    have free : Name.qualify scope t.name ∉ site.resolving :=
      fun led => approaches.fresh _ led List.mem_cons_self
    have full : site.maxDepth ≤ site.resolving.length := by
      simpa [Site.mayResolve, free] using may
    refine ⟨by omega, site.resolving.head?.getD (Name.qualify scope t.name), ?_, rfl⟩
    cases led : site.resolving with
    | nil => exact declared
    | cons q rest => exact approaches.led q (led ▸ List.mem_cons_self)

theorem resolvePath_typedef (h : TypedefChain items scope chain base) {jump : Jump} {site : Site}
    (view : site.view = ⟨scope, []⟩) {p : PathExpr} (ht : t ∈ chain)
    (names : Names scope (typedefNames scope chain) p (Name.qualify scope t.name)) {s : State}
    (hs : Walked items scope chain base s) :
    resolvePath jump site none p s =
      match terminalOf jump site (Name.qualify scope t.name) t.ty s with
      | (.ok u, s') => (.ok (.typedef (Name.qualify scope t.name) u), s')
      | (.error e, s') => (.error e, s') := by
  have looked := look_typedef h view ht names hs
  obtain ⟨absolute, outer, ⟨last, args⟩⟩ := p
  unfold resolvePath
  rw [bind_run, looked]
  dsimp only
  rw [bind_run, ← view]
  rcases terminalOf jump site (Name.qualify scope t.name) t.ty s with ⟨e | u, s'⟩ <;> rfl

/-- From each typedef of a chain the walk gets to the end, or the chain is too long. -/
theorem walks_resolveTypedef (h : TypedefChain items scope chain base)
    {ahead : List (TypedefDecl TypeExpr)} (linked : Linked scope (typedefNames scope chain) base ahead)
    {fuel : Nat} {site : Site} (split : ahead = t :: rest) (suffix : t :: rest <:+ chain)
    (enough : rest.length < fuel) (approaches : site.Approaches scope chain (t :: rest)) :
    Walks items scope chain base site t rest
      (resolveTypedef (jumpWithin fuel) site (Name.qualify scope t.name) t.ty) := by
  obtain ⟨fuel, rfl⟩ := Nat.exists_eq_add_one_of_ne_zero (Nat.ne_zero_of_lt enough)
  -- By induction on the chain from its last typedef on, which needs no other one.
  induction linked generalizing t rest fuel site with
  | first target =>
    cases split
    refine walks_resolveTypedef_of_target h.distinct suffix approaches fun s hs => ?_
    rw [jumpWithin, resolveType_bare, target]
    refine ⟨hs, rfl, TypeRef.terminal_requalify _ _, ?_⟩
    unfold chainLength
    rw [TypeRef.unqualified_requalify]
    · rfl
    · exact nofun
  | @next t prev rest p target names before ih =>
    cases split
    obtain ⟨fuel, rfl⟩ := Nat.exists_eq_add_one_of_ne_zero
      (Nat.ne_zero_of_lt (Nat.lt_of_succ_lt_succ enough))
    have within : prev :: rest <:+ chain := (List.suffix_cons _ _).trans suffix
    have next : Site.Approaches scope chain (prev :: rest)
        { site with resolving := site.resolving ++ [Name.qualify scope t.name] } :=
      approaches.pass h.distinct suffix
    refine walks_resolveTypedef_of_target h.distinct suffix approaches fun s hs => ?_
    have walked := walks_terminalOf h.distinct within
      (ih rfl within next fuel (Nat.lt_of_succ_lt_succ enough)) s hs
    rw [jumpWithin, resolveType_bare, target, resolveType,
      resolvePath_typedef h next.view (within.subset List.mem_cons_self) names hs]
    rcases run : terminalOf (jumpWithin (fuel + 1))
      { site with resolving := site.resolving ++ [Name.qualify scope t.name] }
      (Name.qualify scope prev.name) prev.ty s with ⟨e | u, s'⟩
    · rw [run] at walked
      obtain ⟨bound, cause⟩ := walked
      rw [List.length_append, List.length_singleton] at bound
      exact ⟨bound, cause⟩
    · rw [run] at walked
      obtain ⟨hs', model, terminal, length⟩ := walked
      -- The length is one more than that of the typedef behind, which is measured by now.
      refine ⟨hs', model, (TypeRef.terminal_requalify _ _).trans terminal, ?_⟩
      unfold chainLength
      rw [TypeRef.unqualified_requalify]
      · dsimp only
        rw [length]
        rfl
      · exact nofun

end Chains

end Resolution

end HeaderDecl
