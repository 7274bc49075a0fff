import HeaderDecl.Proofs.DeclaredMeanings
import HeaderDecl.Proofs.ResolutionWalks

/-!
The ends of typedef chains that are kept during a resolution. Where every name has one meaning, there is
only one type that the chain of a name can end in, so that it makes no difference what was resolved
before, or whether it was resolved in this file or in one with the same names.
-/

namespace HeaderDecl.Resolution

/-! ### What a name is found to be -/

/-- What a name is found to be in a registry, while no typedef is being resolved. -/
def Registry.found (r : Registry) (u : NameUse) : Option Found :=
  match ownType? u.view u.path with
  | some t => some (.type t)
  | none =>
    let name := u.path.plainName
    match findIn r [] u.kind name (lookupScopes u.view u.path.absolute) with
    | some (q, m) => some (.meaning q m)
    | none => if wellKnown.contains name then some (.type (.builtin name)) else none

/-- Whether a name is found, if it stands behind a keyword. -/
def Declared (r : Registry) (u : NameUse) : Prop := u.kind.isSome → (r.found u).isSome

/-- The meaning of a name, if it has only one. -/
def Registry.Means (r : Registry) (name : String) (m : Meaning) : Prop := r.find? [] none name = some m

/-- A registry in which a name is looked up alike whatever is being resolved, and of which nothing is
changed, as there are no specializations and names behind keywords are declared. -/
structure Steady (r : Registry) : Prop where
  find : ∀ resolving kind name, r.find? resolving kind name = r.find? [] kind name
  means : ∀ kind name m, r.find? [] kind name = some m → r.Means name m
  patterns : r.patterns = .empty
  targets : ∀ name target view, r.Means name (.typedef target view) →
    LooksUpOnly (Declared r) view target
  defaults : ∀ name kind params view, r.Means name (.template kind params view) →
    ∀ p ∈ params, ∀ t ∈ p.types, LooksUpOnly (Declared r) (view.withParams params) t

/-- Registries in which all names have the same meanings. -/
def Registry.Alike (r r' : Registry) : Prop := ∀ kind name, r.find? [] kind name = r'.find? [] kind name

theorem findIn_congr {r r' : Registry} {resolving resolving' : List String} {kind : Option NamedKind}
    (same : ∀ name, r.find? resolving kind name = r'.find? resolving' kind name) (name : String)
    (scopes : List String) :
    findIn r resolving kind name scopes = findIn r' resolving' kind name scopes := by
  induction scopes with
  | nil => rfl
  | cons scope scopes ih =>
    unfold findIn
    dsimp only
    rw [same, ih]

theorem Registry.Alike.found {r r' : Registry} (h : r.Alike r') (u : NameUse) :
    r.found u = r'.found u := by
  unfold Registry.found
  dsimp only
  rw [findIn_congr (h u.kind)]

theorem Registry.Alike.means {r r' : Registry} (h : r.Alike r') {name : String} {m : Meaning}
    (known : r.Means name m) : r'.Means name m :=
  (h none name).symm.trans known

section Lookup

variable {r : Registry} {site : Site} {kind : Option NamedKind} {p : PathExpr} {s t : State}

theorem Registry.found_known (h : Steady r) {u : NameUse} {f : Found} (found : r.found u = some f) :
    f.Known r.Means := by
  unfold Registry.found at found
  split at found
  · cases found
    trivial
  · dsimp only at found
    split at found
    · cases found
      exact h.means _ _ _ (find?_of_findIn ‹_›)
    · split at found
      · cases found
        trivial
      · cases found

/-- Whether a name that is looked up is found at a site as it is where no typedef is being resolved. -/
def FindsAlike (r : Registry) (s : State) (site : Site) (kind : Option NamedKind) (p : PathExpr) :
    Prop :=
  ownType? site.view p = none →
    findIn s.registry site.resolving kind p.plainName (lookupScopes site.view p.absolute) =
      findIn r [] kind p.plainName (lookupScopes site.view p.absolute)

theorem Steady.findsAlike (h : Steady r) (registry : s.registry = r) : FindsAlike r s site kind p := by
  intro _
  rw [registry, findIn_congr fun name => h.find site.resolving kind name]

theorem look_of_found (alike : FindsAlike r s site kind p) {f : Found}
    (found : r.found ⟨site.view, kind, p⟩ = some f) : look site kind p s = (.ok f, s) := by
  unfold Registry.found at found
  unfold look
  cases own : ownType? site.view p with
  | some type =>
    rw [own] at found
    cases found
    rfl
  | none =>
    rw [own] at found
    dsimp only at found ⊢
    rw [bind_run]
    dsimp only [Resolver.get]
    rw [alike own]
    cases known : findIn r [] kind p.plainName (lookupScopes site.view p.absolute) with
    | some meaning =>
      rw [known] at found
      cases found
      rfl
    | none =>
      rw [known] at found
      obtain ⟨library, same⟩ := Option.ite_none_right_eq_some.mp found
      cases same
      dsimp only
      rw [if_pos library]
      rfl

theorem look_eq_ok (alike : FindsAlike r s site kind p) (declared : Declared r ⟨site.view, kind, p⟩)
    {f : Found} (run : look site kind p s = (.ok f, t)) :
    r.found ⟨site.view, kind, p⟩ = some f ∧ t = s := by
  unfold Declared Registry.found at declared
  unfold look at run
  unfold Registry.found
  cases own : ownType? site.view p with
  | some type =>
    rw [own] at run
    cases run
    exact ⟨rfl, rfl⟩
  | none =>
    rw [own] at run declared
    obtain ⟨_, _, got, run⟩ := bind_eq_ok run
    cases got
    dsimp only at run declared ⊢
    rw [alike own] at run
    cases found : findIn r [] kind p.plainName (lookupScopes site.view p.absolute) with
    | some known =>
      rw [found] at run
      cases run
      exact ⟨rfl, rfl⟩
    | none =>
      rw [found] at run declared
      dsimp only at run declared ⊢
      split at run
      · rename_i library
        cases run
        rw [if_pos library]
        exact ⟨rfl, rfl⟩
      · -- A name behind a keyword would have been found.
        rename_i library
        rw [if_neg library] at declared
        cases kind with
        | none => cases run
        | some kind => exact absurd (declared rfl) Bool.false_ne_true

theorem select_run (patterns : s.registry.patterns = .empty) (jump : Jump) (site : Site)
    (template : String) (args : List ArgRef) : select jump site template args s = (.ok none, s) := by
  unfold select
  rw [bind_run]
  dsimp only [Resolver.get]
  rw [patterns]
  rfl

end Lookup

/-! ### What is kept -/

/-- A state with a registry, in which the types that are kept for names have some property. -/
structure Keeps (r : Registry) (P : String → TypeRef → Prop) (s : State) : Prop where
  registry : s.registry = r
  kept : ∀ q a, s.terminals.get? q = some a → P q a

theorem Keeps.insert {r : Registry} {P : String → TypeRef → Prop} {s : State} (h : Keeps r P s)
    {name : String} {a : TypeRef} (ha : P name a) :
    Keeps r P { s with terminals := s.terminals.insert name a } := by
  refine ⟨h.registry, fun q b kept => ?_⟩
  dsimp only at kept
  rw [NameMap.get?_insert] at kept
  split at kept
  · cases kept
    rwa [‹q = name›]
  · exact h.kept q b kept

/-! ### One resolution -/

/-- A type that the chain of a name ends in, as it was found in some resolution with a registry. -/
inductive Terminal (r : Registry) : String → TypeRef → Prop
  | found {name : String} {target : TypeExpr} {fuel : Nat} {site : Site} {s s' : State} {t : TypeRef}
      (registry : s.registry = r) (kept : ∀ q a, s.terminals.get? q = some a → Terminal r q a)
      (run : jumpWithin fuel site target s = (.ok t, s'))
      (known : r.Means name (.typedef target site.view)) : Terminal r name (chainEnd t)

/-- The state of a resolution in which only ends of chains are kept. -/
abbrev Settled (r : Registry) : State → Prop := Keeps r (Terminal r)

/-- A type that a chain ends in was found by resolving what the name means. -/
theorem Terminal.resolved {r : Registry} {name : String} {a : TypeRef} (ha : Terminal r name a)
    {target : TypeExpr} {view : View} (known : r.Means name (.typedef target view)) :
    ∃ fuel site s t s', site.view = view ∧ Settled r s ∧
      jumpWithin fuel site target s = (.ok t, s') ∧ a = chainEnd t := by
  obtain @⟨_, target', fuel, site, s, s', t, registry, kept, run, known'⟩ := ha
  obtain ⟨rfl, rfl⟩ := Meaning.typedef.inj (Option.some.inj (known.symm.trans known'))
  exact ⟨fuel, site, s, t, s', rfl, ⟨registry, kept⟩, run, rfl⟩

/-- A computation that leaves the registry as it is and keeps only ends of chains. -/
def Settles {α : Type} (r : Registry) (x : Resolver α) : Prop :=
  ∀ s a t, Settled r s → x s = (.ok a, t) → Settled r t

section Settles

variable {r : Registry}

theorem Settles.pure {α : Type} (a : α) : Settles r (pure a) := by
  intro s _ t hs run
  cases run
  exact hs

theorem Settles.bind {α β : Type} {x : Resolver α} {f : α → Resolver β} (first : Settles r x)
    (next : ∀ a, Settles r (f a)) : Settles r (x >>= f) := by
  intro s _ t hs run
  obtain ⟨a, u, here, rest⟩ := bind_eq_ok run
  exact next a u _ t (first s a u hs here) rest

variable {fuel : Nat}

theorem settles_resolveTypedef {site : Site} {name : String} {target : TypeExpr}
    (ht : Settles r (jumpWithin fuel { site with resolving := site.resolving ++ [name] } target)) :
    Settles r (resolveTypedef (jumpWithin fuel) site name target) := by
  intro s a t hs run
  obtain ⟨u, jumped, -, rfl⟩ := resolveTypedef_eq_ok run
  exact ⟨(ht s a u hs jumped).registry, (ht s a u hs jumped).kept⟩

/-- What is kept of a chain is its end as it was found. -/
theorem settles_terminalOf {site : Site} {name : String} {target : TypeExpr}
    (known : r.Means name (.typedef target site.view))
    (ht : Settles r (jumpWithin fuel { site with resolving := site.resolving ++ [name] } target))
    {s t : State} {a : TypeRef} (hs : Settled r s)
    (run : terminalOf (jumpWithin fuel) site name target s = (.ok a, t)) :
    Settled r t ∧ Terminal r name a := by
  rcases terminalOf_eq_ok run with ⟨kept, rfl⟩ | ⟨v, u, resolved, rfl, rfl⟩
  · exact ⟨hs, hs.kept name a kept⟩
  · have hu := settles_resolveTypedef ht s v u hs resolved
    obtain ⟨_, jumped, -, -⟩ := resolveTypedef_eq_ok resolved
    have terminal : Terminal r name (chainEnd v) := .found hs.registry hs.kept jumped known
    exact ⟨hu.insert terminal, terminal⟩

theorem settles_select (h : Steady r) (jump : Jump) (site : Site) (template : String)
    (args : List ArgRef) : Settles r (select jump site template args) := by
  intro s a t hs run
  rw [select_run (by rw [hs.registry, h.patterns])] at run
  cases run
  exact hs

theorem walk_settles (h : Steady r)
    (ih : ∀ site ty, LooksUpOnly (Declared r) site.view ty → Settles r (jumpWithin fuel site ty)) :
    Walk (fun _ x _ => Settles r x) (jumpWithin fuel) (jumpWithin fuel) Site.Alike (Declared r)
      r.Means where
  toSites := sites_alike
  pure a := .pure a
  bind first next := first.bind next
  target _ names := ih _ _ names
  look _ declared next := by
    intro s b t hs run
    obtain ⟨found, u, looked, rest⟩ := bind_eq_ok run
    obtain ⟨found, rfl⟩ := look_eq_ok (h.findsAlike hs.registry) declared looked
    exact next _ (Registry.found_known h found) _ b t hs rest
  ends _ known _ _ _ hs run :=
    (settles_terminalOf known (ih _ _ (h.targets _ _ _ known)) hs run).1
  defaults known := h.defaults _ _ _ _ known
  select _ _ _ _ _ _ args := settles_select h _ _ _ args

theorem settles_jumpWithin (h : Steady r) (site : Site) (ty : TypeExpr)
    (names : LooksUpOnly (Declared r) site.view ty) : Settles r (jumpWithin fuel site ty) := by
  induction fuel generalizing site ty with
  | zero =>
    intro s a t _ run
    cases run
  | succ fuel ih => exact (walk_settles h ih).traversal.resolveType rfl ty names

end Settles

/-! ### Two resolutions -/

/-- The state of a resolution in which what is kept for a name is all that its chain may end in by
another registry. -/
abbrev Decided (r r' : Registry) : State → Prop := Keeps r fun q a => ∀ b, Terminal r' q b → a = b

/-- Computations with alike registries that have the same result if both succeed. -/
def Agree {α : Type} (r r' : Registry) (x y : Resolver α) : Prop :=
  ∀ s s' a b t t', Decided r r' s → Settled r' s' → x s = (.ok a, t) → y s' = (.ok b, t') →
    a = b ∧ Decided r r' t ∧ Settled r' t'

section Agree

variable {r r' : Registry} {fuel fuel' : Nat} {site site' : Site}

theorem Agree.pure {α : Type} (a : α) : Agree r r' (pure a) (pure a) := by
  intro s s' _ _ t t' hs hs' run run'
  cases run
  cases run'
  exact ⟨rfl, hs, hs'⟩

theorem Agree.bind {α β : Type} {x y : Resolver α} {f g : α → Resolver β} (first : Agree r r' x y)
    (next : ∀ a, Agree r r' (f a) (g a)) : Agree r r' (x >>= f) (y >>= g) := by
  intro s s' b b' t t' hs hs' run run'
  obtain ⟨a, u, here, rest⟩ := bind_eq_ok run
  obtain ⟨a', u', here', rest'⟩ := bind_eq_ok run'
  obtain ⟨rfl, hu, hu'⟩ := first s s' a a' u u' hs hs' here here'
  exact next a u u' b b' t t' hu hu' rest rest'

theorem agree_resolveTypedef {name : String} {target : TypeExpr}
    (ht : Agree r r' (jumpWithin fuel { site with resolving := site.resolving ++ [name] } target)
      (jumpWithin fuel' { site' with resolving := site'.resolving ++ [name] } target)) :
    Agree r r' (resolveTypedef (jumpWithin fuel) site name target)
      (resolveTypedef (jumpWithin fuel') site' name target) := by
  intro s s' a b t t' hs hs' run run'
  obtain ⟨u, jumped, -, rfl⟩ := resolveTypedef_eq_ok run
  obtain ⟨u', jumped', -, rfl⟩ := resolveTypedef_eq_ok run'
  obtain ⟨same, hu, hu'⟩ := ht s s' a b u u' hs hs' jumped jumped'
  exact ⟨same, ⟨hu.registry, hu.kept⟩, ⟨hu'.registry, hu'.kept⟩⟩

/-- Whatever another resolution found at the end of a chain is what is found there. -/
theorem decided_terminalOf (alike : r.Alike r') {name : String} {target : TypeExpr}
    (known : r.Means name (.typedef target site.view))
    (ih : ∀ fuel' site', site'.view = site.view → Agree r r'
      (jumpWithin fuel { site with resolving := site.resolving ++ [name] } target)
      (jumpWithin fuel' site' target))
    {s t : State} {a : TypeRef} (hs : Decided r r' s)
    (run : terminalOf (jumpWithin fuel) site name target s = (.ok a, t)) {b : TypeRef}
    (hb : Terminal r' name b) : a = b ∧ Decided r r' t := by
  rcases terminalOf_eq_ok run with ⟨kept, rfl⟩ | ⟨v, u, resolved, rfl, rfl⟩
  · exact ⟨hs.kept name a kept b hb, hs⟩
  · obtain ⟨w, jumped, -, rfl⟩ := resolveTypedef_eq_ok resolved
    -- The name means one type, so whoever found its end has resolved that type too.
    have same {c : TypeRef} (hc : Terminal r' name c) : chainEnd v = c ∧ Decided r r' w := by
      obtain ⟨fuel', site', s', v', t', view, hs', run', rfl⟩ := hc.resolved (alike.means known)
      obtain ⟨rfl, hw, -⟩ := ih fuel' site' view s s' v v' w t' hs hs' jumped run'
      exact ⟨rfl, hw⟩
    obtain ⟨reached, hw⟩ := same hb
    have decided : Decided r r' { w with lengths := w.lengths.insert name (chainLength w.lengths v) } :=
      ⟨hw.registry, hw.kept⟩
    exact ⟨reached, decided.insert fun c hc => (same hc).1⟩

theorem walk_agree (h : Steady r) (h' : Steady r') (alike : r.Alike r')
    (ih : ∀ fuel' site site' ty, site'.view = site.view → LooksUpOnly (Declared r) site.view ty →
      Agree r r' (jumpWithin fuel site ty) (jumpWithin fuel' site' ty)) :
    Walk (fun _ => Agree r r') (jumpWithin fuel) (jumpWithin fuel') Site.Alike (Declared r)
      r.Means where
  toSites := sites_alike
  pure a := .pure a
  bind first next := first.bind next
  target view names := ih _ _ _ _ view names
  look := by
    intro site site' kind p β f g view declared next s s' b b' t t' hs hs' run run'
    -- Both look the name up in the same scopes, with the same meanings.
    have declared' : Declared r' ⟨site'.view, kind, p⟩ := by
      unfold Declared
      rwa [← alike.found, view]
    obtain ⟨found, u, looked, rest⟩ := bind_eq_ok run
    obtain ⟨found', u', looked', rest'⟩ := bind_eq_ok run'
    obtain ⟨here, rfl⟩ := look_eq_ok (h.findsAlike hs.registry) declared looked
    obtain ⟨there, rfl⟩ := look_eq_ok (h'.findsAlike hs'.registry) declared' looked'
    rw [← alike.found, view, here] at there
    cases there
    exact next found (Registry.found_known h here) _ _ b b' t t' hs hs' rest rest'
  ends := by
    intro site site' name target view known s s' a b t t' hs hs' run run'
    have known' : r'.Means name (.typedef target site'.view) := by
      rw [view]
      exact alike.means known
    obtain ⟨settled, terminal⟩ := settles_terminalOf known'
      (settles_jumpWithin h' _ _ (h'.targets _ _ _ known')) hs' run'
    obtain ⟨same, decided⟩ := decided_terminalOf alike known (fun fuel' site' view =>
      ih fuel' _ site' target view (h.targets _ _ _ known)) hs run terminal
    exact ⟨same, decided, settled⟩
  defaults known := h.defaults _ _ _ _ known
  select := by
    intro site site' _ template _ _ _ _ args s s' a b t t' hs hs' run run'
    rw [select_run (by rw [hs.registry, h.patterns])] at run
    rw [select_run (by rw [hs'.registry, h'.patterns])] at run'
    cases run
    cases run'
    exact ⟨rfl, hs, hs'⟩

theorem agree_jumpWithin (h : Steady r) (h' : Steady r') (alike : r.Alike r') (ty : TypeExpr)
    (view : site'.view = site.view) (names : LooksUpOnly (Declared r) site.view ty) :
    Agree r r' (jumpWithin fuel site ty) (jumpWithin fuel' site' ty) := by
  -- The other resolution may have any fuel, for an end may have been found anywhere.
  induction fuel generalizing fuel' site site' ty with
  | zero =>
    intro s s' a b t t' _ _ run
    cases run
  | succ fuel ih =>
    cases fuel' with
    | zero =>
      intro s s' a b t t' _ _ _ run
      cases run
    | succ fuel' =>
      have walk : Walk (fun _ => Agree r r') (jumpWithin fuel) (jumpWithin fuel') Site.Alike
          (Declared r) r.Means := walk_agree h h' alike fun _ _ _ ty view names => ih ty view names
      exact walk.traversal.resolveType view ty names

/-- The chain of a name ends in one type only. -/
theorem Terminal.unique (h : Steady r) (h' : Steady r') (alike : r.Alike r') {name : String}
    {a : TypeRef} (ha : Terminal r name a) : ∀ b, Terminal r' name b → a = b := by
  -- What was kept when the type was found is decided by the hypothesis of the induction.
  induction ha with
  | found registry kept run known ih =>
    intro b hb
    obtain ⟨fuel', site', s', t', u', view, hs', run', rfl⟩ := hb.resolved (alike.means known)
    obtain ⟨rfl, -, -⟩ := agree_jumpWithin h h' alike _ view (h.targets _ _ _ known) _ _ _ _ _ _
      ⟨registry, ih⟩ hs' run run'
    rfl

theorem Settled.decided (h : Steady r) (h' : Steady r') (alike : r.Alike r') {s : State}
    (hs : Settled r s) : Decided r r' s :=
  ⟨hs.registry, fun q a kept => (hs.kept q a kept).unique h h' alike⟩

end Agree

/-! ### Declarations -/

section Declarations

variable {r r' : Registry} {fuel fuel' : Nat} {site site' : Site} {d : ParsedDecl}

theorem settles_resolveDecl (h : Steady r) (plain : ∀ s, d ≠ .specialization s)
    (names : ∀ x ∈ d.parts site.view, LooksUpOnly (Declared r) x.1 x.2) :
    Settles r (resolveDecl (jumpWithin fuel) site d) := by
  have walk : Walk (fun _ x _ => Settles r x) (jumpWithin fuel) (jumpWithin fuel) Site.Alike
      (Declared r) r.Means := walk_settles h (settles_jumpWithin h)
  refine walk.traversal.resolveDecl rfl d names (fun t name typedef => ?_) fun s _ _ _ _ same => ?_
  · subst typedef
    exact settles_resolveTypedef (settles_jumpWithin h _ _ (names _ List.mem_cons_self))
  · exact absurd same (plain s)

theorem agree_resolveDecl (h : Steady r) (h' : Steady r') (alike : r.Alike r')
    (view : site'.view = site.view) (plain : ∀ s, d ≠ .specialization s)
    (names : ∀ x ∈ d.parts site.view, LooksUpOnly (Declared r) x.1 x.2) :
    Agree r r' (resolveDecl (jumpWithin fuel) site d) (resolveDecl (jumpWithin fuel') site' d) := by
  have walk : Walk (fun _ => Agree r r') (jumpWithin fuel) (jumpWithin fuel') Site.Alike (Declared r)
      r.Means :=
    walk_agree h h' alike fun _ _ _ ty view names => agree_jumpWithin h h' alike ty view names
  refine walk.traversal.resolveDecl view d names (fun t name typedef => ?_) fun s _ _ _ _ same => ?_
  · subst typedef
    exact agree_resolveTypedef
      (agree_jumpWithin h h' alike _ view (names _ List.mem_cons_self))
  · exact absurd same (plain s)

/-- A visit adds to the model, which has no part in what is kept of chains. -/
theorem settles_resolveVisit (h : Steady r) (bound : Nat) {w : Visit}
    (plain : ∀ v s, w.declaration? ≠ some (v, .specialization s))
    (names : ∀ x, w.declaration? = some x →
      ∀ p ∈ x.2.parts x.1, LooksUpOnly (Declared r) p.1 p.2) :
    Settles r (resolveVisit (jumpWithin fuel) bound w) := by
  cases w with
  | scope path kind =>
    intro s _ t hs run
    cases run
    exact ⟨hs.registry, hs.kept⟩
  | decl d origin view =>
    refine (settles_resolveDecl h (fun s same => ?_) (names _ rfl)).bind fun d' s _ t hs run => ?_
    · exact plain view s (by rw [← same]; rfl)
    · rw [run_declare] at run
      cases run
      exact ⟨hs.registry, hs.kept⟩

theorem Settles.each {α : Type} {f : α → Resolver Unit} {xs : List α}
    (each : ∀ x ∈ xs, Settles r (f x)) : Settles r (Resolver.each f xs) := by
  induction xs with
  | nil => exact .pure ()
  | cons x xs ih =>
    exact (each x List.mem_cons_self).bind fun _ => ih fun y hy => each y (List.mem_cons_of_mem _ hy)

end Declarations

end HeaderDecl.Resolution
