import HeaderDecl.Proofs.SpecializationLinks

/-!
The type names of a unit. While a unit is resolved, its registry knows the type names that are declared in
it or stand behind keywords in it, and no others; what was registered first comes first.
-/

namespace HeaderDecl.Resolution

/-! ### Registries that grow -/

/-- A name behind a keyword that stands for nothing. It is declared where it is used. -/
structure Registry.Implies (r : Registry) (u : NameUse) (q : String) : Prop where
  behind : u.kind.isSome
  unfound : r.found u = none
  place : q = impliedName r u.view u.path.plainName

/-- A registry that comes of another one by meanings that lead nowhere, of certain names, behind those that
were there. -/
structure Registry.GrownBy (N : String → Prop) (r₀ r : Registry) : Prop where
  recordScopes : r.recordScopes = r₀.recordScopes
  meanings : ∀ q, ∃ more, (r.meanings.get? q).getD [] = (r₀.meanings.get? q).getD [] ++ more ∧
    ∀ m ∈ more, m.leadsOn = false ∧ N q
  patterns : ∀ template, r.patternsOf template = r₀.patternsOf template

section Growth

variable {N : String → Prop} {r₀ r : Registry}

theorem Registry.GrownBy.refl (N : String → Prop) (r : Registry) : r.GrownBy N r :=
  ⟨rfl, fun _ => ⟨[], (List.append_nil _).symm, nofun⟩, fun _ => rfl⟩

theorem Registry.GrownBy.addMeaning (h : r₀.GrownBy N r) {name : String} {m : Meaning}
    (nowhere : m.leadsOn = false) (hN : N name) : r₀.GrownBy N (r.addMeaning name m) := by
  refine ⟨h.recordScopes, fun q => ?_, h.patterns⟩
  obtain ⟨more, same, all⟩ := h.meanings q
  unfold Registry.addMeaning Registry.push
  dsimp only
  rw [NameMap.get?_insert]
  split
  · rename_i here
    subst here
    refine ⟨more ++ [m], by rw [Option.getD_some, same, List.append_assoc], fun m' hm' => ?_⟩
    rcases List.mem_append.mp hm' with old | new
    · exact all m' old
    · obtain rfl := List.mem_singleton.mp new
      exact ⟨nowhere, hN⟩
  · exact ⟨more, same, all⟩

/-- What leads on was there from the beginning. -/
theorem Registry.GrownBy.of_leadsOn (h : r₀.GrownBy N r) {q : String} {m : Meaning}
    (known : m ∈ (r.meanings.get? q).getD []) (leads : m.leadsOn = true) :
    m ∈ (r₀.meanings.get? q).getD [] := by
  obtain ⟨more, same, all⟩ := h.meanings q
  rw [same] at known
  refine (List.mem_append.mp known).resolve_right fun new => ?_
  rw [(all m new).1] at leads
  cases leads

theorem Registry.GrownBy.knows (h : r₀.GrownBy N r) {q : String} (known : r.Knows q) :
    r₀.Knows q ∨ N q := by
  obtain ⟨more, same, all⟩ := h.meanings q
  unfold Registry.Knows at known ⊢
  rw [same] at known
  cases more with
  | nil => exact .inl (by rwa [List.append_nil] at known)
  | cons m more => exact .inr (all m List.mem_cons_self).2

/-- What is found to be nothing was nothing before. -/
theorem Registry.GrownBy.unfound (h : r₀.GrownBy N r) {resolving : List String}
    {kind : Option NamedKind} {name : String} {scopes : List String}
    (unfound : findIn r resolving kind name scopes = none) : findIn r₀ [] kind name scopes = none := by
  induction scopes with
  | nil => rfl
  | cons scope scopes ih =>
    unfold findIn at unfound ⊢
    dsimp only at unfound ⊢
    split at unfound
    · cases unfound
    · rename_i none
      obtain ⟨more, same, -⟩ := h.meanings (Name.qualify scope name)
      rw [Registry.find?_eq_none, same] at none
      rw [Registry.find?_eq_none.mpr fun m mem => none m (List.mem_append_left _ mem)]
      exact ih unfound

theorem Registry.GrownBy.withProgress {s : State} (h : r₀.GrownBy N s.registry) (template : String)
    (i : Nat) (progress : Progress) : r₀.GrownBy N (s.withProgress template i progress).registry := by
  have same := same_withProgress s template i progress
  refine ⟨h.recordScopes, fun q => ?_, fun q => (same.patterns q).trans (h.patterns q)⟩
  rw [same.meanings]
  exact h.meanings q

end Growth

/-! ### What resolution registers -/

/-- A computation that does not succeed in leaving a property of states. -/
def Maintains {α : Type} (I : State → Prop) (x : Resolver α) : Prop :=
  ∀ s a t, I s → x s = (.ok a, t) → I t

section Rules

variable {α β : Type} {I : State → Prop} {x : Resolver α} {f : α → Resolver β}

theorem Maintains.pure (a : α) : Maintains I (pure a) := by
  intro s b t hs run
  cases run
  exact hs

theorem Maintains.bind (first : Maintains I x) (next : ∀ a, Maintains I (f a)) : Maintains I (x >>= f) := by
  intro s b t hs run
  obtain ⟨a, u, here, rest⟩ := bind_eq_ok run
  exact next a u b t (first s a u hs here) rest

theorem Maintains.get {f : State → Resolver β} (next : ∀ s, I s → Maintains I (f s)) :
    Maintains I (Resolver.get >>= f) := by
  intro s b t hs run
  obtain ⟨u, v, here, rest⟩ := bind_eq_ok run
  cases here
  exact next s hs s b t hs rest

theorem Maintains.each {f : α → Resolver Unit} {xs : List α} (h : ∀ x ∈ xs, Maintains I (f x)) :
    Maintains I (Resolver.each f xs) := by
  induction xs with
  | nil => exact .pure _
  | cons x xs ih =>
    exact (h x List.mem_cons_self).bind fun _ => ih fun y hy => h y (List.mem_cons_of_mem _ hy)

end Rules

/-- A state whose registry has no other names. -/
abbrev Grown (N : String → Prop) (r₀ : Registry) (s : State) : Prop := r₀.GrownBy N s.registry

/-- A computation that adds no other names. -/
abbrev Registers {α : Type} (N : String → Prop) (r₀ : Registry) (x : Resolver α) : Prop :=
  Maintains (Grown N r₀) x

section Types

variable {N : String → Prop} {r₀ : Registry} {A : NameUse → Prop} {jump : Jump} {site : Site}

/-- A jump to types with certain names in them. -/
def Jump.Registers (jump : Jump) (N : String → Prop) (r₀ : Registry) (A : NameUse → Prop) : Prop :=
  ∀ site t, LooksUpOnly A site.view t → Resolution.Registers N r₀ (jump site t)

/-- Names behind keywords are among those that may be added, and what is resolved for a registered name
has certain names in it. -/
structure Supplies (N : String → Prop) (r₀ : Registry) (A : NameUse → Prop) : Prop where
  implied : ∀ u q, A u → r₀.Implies u q → N q
  text : ∀ name v t, r₀.Text name v t → LooksUpOnly A v t

/-- A meaning that was registered if it leads on. -/
def Registered (r₀ : Registry) (name : String) (m : Meaning) : Prop :=
  m.leadsOn = true → m ∈ (r₀.meanings.get? name).getD []

/-- A name that is looked up is found by itself, in some scope, or as that of a library type, or it stands
behind a keyword and is declared. -/
inductive Looked (site : Site) (kind : Option NamedKind) (p : PathExpr) (s : State) : Found → State → Prop
  | own {t : TypeRef} (own : ownType? site.view p = some t) : Looked site kind p s (.type t) s
  | meaning {q : String} {m : Meaning} (free : ownType? site.view p = none)
      (found : findIn s.registry site.resolving kind p.plainName
        (lookupScopes site.view p.absolute) = some (q, m)) : Looked site kind p s (.meaning q m) s
  | library (free : ownType? site.view p = none)
      (unfound : findIn s.registry site.resolving kind p.plainName
        (lookupScopes site.view p.absolute) = none)
      (known : p.plainName ∈ wellKnown) : Looked site kind p s (.type (.builtin p.plainName)) s
  | implied {k : NamedKind} {t : TypeRef} {s' : State} (free : ownType? site.view p = none)
      (unfound : findIn s.registry site.resolving kind p.plainName
        (lookupScopes site.view p.absolute) = none)
      (foreign : p.plainName ∉ wellKnown) (behind : kind = some k)
      (declared : declareImplicitly site k p.plainName s = (.ok t, s')) :
      Looked site kind p s (.type t) s'

theorem looked_of_run {kind : Option NamedKind} {p : PathExpr} {s s' : State} {f : Found}
    (run : look site kind p s = (.ok f, s')) : Looked site kind p s f s' := by
  unfold look at run
  cases own : ownType? site.view p with
  | some t =>
    rw [own] at run
    cases run
    exact .own own
  | none =>
    rw [own] at run
    obtain ⟨_, _, got, run⟩ := bind_eq_ok run
    cases got
    dsimp only at run
    cases found : findIn s.registry site.resolving kind p.plainName (lookupScopes site.view p.absolute) with
    | some known =>
      rw [found] at run
      cases run
      exact .meaning own found
    | none =>
      rw [found] at run
      dsimp only at run
      split at run
      · rename_i library
        cases run
        exact .library own found (List.contains_iff_mem.mp library)
      · rename_i foreign
        cases kind with
        | none => cases run
        | some k =>
          obtain ⟨t, _, declared, run⟩ := bind_eq_ok run
          cases run
          exact .implied own found (mt List.contains_iff_mem.mpr foreign) rfl declared

/-- Whatever a name is found to be, nothing else than what it implies is added. -/
theorem Looked.grown (h : Supplies N r₀ A) {kind : Option NamedKind} {p : PathExpr} {s s' : State}
    {f : Found} (names : A ⟨site.view, kind, p⟩) (hs : r₀.GrownBy N s.registry)
    (looked : Looked site kind p s f s') : r₀.GrownBy N s'.registry := by
  cases looked with
  | own | library | meaning => exact hs
  | @implied k type _ free unfound foreign behind declared =>
    cases declared
    have nowhere (name : String) : (forwardDecl k name).2.leadsOn = false := by cases k <;> rfl
    refine hs.addMeaning (nowhere _) (h.implied ⟨site.view, kind, p⟩ _ names ?_)
    refine ⟨by rw [behind, Option.isSome_some], ?_, ?_⟩
    · simp [Registry.found, free, hs.unfound unfound, foreign]
    · change impliedName s.registry site.view p.plainName = _
      unfold impliedName
      rw [hs.recordScopes]

theorem Looked.terminals {kind : Option NamedKind} {p : PathExpr} {s s' : State} {f : Found}
    (looked : Looked site kind p s f s') : s'.terminals = s.terminals := by
  cases looked with
  | own | library | meaning => rfl
  | implied _ _ _ _ declared =>
    cases declared
    rfl

theorem Looked.registered {kind : Option NamedKind} {p : PathExpr} {s s' : State} {f : Found}
    (hs : r₀.GrownBy N s.registry) (looked : Looked site kind p s f s') : f.Known (Registered r₀) := by
  cases looked with
  | own | library | implied => trivial
  | meaning _ found => exact hs.of_leadsOn (Registry.mem_of_find? (find?_of_findIn found))

theorem registers_look {β : Type} (h : Supplies N r₀ A) {kind : Option NamedKind} {p : PathExpr}
    {f : Found → Resolver β} (names : A ⟨site.view, kind, p⟩)
    (next : ∀ found, found.Known (Registered r₀) → Registers N r₀ (f found)) :
    Registers N r₀ (look site kind p >>= f) := by
  intro s b t hs run
  obtain ⟨found, u, here, rest⟩ := bind_eq_ok run
  have looked := looked_of_run here
  exact next found (looked.registered hs) u b t (looked.grown h names hs) rest

section Jumps

variable (hj : jump.Registers N r₀ A)

include hj

theorem registers_resolveTypedef {name : String} {target : TypeExpr}
    (names : LooksUpOnly A site.view target) : Registers N r₀ (resolveTypedef jump site name target) := by
  intro s t s' hs run
  obtain ⟨u, jumped, -, rfl⟩ := resolveTypedef_eq_ok run
  exact hj { site with resolving := site.resolving ++ [name] } target names s t u hs jumped

theorem registers_terminalOf {name : String} {target : TypeExpr}
    (names : LooksUpOnly A site.view target) : Registers N r₀ (terminalOf jump site name target) := by
  intro s a s' hs run
  rcases terminalOf_eq_ok run with ⟨-, rfl⟩ | ⟨t, u, resolved, -, rfl⟩
  · exact hs
  · exact registers_resolveTypedef hj names s t u hs resolved

theorem jumps_registers : Jumps (fun _ x _ => Registers N r₀ x) jump jump Site.Alike A where
  toSites := sites_alike
  pure := .pure
  bind := .bind
  target _ names := hj _ _ names

theorem registers_fillFound (h : Supplies N r₀ A) {template : String} (args : List ArgRef)
    {found : Option Meaning} (known : ∀ m, found = some m → Registered r₀ template m) :
    Registers N r₀ (fillFound jump site args found) := by
  cases found with
  | none => exact .pure _
  | some m =>
    cases m with
    | template kind params view =>
      have alike : Site.Alike site site := rfl
      exact (jumps_registers hj).fillDefaults alike params view args fun q hq t ht =>
        h.text template _ t (.default (known _ rfl rfl) hq ht)
    | _ => exact .pure _

/-- The arguments of a specialization are resolved where it stands, and its defaults where the template
stands. -/
theorem registers_resolvePattern (h : Supplies N r₀ A) {template : String} {i : Nat} {p : Pattern}
    {s t : State} {a : List ArgRef × List ArgRef} (hs : r₀.GrownBy N s.registry)
    (pattern : s.registry.pattern? template i = some p)
    (run : resolvePattern jump site template i p s = (.ok a, t)) : r₀.GrownBy N t.registry := by
  obtain ⟨u, v, jumped, filled, rfl⟩ := resolvePattern_eq_ok run
  have fresh : p.fresh ∈ r₀.patternsOf template := by
    rw [← hs.patterns]
    exact List.mem_map_of_mem (List.mem_of_getElem? pattern)
  have alike : Site.Alike { site with view := p.view } { site with view := p.view } := rfl
  have hu := (jumps_registers hj).jumpArgs alike p.args
    (fun t ht => h.text template p.view t (.arg (p := p.fresh) fresh ht)) _ _ u
      (hs.withProgress template i .underWay) jumped
  have known (m : Meaning) (found : u.registry.find? site.resolving none template = some m) :
      Registered r₀ template m := hu.of_leadsOn (Registry.mem_of_find? found)
  exact (registers_fillFound hj h a.1 known u _ v hu filled).withProgress template i _

theorem registers_patternArgs (h : Supplies N r₀ A) (template : String) (i : Nat) :
    Registers N r₀ (patternArgs jump site template i) := by
  intro s a t hs run
  rcases patternArgs_eq_ok run with ⟨-, -, rfl⟩ | ⟨p, pattern, ⟨-, -, rfl⟩ | ⟨_, _, -, -, rfl⟩ |
    ⟨_, -, -, now⟩⟩
  · exact hs
  · exact hs
  · exact hs
  · exact registers_resolvePattern hj h hs pattern now

theorem registers_selectFrom (h : Supplies N r₀ A) (template : String) (actual : List ArgRef)
    (is : List Nat) (partialMatch : Option (List ArgRef)) :
    Registers N r₀ (selectFrom jump site template actual is partialMatch) := by
  induction is generalizing partialMatch with
  | nil => exact .pure _
  | cons i is ih =>
    unfold selectFrom
    refine (registers_patternArgs hj h template i).bind fun o => ?_
    cases o with
    | none => exact ih _
    | some x =>
      obtain ⟨params, written, filled⟩ := x
      dsimp only
      split
      · split
        · exact .pure _
        · exact ih _
      · split
        · exact ih _
        · exact ih _

theorem walk_registers (h : Supplies N r₀ A) :
    Walk (fun _ x _ => Registers N r₀ x) jump jump Site.Alike A (Registered r₀) where
  toJumps := jumps_registers hj
  look _ names next := registers_look h names next
  ends _ known := registers_terminalOf hj (h.text _ _ _ (.target (known rfl)))
  defaults known _ hp _ ht := h.text _ _ _ (.default (known rfl) hp ht)
  select _ _ _ _ _ _ _ := .get fun _ _ => registers_selectFrom hj h _ _ _ _

end Jumps

theorem registers_jumpWithin (h : Supplies N r₀ A) (fuel : Nat) : (jumpWithin fuel).Registers N r₀ A := by
  induction fuel with
  | zero =>
    intro site t _ s a u _ run
    cases run
  | succ fuel ih => exact fun site t names => (walk_registers ih h).traversal.resolveType rfl t names

theorem traversal_registers (h : Supplies N r₀ A) (fuel : Nat) :
    Traversal (fun _ x _ => Registers N r₀ x) (jumpWithin fuel) (jumpWithin fuel) Site.Alike A :=
  (walk_registers (registers_jumpWithin h fuel) h).traversal

end Types

/-! ### Units -/

section Units

variable {items : List Item}

/-- A name is looked up for a declaration of a unit. -/
def WrittenIn (items : List Item) (u : NameUse) : Prop :=
  ∃ x ∈ declarations items, ∃ y ∈ x.2.parts x.1, LooksUp u y.1 y.2

/-- A qualified name is that of a type in a unit: of a record, an enum, a typedef or a template that is
declared, of a template that is specialized only, or of one that stands behind a keyword. -/
inductive TypeName (items : List Item) (q : String) : Prop
  | declared {x : View × ParsedDecl} {m : Meaning} (mem : x ∈ declarations items)
      (gives : meaningUnder q x = some m)
  | specialized {v : View} {s : SpecializationDecl TypeExpr ArgExpr PathExpr}
      (mem : (v, .specialization s) ∈ declarations items) (same : q = Name.qualify v.scope s.template)
  | implied {u : NameUse} {kind : NamedKind} {scope : String} (written : WrittenIn items u)
      (behind : u.kind = some kind) (same : q = Name.qualify scope u.path.plainName)

theorem typeName_of_knows {q : String} (known : (Registry.ofVisits (visitAll {} items)).Knows q) :
    TypeName items q := by
  rcases Registry.knows_addSpecializations known with known | ⟨-, s, o, v, hw, same⟩
  · obtain ⟨m, hm⟩ := List.exists_mem_of_ne_nil _ known
    rw [Registry.meanings_ofNames] at hm
    obtain ⟨x, hx, gives⟩ := List.mem_filterMap.mp hm
    exact .declared hx gives
  · exact .specialized (mem_declarations.mpr ⟨o, hw⟩) same

theorem Registry.GrownBy.typeName {r : Registry}
    (h : (Registry.ofVisits (visitAll {} items)).GrownBy (TypeName items) r) {q : String}
    (known : r.Knows q) : TypeName items q :=
  (h.knows known).elim typeName_of_knows id

theorem looksUpOnly_writtenIn {x : View × ParsedDecl} (hx : x ∈ declarations items)
    {y : View × TypeExpr} (part : y ∈ x.2.parts x.1) : LooksUpOnly (WrittenIn items) y.1 y.2 :=
  fun _ looked => ⟨x, hx, y, part, looked⟩

theorem supplies_writtenIn (items : List Item) :
    Supplies (TypeName items) (Registry.ofVisits (visitAll {} items)) (WrittenIn items) where
  implied u _ written implies := by
    obtain ⟨kind, behind⟩ := Option.isSome_iff_exists.mp implies.behind
    exact .implied written behind implies.place
  text _ _ _ text := by
    obtain ⟨x, hx, part, -⟩ := text.mem_parts
    exact looksUpOnly_writtenIn hx part

end Units

end HeaderDecl.Resolution
