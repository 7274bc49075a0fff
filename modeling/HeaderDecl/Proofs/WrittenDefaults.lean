import HeaderDecl.Proofs.EchoedTypes
import HeaderDecl.Proofs.SpecializationLinks

/-!
Defaults of template parameters that are written out. A type and another one that it may be written as are
resolved alike, down to the specializations that are selected for all instantiations within them.
-/

namespace HeaderDecl.Resolution

open Relation Template

/-! ### Types -/

/-- A type is resolved as what it is written as, with arguments for the parameters that are replaced. -/
theorem WrittenAs.echoes {r : Registry} (h : Coherent r) {R : String → Prop} (closed : Closed r R)
    {w : Writings} {v v' : View} {e e' : TypeExpr} (writes : WrittenAs r w v v' e e')
    {fuel fuel' : Nat} (enough : fuel ≤ fuel') {site site' : Site}
    (across : Across r R v v' site site') (names : LooksUpOnly (Inside r R) v e) {start : State}
    {b : Option Bindings} (bound : Bound (SettledAt (jumpWithin fuel') site' start) w b)
    (given : WrittenWithin (Inside r R) v' w) :
    Echoes r R start (replace b) (resolveType (jumpWithin fuel) site e)
      (resolveType (jumpWithin fuel') site' e') := by
  -- By induction on how the one is written as the other. The sites vary, as defaults are seen from where
  -- their template is declared, and so does the fuel, which they are resolved with one step less of.
  induction writes generalizing fuel fuel' site site' start b with
  | primitive p => exact .pure replace_primitive
  | dependent spared => exact .pure replace_dependent
  | param own written => exact echoes_param across own bound written
  | name plain plain' spared found found' =>
    obtain ⟨inside, -⟩ := looksUpOnly_named.mp names
    refine echoes_named h across inside found found'
      (fun t same => bound.replace_found spared (same ▸ found)) fun name kind params view same => ?_
    subst same
    rw [plain, plain']
    exact .pure replace_named
  | @instantiation w v v' kind p p' args args' f spared found found' kinds types texts full unspecialized
      unchanged ih ih' =>
    obtain ⟨inside, within⟩ := looksUpOnly_named.mp names
    refine echoes_named h across inside found found'
      (fun t same => bound.replace_found ((sparesPath_withArgs args).mpr spared) (same ▸ found))
      fun name kind params view same => ?_
    subst same
    have known : Meant r R name (.template kind params view) := inside.meant found
    have arg {i : Nat} {t : TypeExpr} (here : args[i]? = some (.type t)) :
        LooksUpOnly (Inside r R) v t :=
      within t (mem_types_withArgs.mpr ⟨i, here⟩)
    have changed : Echoes r R start (replaceArgs b) (resolveArgs (jumpWithin fuel) site args)
        (resolveArgs (jumpWithin fuel') site' args') :=
      echoes_resolveArgs bound kinds
        (fun i t t' here there => ih i t t' here there enough across (arg here) bound given) texts
    -- Under a template with specializations only defaults are written, and no parameter is replaced.
    have nothing : Bound (SettledAt (jumpWithin fuel') site' start) none none := trivial
    refine echoes_instantiated h closed enough across known
      ((full name kind params view rfl).imp_left bound.eq_none) changed fun specialized => ?_
    refine echoes_resolveArgs nothing kinds (fun i t t' here there => ih' name _ rfl specialized i t t'
      here there enough across (arg here) nothing writtenWithin_none) fun i x y here there => ?_
    rw [unchanged name _ rfl specialized i x y here there]
    exact .spared Writings.spares_none
  | pointer inner function ih =>
    exact echoes_pointer (ih enough across (names.part List.mem_cons_self) bound given) function
  | reference inner ih =>
    exact (ih enough across (names.part List.mem_cons_self) bound given).done fun _ => replace_reference
  | rvalueReference inner ih =>
    exact (ih enough across (names.part List.mem_cons_self) bound given).done
      fun _ => replace_rvalueReference
  | array inner spared ih =>
    exact (ih enough across (names.part List.mem_cons_self) bound given).done fun _ => replace_array
  | qualified inner ih =>
    exact (ih enough across (names.part List.mem_cons_self) bound given).done
      fun _ => replace_withQualifiers
  | @function w v v' sig same spared ih =>
    refine (echoes_resolveSignature fun t ht => ?_).done fun _ => replace_function
    have part : LooksUpOnly (Inside r R) v t := names.part (List.mem_map_of_mem ht)
    exact ih t ht enough across part (b := none) trivial writtenWithin_none
  | @defaultType v kind p args name record params view t t' found default written ih =>
    obtain ⟨inside, within⟩ := looksUpOnly_named.mp names
    refine echoes_named h across inside found (found_withArgs found _) (by simp) fun _ _ _ _ same => ?_
    cases same
    obtain rfl := bound.eq_none rfl
    have declared : Across r R (view.withParams params) v
        { site with view := view.withParams params } site' :=
      ⟨rfl, across.view', across.left, across.right⟩
    exact echoes_defaultType h closed enough across (inside.meant found) within default
      fun n more start as settled => ih more declared (h.inside_default closed inside found default)
        (bound_bind params settled) (writtenWithin_writings within params)
  | @defaultText v kind p args name record params view text text' found default written =>
    obtain ⟨inside, within⟩ := looksUpOnly_named.mp names
    refine echoes_named h across inside found (found_withArgs found _) (by simp) fun _ _ _ _ same => ?_
    cases same
    obtain rfl := bound.eq_none rfl
    exact echoes_defaultText h closed enough across (inside.meant found) within default written
  | first changed rest ih ih' =>
    -- The type in between is resolved where the first is, and comes to the same there.
    intro s a t after hs begun clear run
    obtain ⟨ht, calm, again⟩ := ih (Nat.le_refl fuel) ⟨across.view, across.view, across.left, across.left⟩
      names (b := none) trivial writtenWithin_none s a t after hs begun clear run
    have inside := changed.inside h closed names writtenWithin_none
    obtain ⟨-, -, again'⟩ := ih' enough across inside bound given t a t (after.trans calm.toLater) ht
      (begun.calm calm) (clear.calm calm) (again t (.refl t))
    exact ⟨ht, calm, again'⟩

/-! ### Units -/

section Units

variable {items : List Item} {constants : List MacroConstant} {config : Config} {s : State}

/-- A state that the resolution of a unit comes to between two types: between two declarations, or
behind further types that are resolved from there. -/
inductive BetweenTypes (items : List Item) (constants : List MacroConstant) (config : Config) :
    State → Prop
  | declarations {before behind : List Visit} {s : State} (split : visitAll {} items = before ++ behind)
      (run : resolveSome items constants config before = (.ok (), s)) :
      BetweenTypes items constants config s
  | type {s s' : State} {site : Site} {t : TypeExpr} {fuel : Nat} {a : TypeRef}
      (earlier : BetweenTypes items constants config s)
      (names : LooksUpOnly (Declared (Registry.ofVisits (visitAll {} items))) site.view t)
      (led : site.LedTo (Registry.ofVisits (visitAll {} items))
        ((Registry.ofVisits (visitAll {} items)).Reaches site.view t))
      (resolved : resolveType (jumpWithin fuel) site t s = (.ok a, s')) :
      BetweenTypes items constants config s'

/-- Between two types nothing is under way, and what was resolved is recalled. -/
theorem BetweenTypes.recalling (h : BetweenTypes items constants config s)
    (coherent : Coherent (Registry.ofVisits (visitAll {} items)))
    (elaborated : DeclaresElaborated items) :
    Recalling (Registry.ofVisits (visitAll {} items)) s ∧ s.Idle := by
  induction h with
  | declarations split run => exact recalling_resolveSome coherent elaborated split run
  | @type s s' site t fuel a earlier names led resolved ih =>
    obtain ⟨hs, idle⟩ := ih
    obtain ⟨hs', calm, -, -⟩ := (traversal_replays coherent (Nat.le_refl fuel)
      (closed_reaches _ site.view t)).resolveType (⟨rfl, led, led, nofun⟩ : Beside _ _ [] site site) t
        (inside_of_uses names fun n uses => ⟨n, uses, .refl⟩) s a s' hs
        (fun q i way => absurd way (idle q i)) resolved
    exact ⟨hs', idle.calm calm⟩

end Units

/-- Writing a default out changes nothing. In a unit in which names behind keywords are declared, and no
name that leads back to itself has two meanings, a type and another one that it may be written as at its
site are resolved to the same, now and later. -/
theorem resolveType_writtenAs {items : List Item} {constants : List MacroConstant} {config : Config}
    (elaborated : DeclaresElaborated items) (stable : (Registry.ofVisits (visitAll {} items)).Stable)
    {s : State} (between : BetweenTypes items constants config s) {site : Site} {t t' : TypeExpr}
    (written : WrittenAs (Registry.ofVisits (visitAll {} items)) none site.view site.view t t')
    (names : LooksUpOnly (Declared (Registry.ofVisits (visitAll {} items))) site.view t)
    (led : site.LedTo (Registry.ofVisits (visitAll {} items))
      ((Registry.ofVisits (visitAll {} items)).Reaches site.view t))
    {fuel : Nat} {a : TypeRef} {s' : State}
    (resolved : resolveType (jumpWithin fuel) site t s = (.ok a, s')) {u : State} (later : Later s' u) :
    resolveType (jumpWithin fuel) site t u = (.ok a, u) ∧
      resolveType (jumpWithin fuel) site t' u = (.ok a, u) := by
  have coherent := coherent_of_declares elaborated stable
  obtain ⟨hs, idle⟩ := between.recalling coherent elaborated
  have closed := closed_reaches (Registry.ofVisits (visitAll {} items)) site.view t
  have inside : LooksUpOnly (Inside (Registry.ofVisits (visitAll {} items))
      ((Registry.ofVisits (visitAll {} items)).Reaches site.view t)) site.view t :=
    inside_of_uses names fun n uses => ⟨n, uses, .refl⟩
  have begun : s.LedTo (Registry.ofVisits (visitAll {} items))
      ((Registry.ofVisits (visitAll {} items)).Reaches site.view t) :=
    fun q i way => absurd way (idle q i)
  have clear : s.Clear ((Registry.ofVisits (visitAll {} items)).Reaches site.view t) :=
    fun q i way => absurd way (idle q i)
  -- The type itself is replayed, and what it is written as echoes it.
  constructor
  · obtain ⟨-, -, -, again⟩ := (traversal_replays coherent (Nat.le_refl fuel) closed).resolveType
      (⟨rfl, led, led, nofun⟩ : Beside _ _ [] site site) t inside s a s' hs begun resolved
    exact again clear u later
  · obtain ⟨-, -, again⟩ := written.echoes coherent closed (Nat.le_refl fuel)
      (⟨rfl, rfl, led, led⟩ : Across _ _ _ _ site site) inside (b := none) trivial writtenWithin_none
      s a s' (.refl s) hs begun clear resolved
    exact again u later

/-! ### A template whose default is made of its parameter -/

def plainRecord (name : String) : ParsedRecord :=
  { RecordDecl.forward name .struct with complete := true }

/-- An instantiation as it is written. -/
def instanceOf (name : String) (args : List TypeExpr) : TypeExpr :=
  .named none ((NamePath.simple name).withArgs (args.map .type))

/-- A template of one type. -/
def itemTemplate : TemplateDecl TypeExpr PathExpr := ⟨[⟨some "T", .type none, false⟩], plainRecord "A"⟩

/-- A template of two types, of which the second is made of the first. -/
def pairTemplate : TemplateDecl TypeExpr PathExpr :=
  ⟨[⟨some "T", .type none, false⟩,
    ⟨some "U", .type (some (instanceOf "A" [.named none (.simple "T")])), false⟩], plainRecord "B"⟩

/-- Both templates, and a specialization of the second that leaves the default out. -/
def pairUnit : List Item :=
  [.decl (.template itemTemplate) [] ⟨"b.h", 1, 1⟩, .decl (.template pairTemplate) [] ⟨"b.h", 2, 1⟩,
    .decl (.specialization ⟨"B", [], [.type (.primitive .int)], plainRecord "B", false⟩) []
      ⟨"b.h", 3, 1⟩]

def pairRegistry : Registry := Registry.ofVisits (visitAll {} pairUnit)

/-- What the default names, seen from where the template stands. -/
theorem found_item (v : View) (h : v = View.withParams {} pairTemplate.params ∨ v = {}) (arg : TypeExpr) :
    pairRegistry.found ⟨v, none, (NamePath.simple "A").withArgs [.type arg]⟩ =
      some (.meaning "A" (.template .struct itemTemplate.params {})) := by
  rcases h with rfl | rfl <;> with_unfolding_all rfl

theorem found_pair : pairRegistry.found ⟨{}, none, (NamePath.simple "B").withArgs
    [.type (.primitive .int)]⟩ = some (.meaning "B" (.template .struct pairTemplate.params {})) := by
  with_unfolding_all rfl

/-- The default is written for integers. -/
theorem writtenAs_pair : WrittenAs pairRegistry none {} {} (instanceOf "B" [.primitive .int])
    (instanceOf "B" [.primitive .int, instanceOf "A" [.primitive .int]]) := by
  refine @WrittenAs.defaultType pairRegistry {} none (.simple "B") [.type (.primitive .int)] _ _ _ _ _ _
    found_pair rfl ?_
  refine @WrittenAs.instantiation pairRegistry _ _ _ none (.simple "A") (.simple "A")
    [.type (.named none (.simple "T"))] [.type (.primitive .int)] _ ⟨?_, ?_⟩
    (found_item _ (Or.inl rfl) _) (found_item _ (Or.inr rfl) _) rfl ?_ ?_ ?_ ?_ ?_
  · rintro - _ ⟨⟩
    rfl
  · rintro _ ⟨⟩ word hw
    have words : "" :: wordsOf (TypeExpr.renderScope []) = [""] := by with_unfolding_all rfl
    obtain rfl : word = "" := List.mem_singleton.mp (words ▸ hw)
    rfl
  · rintro (_ | i) t t' here there
    · cases here
      cases there
      exact .param rfl rfl
    · cases here
  · rintro (_ | i) t t' here there
    · cases here
    · cases here
  · rintro _ _ _ _ ⟨⟩
    exact Or.inr rfl
  · rintro _ _ ⟨⟩ specialized
    exact absurd (by with_unfolding_all rfl) specialized
  · rintro _ _ ⟨⟩ specialized (_ | i) t t' here there
    · cases here
    · cases here

/-- Only the template of one type is looked up for what the unit declares. -/
theorem names_pairUnit {x : View × ParsedDecl} (hx : x ∈ declarations pairUnit)
    {p : View × TypeExpr} (part : p ∈ x.2.parts x.1) :
    LooksUpOnly (fun u => u.kind = none ∧
      ∀ n m, pairRegistry.found u = some (.meaning n m) → n = "A") p.1 p.2 := by
  have all : declarations pairUnit = [({}, .template itemTemplate), ({}, .template pairTemplate),
    ({}, .specialization ⟨"B", [], [.type (.primitive .int)], plainRecord "B", false⟩)] := rfl
  have record (v : View) (name : String) (A : NameUse → Prop) :
      LooksUpOnly A v (.record (plainRecord name)) := by
    rw [looksUpOnly_iff]
    simp [TypeExpr.lookups, TypeExpr.parts, RecordDecl.parts, plainRecord, RecordDecl.forward]
  rw [all] at hx
  simp only [List.mem_cons, List.not_mem_nil, or_false] at hx
  rcases hx with rfl | rfl | rfl
  · obtain rfl := List.mem_singleton.mp part
    exact record _ _ _
  · rcases List.mem_cons.mp part with rfl | part
    · change LooksUpOnly _ (View.withParams {} pairTemplate.params)
        (instanceOf "A" [.named none (.simple "T")])
      refine looksUpOnly_named.mpr ⟨?_, fun a ha => ?_⟩
      · refine ⟨rfl, fun n m found => ?_⟩
        cases (found_item _ (Or.inl rfl) _).symm.trans found
        rfl
      · obtain rfl := List.mem_singleton.mp ha
        refine looksUpOnly_named.mpr ⟨?_, fun a ha => by cases ha⟩
        exact ⟨rfl, fun n m found => by cases found⟩
    · obtain rfl := List.mem_singleton.mp part
      exact record _ _ _
  · rcases List.mem_cons.mp part with rfl | part
    · rw [looksUpOnly_iff]
      simp [TypeExpr.lookups, TypeExpr.parts]
    · obtain rfl := List.mem_singleton.mp part
      exact record _ _ _

theorem stable_pairUnit : pairRegistry.Stable := by
  -- What is looked up for a name is a template, and that leads nowhere.
  have last (n n' : String) (leads : pairRegistry.Leads n n') : n' = "A" := by
    obtain ⟨v, t, text, u, m, looked, found, -⟩ := leads
    obtain ⟨x, hx, part, -⟩ := text.mem_parts
    exact (names_pairUnit hx part u looked).2 _ m found
  have nowhere (n : String) : ¬ pairRegistry.Leads "A" n := by
    rintro ⟨v, t, text, u, m, looked, -, -⟩
    have meanings : (pairRegistry.meanings.get? "A").getD [] =
        [.template .struct itemTemplate.params {}] := by with_unfolding_all rfl
    have patterns : pairRegistry.patternsOf "A" = [] := by with_unfolding_all rfl
    cases text with
    | target known =>
      rw [meanings] at known
      cases List.mem_singleton.mp known
    | default known hp ht =>
      rw [meanings] at known
      cases List.mem_singleton.mp known
      obtain rfl := List.mem_singleton.mp hp
      cases ht
    | arg hp ht =>
      rw [patterns] at hp
      cases hp
  exact Registry.stable_of_last last nowhere

/-- Where the template is used. -/
def pairSite : Site := { maxDepth := 1, origin := ⟨"b.h", 4, 1⟩, view := {} }

theorem resolveType_writtenAs_pair : ∃ s s', DeclaresElaborated pairUnit ∧ pairRegistry.Stable ∧
    BetweenTypes pairUnit [] {} s ∧
    WrittenAs pairRegistry none {} {} (instanceOf "B" [.primitive .int])
      (instanceOf "B" [.primitive .int, instanceOf "A" [.primitive .int]]) ∧
    resolveType (jumpWithin 9) pairSite (instanceOf "B" [.primitive .int]) s =
      (.ok (.instantiation ⟨"B", [.type (.primitive .int),
        .type (.instantiation ⟨"A", [.type (.primitive .int)], none⟩)],
          some [.type (.primitive .int)]⟩), s') ∧
    resolveType (jumpWithin 9) pairSite
      (instanceOf "B" [.primitive .int, instanceOf "A" [.primitive .int]]) s' =
        (.ok (.instantiation ⟨"B", [.type (.primitive .int),
          .type (.instantiation ⟨"A", [.type (.primitive .int)], none⟩)],
            some [.type (.primitive .int)]⟩), s') := by
  have elaborated : DeclaresElaborated pairUnit := fun x hx p part u looked behind => by
    rw [(names_pairUnit hx part u looked).1] at behind
    cases behind
  have names : LooksUpOnly (Declared pairRegistry) {} (instanceOf "B" [.primitive .int]) := by
    refine looksUpOnly_named.mpr ⟨nofun, fun a ha => ?_⟩
    obtain rfl := List.mem_singleton.mp ha
    rw [looksUpOnly_iff]
    simp [TypeExpr.lookups, TypeExpr.parts]
  obtain ⟨s, run⟩ : ∃ s, resolveSome pairUnit [] {} (visitAll {} pairUnit) = (.ok (), s) := by
    have ok : (resolveSome pairUnit [] {} (visitAll {} pairUnit)).1.toOption.isSome := by
      decide +kernel
    rcases whole : resolveSome pairUnit [] {} (visitAll {} pairUnit) with ⟨e | _, s⟩
    · rw [whole] at ok
      cases ok
    · exact ⟨s, rfl⟩
  have between : BetweenTypes pairUnit [] {} s := .declarations (List.append_nil _).symm run
  have result : (resolveType (jumpWithin 9) pairSite
      (instanceOf "B" [.primitive .int])
        (resolveSome pairUnit [] {} (visitAll {} pairUnit)).2).1.toOption =
      some (.instantiation ⟨"B", [.type (.primitive .int),
        .type (.instantiation ⟨"A", [.type (.primitive .int)], none⟩)],
          some [.type (.primitive .int)]⟩) := by
    decide +kernel
  rw [run] at result
  rcases resolved : resolveType (jumpWithin 9) pairSite
      (instanceOf "B" [.primitive .int]) s with ⟨e | a, s'⟩
  · rw [resolved] at result
    cases result
  · rw [resolved] at result
    obtain rfl := Option.some.inj result
    have written : WrittenAs pairRegistry none pairSite.view pairSite.view
        (instanceOf "B" [.primitive .int])
          (instanceOf "B" [.primitive .int, instanceOf "A" [.primitive .int]]) := writtenAs_pair
    have led : pairSite.LedTo pairRegistry
        (pairRegistry.Reaches pairSite.view (instanceOf "B" [.primitive .int])) :=
      fun q hq => by cases hq
    exact ⟨s, s', elaborated, stable_pairUnit, between, written, resolved,
      (resolveType_writtenAs elaborated stable_pairUnit between written names led resolved
        (.refl s')).2⟩

/-- The same templates with a specialization of the first, and two variables: the second has the default
of the first written out. -/
def selectedPairUnit : List Item :=
  [.decl (.template itemTemplate) [] ⟨"b.h", 1, 1⟩,
    .decl (.specialization ⟨"A", [], [.type (.primitive .int)], plainRecord "A", false⟩) []
      ⟨"b.h", 2, 1⟩,
    .decl (.template pairTemplate) [] ⟨"b.h", 3, 1⟩,
    .decl (.var ⟨"x", instanceOf "B" [.primitive .int], false, false⟩) [] ⟨"b.h", 4, 1⟩,
    .decl (.var ⟨"y", instanceOf "B" [.primitive .int, instanceOf "A" [.primitive .int]], false, false⟩)
      [] ⟨"b.h", 5, 1⟩]

/-- The specialization for the instantiation in the default is selected before its parameter is replaced:
there is none for a parameter, while there is one for what takes its place. -/
theorem not_selected_in_default :
    ∃ m ds, resolve selectedPairUnit [] {} = (.ok m, ds) ∧
      (m.entry? ⟨0, 3⟩).map (·.decl) = some (.var ⟨"x", .instantiation ⟨"B",
        [.type (.primitive .int), .type (.instantiation ⟨"A", [.type (.primitive .int)], none⟩)],
          none⟩, false, false⟩) ∧
      (m.entry? ⟨0, 4⟩).map (·.decl) = some (.var ⟨"y", .instantiation ⟨"B",
        [.type (.primitive .int), .type (.instantiation ⟨"A", [.type (.primitive .int)],
          some [.type (.primitive .int)]⟩)], none⟩, false, false⟩) := by
  have kept : (resolve selectedPairUnit [] {}).1.toOption.map (fun m =>
      ((m.entry? ⟨0, 3⟩).map (·.decl), (m.entry? ⟨0, 4⟩).map (·.decl))) =
        some (some (.var ⟨"x", .instantiation ⟨"B",
          [.type (.primitive .int), .type (.instantiation ⟨"A", [.type (.primitive .int)], none⟩)],
            none⟩, false, false⟩),
          some (.var ⟨"y", .instantiation ⟨"B",
            [.type (.primitive .int), .type (.instantiation ⟨"A", [.type (.primitive .int)],
              some [.type (.primitive .int)]⟩)], none⟩, false, false⟩)) := by
    decide +kernel
  obtain ⟨m, ds, resolved, both⟩ := exists_resolved kept
  obtain ⟨first, second⟩ := Prod.mk.inj both
  exact ⟨m, ds, resolved, first, second⟩

end HeaderDecl.Resolution
