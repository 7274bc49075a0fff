import HeaderDecl.Proofs.ChosenSpecializations
import HeaderDecl.Proofs.TruthfulUnits

/-!
Typedef names in the arguments of templates and of their specializations. Types that are spelled with and
without them stand for the same, and so the same specialization is selected.
-/

namespace HeaderDecl.Resolution

open Relation Template

/-! ### Types spelled in another way -/

/-- Whether the defaults of template parameters stand for the same in two units. -/
def DefaultsAlike (r r' : Registry) (fin fin' : State) (v v' : View) (params : List (TemplateParam TypeExpr)) : Prop :=
  ∀ q ∈ params, ∀ t, q.default? = some (.type t) → ∃ d, StandsFor r fin v t d ∧ StandsFor r' fin' v' t d

mutual

/-- Whether two types, each seen from a view in a unit of its own until some state of its resolution,
differ in typedef names alone: in one or the other there are such names in the place of types that are their
targets, and the qualifiers of a target are joined to those before its name. What stands for the same in both
may be anything, and a pointer to a function stays one. -/
inductive Respelled (r r' : Registry) (fin fin' : State) : View → View → TypeExpr → TypeExpr → Prop
  | same {v v' : View} {t t' : TypeExpr} {d : TypeRef} (h : StandsFor r fin v t d)
      (h' : StandsFor r' fin' v' t' d) : Respelled r r' fin fin' v v' t t'
  | left {v v' view : View} {t t' target : TypeExpr} {kind : Option NamedKind} {p : PathExpr}
      {name : String} (written : t.name? = some (kind, p))
      (found : r.found ⟨v, kind, p⟩ = some (.meaning name (.typedef target view)))
      (h : Respelled r r' fin fin' view v' target t') : Respelled r r' fin fin' v v' t t'
  | right {v v' view : View} {t t' target : TypeExpr} {kind : Option NamedKind} {p : PathExpr}
      {name : String} (written : t'.name? = some (kind, p))
      (found : r'.found ⟨v', kind, p⟩ = some (.meaning name (.typedef target view)))
      (h : Respelled r r' fin fin' v view t target) : Respelled r r' fin fin' v v' t t'
  | instantiation {v v' view view' : View} {t t' : TypeExpr} {kind kind' : Option NamedKind}
      {p p' : PathExpr} {name : String} {record record' : RecordKind}
      {params : List (TemplateParam TypeExpr)} {args args' : List ArgExpr}
      (written : t.name? = some (kind, p)) (written' : t'.name? = some (kind', p'))
      (found : r.found ⟨v, kind, p⟩ = some (.meaning name (.template record params view)))
      (found' : r'.found ⟨v', kind', p'⟩ = some (.meaning name (.template record' params view')))
      (given : p.last.args = some args) (given' : p'.last.args = some args')
      (arguments : RespelledArgs r r' fin fin' v v' args args')
      (defaults : DefaultsAlike r r' fin fin' (view.withParams params) (view'.withParams params)
        (params.drop args.length)) : Respelled r r' fin fin' v v' t t'
  | pointer {v v' : View} {t t' : TypeExpr} (h : Respelled r r' fin fin' v v' t t')
      (function : t'.isFunction = t.isFunction) : Respelled r r' fin fin' v v' (.pointer t) (.pointer t')
  | reference {v v' : View} {t t' : TypeExpr} (h : Respelled r r' fin fin' v v' t t') :
      Respelled r r' fin fin' v v' (.reference t) (.reference t')
  | rvalueReference {v v' : View} {t t' : TypeExpr} (h : Respelled r r' fin fin' v v' t t') :
      Respelled r r' fin fin' v v' (.rvalueReference t) (.rvalueReference t')
  | array {v v' : View} {t t' : TypeExpr} {size : Option Value} (h : Respelled r r' fin fin' v v' t t') :
      Respelled r r' fin fin' v v' (.array t size) (.array t' size)
  | qualified {v v' : View} {q : Qualifiers} {t t' : TypeExpr} (h : Respelled r r' fin fin' v v' t t') :
      Respelled r r' fin fin' v v' (.qualified q t) (.qualified q t')
  | joinedLeft {v v' : View} {q q' : Qualifiers} {t t' : TypeExpr}
      (h : Respelled r r' fin fin' v v' t (.qualified q' t')) :
      Respelled r r' fin fin' v v' (.qualified q t) (.qualified (q.union q') t')
  | joinedRight {v v' : View} {q q' : Qualifiers} {t t' : TypeExpr}
      (h : Respelled r r' fin fin' v v' (.qualified q t) t') :
      Respelled r r' fin fin' v v' (.qualified (q'.union q) t) (.qualified q' t')

inductive RespelledArgs (r r' : Registry) (fin fin' : State) : View → View → List ArgExpr → List ArgExpr → Prop
  | nil {v v' : View} : RespelledArgs r r' fin fin' v v' [] []
  | literal {v v' : View} {text : String} {rest rest' : List ArgExpr}
      (others : RespelledArgs r r' fin fin' v v' rest rest') :
      RespelledArgs r r' fin fin' v v' (.literal text :: rest) (.literal text :: rest')
  | type {v v' : View} {t t' : TypeExpr} {rest rest' : List ArgExpr}
      (first : Respelled r r' fin fin' v v' t t') (others : RespelledArgs r r' fin fin' v v' rest rest') :
      RespelledArgs r r' fin fin' v v' (.type t :: rest) (.type t' :: rest')

end

/-- Whether two specializations of a template, in units of their own, differ in typedef names alone. -/
def Pattern.Respelled (r r' : Registry) (fin fin' : State) (template : String) (p p' : Pattern) :
    Prop :=
  p'.params = p.params ∧ RespelledArgs r r' fin fin' p.view p'.view p.args p'.args ∧
    ∃ kind kind' params view view',
      r.find? [] none template = some (.template kind params view) ∧
        r'.find? [] none template = some (.template kind' params view') ∧
          DefaultsAlike r r' fin fin' (view.withParams params) (view'.withParams params)
            (params.drop p.args.length)

/-! ### What they stand for -/

section Standing

variable {r r' : Registry} {fin fin' : State} {v v' : View}

theorem unaliased_chainEnd (t : TypeRef) : unaliased (chainEnd t) = unaliased t := by
  cases t <;> rfl

/-- What a name stands for is no function. -/
theorem StandsFor.named_ne_function {t : TypeExpr} {d : TypeRef} (standing : StandsFor r fin v t d)
    {kind : Option NamedKind} {p : PathExpr} (written : t.name? = some (kind, p))
    (sig : Signature TypeRef) : d ≠ .function sig := by
  obtain ⟨f, found, itself⟩ | ⟨_, _, _, _, -, -, rfl⟩ | ⟨_, _, _, _, _, _, _, -, -, -, -, rfl⟩ :=
    standing.named_cases written
  · match f with
    | .type t =>
      cases itself
      obtain ⟨_, rfl⟩ | ⟨_, rfl⟩ | ⟨_, rfl⟩ := type_of_found found <;> nofun
    | .meaning _ (.record _) | .meaning _ .enum =>
      cases itself
      nofun
    | .meaning _ (.typedef _ _) => cases itself
    | .meaning _ (.template _ _ _) =>
      obtain ⟨-, rfl⟩ : _ ∧ _ = d := by simpa [Found.itself?] using itself
      nofun
  · nofun
  · nofun

theorem StandsFor.of_qualified {q : Qualifiers} {t : TypeExpr} {d : TypeRef} :
    StandsFor r fin v (.qualified q t) d → ∃ d', StandsFor r fin v t d' ∧ d = .withQualifiers q d'
  | .qualified h => ⟨_, h, rfl⟩
  | .name written _ _ | .typedef written _ _ | .instantiation written _ _ _ _ => by cases written

/-- Whether a type stands for functions can be seen from how it is written. -/
theorem StandsFor.isFunction_iff : (t : TypeExpr) → {d : TypeRef} → StandsFor r fin v t d →
    (t.isFunction = true ↔ ∃ sig, d = .function sig)
  | .path _, d, standing | .elaborated _ _, d, standing => by
    have other := standing.named_ne_function rfl
    simpa [TypeExpr.isFunction] using other
  | .qualified q t, _, standing => by
    obtain ⟨d, plain, rfl⟩ := standing.of_qualified
    have within := plain.isFunction_iff t
    by_cases none : q.isEmpty
    · simpa [TypeExpr.isFunction, TypeRef.withQualifiers, none] using within
    · cases d <;> simp [TypeExpr.isFunction, TypeRef.withQualifiers, none]
  | .pointer _, _, standing => by
    cases standing with
    | @pointer _ _ d standing => cases d <;> simp [TypeExpr.isFunction, pointerTo]
    | name written | typedef written | instantiation written => cases written
  | .primitive _, _, standing | .dependent _, _, standing | .reference _, _, standing
  | .rvalueReference _, _, standing | .array _ _, _, standing | .function _, _, standing
  | .record _, _, standing | .enum _, _, standing => by
    cases standing with
    | name written | typedef written | instantiation written => cases written
    | _ => simp [TypeExpr.isFunction]

/-- Pointers are alike if what they point to is, and is or is not a function in both. -/
theorem unaliased_pointerTo {d d' : TypeRef} (alike : unaliased d = unaliased d')
    (function : (∃ sig, d' = .function sig) ↔ ∃ sig, d = .function sig) :
    unaliased (pointerTo d) = unaliased (pointerTo d') := by
  by_cases pointee : ∃ sig, d = .function sig
  · obtain ⟨sig', rfl⟩ := function.mpr pointee
    obtain ⟨sig, rfl⟩ := pointee
    have same : TypeRef.function sig = .function sig' := alike
    cases same
    rfl
  · rw [pointerTo_eq pointee, pointerTo_eq fun other => pointee (function.mp other), unaliased, alike,
      unaliased]

/-- Arguments that differ in typedef names alone are filled up alike. -/
theorem exists_fills {params rest : List (TemplateParam TypeExpr)}
    (defaults : DefaultsAlike r r' fin fin' v v' rest) {ds ds' : List ArgRef}
    (same : unaliasedArgs ds = unaliasedArgs ds') :
    ∃ es es', Fills r fin params v rest ds es ∧ Fills r' fin' params v' rest ds' es' ∧
      unaliasedArgs es = unaliasedArgs es' := by
  induction rest generalizing ds ds' with
  | nil => exact ⟨ds, ds', .done, .done, same⟩
  | cons q rest ih =>
    have others : DefaultsAlike r r' fin fin' v v' rest := fun p hp => defaults p (List.mem_cons_of_mem _ hp)
    have bound : (bind params ds).mapArgs unaliasedArg = (bind params ds').mapArgs unaliasedArg := by
      rw [← bind_map, ← bind_map, ← unaliasedArgs_eq, same, unaliasedArgs_eq]
    -- The arguments before a default stand in it alike.
    have longer (a : ArgRef) : unaliasedArgs (ds ++ [substituteArg (bind params ds) a]) =
        unaliasedArgs (ds' ++ [substituteArg (bind params ds') a]) := by
      rw [unaliasedArgs_eq, unaliasedArgs_eq] at same ⊢
      rw [List.map_append, List.map_append, same, List.map_singleton, List.map_singleton,
        unaliasedArg_substituteArg bound]
    cases default : q.default? with
    | none => exact ⟨ds, ds', .stop default, .stop default, same⟩
    | some a =>
      cases a with
      | literal text =>
        obtain ⟨es, es', fills, fills', alike⟩ := ih others (longer (.literal text))
        exact ⟨es, es', .literal default fills, .literal default fills', alike⟩
      | type t =>
        obtain ⟨d, standing, standing'⟩ := defaults q List.mem_cons_self t default
        obtain ⟨es, es', fills, fills', alike⟩ := ih others (longer (.type d))
        exact ⟨es, es', .type default standing fills, .type default standing' fills', alike⟩

theorem RespelledArgs.length {args args' : List ArgExpr} (h : RespelledArgs r r' fin fin' v v' args args') :
    args'.length = args.length := by
  induction args generalizing args' with
  | nil =>
    cases h
    rfl
  | cons a rest ih =>
    cases h with
    | literal others | type _ others => rw [List.length_cons, List.length_cons, ih others]

theorem ArgsStandFor.length {args : List ArgExpr} {ds : List ArgRef} (h : ArgsStandFor r fin v args ds) :
    ds.length = args.length := by
  induction args generalizing ds with
  | nil =>
    cases h
    rfl
  | cons a rest ih =>
    cases h with
    | literal others | type _ others => rw [List.length_cons, List.length_cons, ih others]

mutual

/-- Types that differ in typedef names alone stand for the same without them. -/
theorem Respelled.stands {v v' : View} {t t' : TypeExpr} : Respelled r r' fin fin' v v' t t' →
    ∃ d d', StandsFor r fin v t d ∧ StandsFor r' fin' v' t' d' ∧ unaliased d = unaliased d'
  | .same h h' => ⟨_, _, h, h', rfl⟩
  | .left written found h => by
    obtain ⟨d, d', standing, standing', alike⟩ := h.stands
    exact ⟨_, d', .typedef written found standing, standing',
      by rw [unaliased, unaliased_chainEnd, alike]⟩
  | .right written found h => by
    obtain ⟨d, d', standing, standing', alike⟩ := h.stands
    exact ⟨d, _, standing, .typedef written found standing',
      by rw [unaliased, unaliased_chainEnd, alike]⟩
  | .instantiation written written' found found' given given' arguments defaults => by
    obtain ⟨ds, ds', standing, standing', alike⟩ := arguments.stand
    obtain ⟨es, es', fills, fills', equal⟩ := exists_fills defaults alike
    rw [← standing.length] at fills
    rw [← arguments.length, ← standing'.length] at fills'
    exact ⟨_, _, .instantiation written found given standing fills,
      .instantiation written' found' given' standing' fills', by rw [unaliased, equal, unaliased]⟩
  | .pointer h function => by
    obtain ⟨d, d', standing, standing', alike⟩ := h.stands
    refine ⟨_, _, .pointer standing, .pointer standing', unaliased_pointerTo alike ?_⟩
    rw [← standing.isFunction_iff, ← standing'.isFunction_iff, function]
  | .reference h => by
    obtain ⟨d, d', standing, standing', alike⟩ := h.stands
    exact ⟨_, _, .reference standing, .reference standing', congrArg TypeRef.reference alike⟩
  | .rvalueReference h => by
    obtain ⟨d, d', standing, standing', alike⟩ := h.stands
    exact ⟨_, _, .rvalueReference standing, .rvalueReference standing',
      congrArg TypeRef.rvalueReference alike⟩
  | .array h => by
    obtain ⟨d, d', standing, standing', alike⟩ := h.stands
    exact ⟨_, _, .array standing, .array standing', congrArg (TypeRef.array · _) alike⟩
  | .qualified h => by
    obtain ⟨d, d', standing, standing', alike⟩ := h.stands
    exact ⟨_, _, .qualified standing, .qualified standing',
      by rw [unaliased_withQualifiers, unaliased_withQualifiers, alike]⟩
  | .joinedLeft h => by
    obtain ⟨d, _, standing, joined, alike⟩ := h.stands
    obtain ⟨d', standing', rfl⟩ := joined.of_qualified
    refine ⟨_, _, .qualified standing, .qualified standing', ?_⟩
    rw [← withQualifiers_withQualifiers, unaliased_withQualifiers,
      unaliased_withQualifiers, alike]
  | .joinedRight h => by
    obtain ⟨_, d', joined, standing', alike⟩ := h.stands
    obtain ⟨d, standing, rfl⟩ := joined.of_qualified
    refine ⟨_, _, .qualified standing, .qualified standing', ?_⟩
    rw [← withQualifiers_withQualifiers, unaliased_withQualifiers, alike,
      unaliased_withQualifiers]

theorem RespelledArgs.stand {v v' : View} {args args' : List ArgExpr} :
    RespelledArgs r r' fin fin' v v' args args' →
      ∃ ds ds', ArgsStandFor r fin v args ds ∧ ArgsStandFor r' fin' v' args' ds' ∧
        unaliasedArgs ds = unaliasedArgs ds'
  | .nil => ⟨[], [], .nil, .nil, rfl⟩
  | .literal others => by
    obtain ⟨ds, ds', standing, standing', alike⟩ := others.stand
    exact ⟨_, _, .literal standing, .literal standing', congrArg (List.cons _) alike⟩
  | .type first others => by
    obtain ⟨d, d', one, one', equal⟩ := first.stands
    obtain ⟨ds, ds', standing, standing', alike⟩ := others.stand
    refine ⟨_, _, .type one standing, .type one' standing', ?_⟩
    rw [unaliasedArgs, unaliasedArg, equal, alike]
    rfl

end

theorem Pattern.Respelled.stand {template : String} {p p' : Pattern}
    (h : p.Respelled r r' fin fin' template p') :
    ∃ e e', p.StandsFor r fin template e ∧ p'.StandsFor r' fin' template e' ∧
      unaliasedArgs e = unaliasedArgs e' := by
  obtain ⟨-, arguments, kind, kind', params, view, view', meant, meant', defaults⟩ := h
  obtain ⟨ds, ds', standing, standing', alike⟩ := arguments.stand
  obtain ⟨es, es', fills, fills', equal⟩ := exists_fills defaults alike
  rw [← standing.length] at fills
  rw [← arguments.length, ← standing'.length] at fills'
  exact ⟨es, es', ⟨kind, params, view, ds, meant, standing, fills⟩,
    ⟨kind', params, view', ds', meant', standing', fills'⟩, equal⟩

/-- Specializations that differ in typedef names alone are compared alike. -/
theorem exists_compared {template : String} {ps ps' : List Pattern}
    (h : List.Forall₂ (fun p p' => p.Respelled r r' fin fin' template p') ps ps') :
    ∃ es es', List.Forall₂ (fun p e => p.StandsFor r fin template e) ps es ∧
      List.Forall₂ (fun p e => p.StandsFor r' fin' template e) ps' es' ∧
        compared ps es = compared ps' es' := by
  induction h with
  | nil => exact ⟨[], [], .nil, .nil, rfl⟩
  | cons first others ih =>
    obtain ⟨e, e', standing, standing', equal⟩ := first.stand
    obtain ⟨es, es', others, others', alike⟩ := ih
    refine ⟨e :: es, e' :: es', .cons standing others, .cons standing' others', ?_⟩
    unfold compared at alike ⊢
    rw [List.zipWith_cons_cons, List.zipWith_cons_cons, alike, equal, first.1]

end Standing

/-- What is selected by one choice in one resolution is the same. -/
theorem State.Selects.unique {s : State} {template : String} {choice : Option Nat}
    {selected selected' : Option (List ArgRef)} (h : s.Selects template choice selected)
    (h' : s.Selects template choice selected') : selected' = selected := by
  cases choice with
  | none => exact Eq.trans (show selected' = none from h') (show none = selected from h.symm)
  | some i =>
    obtain ⟨w, f, resolved, rfl⟩ := h
    obtain ⟨w', f', resolved', rfl⟩ := h'
    cases resolved.symm.trans resolved'
    rfl

/-! ### Units -/

/-- The names that a type leads to between two types of a unit. -/
structure Visible (items : List Item) (site : Site) (t : TypeExpr) : Prop where
  names : LooksUpOnly (Declared (Registry.ofVisits (visitAll {} items))) site.view t
  led : site.LedTo (Registry.ofVisits (visitAll {} items))
    ((Registry.ofVisits (visitAll {} items)).Reaches site.view t)

/-- What a type is resolved to between two types of a unit is what it comes to in the whole resolution, unless
it leads to a name that leads back to itself. -/
theorem fixes_between {items : List Item} {constants : List MacroConstant} {config : Config}
    (elaborated : DeclaresElaborated items) (stable : (Registry.ofVisits (visitAll {} items)).Stable)
    {s : State} (between : BetweenTypes items constants config s) {site : Site} {t : TypeExpr}
    (visible : Visible items site t)
    (acyclic : ∀ n, (Registry.ofVisits (visitAll {} items)).Reaches site.view t n →
      ¬ TransGen (Registry.ofVisits (visitAll {} items)).Leads n n) {fuel : Nat} {a : TypeRef}
    {u fin : State} (resolved : resolveType (jumpWithin fuel) site t s = (.ok a, u))
    (later : Later u fin) : (Registry.ofVisits (visitAll {} items)).Fixes fin site.view t a := by
  have coherent := coherent_of_declares elaborated stable
  obtain ⟨hs, idle⟩ := between.truthful coherent elaborated
  exact Registry.fixes_of_run coherent visible.led acyclic hs.toRecalling (idle.ledTo _ _) resolved later

/-- Between two types of a unit, a type is resolved to what it stands for, with the specialization that is
chosen if it is an instantiation. -/
theorem resolveType_between {items : List Item} {constants : List MacroConstant} {config : Config}
    (elaborated : DeclaresElaborated items) (stable : (Registry.ofVisits (visitAll {} items)).Stable)
    {s : State} (between : BetweenTypes items constants config s) {site : Site} {t : TypeExpr}
    (visible : Visible items site t) {fuel : Nat} {i : Instantiation TypeRef} {u fin : State}
    (resolved : resolveType (jumpWithin fuel) site t s = (.ok (.instantiation i), u))
    (later : Later u fin) :
    (∀ d, StandsFor (Registry.ofVisits (visitAll {} items)) fin site.view t d →
      unselected (.instantiation i) = d) ∧
      ∀ es, List.Forall₂
          (fun p e => p.StandsFor (Registry.ofVisits (visitAll {} items)) fin i.template e)
          ((Registry.ofVisits (visitAll {} items)).patternsOf i.template) es →
        u.Selects i.template (choose (unaliasedArgs i.args)
          (compared ((Registry.ofVisits (visitAll {} items)).patternsOf i.template) es))
          i.specialization := by
  have coherent := coherent_of_declares elaborated stable
  obtain ⟨hs, idle⟩ := between.truthful coherent elaborated
  have closed := closed_reaches (Registry.ofVisits (visitAll {} items)) site.view t
  have inside := inside_of_uses visible.names fun n uses =>
    (⟨n, uses, .refl⟩ : (Registry.ofVisits (visitAll {} items)).Reaches site.view t n)
  obtain ⟨-, -, told⟩ := tells_jumpWithin coherent (fuel + 1) _ site t closed visible.led inside s _ u
    hs (idle.ledTo _ _) resolved
  exact ⟨told fin later, fun es standing =>
    resolveType_chosen coherent closed visible.led hs idle later standing t inside resolved⟩

/-- Typedef names make no difference to the specialization that is selected. In units in which names
behind keywords are declared and no name that leads back to itself has two meanings, two instantiations
that differ in typedef names alone, of a template whose specializations differ in typedef names alone, have
the specialization of the same number; in one resolution it is the same. -/
theorem specialization_of_respelled {items items' : List Item}
    {constants constants' : List MacroConstant} {config config' : Config}
    (elaborated : DeclaresElaborated items) (elaborated' : DeclaresElaborated items')
    (stable : (Registry.ofVisits (visitAll {} items)).Stable)
    (stable' : (Registry.ofVisits (visitAll {} items')).Stable) {s s' : State}
    (between : BetweenTypes items constants config s)
    (between' : BetweenTypes items' constants' config' s') {site site' : Site} {t t' : TypeExpr}
    (visible : Visible items site t) (visible' : Visible items' site' t') {fuel fuel' : Nat}
    {i i' : Instantiation TypeRef} {u u' fin fin' : State}
    (resolved : resolveType (jumpWithin fuel) site t s = (.ok (.instantiation i), u))
    (resolved' : resolveType (jumpWithin fuel') site' t' s' = (.ok (.instantiation i'), u'))
    (later : Later u fin) (later' : Later u' fin')
    (respelled : Respelled (Registry.ofVisits (visitAll {} items))
      (Registry.ofVisits (visitAll {} items')) fin fin' site.view site'.view t t')
    (specializations : List.Forall₂
      (fun p p' => p.Respelled (Registry.ofVisits (visitAll {} items))
        (Registry.ofVisits (visitAll {} items')) fin fin' i.template p')
      ((Registry.ofVisits (visitAll {} items)).patternsOf i.template)
      ((Registry.ofVisits (visitAll {} items')).patternsOf i.template)) :
    i'.template = i.template ∧ unaliasedArgs i'.args = unaliasedArgs i.args ∧
      (∃ choice, u.Selects i.template choice i.specialization ∧
        u'.Selects i.template choice i'.specialization) ∧
      (fin' = fin → i'.specialization = i.specialization) := by
  obtain ⟨told, chosen⟩ := resolveType_between elaborated stable between visible resolved later
  obtain ⟨told', chosen'⟩ :=
    resolveType_between elaborated' stable' between' visible' resolved' later'
  obtain ⟨d, d', standing, standing', alike⟩ := respelled.stands
  have same : unaliased (.instantiation i') = unaliased (.instantiation i) := by
    rw [← unaliased_unselected (.instantiation i'), ← unaliased_unselected (.instantiation i),
      told d standing, told' d' standing', alike]
  obtain ⟨template, args, specialization⟩ := i
  obtain ⟨template', args', specialization'⟩ := i'
  obtain ⟨rfl, equal, -⟩ := Instantiation.mk.inj (TypeRef.instantiation.inj same)
  obtain ⟨es, es', standing, standing', compares⟩ := exists_compared specializations
  have one := chosen es standing
  have other := chosen' es' standing'
  rw [← compares] at other
  change u'.Selects _ (choose (unaliasedArgs args') _) _ at other
  rw [equal] at other
  refine ⟨rfl, equal, ⟨_, one, other⟩, fun together => ?_⟩
  subst together
  exact (one.later later).unique (other.later later')

/-! ### A specialization for a pointer to a typedef -/

/-- A typedef for integers. -/
def aliasDecl : TypedefDecl TypeExpr := { name := "I", ty := .primitive .int }

/-- What a type resolves to that is spelled with the typedef. -/
def aliasType : TypeRef := .typedef aliasDecl.name (.primitive .int)

/-- A pointer to functions of one parameter. -/
def takes (t : TypeExpr) : TypeExpr :=
  .pointer (.function ⟨.primitive .void, [⟨none, t, false⟩], false⟩)

/-- What it resolves to. -/
def takesType (t : TypeRef) : TypeRef :=
  .functionPointer ⟨.primitive .void, [⟨none, t, false⟩], false⟩

/-- A template of two types. -/
def twoTemplate : TemplateDecl TypeExpr PathExpr :=
  ⟨[⟨some "T", .type none, false⟩, ⟨some "U", .type none, false⟩], plainRecord "C"⟩

/-- The typedef, the template, and its specialization for a type and a pointer to functions of an
integer. -/
def aliasUnit (arg : TypeExpr) : List Item :=
  [.decl (.typedef aliasDecl) [] ⟨"c.h", 1, 1⟩, .decl (.template twoTemplate) [] ⟨"c.h", 2, 1⟩,
    .decl (.specialization
      ⟨"C", [], [.type arg, .type (takes (.primitive .int))], plainRecord "C", false⟩) [] ⟨"c.h", 3, 1⟩]

def aliasRegistry (arg : TypeExpr) : Registry := Registry.ofVisits (visitAll {} (aliasUnit arg))

/-- A pointer to integers, with the typedef. -/
def aliasPointer : TypeExpr := .pointer (.named none (.simple "I"))

/-- The same without it. -/
def plainPointer : TypeExpr := .pointer (.primitive .int)

theorem found_alias (arg : TypeExpr) : (aliasRegistry arg).found ⟨{}, none, .simple "I"⟩ =
    some (.meaning "I" (.typedef (.primitive .int) {})) := by
  with_unfolding_all rfl

theorem found_template (arg : TypeExpr) (args : List ArgExpr) :
    (aliasRegistry arg).found ⟨{}, none, (NamePath.simple "C").withArgs args⟩ =
      some (.meaning "C" (.template .struct twoTemplate.params {})) := by
  with_unfolding_all rfl

theorem patternsOf_alias (arg : TypeExpr) : (aliasRegistry arg).patternsOf "C" =
    [⟨[], [.type arg, .type (takes (.primitive .int))], {}, .pending⟩] := by
  with_unfolding_all rfl

theorem looksUpOnly_pointer {A : NameUse → Prop} {v : View} {t : TypeExpr} :
    LooksUpOnly A v (.pointer t) ↔ LooksUpOnly A v t := by
  rw [looksUpOnly_iff]
  simp [TypeExpr.lookups, TypeExpr.parts]

theorem looksUpOnly_primitive (A : NameUse → Prop) (v : View) (p : Primitive) :
    LooksUpOnly A v (.primitive p) := by
  rw [looksUpOnly_iff]
  simp [TypeExpr.lookups, TypeExpr.parts]

/-- Nothing is looked up for a pointer to functions of an integer. -/
theorem looksUpOnly_takes (A : NameUse → Prop) (v : View) :
    LooksUpOnly A v (takes (.primitive .int)) := by
  refine looksUpOnly_pointer.mpr (looksUpOnly_iff.mpr ⟨by simp [TypeExpr.lookups], fun x hx => ?_⟩)
  simp only [TypeExpr.parts, Signature.types, List.map_cons, List.map_nil, List.mem_cons,
    List.not_mem_nil, or_false] at hx
  rcases hx with rfl | rfl <;> exact looksUpOnly_primitive _ _ _

/-- Only the typedef is looked up for either pointer. -/
theorem names_pointers (arg : TypeExpr) {t : TypeExpr} (pointer : t = aliasPointer ∨ t = plainPointer) :
    LooksUpOnly (fun u => u.kind = none ∧
      ∀ n m, (aliasRegistry arg).found u = some (.meaning n m) → n = "I") {} t := by
  rcases pointer with rfl | rfl
  · refine looksUpOnly_pointer.mpr (looksUpOnly_named.mpr ⟨⟨rfl, fun n m found => ?_⟩, nofun⟩)
    cases (found_alias arg).symm.trans found
    rfl
  · exact looksUpOnly_pointer.mpr (looksUpOnly_primitive _ _ _)

/-- Nothing else is looked up for what is declared. -/
theorem names_aliasUnit {arg : TypeExpr} (pointer : arg = aliasPointer ∨ arg = plainPointer)
    {x : View × ParsedDecl} (hx : x ∈ declarations (aliasUnit arg)) {p : View × TypeExpr}
    (part : p ∈ x.2.parts x.1) :
    LooksUpOnly (fun u => u.kind = none ∧
      ∀ n m, (aliasRegistry arg).found u = some (.meaning n m) → n = "I") p.1 p.2 := by
  have all : declarations (aliasUnit arg) = [({}, .typedef aliasDecl),
    ({}, .template twoTemplate), ({}, .specialization
      ⟨"C", [], [.type arg, .type (takes (.primitive .int))], plainRecord "C", false⟩)] := rfl
  have record (v : View) (A : NameUse → Prop) : LooksUpOnly A v (.record (plainRecord "C")) := by
    rw [looksUpOnly_iff]
    simp [TypeExpr.lookups, TypeExpr.parts, RecordDecl.parts, plainRecord, RecordDecl.forward]
  rw [all] at hx
  simp only [List.mem_cons, List.not_mem_nil, or_false] at hx
  rcases hx with rfl | rfl | rfl
  · obtain rfl := List.mem_singleton.mp part
    exact looksUpOnly_primitive _ _ _
  · obtain rfl := List.mem_singleton.mp part
    exact record _ _
  · rcases List.mem_cons.mp part with rfl | part
    · exact names_pointers arg pointer
    rcases List.mem_cons.mp part with rfl | part
    · exact looksUpOnly_takes _ _
    · obtain rfl := List.mem_singleton.mp part
      exact record _ _

theorem elaborated_aliasUnit {arg : TypeExpr} (pointer : arg = aliasPointer ∨ arg = plainPointer) :
    DeclaresElaborated (aliasUnit arg) := fun x hx p part u looked behind => by
  rw [(names_aliasUnit pointer hx part u looked).1] at behind
  cases behind

theorem stable_aliasUnit {arg : TypeExpr} (pointer : arg = aliasPointer ∨ arg = plainPointer) :
    (aliasRegistry arg).Stable := by
  -- What is looked up for a name is the typedef, and that leads nowhere.
  have last (n n' : String) (leads : (aliasRegistry arg).Leads n n') : n' = "I" := by
    obtain ⟨v, t, text, u, m, looked, found, -⟩ := leads
    obtain ⟨x, hx, part, -⟩ := text.mem_parts
    exact (names_aliasUnit pointer hx part u looked).2 _ m found
  have nowhere (n : String) : ¬ (aliasRegistry arg).Leads "I" n := by
    rintro ⟨v, t, text, u, m, looked, -, -⟩
    have meanings : ((aliasRegistry arg).meanings.get? "I").getD [] = [.typedef (.primitive .int) {}] := by
      with_unfolding_all rfl
    have patterns : (aliasRegistry arg).patternsOf "I" = [] := by with_unfolding_all rfl
    cases text with
    | target known =>
      rw [meanings] at known
      cases List.mem_singleton.mp known
      exact looksUpOnly_primitive (fun _ => False) _ _ u looked
    | default known =>
      rw [meanings] at known
      cases List.mem_singleton.mp known
    | arg hp =>
      rw [patterns] at hp
      cases hp
  exact Registry.stable_of_last last nowhere

/-- The typedef takes the place of its target behind the pointer. -/
theorem respelled_pointer (arg arg' : TypeExpr) (fin fin' : State) :
    Respelled (aliasRegistry arg) (aliasRegistry arg') fin fin' {} {} aliasPointer plainPointer :=
  .pointer (.left rfl (found_alias arg) (.same (.primitive _) (.primitive _))) rfl

theorem respelled_pointer_back (arg arg' : TypeExpr) (fin fin' : State) :
    Respelled (aliasRegistry arg) (aliasRegistry arg') fin fin' {} {} plainPointer aliasPointer :=
  .pointer (.right rfl (found_alias arg') (.same (.primitive _) (.primitive _))) rfl

/-- Where the template is used. -/
def aliasSite : Site := { maxDepth := 1, origin := ⟨"c.h", 4, 1⟩, view := {} }

/-- A pointer to functions of an integer leads nowhere, so it stands for what it comes to at once. -/
theorem stands_takes {arg : TypeExpr} (pointer : arg = aliasPointer ∨ arg = plainPointer) {s : State}
    (between : BetweenTypes (aliasUnit arg) [] {} s) :
    StandsFor (aliasRegistry arg) s {} (takes (.primitive .int)) (takesType (.primitive .int)) := by
  have names (A : NameUse → Prop) : LooksUpOnly A aliasSite.view
      (.function ⟨.primitive .void, [⟨none, .primitive .int, false⟩], false⟩) :=
    looksUpOnly_pointer.mp (looksUpOnly_takes A _)
  have run : resolveType (jumpWithin 9) aliasSite
      (.function ⟨.primitive .void, [⟨none, .primitive .int, false⟩], false⟩) s =
      (.ok (.function ⟨.primitive .void, [⟨none, .primitive .int, false⟩], false⟩), s) := rfl
  refine .pointer (.function (fixes_between (elaborated_aliasUnit pointer) (stable_aliasUnit pointer)
    between ⟨names _, fun q hq => by cases hq⟩ ?_ run (.refl s)))
  rintro n ⟨_, ⟨u, _, looked, -⟩, -⟩
  exact (names (fun _ => False) u looked).elim

/-- An instantiation for a type and a pointer to functions of an integer. -/
def instanceFor (t : TypeExpr) : TypeExpr := instanceOf "C" [t, takes (.primitive .int)]

/-- The arguments that it resolves to. -/
def argsFor (t : TypeRef) : List ArgRef := [.type t, .type (takesType (.primitive .int))]

theorem visible_aliasUnit (arg : TypeExpr) {t : TypeExpr} (pointer : t = aliasPointer ∨ t = plainPointer) :
    Visible (aliasUnit arg) aliasSite (instanceFor t) where
  names := by
    unfold instanceFor
    refine looksUpOnly_named.mpr ⟨nofun, fun a ha => ?_⟩
    rcases List.mem_cons.mp ha with rfl | ha
    · exact (names_pointers arg pointer).weaken fun u plain behind => by simp [plain.1] at behind
    · obtain rfl := List.mem_singleton.mp ha
      exact looksUpOnly_takes _ _
  led q hq := by cases hq

/-- What a type is resolved to behind all declarations of a unit, seen by running it. -/
theorem exists_between {items : List Item} {site : Site} {t : TypeExpr} {fuel : Nat} {a : TypeRef}
    (ok : (resolveSome items [] {} (visitAll {} items)).1.toOption = some ())
    (result : (resolveType (jumpWithin fuel) site t
      (resolveSome items [] {} (visitAll {} items)).2).1.toOption = some a) :
    ∃ s u, BetweenTypes items [] {} s ∧ resolveType (jumpWithin fuel) site t s = (.ok a, u) := by
  rcases run : resolveSome items [] {} (visitAll {} items) with ⟨e | _, s⟩
  · rw [run] at ok
    cases ok
  · rw [run] at result
    rcases resolved : resolveType (jumpWithin fuel) site t s with ⟨e | b, u⟩
    · rw [resolved] at result
      cases result
    · rw [resolved] at result
      cases result
      exact ⟨s, u, .declarations (List.append_nil _).symm run, resolved⟩

/-- The template with a specialization for the pointer with the typedef in one unit and for the pointer
without it in the other, and an instantiation the other way around. -/
theorem specialization_of_pointer : ∃ s s' u u',
    BetweenTypes (aliasUnit aliasPointer) [] {} s ∧ BetweenTypes (aliasUnit plainPointer) [] {} s' ∧
    resolveType (jumpWithin 9) aliasSite (instanceFor plainPointer) s =
      (.ok (.instantiation ⟨"C", argsFor (.pointer (.primitive .int)),
        some (argsFor (.pointer aliasType))⟩), u) ∧
    resolveType (jumpWithin 9) aliasSite (instanceFor aliasPointer) s' =
      (.ok (.instantiation ⟨"C", argsFor (.pointer aliasType),
        some (argsFor (.pointer (.primitive .int)))⟩), u') ∧
    ∃ choice, u.Selects "C" choice (some (argsFor (.pointer aliasType))) ∧
      u'.Selects "C" choice (some (argsFor (.pointer (.primitive .int)))) := by
  obtain ⟨s, u, between, resolved⟩ : ∃ s u, BetweenTypes (aliasUnit aliasPointer) [] {} s ∧
      resolveType (jumpWithin 9) aliasSite (instanceFor plainPointer) s =
        (.ok (.instantiation ⟨"C", argsFor (.pointer (.primitive .int)),
          some (argsFor (.pointer aliasType))⟩), u) :=
    exists_between (by decide +kernel) (by decide +kernel)
  obtain ⟨s', u', between', resolved'⟩ : ∃ s u, BetweenTypes (aliasUnit plainPointer) [] {} s ∧
      resolveType (jumpWithin 9) aliasSite (instanceFor aliasPointer) s =
        (.ok (.instantiation ⟨"C", argsFor (.pointer aliasType),
          some (argsFor (.pointer (.primitive .int)))⟩), u) :=
    exists_between (by decide +kernel) (by decide +kernel)
  have visible := visible_aliasUnit aliasPointer (.inr rfl)
  have visible' := visible_aliasUnit plainPointer (.inl rfl)
  have noDefaults (r r' : Registry) (v v' : View) : DefaultsAlike r r' u u' v v' [] := nofun
  have taking : Respelled (aliasRegistry aliasPointer) (aliasRegistry plainPointer) u u' {} {}
      (takes (.primitive .int)) (takes (.primitive .int)) :=
    .same (stands_takes (.inl rfl) (between.type visible.names visible.led resolved))
      (stands_takes (.inr rfl) (between'.type visible'.names visible'.led resolved'))
  have respelled : Respelled (aliasRegistry aliasPointer) (aliasRegistry plainPointer) u u' {} {}
      (instanceFor plainPointer) (instanceFor aliasPointer) :=
    .instantiation rfl rfl (found_template _ _) (found_template _ _) rfl rfl
      (.type (respelled_pointer_back _ _ _ _) (.type taking .nil)) (noDefaults _ _ _ _)
  have specialization : Pattern.Respelled (aliasRegistry aliasPointer) (aliasRegistry plainPointer)
      u u' "C" ⟨[], [.type aliasPointer, .type (takes (.primitive .int))], {}, .pending⟩
      ⟨[], [.type plainPointer, .type (takes (.primitive .int))], {}, .pending⟩ :=
    ⟨rfl, .type (respelled_pointer _ _ _ _) (.type taking .nil), .struct, .struct, twoTemplate.params,
      {}, {}, by with_unfolding_all rfl, by with_unfolding_all rfl, noDefaults _ _ _ _⟩
  have specializations : List.Forall₂
      (fun p p' => p.Respelled (aliasRegistry aliasPointer) (aliasRegistry plainPointer) u u' "C" p')
      ((aliasRegistry aliasPointer).patternsOf "C") ((aliasRegistry plainPointer).patternsOf "C") := by
    rw [patternsOf_alias, patternsOf_alias]
    exact .cons specialization .nil
  exact ⟨s, s', u, u', between, between', resolved, resolved',
    (specialization_of_respelled (elaborated_aliasUnit (.inl rfl)) (elaborated_aliasUnit (.inr rfl))
      (stable_aliasUnit (.inl rfl)) (stable_aliasUnit (.inr rfl)) between between' visible visible'
      resolved resolved' (.refl u) (.refl u') respelled specializations).2.2.1⟩

/-! ### Typedefs in functions -/

/-- A template of one type with a specialization for pointers to functions of an integer, and two variables.
In the type of the first the parameter is spelled with the typedef. -/
def takingUnit : List Item :=
  [.decl (.typedef aliasDecl) [] ⟨"c.h", 1, 1⟩,
    .decl (.template ⟨[⟨some "T", .type none, false⟩], plainRecord "C"⟩) [] ⟨"c.h", 2, 1⟩,
    .decl (.specialization ⟨"C", [], [.type (takes (.primitive .int))], plainRecord "C", false⟩) []
      ⟨"c.h", 3, 1⟩,
    .decl (.var ⟨"x", instanceOf "C" [takes (.named none (.simple "I"))], false, false⟩) []
      ⟨"c.h", 4, 1⟩,
    .decl (.var ⟨"y", instanceOf "C" [takes (.primitive .int)], false, false⟩) [] ⟨"c.h", 5, 1⟩]

/-- Typedefs in the types of functions are compared by name: there is no specialization for a parameter
that is spelled with one, while there is for what it stands for. -/
theorem not_selected_in_signature :
    ∃ m ds, resolve takingUnit [] {} = (.ok m, ds) ∧
      (m.entry? ⟨0, 3⟩).map (·.decl) = some (.var ⟨"x",
        .instantiation ⟨"C", [.type (takesType aliasType)], none⟩, false, false⟩) ∧
      (m.entry? ⟨0, 4⟩).map (·.decl) = some (.var ⟨"y",
        .instantiation ⟨"C", [.type (takesType (.primitive .int))],
          some [.type (takesType (.primitive .int))]⟩, false, false⟩) := by
  have kept : (resolve takingUnit [] {}).1.toOption.map (fun m =>
      ((m.entry? ⟨0, 3⟩).map (·.decl), (m.entry? ⟨0, 4⟩).map (·.decl))) =
        some (some (.var ⟨"x",
            .instantiation ⟨"C", [.type (takesType aliasType)], none⟩, false, false⟩),
          some (.var ⟨"y", .instantiation ⟨"C", [.type (takesType (.primitive .int))],
            some [.type (takesType (.primitive .int))]⟩, false, false⟩)) := by
    decide +kernel
  obtain ⟨m, ds, resolved, both⟩ := exists_resolved kept
  obtain ⟨first, second⟩ := Prod.mk.inj both
  exact ⟨m, ds, resolved, first, second⟩

end HeaderDecl.Resolution
