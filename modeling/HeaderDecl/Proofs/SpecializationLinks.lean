import HeaderDecl.Proofs.RecalledUnits

/-!
Links from instantiations to specializations. Whatever specialization an instantiation is linked to, the
model has an item for it; its arguments are those of the link, unless they lead back to the template.
-/

namespace HeaderDecl.Resolution

open Relation

/-! ### Units -/

/-- Whether the arguments of a specialization lead back to its template. -/
def LeadsBack (r : Registry) (v : View) (s : SpecializationDecl TypeExpr ArgExpr PathExpr) : Prop :=
  (patternOf v s).Reaches r (r.templateOf v s)

/-- A unit whose specializations are told apart. -/
structure Linkable (items : List Item) (constants : List MacroConstant) (config : Config) : Prop where
  /-- Every name behind a keyword is that of a declaration. -/
  elaborated : DeclaresElaborated items
  stable : (Registry.ofVisits (visitAll {} items)).Stable
  /-- A specialization is registered with the template that it has when all is registered. -/
  templates : ∀ before s origin v behind,
    visitAll {} items = before ++ .decl (.specialization s) origin v :: behind →
      ((Registry.ofNames (visitAll {} items)).addSpecializations before).templateOf v s =
        (Registry.ofVisits (visitAll {} items)).templateOf v s
  /-- Specializations of one name whose arguments are written alike are the same. -/
  apart : ∀ d o v s d' o' v' s', ResolvesTo items constants config d o v (.specialization s) →
    ResolvesTo items constants config d' o' v' (.specialization s') →
      s.record.name.map (Name.qualify v.scope) = s'.record.name.map (Name.qualify v'.scope) →
        s.args.map TypeRef.renderArg = s'.args.map TypeRef.renderArg →
          s.template = s'.template ∧ s.args = s'.args

section Units

variable {items : List Item} {constants : List MacroConstant} {config : Config}

/-- What is resolved for a name stands in a declaration of a type name or of a specialization. -/
theorem Registry.Text.mem_parts {name : String} {v : View} {t : TypeExpr}
    (text : (Registry.ofVisits (visitAll {} items)).Text name v t) :
    ∃ x ∈ declarations items, (v, t) ∈ x.2.parts x.1 ∧
      ((Registry.meaningOf x.1 x.2).isSome ∨ ∃ s, x.2 = .specialization s) := by
  have meaning {m : Meaning}
      (hm : m ∈ ((Registry.ofNames (visitAll {} items)).meanings.get? name).getD []) :
      ∃ x ∈ declarations items, ∃ n, Registry.meaningOf x.1 x.2 = some (n, m) := by
    rw [Registry.meanings_ofNames] at hm
    obtain ⟨x, hx, gives⟩ := List.mem_filterMap.mp hm
    exact ⟨x, hx, meaningOf_of_meaningUnder gives⟩
  cases text with
  | target known =>
    rcases Registry.mem_meanings_ofVisits known with known | ⟨_, _, same⟩
    · obtain ⟨⟨view, d⟩, hx, _, gives⟩ := meaning known
      refine ⟨_, hx, ?_, Or.inl (Option.isSome_of_eq_some gives)⟩
      obtain ⟨rfl, t, rfl, rfl⟩ := typedef_of_meaningOf gives
      exact List.mem_cons_self
    · cases same
  | default known hp ht =>
    rcases Registry.mem_meanings_ofVisits known with known | ⟨_, _, same⟩
    · obtain ⟨⟨view, d⟩, hx, _, gives⟩ := meaning known
      refine ⟨_, hx, ?_, Or.inl (Option.isSome_of_eq_some gives)⟩
      obtain ⟨rfl, t, rfl, rfl⟩ := template_of_meaningOf gives
      exact List.mem_append_left _ (List.mem_map_of_mem (List.mem_flatMap.mpr ⟨_, hp, ht⟩))
    · -- A template that nothing declares has no parameters.
      cases same
      cases hp
  | arg hp ht =>
    rcases Registry.mem_patternsOf_addSpecializations hp with hp |
      ⟨before, s, origin, view, behind, split, -, rfl⟩
    · rw [Registry.patternsOf, Registry.patterns_ofNames] at hp
      cases hp
    · refine ⟨(view, .specialization s), mem_declarations.mpr ⟨origin, by simp [split]⟩, ?_,
        Or.inr ⟨s, rfl⟩⟩
      exact List.mem_append_left _ (List.mem_map_of_mem (List.mem_append_right _ ht))

theorem coherent_of_declares (elaborated : DeclaresElaborated items)
    (stable : (Registry.ofVisits (visitAll {} items)).Stable) :
    Coherent (Registry.ofVisits (visitAll {} items)) where
  stable := stable
  declared _ _ _ text := by
    obtain ⟨x, hx, part, -⟩ := text.mem_parts
    exact elaborated x hx _ part

/-- What a typedef declares is registered. -/
theorem registered_typedef {v : View} {t : TypedefDecl TypeExpr}
    (hd : (v, .typedef t) ∈ declarations items) :
    .typedef t.ty v ∈ ((Registry.ofVisits (visitAll {} items)).meanings.get?
      (Name.qualify v.scope t.name)).getD [] := by
  refine Registry.meanings_ofVisits ?_
  rw [Registry.meanings_ofNames]
  refine List.mem_filterMap.mpr ⟨_, hd, ?_⟩
  simp [meaningUnder, Registry.meaningOf]

theorem proceeds_visits (coherent : Coherent (Registry.ofVisits (visitAll {} items)))
    (elaborated : DeclaresElaborated items) {ws : List Visit} (within : ∀ w ∈ ws, w ∈ visitAll {} items)
    (fuel maxDepth : Nat) : Proceeds (Registry.ofVisits (visitAll {} items))
      (Resolver.each (resolveVisit (jumpWithin fuel) maxDepth) ws) := by
  refine Proceeds.each fun w hw => ?_
  have declared {x : View × ParsedDecl} (hx : w.declaration? = some x) : x ∈ declarations items :=
    List.mem_filterMap.mpr ⟨w, within w hw, hx⟩
  exact proceeds_resolveVisit coherent maxDepth (fun v t same => registered_typedef (declared same))
    fun x same => elaborated x (declared same)

/-- Between declarations nothing is under way, and what was resolved is recalled. -/
theorem recalling_resolveSome (coherent : Coherent (Registry.ofVisits (visitAll {} items)))
    (elaborated : DeclaresElaborated items) {before behind : List Visit}
    (split : visitAll {} items = before ++ behind) {s : State}
    (run : resolveSome items constants config before = (.ok (), s)) :
    Recalling (Registry.ofVisits (visitAll {} items)) s ∧ s.Idle := by
  have fresh (template : String) (i : Nat) (progress : Progress) (other : progress ≠ .pending) :
      (Registry.ofVisits (visitAll {} items)).progress? template i ≠ some progress := by
    intro same
    obtain ⟨p, hp, same⟩ := Option.map_eq_some_iff.mp same
    unfold Registry.pattern? at hp
    cases known : (Registry.ofVisits (visitAll {} items)).patterns.get? template with
    | none => simp [known] at hp
    | some ps =>
      rw [known] at hp
      exact other (same ▸ Registry.fresh_ofVisits template ps known p (List.mem_of_getElem? hp))
  -- At first no argument of a specialization is resolved.
  have start : Recalling (Registry.ofVisits (visitAll {} items))
      { registry := Registry.ofVisits (visitAll {} items) } :=
    ⟨.refl _, fun q i _ w f _ resolved => absurd resolved (fresh q i _ nofun)⟩
  have idle : State.Idle { registry := Registry.ofVisits (visitAll {} items) } :=
    fun q i => fresh q i _ nofun
  obtain ⟨_, u, added, visited⟩ := bind_eq_ok run
  obtain ⟨hu, calm⟩ := Proceeds.each (fun c _ => proceeds_insert fun s => ⟨(), _, _, rfl⟩)
    _ _ u start idle added
  have within : ∀ w ∈ before, w ∈ visitAll {} items := fun w hw => by
    rw [split]
    exact List.mem_append_left _ hw
  obtain ⟨hs, calm'⟩ := proceeds_visits coherent elaborated within _ _ u () s hu (idle.calm calm) visited
  exact ⟨hs, idle.calm (calm.trans calm')⟩

/-- A declaration is resolved with nothing under way, before the end of the resolution. -/
theorem ResolvesTo.recalled (coherent : Coherent (Registry.ofVisits (visitAll {} items)))
    (elaborated : DeclaresElaborated items) {d : ParsedDecl} {origin : Origin} {view : View}
    {d' : ResolvedDecl} (h : ResolvesTo items constants config d origin view d') {u : State}
    (whole : resolveSome items constants config (visitAll {} items) = (.ok (), u)) :
    ∃ s t, Recalling (Registry.ofVisits (visitAll {} items)) s ∧ s.Idle ∧
      resolveDecl (jumpWithin (Registry.ofVisits (visitAll {} items)).depthBound)
        ⟨config.maxTypedefDepth, origin, [], view⟩ d s = (.ok d', t) ∧ Later t u := by
  obtain ⟨before, behind, s, t, split, run, resolved, later⟩ := h.exists_run whole
  obtain ⟨hs, idle⟩ := recalling_resolveSome coherent elaborated split run
  have hd : (view, d) ∈ declarations items :=
    mem_declarations.mpr ⟨origin, by rw [split]; simp⟩
  obtain ⟨ht, calm⟩ := proceeds_resolveDecl coherent rfl d
    (fun t same => registered_typedef (same ▸ hd)) (elaborated _ hd) s d' t hs idle resolved
  have declare := Calm.reported t (t.declare view.scope .namespaceScope ⟨d', origin⟩).diagnostics
    (t.declare view.scope .namespaceScope ⟨d', origin⟩).model
  have within : ∀ w ∈ behind, w ∈ visitAll {} items := fun w hw => by simp [split, hw]
  obtain ⟨-, calm'⟩ := proceeds_visits coherent elaborated within _ _
    (t.declare view.scope .namespaceScope ⟨d', origin⟩) () u (ht.unrelated _ _)
    ((idle.calm calm).calm declare) later
  exact ⟨s, t, hs, idle, resolved, (declare.trans calm').toLater⟩

theorem jumpArgs_succ (fuel : Nat) (site : Site) (args : List ArgExpr) :
    jumpArgs (jumpWithin (fuel + 1)) site args = resolveArgs (jumpWithin fuel) site args := by
  induction args with
  | nil => rfl
  | cons a rest ih =>
    cases a with
    | literal text =>
      funext s
      rw [jumpArgs, ih, resolveArgs, bind_run]
      rfl
    | type t =>
      funext s
      rw [jumpArgs, ih, resolveArgs, resolveArg, jumpWithin, bind_run, bind_run, bind_run]
      rcases resolveType (jumpWithin fuel) site t s with ⟨e | a, s'⟩ <;> rfl

/-- Only a specialization has the identity of one. -/
theorem specialization_of_identity {d : ResolvedDecl} {args : List String}
    (h : d.identity = some (.specialization args)) :
    ∃ s, d = .specialization s ∧ s.args.map TypeRef.renderArg = args := by
  cases d with
  | specialization s => exact ⟨s, rfl, by simpa [Decl.identity] using h⟩
  | record r => cases named : r.name <;> simp [Decl.identity, named] at h
  | enum e => cases named : e.name <;> simp [Decl.identity, named] at h
  | _ => cases h

/-- The model has an item with the template and the arguments of every specialization. -/
theorem Linkable.retains (h : Linkable items constants config) {d : ParsedDecl} {origin : Origin}
    {view : View} {s : SpecializationDecl TypeRef ArgRef String}
    (resolves : ResolvesTo items constants config d origin view (.specialization s)) {u : State}
    (whole : resolveSome items constants config (visitAll {} items) = (.ok (), u)) :
    ∃ sc ∈ u.model.scopes, ∃ e ∈ sc.entries, ∃ s', e.decl = .specialization s' ∧
      s'.template = s.template ∧ s'.args = s.args := by
  obtain ⟨log, logged, x, hx, path, entry⟩ := resolves.logged whole
  -- If it was refused as a duplicate, the entry that stands in its place has its name and arguments.
  obtain ⟨z, hz, ⟨sc, hsc, there⟩, name, id⟩ := logged.sound.history.exists_entry hx
  rw [entry] at id
  obtain ⟨s', same, args⟩ := specialization_of_identity id
  rcases logged.forms z hz with (⟨c, constant⟩ | ⟨kind, n, forward⟩) | ⟨d', o', v', r, resolves', path', entry'⟩
  · rw [constant] at same
    cases same
  · rw [forward] at same
    cases kind <;> cases same
  · rw [entry'] at same
    obtain rfl : r = .specialization s' := same
    rw [Inserted.qualifiedName, Inserted.qualifiedName, path, path', entry, entry'] at name
    obtain ⟨template, written⟩ := h.apart _ _ _ _ _ _ _ _ resolves' resolves name args
    exact ⟨sc, hsc, z.entry, there, s', by rw [entry'], template, written⟩

/-- What is resolved without a failure is the model in the end. -/
theorem exists_whole {m : Model} {ds : List Diagnostic}
    (resolved : resolve items constants config = (.ok m, ds)) :
    ∃ u, resolveSome items constants config (visitAll {} items) = (.ok (), u) ∧ u.model = m := by
  have result : (resolve items constants config).1 = .ok m := by rw [resolved]
  rw [resolve_result] at result
  rcases run : resolveSome items constants config (visitAll {} items) with ⟨_ | _, u⟩
  · rw [run] at result
    cases result
  · rw [run] at result
    cases result
    exact ⟨u, rfl, rfl⟩

/-- Behind a link there is a specialization whose arguments were resolved to those of the link. -/
theorem Linkable.exists_pattern (h : Linkable items constants config) {u : State}
    (whole : resolveSome items constants config (visitAll {} items) = (.ok (), u)) {sc : Scope}
    (hsc : sc ∈ u.model.scopes) {e : Entry} (he : e ∈ sc.entries) {template : String}
    {w : List ArgRef} (link : Referred e.decl.types (.specialization template w)) :
    ∃ s origin view i filled, .decl (.specialization s) origin view ∈ visitAll {} items ∧
      (Registry.ofVisits (visitAll {} items)).templateOf view s = template ∧
      ((Registry.ofVisits (visitAll {} items)).patternsOf template)[i]? = some (patternOf view s) ∧
      u.registry.progress? template i = some (.resolved w filled) := by
  have coherent := coherent_of_declares h.elaborated h.stable
  -- The link was selected when its entry was inserted, and the arguments behind it are kept since.
  obtain ⟨log, logged⟩ := exists_logged (List.append_nil _).symm whole
  obtain ⟨x, hx, rfl⟩ := logged.sound.history.tracks.mem_of_entry hsc he
  obtain ⟨i, filled, progress⟩ := logged.sound.entries x hx _ link
  obtain ⟨hu, -⟩ := recalling_resolveSome coherent h.elaborated (List.append_nil _).symm whole
  obtain ⟨q, hq, -⟩ := Option.map_eq_some_iff.mp progress
  have pattern := mem_patternsOf hu.same hq
  obtain ⟨before, s, origin, view, behind, split, named, same⟩ :=
    (Registry.mem_patternsOf_addSpecializations (List.mem_of_getElem? pattern)).resolve_left fun none => by
      rw [Registry.patternsOf, Registry.patterns_ofNames] at none
      cases none
  refine ⟨s, origin, view, i, filled, by simp [split], ?_, same ▸ pattern, progress⟩
  exact (h.templates before s origin view behind split).symm.trans named

/-- With enough fuel, the arguments of a specialization come to those of its declaration at the end too. -/
theorem ResolvesTo.args_again (coherent : Coherent (Registry.ofVisits (visitAll {} items)))
    (elaborated : DeclaresElaborated items) {s : SpecializationDecl TypeExpr ArgExpr PathExpr}
    {origin : Origin} {view : View} {d' : ResolvedDecl}
    (hd : .decl (.specialization s) origin view ∈ visitAll {} items)
    (h : ResolvesTo items constants config (.specialization s) origin view d') {u : State}
    (whole : resolveSome items constants config (visitAll {} items) = (.ok (), u)) :
    ∃ d, d' = .specialization d ∧
      d.template = (Registry.ofVisits (visitAll {} items)).templateOf view s ∧
      ∀ fuel ≥ (Registry.ofVisits (visitAll {} items)).depthBound,
        resolveArgs (jumpWithin fuel) ⟨config.maxTypedefDepth, origin, [], view.withParams s.params⟩
          s.args u = (.ok d.args, u) := by
  obtain ⟨t, t', ht, idle, run, later⟩ := h.recalled coherent elaborated whole
  obtain ⟨d, _, specialized, done⟩ := bind_eq_ok run
  cases done
  have names := elaborated _ (mem_declarations.mpr ⟨origin, hd⟩)
  have start' : ({
      maxDepth := config.maxTypedefDepth
      origin
      view := (memberView view (.specialization s)).getD (view.withParams s.params) } :
        Site).resolving = [] := rfl
  obtain ⟨-, -, template, again⟩ := recalled_resolveSpecialization coherent rfl start'
    (fun t ht => names (_, t) (List.mem_append_left _ (List.mem_map_of_mem ht)))
    (names _ (List.mem_append_right _ List.mem_cons_self)) ht idle specialized
  exact ⟨d, rfl, template, fun fuel more => again fuel more u later⟩

end Units

/-- For every link of an instantiation in a resolved model there is an item of the specialization. Its
template is that of the instantiation, and its arguments are those of the link, unless they lead back to
the template. -/
theorem exists_linked_specialization {items : List Item} {constants : List MacroConstant}
    {config : Config} (linkable : Linkable items constants config) {m : Model} {ds : List Diagnostic}
    (resolved : resolve items constants config = (.ok m, ds)) {sc : Scope} (hsc : sc ∈ m.scopes)
    {e : Entry} (he : e ∈ sc.entries) {template : String} {w : List ArgRef}
    (link : Referred e.decl.types (.specialization template w)) :
    ∃ s origin view d, ResolvesTo items constants config (.specialization s) origin view
        (.specialization d) ∧
      (∃ sc' ∈ m.scopes, ∃ e' ∈ sc'.entries, ∃ d', e'.decl = .specialization d' ∧
        d'.template = template ∧ d'.args = d.args) ∧
      (¬ LeadsBack (Registry.ofVisits (visitAll {} items)) view s → d.args = w) := by
  have coherent := coherent_of_declares linkable.elaborated linkable.stable
  obtain ⟨u, whole, rfl⟩ := exists_whole resolved
  obtain ⟨s, origin, view, i, filled, hd, primary, pattern, progress⟩ :=
    linkable.exists_pattern whole hsc he link
  -- The declaration of the specialization was resolved too, and both are recalled at the end.
  obtain ⟨d', resolves⟩ := resolvesTo_of_ok ⟨_, by rw [resolved]⟩ hd
  obtain ⟨d, rfl, sameTemplate, declared⟩ :=
    resolves.args_again coherent linkable.elaborated hd whole
  obtain ⟨sc', hsc', e', he', s', same', template', args'⟩ := linkable.retains resolves whole
  refine ⟨s, origin, view, d, resolves, ⟨sc', hsc', e', he', s', same', ?_, args'⟩, fun onward => ?_⟩
  · rw [template', sameTemplate]
    exact primary
  · have outside : ¬ (patternOf view s).Reaches (Registry.ofVisits (visitAll {} items)) template := by
      unfold LeadsBack at onward
      rwa [primary] at onward
    obtain ⟨hu, -⟩ := recalling_resolveSome coherent linkable.elaborated (List.append_nil _).symm whole
    obtain ⟨fuel, recalled⟩ := hu.recalled template i _ w filled pattern progress outside
    -- With enough fuel, the one is resolved as the other.
    have written := recalled (max fuel (Registry.ofVisits (visitAll {} items)).depthBound + 1)
      (Nat.le_succ_of_le (Nat.le_max_left _ _))
      ⟨config.maxTypedefDepth, origin, [], view.withParams s.params⟩ rfl (by simp [Site.LedTo])
      u (.refl u)
    rw [jumpArgs_succ] at written
    cases (declared _ (Nat.le_max_right fuel _)).symm.trans written
    rfl

/-! ### A template with a specialization -/

/-- A template of one type. -/
def boxTemplate : ParsedDecl :=
  .template ⟨[⟨some "T", .type none, false⟩],
    { RecordDecl.forward "C" .struct with complete := true }⟩

/-- A specialization of it. -/
def boxOf (arg : TypeExpr) : ParsedDecl :=
  .specialization ⟨"C", [], [.type arg], { RecordDecl.forward "C" .struct with complete := true }, false⟩

/-- A type made of it. -/
def boxPath (arg : TypeExpr) : TypeExpr := .path ⟨false, [], ⟨"C", some [.type arg]⟩⟩

/-- A template, its specialization for integers, and a variable of it. -/
def boxUnit : List Item :=
  [.decl boxTemplate [] ⟨"box.h", 1, 1⟩, .decl (boxOf (.primitive .int)) [] ⟨"box.h", 2, 1⟩,
    .decl (.var ⟨"x", boxPath (.primitive .int), false, false⟩) [] ⟨"box.h", 3, 1⟩]

/-- A unit resolves if something is known of its model. -/
theorem exists_resolved {items : List Item} {β : Type} {f : Model → β} {b : β}
    (kept : (resolve items [] {}).1.toOption.map f = some b) :
    ∃ m ds, resolve items [] {} = (.ok m, ds) ∧ f m = b := by
  rcases resolved : resolve items [] {} with ⟨err | m, ds⟩
  · rw [resolved] at kept
    cases kept
  · rw [resolved] at kept
    exact ⟨m, ds, rfl, Option.some.inj kept⟩

/-- A declaration of a model stands in one of its scopes. -/
theorem exists_scope {m : Model} {r : DeclRef} {d : ResolvedDecl}
    (kept : (m.entry? r).map (·.decl) = some d) : ∃ sc ∈ m.scopes, ∃ e ∈ sc.entries, e.decl = d := by
  obtain ⟨e, he, same⟩ := Option.map_eq_some_iff.mp kept
  obtain ⟨sc, hsc, he⟩ := Model.entry?_eq_some.mp he
  exact ⟨sc, List.mem_of_getElem? hsc, e, List.mem_of_getElem? he, same⟩

theorem visits_boxUnit : visitAll {} boxUnit =
    [.decl boxTemplate ⟨"box.h", 1, 1⟩ {}, .decl (boxOf (.primitive .int)) ⟨"box.h", 2, 1⟩ {},
      .decl (.var ⟨"x", boxPath (.primitive .int), false, false⟩) ⟨"box.h", 3, 1⟩ {}] := rfl

/-- Only one declaration of the unit is a specialization. -/
theorem specialization_boxUnit {before behind : List Visit}
    {s : SpecializationDecl TypeExpr ArgExpr PathExpr} {o : Origin} {v : View}
    (split : visitAll {} boxUnit = before ++ .decl (.specialization s) o v :: behind) :
    before = [.decl boxTemplate ⟨"box.h", 1, 1⟩ {}] ∧ .specialization s = boxOf (.primitive .int) ∧
      o = ⟨"box.h", 2, 1⟩ ∧ v = {} := by
  rw [visits_boxUnit] at split
  rcases before with _ | ⟨a, _ | ⟨b, _ | ⟨c, before⟩⟩⟩
  · injection split with here
    cases here
  · injection split with here rest
    injection rest with there
    injection there with d o v
    subst here
    exact ⟨rfl, d.symm, o.symm, v.symm⟩
  · injection split with _ split
    injection split with _ split
    injection split with here
    cases here
  · simp at split

theorem specialization_of_resolveDecl {jump : Jump} {site : Site} {d : ParsedDecl} {s t : State}
    {x : SpecializationDecl TypeRef ArgRef String}
    (run : resolveDecl jump site d s = (.ok (.specialization x), t)) : ∃ y, d = .specialization y := by
  cases d with
  | specialization y => exact ⟨y, rfl⟩
  | constant c => cases run
  | template _ =>
    obtain ⟨_, _, _, run⟩ := bind_eq_ok run
    obtain ⟨_, _, _, run⟩ := bind_eq_ok run
    cases run
  | _ =>
    obtain ⟨_, _, _, run⟩ := bind_eq_ok run
    cases run

theorem declarations_boxUnit {x : View × ParsedDecl} (hx : x ∈ declarations boxUnit) :
    x = ({}, boxTemplate) ∨ x = ({}, boxOf (.primitive .int)) ∨
      x = ({}, .var ⟨"x", boxPath (.primitive .int), false, false⟩) := by
  have all : declarations boxUnit = [({}, boxTemplate), ({}, boxOf (.primitive .int)),
    ({}, .var ⟨"x", boxPath (.primitive .int), false, false⟩)] := rfl
  simpa [all] using hx

/-- Nothing is looked up for the declarations of the template and its specialization. -/
theorem not_looksUp_boxUnit {d : ParsedDecl} (hd : d = boxTemplate ∨ d = boxOf (.primitive .int))
    {v : View} {x : View × TypeExpr} (part : x ∈ d.parts v) (A : NameUse → Prop) :
    LooksUpOnly A x.1 x.2 := by
  have primitive : x.2 = .primitive .int ∨
      x.2 = .record { RecordDecl.forward "C" .struct with complete := true } := by
    rcases hd with rfl | rfl
    · simp [boxTemplate, Decl.parts, TemplateParam.types, TemplateParamKind.types] at part
      exact Or.inr (congrArg Prod.snd part)
    · simp [boxOf, Decl.parts, TemplateArg.types] at part
      exact part.imp (congrArg Prod.snd) (congrArg Prod.snd)
  rw [looksUpOnly_iff]
  rcases primitive with same | same <;> rw [same] <;>
    simp [TypeExpr.lookups, TypeExpr.parts, RecordDecl.parts, RecordDecl.forward]

theorem not_leads_boxUnit (name name' : String) :
    ¬ (Registry.ofVisits (visitAll {} boxUnit)).Leads name name' := by
  rintro ⟨v, t, text, u, m, looked, -⟩
  obtain ⟨x, hx, part, names⟩ := text.mem_parts
  rcases declarations_boxUnit hx with rfl | rfl | rfl
  · exact not_looksUp_boxUnit (Or.inl rfl) part (fun _ => False) u looked
  · exact not_looksUp_boxUnit (Or.inr rfl) part (fun _ => False) u looked
  · rcases names with names | ⟨_, same⟩
    · cases names
    · cases same

theorem linkable_boxUnit : Linkable boxUnit [] {} where
  elaborated := by
    intro x hx p hp
    rcases declarations_boxUnit hx with rfl | rfl | rfl
    · exact not_looksUp_boxUnit (Or.inl rfl) hp _
    · exact not_looksUp_boxUnit (Or.inr rfl) hp _
    · obtain rfl := List.mem_singleton.mp hp
      rw [looksUpOnly_iff]
      refine ⟨?_, by simp [boxPath, TypeExpr.parts]⟩
      simp [boxPath, TypeExpr.lookups, NameSegment.types, TemplateArg.types, Declared]
      rw [looksUpOnly_iff]
      simp [TypeExpr.lookups, TypeExpr.parts]
  stable name back := by
    obtain ⟨_, leads, -⟩ := TransGen.head'_iff.mp back
    exact absurd leads (not_leads_boxUnit _ _)
  templates before s origin v behind split := by
    obtain ⟨rfl, same, rfl, rfl⟩ := specialization_boxUnit split
    cases same
    decide +kernel
  apart d o v s d' o' v' s' first second _ _ := by
    obtain ⟨before, behind, t, u, split, run, resolved⟩ := first
    obtain ⟨before', behind', t', u', split', run', resolved'⟩ := second
    obtain ⟨y, rfl⟩ := specialization_of_resolveDecl resolved
    obtain ⟨y', rfl⟩ := specialization_of_resolveDecl resolved'
    obtain ⟨rfl, same, rfl, rfl⟩ := specialization_boxUnit split
    obtain ⟨rfl, same', rfl, rfl⟩ := specialization_boxUnit split'
    rw [run] at run'
    cases run'
    rw [same] at resolved
    rw [same', resolved] at resolved'
    cases resolved'
    exact ⟨rfl, rfl⟩

theorem exists_linked_specialization_int :
    ∃ m ds sc e s origin view d, Linkable boxUnit [] {} ∧ resolve boxUnit [] {} = (.ok m, ds) ∧
      sc ∈ m.scopes ∧ e ∈ sc.entries ∧
      Referred e.decl.types (.specialization "C" [.type (.primitive .int)]) ∧
      ResolvesTo boxUnit [] {} (.specialization s) origin view (.specialization d) ∧
      (∃ sc' ∈ m.scopes, ∃ e' ∈ sc'.entries, ∃ d', e'.decl = .specialization d' ∧
        d'.template = "C" ∧ d'.args = d.args) ∧
      (¬ LeadsBack (Registry.ofVisits (visitAll {} boxUnit)) view s →
        d.args = [.type (.primitive .int)]) := by
  have kept : (resolve boxUnit [] {}).1.toOption.map (fun m => (m.entry? ⟨0, 2⟩).map (·.decl)) =
      some (some (.var ⟨"x", .instantiation ⟨"C", [.type (.primitive .int)],
        some [.type (.primitive .int)]⟩, false, false⟩)) := by
    decide +kernel
  obtain ⟨m, ds, resolved, found⟩ := exists_resolved kept
  obtain ⟨sc, hsc, e, he, same⟩ := exists_scope found
  have link : Referred e.decl.types (.specialization "C" [.type (.primitive .int)]) := by
    rw [same]
    simp [Decl.types]
  obtain ⟨s, origin, view, d, resolves, item, args⟩ :=
    exists_linked_specialization linkable_boxUnit resolved hsc he link
  exact ⟨m, ds, sc, e, s, origin, view, d, linkable_boxUnit, resolved, hsc, he, link, resolves,
    item, args⟩

/-- Specializations within each other's arguments, and a variable of the outermost. -/
def nestedBoxUnit : List Item :=
  [.decl boxTemplate [] ⟨"box.h", 1, 1⟩,
    .decl (boxOf (boxPath (.primitive .int))) [] ⟨"box.h", 2, 1⟩,
    .decl (boxOf (boxPath (boxPath (.primitive .int)))) [] ⟨"box.h", 3, 1⟩,
    .decl (.var ⟨"x", boxPath (boxPath (boxPath (.primitive .int))), false, false⟩) []
      ⟨"box.h", 4, 1⟩]

/-- The arguments of a specialization. -/
def specializedArgs? : ResolvedDecl → Option (List ArgRef)
  | .specialization s => some s.args
  | _ => none

/-- The instantiation of the template for integers. -/
def intBox : TypeRef := .instantiation ⟨"C", [.type (.primitive .int)], none⟩

/-- While the arguments of one specialization are resolved, others of the template are resolved without
it, and what they were resolved to is kept: the instantiation is linked to arguments that no item has. -/
theorem dangling_link :
    ∃ m ds, resolve nestedBoxUnit [] {} = (.ok m, ds) ∧
      (∃ sc ∈ m.scopes, ∃ e ∈ sc.entries, Referred e.decl.types
        (.specialization "C" [.type (.instantiation ⟨"C", [.type intBox], none⟩)])) ∧
      ∀ sc ∈ m.scopes, ∀ e ∈ sc.entries, ∀ s, e.decl = .specialization s →
        s.args ≠ [.type (.instantiation ⟨"C", [.type intBox], none⟩)] := by
  have kept : (resolve nestedBoxUnit [] {}).1.toOption.map (fun m =>
      ((m.entry? ⟨0, 3⟩).map (·.decl),
        (m.scopes.flatMap (·.entries)).filterMap fun e => specializedArgs? e.decl)) =
      some (some (.var ⟨"x", .instantiation ⟨"C",
        [.type (.instantiation ⟨"C", [.type intBox], some [.type intBox]⟩)],
        some [.type (.instantiation ⟨"C", [.type intBox], none⟩)]⟩, false, false⟩),
        [[.type intBox], [.type (.instantiation ⟨"C", [.type intBox], some [.type intBox]⟩)]]) := by
    decide +kernel
  obtain ⟨m, ds, resolved, both⟩ := exists_resolved kept
  obtain ⟨found, others⟩ := Prod.mk.inj both
  obtain ⟨sc, hsc, e, he, same⟩ := exists_scope found
  refine ⟨m, ds, resolved, ⟨sc, hsc, e, he, ?_⟩, ?_⟩
  · rw [same]
    simp [Decl.types]
  · intro sc hsc e he s same args
    have listed : s.args ∈ [[.type intBox],
        [.type (.instantiation ⟨"C", [.type intBox], some [.type intBox]⟩)]] := by
      rw [← others]
      exact List.mem_filterMap.mpr ⟨e, List.mem_flatMap.mpr ⟨sc, hsc, he⟩, by rw [same]; rfl⟩
    rw [args] at listed
    simp [intBox] at listed

end HeaderDecl.Resolution
