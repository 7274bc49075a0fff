import HeaderDecl.Proofs.InsertedForms
import HeaderDecl.Proofs.ReplayedTypes

/-!
Specializations of a unit, as they are registered and as their declarations are resolved. Between two
declarations nothing is under way, so that whatever a declaration is resolved to is recalled.
-/

namespace HeaderDecl.Resolution

open Relation

/-! ### What is registered -/

/-- The template that a declaration specializes. One that is nowhere declared is taken to stand in the
scope of the declaration. -/
def Registry.templateOf (r : Registry) (v : View) (s : SpecializationDecl TypeExpr ArgExpr PathExpr) :
    String :=
  (r.primary? s.template v.scope).getD (Name.qualify v.scope s.template)

/-- A specialization as it is registered. -/
def patternOf (v : View) (s : SpecializationDecl TypeExpr ArgExpr PathExpr) : Pattern :=
  ⟨s.params.filterMap (·.name), s.args, v.withParams s.params, .pending⟩

namespace Registry

variable {r : Registry} {q : String} {v : View} {s : SpecializationDecl TypeExpr ArgExpr PathExpr}
  {m : Meaning} {ws : List Visit} {p : Pattern}

theorem mem_patternsOf_addSpecialization (h : p ∈ (r.addSpecialization v s).patternsOf q) :
    p ∈ r.patternsOf q ∨ q = r.templateOf v s ∧ p = patternOf v s := by
  have pushed (r' : Registry) (same : r'.patterns = r.patterns) (name : String)
      (h : p ∈ (r'.addPattern name (patternOf v s)).patternsOf q) :
      p ∈ r.patternsOf q ∨ q = name ∧ p = patternOf v s := by
    unfold patternsOf addPattern push at h
    dsimp only at h
    rw [NameMap.get?_insert, same] at h
    split at h
    · rename_i here
      rw [Option.getD_some, List.map_append, List.mem_append] at h
      rcases h with h | h
      · rw [here]
        exact Or.inl h
      · exact Or.inr ⟨here, List.mem_singleton.mp h⟩
    · exact Or.inl h
  unfold addSpecialization at h
  dsimp only at h
  unfold templateOf
  cases primary : r.primary? s.template v.scope with
  | some name =>
    rw [primary] at h
    exact pushed r rfl name h
  | none =>
    rw [primary] at h
    exact pushed _ rfl _ h

theorem meanings_addSpecialization (hm : m ∈ (r.meanings.get? q).getD []) :
    m ∈ ((r.addSpecialization v s).meanings.get? q).getD [] := by
  unfold addSpecialization
  dsimp only
  split
  · exact hm
  · unfold addPattern addMeaning push
    dsimp only
    rw [NameMap.get?_insert]
    split
    · rename_i here
      rw [Option.getD_some, ← here]
      exact List.mem_append_left _ hm
    · exact hm

theorem mem_meanings_addSpecialization
    (hm : m ∈ ((r.addSpecialization v s).meanings.get? q).getD []) :
    m ∈ (r.meanings.get? q).getD [] ∨ ∃ kind view, m = .template kind [] view := by
  unfold addSpecialization at hm
  dsimp only at hm
  split at hm
  · exact Or.inl hm
  · unfold addPattern addMeaning push at hm
    dsimp only at hm
    rw [NameMap.get?_insert] at hm
    split at hm
    · rename_i here
      rcases List.mem_append.mp hm with hm | hm
      · rw [here]
        exact Or.inl hm
      · exact Or.inr ⟨_, _, List.mem_singleton.mp hm⟩
    · exact Or.inl hm

/-- Every pattern that is registered is that of a specialization. -/
theorem mem_patternsOf_addSpecializations (h : p ∈ (r.addSpecializations ws).patternsOf q) :
    p ∈ r.patternsOf q ∨ ∃ before s origin v behind,
      ws = before ++ .decl (.specialization s) origin v :: behind ∧
        (r.addSpecializations before).templateOf v s = q ∧ p = patternOf v s := by
  fun_induction addSpecializations r ws with
  | case1 => exact Or.inl h
  | case2 r s o v rest ih =>
    rcases ih h with h | ⟨before, s', o', v', behind, rfl, template, same⟩
    · rcases mem_patternsOf_addSpecialization h with h | ⟨template, same⟩
      · exact Or.inl h
      · exact Or.inr ⟨[], s, o, v, rest, rfl, template.symm, same⟩
    · exact Or.inr ⟨_ :: before, s', o', v', behind, rfl, template, same⟩
  | case3 r w rest other ih =>
    rcases ih h with h | ⟨before, s, o, v, behind, rfl, template, same⟩
    · exact Or.inl h
    · refine Or.inr ⟨w :: before, s, o, v, behind, rfl, ?_, same⟩
      rw [addSpecializations]
      · exact template
      · exact other

theorem meanings_ofVisits (hm : m ∈ ((ofNames ws).meanings.get? q).getD []) :
    m ∈ ((ofVisits ws).meanings.get? q).getD [] := by
  unfold ofVisits
  generalize ofNames ws = r at hm
  fun_induction addSpecializations r ws with
  | case1 => exact hm
  | case2 r s o v rest ih => exact ih (meanings_addSpecialization hm)
  | case3 r w rest _ ih => exact ih hm

/-- A meaning is that of a declaration, or of a template without parameters that nothing declares. -/
theorem mem_meanings_ofVisits (hm : m ∈ ((ofVisits ws).meanings.get? q).getD []) :
    m ∈ ((ofNames ws).meanings.get? q).getD [] ∨ ∃ kind view, m = .template kind [] view := by
  unfold ofVisits at hm
  generalize ofNames ws = r at hm ⊢
  fun_induction addSpecializations r ws with
  | case1 => exact Or.inl hm
  | case2 r s o v rest ih =>
    rcases ih hm with hm | orphan
    · exact mem_meanings_addSpecialization hm
    · exact Or.inr orphan
  | case3 r w rest _ ih => exact ih hm

end Registry

/-! ### Resolutions between declarations -/

/-- A state in which no specialization is under way. -/
def State.Idle (s : State) : Prop :=
  ∀ template i, s.registry.progress? template i ≠ some .underWay

theorem State.Idle.calm {s t : State} (h : s.Idle) (calm : Calm s t) : t.Idle :=
  fun q i way => h q i ((calm.underWay q i).mp way)

theorem State.Idle.ledTo {s : State} (h : s.Idle) (r : Registry) (R : String → Prop) : s.LedTo r R :=
  fun q i way => absurd way (h q i)

theorem State.Idle.clear {s : State} (h : s.Idle) (R : String → Prop) : s.Clear R :=
  fun q i way => absurd way (h q i)

/-- A computation that begins and ends with nothing under way, and keeps what it resolves. -/
def Proceeds {α : Type} (r : Registry) (x : Resolver α) : Prop :=
  ∀ s a t, Recalling r s → s.Idle → x s = (.ok a, t) → Recalling r t ∧ Calm s t

section Declarations

variable {r : Registry} {fuel : Nat} {site : Site}

theorem Replays.proceeds {R : String → Prop} {led : List String} {α : Type} {x y : Resolver α}
    (h : Replays r R led x y) : Proceeds r x := by
  intro s a t hs idle run
  obtain ⟨ht, calm, -⟩ := h s a t hs (idle.ledTo r R) run
  exact ⟨ht, calm⟩

theorem Proceeds.bind {α β : Type} {x : Resolver α} {f : α → Resolver β} (first : Proceeds r x)
    (next : ∀ a, Proceeds r (f a)) : Proceeds r (x >>= f) := by
  intro s b t hs idle run
  obtain ⟨a, u, here, rest⟩ := bind_eq_ok run
  obtain ⟨hu, calm⟩ := first s a u hs idle here
  obtain ⟨ht, calm'⟩ := next a u b t hu (idle.calm calm) rest
  exact ⟨ht, calm.trans calm'⟩

theorem Proceeds.each {α : Type} {f : α → Resolver Unit} {xs : List α}
    (each : ∀ x ∈ xs, Proceeds r (f x)) : Proceeds r (Resolver.each f xs) := by
  induction xs with
  | nil =>
    intro s a t hs _ run
    cases run
    exact ⟨hs, .refl s⟩
  | cons x xs ih =>
    exact (each x List.mem_cons_self).bind fun _ => ih fun y hy => each y (List.mem_cons_of_mem _ hy)

/-- The model and the diagnostics have no part in it. -/
theorem Recalling.unrelated {s : State} (h : Recalling r s) (diagnostics : List Diagnostic)
    (model : Model) : Recalling r { s with diagnostics, model } :=
  h.later (Calm.reported s diagnostics model).toLater fun _ _ _ _ same => same

theorem proceeds_insert {α : Type} {x : Resolver α} (h : ∀ s, ∃ a diagnostics model,
    x s = (.ok a, { s with diagnostics, model })) : Proceeds r x := by
  intro s a t hs _ run
  obtain ⟨_, diagnostics, model, same⟩ := h s
  rw [run] at same
  cases same
  exact ⟨hs.unrelated diagnostics model, .reported s diagnostics model⟩

/-- What a specialization is resolved to is made of its parts, in a state with the same registry. -/
theorem resolveSpecialization_eq_ok {jump : Jump} {inner : Site}
    {sp : SpecializationDecl TypeExpr ArgExpr PathExpr} {d : SpecializationDecl TypeRef ArgRef String}
    {s t : State} (run : resolveSpecialization jump site sp inner s = (.ok d, t)) :
    ∃ diagnostics u v, resolveTemplateParams jump (site.withParams sp.params) sp.params
        { s with diagnostics } = (.ok d.params, u) ∧
      resolveArgs jump (site.withParams sp.params) sp.args u = (.ok d.args, v) ∧
      resolveRecord jump inner sp.record v = (.ok d.record, t) ∧
      d.template = s.registry.templateOf site.view sp := by
  unfold resolveSpecialization at run
  obtain ⟨_, _, got, run⟩ := bind_eq_ok run
  cases got
  have rest {s' : State} {template : String} {orphaned : Bool} (run : (do
      let params ← resolveTemplateParams jump (site.withParams sp.params) sp.params
      let args ← resolveArgs jump (site.withParams sp.params) sp.args
      let record ← resolveRecord jump inner sp.record
      return (⟨template, params, args, record, orphaned⟩ :
        SpecializationDecl TypeRef ArgRef String) : Resolver _) s' = (.ok d, t)) :
      ∃ u v, resolveTemplateParams jump (site.withParams sp.params) sp.params s' =
          (.ok d.params, u) ∧
        resolveArgs jump (site.withParams sp.params) sp.args u = (.ok d.args, v) ∧
        resolveRecord jump inner sp.record v = (.ok d.record, t) ∧ d.template = template := by
    obtain ⟨_, u, params, run⟩ := bind_eq_ok run
    obtain ⟨_, v, args, run⟩ := bind_eq_ok run
    obtain ⟨_, _, record, run⟩ := bind_eq_ok run
    cases run
    exact ⟨u, v, params, args, record, rfl⟩
  dsimp only at run
  split at run
  · obtain ⟨_, _, reported, run⟩ := bind_eq_ok run
    cases reported
    obtain ⟨u, v, params, args, record, template⟩ := rest run
    exact ⟨_, u, v, params, args, record, template⟩
  · obtain ⟨u, v, params, args, record, template⟩ := rest run
    exact ⟨s.diagnostics, u, v, params, args, record, template⟩

/-- A site to which no typedef led. -/
theorem beside_start (r : Registry) (R : String → Prop) {site : Site} (start : site.resolving = []) :
    Beside r R [] site site := by
  refine ⟨rfl, ?_, ?_, by simp⟩ <;>
    · intro q hq
      rw [start] at hq
      cases hq

/-- The arguments of a specialization are recalled from its declaration on. -/
theorem recalled_resolveSpecialization (h : Coherent r) (start : site.resolving = []) {inner : Site}
    (start' : inner.resolving = []) {sp : SpecializationDecl TypeExpr ArgExpr PathExpr}
    (outside : ∀ t ∈ sp.params.flatMap (·.types) ++ sp.args.flatMap (·.types),
      LooksUpOnly (Declared r) (site.view.withParams sp.params) t)
    (inside : LooksUpOnly (Declared r) inner.view (.record sp.record))
    {d : SpecializationDecl TypeRef ArgRef String} {s t : State} (hs : Recalling r s) (idle : s.Idle)
    (run : resolveSpecialization (jumpWithin fuel) site sp inner s = (.ok d, t)) :
    Recalling r t ∧ Calm s t ∧ d.template = r.templateOf site.view sp ∧ ∀ fuel' ≥ fuel, ∀ u, Later t u →
      resolveArgs (jumpWithin fuel') (site.withParams sp.params) sp.args u = (.ok d.args, u) := by
  obtain ⟨diagnostics, u, v, params, args, record, template⟩ := resolveSpecialization_eq_ok run
  have anywhere {v : View} {t : TypeExpr} (names : LooksUpOnly (Declared r) v t) :
      LooksUpOnly (Inside r fun _ => True) v t :=
    names.weaken fun _ declared => ⟨declared, fun _ _ _ _ => trivial⟩
  have walk {fuel' : Nat} (enough : fuel ≤ fuel') : Traversal (fun _ => Replays r (fun _ => True) [])
      (jumpWithin fuel) (jumpWithin fuel') (Beside r (fun _ => True) []) (Inside r fun _ => True) :=
    traversal_replays h enough (closed_all r)
  have sites : Beside r (fun _ => True) [] (site.withParams sp.params) (site.withParams sp.params) :=
    beside_start r _ start
  have report := Calm.reported s diagnostics s.model
  obtain ⟨hu, toParams⟩ := ((walk (Nat.le_refl _)).resolveTemplateParams sites sp.params fun t ht =>
    anywhere (outside t (List.mem_append_left _ ht))).proceeds _ _ u (hs.unrelated diagnostics s.model)
      (idle.calm report) params
  have idle' := (idle.calm report).calm toParams
  have written {fuel' : Nat} (enough : fuel ≤ fuel') := (walk enough).resolveArgs sites sp.args
    fun t ht => anywhere (outside t (List.mem_append_right _ ht))
  obtain ⟨hv, toArgs, -, -⟩ := written (Nat.le_refl _) _ _ v hu (idle'.ledTo r _) args
  obtain ⟨ht, toRecord⟩ := ((walk (Nat.le_refl _)).resolveRecord (beside_start r _ start') sp.record
    (anywhere inside)).proceeds _ _ t hv (idle'.calm toArgs) record
  refine ⟨ht, report.trans (toParams.trans (toArgs.trans toRecord)), ?_, fun fuel' more w later => ?_⟩
  · rw [template]
    unfold Registry.templateOf Registry.primary?
    rw [hs.same.meanings]
  · obtain ⟨-, -, -, again⟩ := written more _ _ v hu (idle'.ledTo r _) args
    exact again (idle'.clear _) w (toRecord.toLater.trans later)

/-- Declarations are resolved with nothing under way in between. -/
theorem proceeds_resolveDecl (h : Coherent r) (start : site.resolving = []) (d : ParsedDecl)
    (registered : ∀ t, d = .typedef t → .typedef t.ty site.view ∈
      (r.meanings.get? (Name.qualify site.view.scope t.name)).getD [])
    (names : ∀ x ∈ d.parts site.view, LooksUpOnly (Declared r) x.1 x.2) :
    Proceeds r (resolveDecl (jumpWithin fuel) site d) := by
  have anywhere : ∀ x ∈ d.parts site.view, LooksUpOnly (Inside r fun _ => True) x.1 x.2 :=
    fun x hx => (names x hx).weaken fun _ declared => ⟨declared, fun _ _ _ _ => trivial⟩
  have sites : Beside r (fun _ => True) [] site site := beside_start r _ start
  by_cases typedef : ∃ t, d = .typedef t
  · obtain ⟨t, rfl⟩ := typedef
    intro s d' u hs idle run
    obtain ⟨a, v, resolved, run⟩ := bind_eq_ok run
    cases run
    obtain ⟨w, jumped, -, rfl⟩ := resolveTypedef_eq_ok resolved
    -- The name of the typedef leads to whatever is resolved for it.
    have led : ({ site with resolving := site.resolving ++ [Name.qualify site.view.scope t.name] } :
        Site).LedTo r (TransGen r.Leads (Name.qualify site.view.scope t.name)) := by
      intro q hq n leads
      rw [start, List.nil_append, List.mem_singleton] at hq
      rwa [hq]
    have below := replays_jumpWithin h (Nat.le_refl fuel) _ [] _ _ t.ty (closed_transGen r _)
      ⟨rfl, led, led, by simp⟩ (h.inside (.target (registered t rfl)))
    obtain ⟨hw, calm⟩ := below.proceeds s a w hs idle jumped
    exact ⟨hw.later (Calm.lengths w _).toLater fun _ _ _ _ same => same, calm.trans (.lengths w _)⟩
  by_cases specialization : ∃ sp, d = .specialization sp
  · obtain ⟨sp, rfl⟩ := specialization
    intro s d' u hs idle run
    obtain ⟨a, v, resolved, run⟩ := bind_eq_ok run
    cases run
    have parts (t : TypeExpr) (ht : t ∈ sp.params.flatMap (·.types) ++ sp.args.flatMap (·.types)) :
        LooksUpOnly (Declared r) (site.view.withParams sp.params) t :=
      names (_, t) (List.mem_append_left _ (List.mem_map_of_mem ht))
    have start' : ({ site with
        view := (memberView site.view (.specialization sp)).getD (site.view.withParams sp.params) } :
          Site).resolving = [] := start
    obtain ⟨ht, calm, -, -⟩ := recalled_resolveSpecialization h start start' parts
      (names _ (List.mem_append_right _ List.mem_cons_self)) hs idle resolved
    exact ⟨ht, calm⟩
  · have walk : Traversal (fun _ => Replays r (fun _ => True) []) (jumpWithin fuel) (jumpWithin fuel)
        (Beside r (fun _ => True) []) (Inside r fun _ => True) :=
      traversal_replays h (Nat.le_refl fuel) (closed_all r)
    exact (walk.resolveDecl sites d anywhere (fun t _ same => absurd ⟨t, same⟩ typedef)
      fun sp _ _ _ _ same => absurd ⟨sp, same⟩ specialization).proceeds

theorem proceeds_resolveVisit (h : Coherent r) (maxDepth : Nat) {w : Visit}
    (registered : ∀ v t, w.declaration? = some (v, .typedef t) →
      .typedef t.ty v ∈ (r.meanings.get? (Name.qualify v.scope t.name)).getD [])
    (names : ∀ x, w.declaration? = some x → ∀ p ∈ x.2.parts x.1, LooksUpOnly (Declared r) p.1 p.2) :
    Proceeds r (resolveVisit (jumpWithin fuel) maxDepth w) := by
  cases w with
  | scope path kind => exact proceeds_insert fun s => ⟨(), s.diagnostics, _, rfl⟩
  | decl d origin view =>
    refine (proceeds_resolveDecl h rfl d (fun t same => ?_) (names _ rfl)).bind fun d' =>
      proceeds_insert fun s => ⟨(), _, _, run_declare _ _ _ s⟩
    exact registered view t (by rw [← same]; rfl)

end Declarations

end HeaderDecl.Resolution
