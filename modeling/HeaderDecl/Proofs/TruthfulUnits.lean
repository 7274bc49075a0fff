import HeaderDecl.Proofs.DenotedNames
import HeaderDecl.Proofs.WrittenDefaults

/-!
Resolutions of units in which everything is kept as what it stands for, from the first declaration to the
last.
-/

namespace HeaderDecl.Resolution

open Relation

/-- A computation that begins and ends with nothing under way, and keeps everything as what it stands
for. -/
def Confirms {α : Type} (r : Registry) (x : Resolver α) : Prop :=
  ∀ s a t, Truthful r s → s.Idle → x s = (.ok a, t) → Truthful r t ∧ Calm s t

section Rules

variable {r : Registry} {α β : Type} {x : Resolver α}

theorem Yields.confirms {R : String → Prop} {P : State → α → Prop} (h : Yields r R x P) : Confirms r x := by
  intro s a t hs idle run
  obtain ⟨ht, calm, -⟩ := h s a t hs (idle.ledTo r R) run
  exact ⟨ht, calm⟩

theorem Confirms.bind {f : α → Resolver β} (first : Confirms r x) (next : ∀ a, Confirms r (f a)) :
    Confirms r (x >>= f) := by
  intro s b t hs idle run
  obtain ⟨a, u, here, rest⟩ := bind_eq_ok run
  obtain ⟨hu, calm⟩ := first s a u hs idle here
  obtain ⟨ht, calm'⟩ := next a u b t hu (idle.calm calm) rest
  exact ⟨ht, calm.trans calm'⟩

theorem Confirms.pure (a : α) : Confirms r (pure a) := by
  intro s b t hs _ run
  cases run
  exact ⟨hs, .refl s⟩

theorem Confirms.each {f : α → Resolver Unit} {xs : List α} (each : ∀ x ∈ xs, Confirms r (f x)) :
    Confirms r (Resolver.each f xs) := by
  induction xs with
  | nil => exact .pure ()
  | cons x xs ih =>
    exact (each x List.mem_cons_self).bind fun _ => ih fun y hy => each y (List.mem_cons_of_mem _ hy)

/-- The model and the diagnostics have no part in it. -/
theorem Truthful.unrelated {s : State} (h : Truthful r s) (diagnostics : List Diagnostic)
    (model : Model) : Truthful r { s with diagnostics, model } := by
  have reported := (Calm.reported s diagnostics model).toLater
  exact ⟨h.toRecalling.unrelated diagnostics model,
    fun fin later => h.terminals fin (reported.trans later),
    fun fin later => h.patterns fin (reported.trans later)⟩

theorem confirms_insert (h : ∀ s, ∃ a diagnostics model,
    x s = (.ok a, { s with diagnostics, model })) : Confirms r x := by
  intro s a t hs _ run
  obtain ⟨_, diagnostics, model, same⟩ := h s
  rw [run] at same
  cases same
  exact ⟨hs.unrelated diagnostics model, .reported s diagnostics model⟩

end Rules

section Declarations

variable {r : Registry} {fuel : Nat} {site : Site}

/-- Within declarations any name may be met. -/
theorem walk_anywhere (h : Coherent r) (fuel : Nat) :
    Traversal (fun _ x _ => Yields r (fun _ => True) x fun _ _ => True) (jumpWithin fuel)
      (jumpWithin fuel) (Beside r (fun _ => True) []) (Inside r fun _ => True) :=
  (walk_yields h (tells_jumpWithin h fuel) (closed_all r)).traversal

theorem inside_anywhere {v : View} {t : TypeExpr} (names : LooksUpOnly (Declared r) v t) :
    LooksUpOnly (Inside r fun _ => True) v t :=
  names.weaken fun _ declared => ⟨declared, fun _ _ _ _ => trivial⟩

theorem confirms_resolveSpecialization (h : Coherent r) (start : site.resolving = []) {inner : Site}
    (start' : inner.resolving = []) {sp : SpecializationDecl TypeExpr ArgExpr PathExpr}
    (outside : ∀ t ∈ sp.params.flatMap (·.types) ++ sp.args.flatMap (·.types),
      LooksUpOnly (Declared r) (site.view.withParams sp.params) t)
    (inside : LooksUpOnly (Declared r) inner.view (.record sp.record)) :
    Confirms r (resolveSpecialization (jumpWithin fuel) site sp inner) := by
  intro s d t hs idle run
  obtain ⟨diagnostics, u, v, params, args, record, -⟩ := resolveSpecialization_eq_ok run
  have walk := walk_anywhere h fuel
  have sites : Beside r (fun _ => True) [] (site.withParams sp.params) (site.withParams sp.params) :=
    beside_start r _ start
  have report := Calm.reported s diagnostics s.model
  obtain ⟨hu, toParams⟩ := (walk.resolveTemplateParams sites sp.params fun t ht =>
    inside_anywhere (outside t (List.mem_append_left _ ht))).confirms _ _ u
      (hs.unrelated diagnostics s.model) (idle.calm report) params
  have idle' := (idle.calm report).calm toParams
  obtain ⟨hv, toArgs⟩ := (walk.resolveArgs sites sp.args fun t ht =>
    inside_anywhere (outside t (List.mem_append_right _ ht))).confirms _ _ v hu idle' args
  obtain ⟨ht, toRecord⟩ := (walk.resolveRecord (beside_start r _ start') sp.record
    (inside_anywhere inside)).confirms _ _ t hv (idle'.calm toArgs) record
  exact ⟨ht, report.trans (toParams.trans (toArgs.trans toRecord))⟩

/-- The end of the chain of a typedef is not kept at its declaration. -/
theorem confirms_resolveTypedef (h : Coherent r) (start : site.resolving = []) {name : String}
    {t : TypeExpr}
    (registered : .typedef t site.view ∈ (r.meanings.get? name).getD []) :
    Confirms r (resolveTypedef (jumpWithin fuel) site name t) := by
  intro s a u hs idle run
  obtain ⟨w, jumped, -, rfl⟩ := resolveTypedef_eq_ok run
  have led : ({ site with resolving := site.resolving ++ [name] } : Site).LedTo r
      (TransGen r.Leads name) := by
    intro q hq n leads
    rw [start, List.nil_append, List.mem_singleton] at hq
    rwa [hq]
  obtain ⟨hw, calm⟩ := (tells_jumpWithin h fuel _ _ t (closed_transGen r _) led
    (h.inside (.target registered))).confirms s a w hs idle jumped
  have further := Calm.lengths w (w.lengths.insert name (chainLength w.lengths a))
  exact ⟨⟨hw.toRecalling.later further.toLater fun _ _ _ _ same => same,
    fun fin later => hw.terminals fin (further.toLater.trans later),
    fun fin later => hw.patterns fin (further.toLater.trans later)⟩, calm.trans further⟩

theorem confirms_resolveDecl (h : Coherent r) (start : site.resolving = []) (d : ParsedDecl)
    (registered : ∀ t, d = .typedef t → .typedef t.ty site.view ∈
      (r.meanings.get? (Name.qualify site.view.scope t.name)).getD [])
    (names : ∀ x ∈ d.parts site.view, LooksUpOnly (Declared r) x.1 x.2) :
    Confirms r (resolveDecl (jumpWithin fuel) site d) := by
  by_cases typedef : ∃ t, d = .typedef t
  · obtain ⟨t, rfl⟩ := typedef
    exact (confirms_resolveTypedef h start (registered t rfl)).bind fun _ => .pure _
  by_cases specialization : ∃ sp, d = .specialization sp
  · obtain ⟨sp, rfl⟩ := specialization
    have start' : ({ site with
        view := (memberView site.view (.specialization sp)).getD (site.view.withParams sp.params) } :
          Site).resolving = [] := start
    exact (confirms_resolveSpecialization h start start'
      (fun t ht => names (_, t) (List.mem_append_left _ (List.mem_map_of_mem ht)))
      (names _ (List.mem_append_right _ List.mem_cons_self))).bind fun _ => .pure _
  · exact ((walk_anywhere h fuel).resolveDecl (beside_start r _ start) d
      (fun x hx => inside_anywhere (names x hx)) (fun t _ same => absurd ⟨t, same⟩ typedef)
      fun sp _ _ _ _ same => absurd ⟨sp, same⟩ specialization).confirms

theorem confirms_resolveVisit (h : Coherent r) (maxDepth : Nat) {w : Visit}
    (registered : ∀ v t, w.declaration? = some (v, .typedef t) →
      .typedef t.ty v ∈ (r.meanings.get? (Name.qualify v.scope t.name)).getD [])
    (names : ∀ x, w.declaration? = some x → ∀ p ∈ x.2.parts x.1, LooksUpOnly (Declared r) p.1 p.2) :
    Confirms r (resolveVisit (jumpWithin fuel) maxDepth w) := by
  cases w with
  | scope path kind => exact confirms_insert fun s => ⟨(), s.diagnostics, _, rfl⟩
  | decl d origin view =>
    refine (confirms_resolveDecl h rfl d (fun t same => ?_) (names _ rfl)).bind fun d' =>
      confirms_insert fun s => ⟨(), _, _, run_declare _ _ _ s⟩
    exact registered view t (by rw [← same]; rfl)

end Declarations

section Units

variable {items : List Item} {constants : List MacroConstant} {config : Config} {s : State}

/-- At first nothing is kept. -/
theorem truthful_start (items : List Item) :
    Truthful (Registry.ofVisits (visitAll {} items))
        { registry := Registry.ofVisits (visitAll {} items) } ∧
      State.Idle { registry := Registry.ofVisits (visitAll {} items) } := by
  have fresh (template : String) (i : Nat) (progress : Progress) (other : progress ≠ .pending) :
      (Registry.ofVisits (visitAll {} items)).progress? template i ≠ some progress := by
    intro same
    obtain ⟨p, hp, same⟩ := Option.map_eq_some_iff.mp same
    unfold Registry.pattern? at hp
    cases known : (Registry.ofVisits (visitAll {} items)).patterns.get? template with
    | none => simp [known] at hp
    | some ps =>
      rw [known] at hp
      exact other (same ▸ Registry.fresh_ofVisits template ps known p (List.mem_of_getElem? hp))
  refine ⟨⟨⟨.refl _, fun q i _ w f _ resolved => absurd resolved (fresh q i _ nofun)⟩,
    fun fin _ name target view a d _ kept => ?_,
    fun fin _ q i _ w f _ _ resolved => absurd resolved (fresh q i _ nofun)⟩,
    fun q i => fresh q i _ nofun⟩
  cases kept

/-- Between two types nothing is under way, and everything is kept as what it stands for. -/
theorem BetweenTypes.truthful (h : BetweenTypes items constants config s)
    (coherent : Coherent (Registry.ofVisits (visitAll {} items)))
    (elaborated : DeclaresElaborated items) :
    Truthful (Registry.ofVisits (visitAll {} items)) s ∧ s.Idle := by
  induction h with
  | @declarations before behind s split run =>
    obtain ⟨start, idle⟩ := truthful_start items
    obtain ⟨_, u, added, visited⟩ := bind_eq_ok run
    obtain ⟨hu, calm⟩ := Confirms.each (fun c _ => confirms_insert fun s => ⟨(), _, _, rfl⟩)
      _ _ u start idle added
    have declared {w : Visit} (hw : w ∈ before) {x : View × ParsedDecl} (hx : w.declaration? = some x) :
        x ∈ Resolution.declarations items :=
      List.mem_filterMap.mpr ⟨w, by rw [split]; exact List.mem_append_left _ hw, hx⟩
    obtain ⟨hs, calm'⟩ := Confirms.each (fun w hw => confirms_resolveVisit coherent _
      (fun v t same => registered_typedef (declared hw same))
      fun x same => elaborated x (declared hw same)) u () s hu (idle.calm calm) visited
    exact ⟨hs, idle.calm (calm.trans calm')⟩
  | @type s s' site t fuel a earlier names led resolved ih =>
    obtain ⟨hs, idle⟩ := ih
    obtain ⟨hs', calm⟩ := (tells_jumpWithin coherent (fuel + 1) _ site t
      (closed_reaches _ site.view t) led (inside_of_uses names fun n uses => ⟨n, uses, .refl⟩)).confirms
        s a s' hs idle resolved
    exact ⟨hs', idle.calm calm⟩

end Units

end HeaderDecl.Resolution
