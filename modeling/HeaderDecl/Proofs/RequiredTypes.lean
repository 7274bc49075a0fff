import HeaderDecl.Proofs.EchoedTypes
import HeaderDecl.Proofs.UnitTypeNames

/-!
The types that a computation resolves. It does not succeed unless each of them is resolved to something,
and unless the names in them are found.
-/

namespace HeaderDecl.Resolution

/-- The name that a type is looked up by is itself a type, which has the same names in it. -/
theorem LooksUpOnly.named {A : NameUse → Prop} {v : View} {t : TypeExpr} {p : PathExpr}
    (h : LooksUpOnly A v t) (name : (none, p) ∈ t.lookups) : LooksUpOnly A v (.path p) := by
  rw [looksUpOnly_iff]
  refine ⟨fun x hx => ?_, nofun⟩
  obtain rfl := List.mem_singleton.mp hx
  exact ⟨h.name name, h.arg name⟩

section Required

variable {I : State → Prop} {jump : Jump} {A : NameUse → Prop} {G : View × TypeExpr → Prop}

/-- A computation that resolves some types, among other things, with something known of each type that is
resolved. -/
def Requires {α : Type} (I : State → Prop) (G : View × TypeExpr → Prop) (x : Resolver α)
    (ts : List (View × TypeExpr)) : Prop :=
  ∀ s a s', I s → x s = (.ok a, s') → I s' ∧ ∀ y ∈ ts, G y

section Rules

variable {α β : Type} {x : Resolver α} {f : α → Resolver β} {ts us : List (View × TypeExpr)}

theorem Maintains.requires (h : Maintains I x) : Requires I G x [] :=
  fun s a s' hs run => ⟨h s a s' hs run, nofun⟩

theorem Requires.maintains (h : Requires I G x ts) : Maintains I x :=
  fun s a t hs run => (h s a t hs run).1

theorem Requires.bind (first : Requires I G x ts) (next : ∀ a, Requires I G (f a) us) :
    Requires I G (x >>= f) (ts ++ us) := by
  intro s b s' hs run
  obtain ⟨a, u, here, rest⟩ := bind_eq_ok run
  obtain ⟨hu, resolved⟩ := first s a u hs here
  obtain ⟨hs', resolved'⟩ := next a u b s' hu rest
  exact ⟨hs', fun y hy => (List.mem_append.mp hy).elim (resolved y) (resolved' y)⟩

theorem Requires.done (first : Requires I G x ts) (g : α → β) :
    Requires I G (x >>= fun a => pure (g a)) ts := by
  have rest (a : α) : Requires I G (pure (g a)) [] := (Maintains.pure _).requires
  have both := first.bind rest
  rwa [List.append_nil] at both

theorem Requires.mono (h : Requires I G x ts) (sub : ∀ y ∈ us, y ∈ ts) : Requires I G x us := by
  intro s a s' hs run
  obtain ⟨hs', resolved⟩ := h s a s' hs run
  exact ⟨hs', fun y hy => resolved y (sub y hy)⟩

end Rules

/-- A jump by which types are resolved that something is known of, in states that have a property. -/
structure Resolving (I : State → Prop) (jump : Jump) (A : NameUse → Prop) (G : View × TypeExpr → Prop) :
    Prop extends Traversal (fun _ x _ => Maintains I x) jump jump Site.Alike A where
  type {site : Site} {t : TypeExpr} {s s' : State} {a : TypeRef} (hs : I s)
    (run : Resolution.resolveType jump site t s = (.ok a, s')) : G (site.view, t)

/-! ### Parts of declarations -/

variable (h : Resolving I jump A G) {site : Site}

include h

theorem requires_resolveType {t : TypeExpr} (names : LooksUpOnly A site.view t) :
    Requires I G (resolveType jump site t) [(site.view, t)] := by
  intro s a s' hs run
  have alike : Site.Alike site site := rfl
  refine ⟨h.toTraversal.resolveType alike t names s a s' hs run, fun y hy => ?_⟩
  obtain rfl := List.mem_singleton.mp hy
  exact h.type hs run

theorem requires_resolvePath {p : PathExpr} (names : LooksUpOnly A site.view (.path p)) :
    Requires I G (resolvePath jump site none p) [(site.view, .path p)] :=
  requires_resolveType h names

theorem requires_resolveArgs (args : List ArgExpr)
    (names : ∀ t ∈ args.flatMap (·.types), LooksUpOnly A site.view t) :
    Requires I G (resolveArgs jump site args) ((args.flatMap (·.types)).map (site.view, ·)) := by
  induction args with
  | nil => exact (Maintains.pure _).requires
  | cons a rest ih =>
    have later := ih fun t ht => names t (List.mem_append_right _ ht)
    cases a with
    | literal text => exact (Maintains.pure _).requires.bind fun _ => later.done _
    | type t =>
      have first := requires_resolveType h (names t (List.mem_append_left _ List.mem_cons_self))
      exact (first.done _).bind fun _ => later.done _

theorem requires_resolveParameters (ps : List (Parameter TypeExpr))
    (names : ∀ t ∈ ps.map (·.ty), LooksUpOnly A site.view t) :
    Requires I G (resolveParameters jump site ps) ((ps.map (·.ty)).map (site.view, ·)) := by
  induction ps with
  | nil => exact (Maintains.pure _).requires
  | cons p rest ih =>
    have later := ih fun t ht => names t (List.mem_cons_of_mem _ ht)
    exact (requires_resolveType h (names p.ty List.mem_cons_self)).bind fun _ => later.done _

theorem requires_resolveSignature (sig : Signature TypeExpr)
    (names : ∀ t ∈ sig.types, LooksUpOnly A site.view t) :
    Requires I G (resolveSignature jump site sig) (sig.types.map (site.view, ·)) := by
  obtain ⟨returnTy, ps, variadic⟩ := sig
  have params := requires_resolveParameters h ps fun t ht => names t (List.mem_cons_of_mem _ ht)
  have returns := requires_resolveType h (names returnTy List.mem_cons_self)
  unfold resolveSignature
  refine (params.bind fun _ => returns.done _).mono fun y hy => ?_
  exact (List.mem_cons.mp hy).elim (fun here => List.mem_append_right _ (List.mem_singleton.mpr here))
    (List.mem_append_left _)

theorem requires_resolveTemplateParams (ps : List (TemplateParam TypeExpr))
    (names : ∀ t ∈ ps.flatMap (·.types), LooksUpOnly A site.view t) :
    Requires I G (resolveTemplateParams jump site ps)
      ((ps.flatMap (·.types)).map (site.view, ·)) := by
  induction ps with
  | nil => exact (Maintains.pure _).requires
  | cons p rest ih =>
    have later := ih fun t ht => names t (List.mem_append_right _ ht)
    have here (t : TypeExpr) (ht : t ∈ p.kind.types) : LooksUpOnly A site.view t :=
      names t (List.mem_append_left _ ht)
    obtain ⟨name, kind, pack⟩ := p
    rw [List.flatMap_cons, List.map_append]
    refine Requires.bind ?_ fun _ => later.done _
    cases kind with
    | type default =>
      cases default with
      | none => exact (Maintains.pure _).requires
      | some t => exact (requires_resolveType h (here t List.mem_cons_self)).done _
    | nonType t default => exact (requires_resolveType h (here t List.mem_cons_self)).done _
    | template default => exact (Maintains.pure _).requires

theorem requires_resolveFunction (f : FunctionDecl TypeExpr)
    (names : ∀ y ∈ f.parts site.view, LooksUpOnly A y.1 y.2) :
    Requires I G (resolveFunction jump site f) (f.parts site.view) := by
  obtain ⟨name, kind, sig, qualifiers, access, ps, scope⟩ := f
  have inner (t : TypeExpr) (ht : t ∈ sig.types ++ ps.flatMap (·.types)) :
      LooksUpOnly A (site.withParams ps).view t := names (_, t) (List.mem_map_of_mem ht)
  have signature := requires_resolveSignature h sig fun t ht => inner t (List.mem_append_left _ ht)
  have params := requires_resolveTemplateParams h ps fun t ht => inner t (List.mem_append_right _ ht)
  unfold resolveFunction
  refine (signature.bind fun _ => params.done _).mono fun y hy => ?_
  rw [← List.map_append]
  exact hy

theorem requires_resolveMethods (fs : List (FunctionDecl TypeExpr))
    (names : ∀ y ∈ fs.flatMap (·.parts site.view), LooksUpOnly A y.1 y.2) :
    Requires I G (resolveMethods jump site fs) (fs.flatMap (·.parts site.view)) := by
  induction fs with
  | nil => exact (Maintains.pure _).requires
  | cons f rest ih =>
    have later := ih fun y hy => names y (List.mem_append_right _ hy)
    exact (requires_resolveFunction h f fun y hy => names y (List.mem_append_left _ hy)).bind
      fun _ => later.done _

theorem requires_resolveFields (fs : List (Field TypeExpr))
    (names : ∀ t ∈ fs.map (·.ty), LooksUpOnly A site.view t) :
    Requires I G (resolveFields jump site fs) (fs.map fun f => (site.view, f.ty)) := by
  induction fs with
  | nil => exact (Maintains.pure _).requires
  | cons f rest ih =>
    have later := ih fun t ht => names t (List.mem_cons_of_mem _ ht)
    exact (requires_resolveType h (names f.ty List.mem_cons_self)).bind fun _ => later.done _

theorem requires_resolveBases (bs : List (BaseSpec PathExpr))
    (names : ∀ b ∈ bs, LooksUpOnly A site.view (.path b.name)) :
    Requires I G (resolveBases jump site bs) (bs.map fun b => (site.view, .path b.name)) := by
  induction bs with
  | nil => exact (Maintains.pure _).requires
  | cons b rest ih =>
    have later := ih fun b mem => names b (List.mem_cons_of_mem _ mem)
    exact (requires_resolvePath h (names b List.mem_cons_self)).bind fun _ => later.done _

/-- The bases of a record are looked up as types are. -/
theorem requires_resolveRecord (r : ParsedRecord) (names : LooksUpOnly A site.view (.record r)) :
    Requires I G (resolveRecord jump site r)
      (r.parts site.view ++ r.bases.map fun b => (site.view, .path b.name)) := by
  obtain ⟨name, kind, fields, methods, bases, complete, typedefName⟩ := r
  have fs := requires_resolveFields h fields fun t ht => by
    obtain ⟨f, hf, rfl⟩ := List.mem_map.mp ht
    exact names.part (List.mem_append_left _ (List.mem_map_of_mem hf))
  have ms := requires_resolveMethods h methods fun y hy => names.part (List.mem_append_right _ hy)
  have bs := requires_resolveBases h bases fun b mem => names.named (List.mem_map_of_mem mem)
  unfold resolveRecord
  refine (fs.bind fun _ => ms.bind fun _ => bs.done _).mono fun y hy => ?_
  rwa [← List.append_assoc]

/-! ### Types within types -/

/-- The types that a type is resolved with, and its own names. -/
theorem requires_parts {t : TypeExpr} (names : LooksUpOnly A site.view t) :
    Requires I G (resolveType jump site t)
      (t.parts site.view ++ t.lookups.map fun x => (site.view, TypeExpr.named x.1 x.2)) := by
  cases t with
  | primitive p | dependent p => exact (Maintains.pure _).requires
  | path p | elaborated kind p => exact requires_resolveType h names
  | pointer t | reference t | rvalueReference t | array t size | qualified q t =>
    exact (requires_resolveType h (names.part List.mem_cons_self)).done _
  | function sig =>
    have alone : (TypeExpr.function sig).lookups = [] := rfl
    rw [alone, List.map_nil, List.append_nil]
    exact (requires_resolveSignature h sig fun t ht => names.part (List.mem_map_of_mem ht)).done _
  | record r =>
    refine ((requires_resolveRecord h r names).done _).mono fun y hy => ?_
    rwa [TypeExpr.lookups, List.map_map] at hy
  | enum e =>
    obtain ⟨name, isScoped, underlying, members, complete, typedefName⟩ := e
    have names : LooksUpOnly A site.view underlying := names.part List.mem_cons_self
    exact ((requires_resolveType h names).done _).done _

theorem requires_record {r : ParsedRecord} (names : LooksUpOnly A site.view (.record r)) :
    Requires I G (resolveRecord jump site r) [(site.view, .record r)] := by
  intro s a s' hs run
  refine ⟨(requires_resolveRecord h r names s a s' hs run).1, fun y hy => ?_⟩
  obtain rfl := List.mem_singleton.mp hy
  have whole : resolveType jump site (.record r) s = (.ok (.anonymousRecord a), s') := by
    rw [resolveType, bind_run, run]
    rfl
  exact h.type hs whole

theorem requires_enum {e : EnumDecl TypeExpr} (names : LooksUpOnly A site.view (.enum e)) :
    Requires I G (resolveEnum jump site e) [(site.view, .enum e)] := by
  intro s a s' hs run
  have whole : resolveType jump site (.enum e) s = (.ok (.anonymousEnum a), s') := by
    rw [resolveType, bind_run, run]
    rfl
  exact requires_resolveType h names s _ s' hs whole

end Required

/-! ### Declarations -/

section Declarations

variable {N : String → Prop} {r₀ : Registry} {A : NameUse → Prop}

/-- A type is resolved from a view, in some state of a resolution. -/
def Succeeds (N : String → Prop) (r₀ : Registry) (y : View × TypeExpr) : Prop :=
  ∃ fuel site s a s', site.view = y.1 ∧ r₀.GrownBy N s.registry ∧
    resolveType (jumpWithin fuel) site y.2 s = (.ok a, s')

variable (h : Supplies N r₀ A) (fuel : Nat) {site : Site}

include h

theorem resolving_grown : Resolving (Grown N r₀) (jumpWithin fuel) A (Succeeds N r₀) where
  toTraversal := traversal_registers h fuel
  type hs run := ⟨fuel, _, _, _, _, rfl, hs, run⟩

theorem requires_typedef {name : String} {target : TypeExpr} (names : LooksUpOnly A site.view target) :
    Requires (Grown N r₀) (Succeeds N r₀) (resolveTypedef (jumpWithin (fuel + 1)) site name target)
      [(site.view, target)] := by
  intro s a s' hs run
  obtain ⟨u, jumped, -, rfl⟩ := resolveTypedef_eq_ok run
  have inside : LooksUpOnly A { site with resolving := site.resolving ++ [name] }.view target := names
  exact requires_resolveType (resolving_grown h fuel) inside s a u hs jumped

theorem requires_resolveSpecialization {inner : Site} {sp : SpecializationDecl TypeExpr ArgExpr PathExpr}
    (outside : ∀ t ∈ sp.params.flatMap (·.types) ++ sp.args.flatMap (·.types),
      LooksUpOnly A (site.view.withParams sp.params) t)
    (inside : LooksUpOnly A inner.view (.record sp.record)) :
    Requires (Grown N r₀) (Succeeds N r₀) (resolveSpecialization (jumpWithin fuel) site sp inner)
      ((sp.params.flatMap (·.types) ++ sp.args.flatMap (·.types)).map (site.view.withParams sp.params, ·) ++
        [(inner.view, .record sp.record)]) := by
  intro s d s' hs run
  obtain ⟨diagnostics, u, v, params, args, record, -⟩ := resolveSpecialization_eq_ok run
  have known := resolving_grown h fuel
  obtain ⟨hu, resolved⟩ := requires_resolveTemplateParams known sp.params
    (fun t ht => outside t (List.mem_append_left _ ht)) { s with diagnostics } _ u hs params
  obtain ⟨hv, resolved'⟩ := requires_resolveArgs known sp.args
    (fun t ht => outside t (List.mem_append_right _ ht)) u _ v hu args
  obtain ⟨hs', resolved''⟩ := requires_record known inside v _ s' hv record
  refine ⟨hs', fun y hy => ?_⟩
  rw [List.map_append] at hy
  rcases List.mem_append.mp hy with hy | hy
  · exact (List.mem_append.mp hy).elim (resolved y) (resolved' y)
  · exact resolved'' y hy

/-- The types in a declaration are resolved with it. -/
theorem requires_resolveDecl {d : ParsedDecl} (names : ∀ y ∈ d.parts site.view, LooksUpOnly A y.1 y.2) :
    Requires (Grown N r₀) (Succeeds N r₀) (resolveDecl (jumpWithin (fuel + 1)) site d)
      (d.parts site.view) := by
  have known := resolving_grown h (fuel + 1)
  unfold resolveDecl
  cases d with
  | record r =>
    refine (requires_record known ?_).done _
    exact names _ List.mem_cons_self
  | enum e => exact (requires_enum known (names _ List.mem_cons_self)).done _
  | typedef t => exact (requires_typedef h fuel (names _ List.mem_cons_self)).done _
  | function f => exact (requires_resolveFunction known f names).done _
  | var x => exact (requires_resolveType known (names _ List.mem_cons_self)).done _
  | constant c => exact (Maintains.pure _).requires
  | template t =>
    have outside (ty : TypeExpr) (hty : ty ∈ t.params.flatMap (·.types)) :
        LooksUpOnly A (site.withParams t.params).view ty :=
      names (_, ty) (List.mem_append_left _ (List.mem_map_of_mem hty))
    refine (requires_resolveTemplateParams known t.params outside).bind fun _ =>
      (requires_record known ?_).done _
    exact names _ (List.mem_append_right _ List.mem_cons_self)
  | specialization s =>
    refine (requires_resolveSpecialization h (fuel + 1) (fun t ht => ?_) ?_).done _
    · exact names (_, t) (List.mem_append_left _ (List.mem_map_of_mem ht))
    · exact names _ (List.mem_append_right _ List.mem_cons_self)

end Declarations

/-! ### Units -/

section Units

variable {items : List Item} {x : View × ParsedDecl}

/-- What the declarations of a unit leave as it is, and the model has no part in, is so behind any part of
the visits that resolves. -/
theorem holds_of_resolveSome {I : State → Prop} {constants : List MacroConstant} {config : Config}
    (apart : ∀ s model diagnostics, I s → I { s with model, diagnostics })
    (maintained : ∀ x ∈ declarations items, ∀ origin, Maintains I
      (resolveDecl (jumpWithin (Registry.ofVisits (visitAll {} items)).depthBound)
        { maxDepth := config.maxTypedefDepth, origin, view := x.1 } x.2))
    (start : I { registry := Registry.ofVisits (visitAll {} items) }) {before behind : List Visit}
    (split : visitAll {} items = before ++ behind) {s : State}
    (run : resolveSome items constants config before = (.ok (), s)) : I s := by
  obtain ⟨_, u, added, visited⟩ := bind_eq_ok run
  have hu : I u := by
    refine Maintains.each (fun c _ s _ t hs run => ?_) _ _ u start added
    cases run
    exact apart s _ _ hs
  refine Maintains.each (fun w hw => ?_) u _ s hu visited
  intro s _ t hs run
  cases w with
  | scope path kind =>
    cases run
    exact apart s _ _ hs
  | decl e o v =>
    obtain ⟨e', u, resolved, rfl⟩ := resolveVisit_eq_ok run
    have he : (v, e) ∈ declarations items :=
      mem_declarations.mpr ⟨o, split ▸ List.mem_append_left _ hw⟩
    exact apart u _ _ (maintained (v, e) he o s e' u hs resolved)

/-- Before each of its declarations it is so if the unit resolves. -/
theorem holds_before {I : State → Prop} {constants : List MacroConstant} {config : Config}
    (apart : ∀ s model diagnostics, I s → I { s with model, diagnostics })
    (maintained : ∀ x ∈ declarations items, ∀ origin, Maintains I
      (resolveDecl (jumpWithin (Registry.ofVisits (visitAll {} items)).depthBound)
        { maxDepth := config.maxTypedefDepth, origin, view := x.1 } x.2))
    (start : I { registry := Registry.ofVisits (visitAll {} items) })
    (ok : ∃ m, (resolve items constants config).1 = .ok m) (hx : x ∈ declarations items) :
    ∃ origin s d t, I s ∧ resolveDecl (jumpWithin (Registry.ofVisits (visitAll {} items)).depthBound)
      { maxDepth := config.maxTypedefDepth, origin, view := x.1 } x.2 s = (.ok d, t) := by
  obtain ⟨view, d⟩ := x
  obtain ⟨origin, hd⟩ := mem_declarations.mp hx
  obtain ⟨d', before, behind, s, t, split, run, resolved⟩ := resolvesTo_of_ok ok hd
  exact ⟨origin, s, d', t, holds_of_resolveSome apart maintained start split run, resolved⟩

/-- The types in a declaration of a unit are resolved with it. -/
theorem requires_declared (hx : x ∈ declarations items) (maxDepth : Nat) (origin : Origin) :
    Requires (Grown (TypeName items) (Registry.ofVisits (visitAll {} items)))
      (Succeeds (TypeName items) (Registry.ofVisits (visitAll {} items)))
      (resolveDecl (jumpWithin (Registry.ofVisits (visitAll {} items)).depthBound)
        { maxDepth, origin, view := x.1 } x.2) (x.2.parts x.1) := by
  have positive : 0 < (Registry.ofVisits (visitAll {} items)).depthBound :=
    Nat.mul_pos (Nat.mul_pos (Nat.succ_pos _) (Nat.succ_pos _)) (Nat.succ_pos _)
  obtain ⟨fuel, bound⟩ := Nat.exists_eq_succ_of_ne_zero (Nat.ne_of_gt positive)
  rw [bound]
  exact requires_resolveDecl (supplies_writtenIn items) fuel fun y part => looksUpOnly_writtenIn hx part

/-- A unit resolves only if the types in all its declarations do. Its registry knows no type names but
those of the unit at any of them. -/
theorem succeeds_of_part {constants : List MacroConstant} {config : Config}
    (ok : ∃ m, (resolve items constants config).1 = .ok m) (hx : x ∈ declarations items)
    {y : View × TypeExpr} (part : y ∈ x.2.parts x.1) :
    Succeeds (TypeName items) (Registry.ofVisits (visitAll {} items)) y := by
  obtain ⟨origin, s, d, t, hs, resolved⟩ := holds_before
    (I := Grown (TypeName items) (Registry.ofVisits (visitAll {} items))) (fun _ _ _ hs => hs)
    (fun x hx origin => (requires_declared hx _ origin).maintains) (.refl _ _) ok hx
  exact (requires_declared hx _ _ s d t hs resolved).2 y part

end Units

end HeaderDecl.Resolution
