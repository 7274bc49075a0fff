import HeaderDecl.Proofs.EchoedTypes
import HeaderDecl.Proofs.UnitTypeNames

/-!
The typedefs that are being resolved. In a unit without templates they are pairwise distinct and within the
bound at any time, and the types that are under way at once are never too many: whatever else might be done
if it were otherwise makes no difference.
-/

namespace HeaderDecl

namespace Resolution

/-! ### Jumps that are watched -/

/-- Whether the typedefs that led to a site are distinct, and no more than a bound. -/
def Site.Orderly (bound : Nat) (site : Site) : Prop :=
  site.resolving.Nodup ∧ site.resolving.length ≤ bound

instance (bound : Nat) (site : Site) : Decidable (site.Orderly bound) :=
  inferInstanceAs (Decidable (_ ∧ _))

/-- Resolves a type with at most the given number of types under way, as long as the typedefs that led to
it are in order. Otherwise, and for a type beyond that number, another jump is made. -/
def jumpWatched (bound : Nat) (other : Jump) : Nat → Jump
  | 0, site, ty => other site ty
  | n + 1, site, ty =>
    if site.Orderly bound then resolveType (jumpWatched bound other n) site ty else other site ty

/-- The declaration model of a file, with jumps of some kind to what types refer to. -/
def resolveBy (jumps : Nat → Jump) (items : List Item) (constants : List MacroConstant)
    (config : Config) : Except FatalError Model × List Diagnostic :=
  let visits := visitAll {} items
  let registry := Registry.ofVisits visits
  let work : Resolver Unit := do
    Resolver.each addConstant constants
    Resolver.each (resolveVisit (jumps registry.depthBound) config.maxTypedefDepth) visits
  let (result, s) := work { registry }
  (result.map fun _ => s.model, s.diagnostics)

theorem resolveBy_jumpWithin : resolveBy jumpWithin = resolve := rfl

/-! ### Computations that do the same -/

/-- Computations that do the same in any state with some property, and do not succeed in leaving it. -/
def Agrees (I : State → Prop) (α : Type) (x y : Resolver α) : Prop :=
  ∀ s, I s → x s = y s ∧ ∀ a t, x s = (.ok a, t) → I t

section Rules

variable {α β : Type} {I : State → Prop} {x y : Resolver α} {f g : α → Resolver β}

theorem Maintains.agrees (h : Maintains I x) : Agrees I α x x := fun s hs => ⟨rfl, fun a t => h s a t hs⟩

theorem Agrees.bind (first : Agrees I α x y) (next : ∀ a, Agrees I β (f a) (g a)) :
    Agrees I β (x >>= f) (y >>= g) := by
  intro s hs
  obtain ⟨same, kept⟩ := first s hs
  rw [bind_run, bind_run, ← same]
  rcases run : x s with ⟨e | a, t⟩
  · exact ⟨rfl, nofun⟩
  · exact next a t (kept a t run)

theorem Agrees.each {f g : α → Resolver Unit} {xs : List α} (h : ∀ x ∈ xs, Agrees I Unit (f x) (g x)) :
    Agrees I Unit (Resolver.each f xs) (Resolver.each g xs) := by
  induction xs with
  | nil => exact (Maintains.pure _).agrees
  | cons x xs ih =>
    exact (h x List.mem_cons_self).bind fun _ => ih fun y hy => h y (List.mem_cons_of_mem _ hy)

/-- Computations that differ only in what is done with a name that is found. -/
theorem Agrees.look {N : String → Prop} {r₀ : Registry} {A : NameUse → Prop} (h : Supplies N r₀ A)
    {site : Site} {kind : Option NamedKind} {p : PathExpr} {f g : Found → Resolver β}
    (names : A ⟨site.view, kind, p⟩)
    (next : ∀ found, found.Known (Registered r₀) → Agrees (Grown N r₀) β (f found) (g found)) :
    Agrees (Grown N r₀) β (Resolution.look site kind p >>= f) (Resolution.look site kind p >>= g) := by
  intro s hs
  rw [bind_run, bind_run]
  rcases run : Resolution.look site kind p s with ⟨e | found, t⟩
  · exact ⟨rfl, nofun⟩
  · have looked := looked_of_run run
    exact next found (looked.registered hs) t (looked.grown h names hs)

end Rules

/-! ### Typedefs under way -/

/-- A file that declares no template, and no specialization of one. -/
def TemplateFree (items : List Item) : Prop :=
  ∀ x ∈ declarations items, (∀ t, x.2 ≠ .template t) ∧ ∀ s, x.2 ≠ .specialization s

/-- No name is that of a template. -/
def Registry.TemplateFree (r : Registry) : Prop :=
  ∀ name, ∀ m ∈ (r.meanings.get? name).getD [], m.isTemplate = false

theorem ofVisits_of_templateFree {items : List Item} (plain : TemplateFree items) :
    Registry.ofVisits (visitAll {} items) = Registry.ofNames (visitAll {} items) := by
  refine Registry.ofVisits_of_unspecialized fun s origin v mem => ?_
  exact (plain _ (mem_declarations.mpr ⟨origin, mem⟩)).2 s rfl

/-- The meanings of a name are those of the declarations that bear it. -/
theorem meanings_of_templateFree {items : List Item} (plain : TemplateFree items) (q : String) :
    ((Registry.ofVisits (visitAll {} items)).meanings.get? q).getD [] =
      (declarations items).filterMap (meaningUnder q) := by
  rw [ofVisits_of_templateFree plain, Registry.meanings_ofNames]
  rfl

theorem registry_templateFree {items : List Item} (plain : TemplateFree items) :
    (Registry.ofVisits (visitAll {} items)).TemplateFree := by
  intro q m known
  rw [meanings_of_templateFree plain] at known
  obtain ⟨x, mem, gives⟩ := List.mem_filterMap.mp known
  obtain ⟨name, declares⟩ := meaningOf_of_meaningUnder gives
  cases m with
  | template kind params view =>
    obtain ⟨-, t, same, -⟩ := template_of_meaningOf declares
    exact absurd same ((plain x mem).1 t)
  | record _ | enum | typedef _ _ => rfl

/-- The typedefs that led to a site are in order, and with each of them one less type may be under way. -/
structure Site.UnderWay (r₀ : Registry) (bound n : Nat) (site : Site) : Prop where
  maxDepth : site.maxDepth = bound
  orderly : site.Orderly bound
  known : ∀ q ∈ site.resolving, r₀.Knows q
  room : r₀.depthBound ≤ n + site.resolving.length

section UnderWay

variable {r₀ : Registry} {bound n : Nat} {site : Site} {name : String}

theorem Site.UnderWay.view (h : site.UnderWay r₀ bound n) (view : View) :
    Site.UnderWay r₀ bound n { site with view } := ⟨h.maxDepth, h.orderly, h.known, h.room⟩

/-- There is room for what is known. -/
theorem Site.UnderWay.pos (h : site.UnderWay r₀ bound n) : 0 < n := by
  have fewer := Registry.length_lt_depthBound h.orderly.1 h.known
  have room := h.room
  omega

/-- A typedef that may be resolved is under way itself. -/
theorem Site.UnderWay.push (h : site.UnderWay r₀ bound (n + 1)) (known : r₀.Knows name)
    (may : site.mayResolve name = true) :
    Site.UnderWay r₀ bound n { site with resolving := site.resolving ++ [name] } := by
  obtain ⟨short, fresh⟩ : site.resolving.length < site.maxDepth ∧ name ∉ site.resolving := by
    simpa [Site.mayResolve] using may
  rw [h.maxDepth] at short
  refine ⟨h.maxDepth, ⟨?_, ?_⟩, ?_, ?_⟩
  · exact List.nodup_append_comm.mp (List.nodup_cons.mpr ⟨fresh, h.orderly.1⟩)
  · rw [List.length_append]
    exact short
  · exact List.forall_mem_append.mpr ⟨h.known, List.forall_mem_singleton.mpr known⟩
  · have room := h.room
    simp only [List.length_append, List.length_singleton]
    omega

end UnderWay

/-! ### Types -/

section Types

variable {N : String → Prop} {r₀ : Registry} {A : NameUse → Prop} {bound n : Nat} {jump jump' : Jump}

/-- Two jumps do the same from sites whose typedefs are in order. -/
def Jump.Agrees (N : String → Prop) (r₀ : Registry) (A : NameUse → Prop) (bound n : Nat)
    (jump jump' : Jump) : Prop :=
  ∀ site t, site.UnderWay r₀ bound n → LooksUpOnly A site.view t →
    Resolution.Agrees (Grown N r₀) _ (jump site t) (jump' site t)

section Jumps

variable (hj : Jump.Agrees N r₀ A bound n jump jump') {site : Site} (way : site.UnderWay r₀ bound (n + 1))
  {name : String} (known : r₀.Knows name) {target : TypeExpr} (names : LooksUpOnly A site.view target)

include hj way known names

theorem agrees_resolveTypedef :
    Agrees (Grown N r₀) _ (resolveTypedef jump site name target) (resolveTypedef jump' site name target) := by
  unfold resolveTypedef
  split
  · refine (hj _ target (way.push known ‹_›) names).bind fun t => Maintains.agrees ?_
    refine .get fun s hs => ?_
    dsimp only
    split
    · exact fun _ _ _ _ run => by cases run
    · intro s _ t hs run
      cases run
      exact hs
  · exact Maintains.agrees fun _ _ _ _ run => by cases run

theorem agrees_terminalOf :
    Agrees (Grown N r₀) _ (terminalOf jump site name target) (terminalOf jump' site name target) := by
  intro s hs
  obtain ⟨same, kept⟩ := agrees_resolveTypedef hj way known names s hs
  rw [terminalOf_run, terminalOf_run, ← same]
  cases s.terminals.get? name with
  | some t => exact ⟨rfl, fun a t run => by cases run; exact hs⟩
  | none =>
    rcases run : resolveTypedef jump site name target s with ⟨e | t, u⟩
    · exact ⟨rfl, nofun⟩
    · exact ⟨rfl, fun a t' done => by cases done; exact kept t u run⟩

end Jumps

/-- A name leads to typedefs only, which are pushed onto those that led to it. -/
theorem traversal_agrees (plain : r₀.TemplateFree) (h : Supplies N r₀ A)
    (hj : Jump.Agrees N r₀ A bound n jump jump') :
    Traversal (Agrees (Grown N r₀)) jump jump'
      (fun site site' => site' = site ∧ site.UnderWay r₀ bound (n + 1)) A where
  view sites := by rw [sites.1]
  moved sites view := ⟨by rw [sites.1], sites.2.view view⟩
  pure a := (Maintains.pure a).agrees
  bind := Agrees.bind
  path := by
    rintro site _ ⟨rfl, way⟩ kind p names -
    rw [resolvePath_eq, resolvePath_eq]
    refine Agrees.look h names fun found known => ?_
    cases found with
    | type t => exact (Maintains.pure t).agrees
    | meaning name m =>
      cases m with
      | record kind => exact (Maintains.pure _).agrees
      | enum => exact (Maintains.pure _).agrees
      | typedef target view =>
        have registered := known rfl
        refine (agrees_terminalOf hj (way.view view) (List.ne_nil_of_mem registered) ?_).bind fun _ =>
          (Maintains.pure _).agrees
        exact h.text name view target (.target registered)
      | template kind params view =>
        cases plain name _ (known rfl)

/-- Watching makes no difference as long as a jump begins in order. -/
theorem agrees_jumpWatched (plain : r₀.TemplateFree) (h : Supplies N r₀ A) (bound : Nat) (other : Jump)
    (n : Nat) : Jump.Agrees N r₀ A bound n (jumpWithin n) (jumpWatched bound other n) := by
  induction n with
  | zero => exact fun site t way _ => absurd way.pos (Nat.lt_irrefl 0)
  | succ n ih =>
    intro site t way names
    rw [jumpWithin, jumpWatched, if_pos way.orderly]
    exact (traversal_agrees plain h ih).resolveType ⟨rfl, way⟩ t names

end Types

/-! ### Units -/

section Units

variable {items : List Item} {other : Jump}

theorem knows_typedef (plain : TemplateFree items) {view : View} {t : TypedefDecl TypeExpr}
    (mem : (view, .typedef t) ∈ declarations items) :
    (Registry.ofVisits (visitAll {} items)).Knows (Name.qualify view.scope t.name) := by
  have here : .typedef t.ty view ∈
      (declarations items).filterMap (meaningUnder (Name.qualify view.scope t.name)) :=
    List.mem_filterMap.mpr ⟨_, mem, by simp [meaningUnder, Registry.meaningOf]⟩
  rw [← meanings_of_templateFree plain] at here
  exact List.ne_nil_of_mem here

theorem agrees_resolveDecl (plain : TemplateFree items) (maxDepth : Nat) (origin : Origin)
    {x : View × ParsedDecl} (mem : x ∈ declarations items) :
    Agrees (Grown (TypeName items) (Registry.ofVisits (visitAll {} items))) _
      (resolveDecl (jumpWithin (Registry.ofVisits (visitAll {} items)).depthBound)
        { maxDepth, origin, view := x.1 } x.2)
      (resolveDecl (jumpWatched maxDepth other (Registry.ofVisits (visitAll {} items)).depthBound)
        { maxDepth, origin, view := x.1 } x.2) := by
  obtain ⟨view, d⟩ := x
  have supplies := supplies_writtenIn items
  have jumps := agrees_jumpWatched (registry_templateFree plain) supplies maxDepth other
    (Registry.ofVisits (visitAll {} items)).depthBound
  have way : Site.UnderWay (Registry.ofVisits (visitAll {} items)) maxDepth
      ((Registry.ofVisits (visitAll {} items)).depthBound + 1) { maxDepth, origin, view } :=
    ⟨rfl, ⟨List.nodup_nil, Nat.zero_le _⟩, List.forall_mem_nil _, Nat.le_succ _⟩
  have names (y : View × TypeExpr) (part : y ∈ d.parts view) :
      LooksUpOnly (WrittenIn items) y.1 y.2 := looksUpOnly_writtenIn mem part
  by_cases typedef : ∃ t, d = .typedef t
  · obtain ⟨t, rfl⟩ := typedef
    have resolved := agrees_resolveTypedef jumps way (knows_typedef plain mem)
      (names (view, t.ty) List.mem_cons_self)
    exact resolved.bind fun _ => (Maintains.pure _).agrees
  · have sites : Site.mk maxDepth origin [] view = Site.mk maxDepth origin [] view := rfl
    refine (traversal_agrees (registry_templateFree plain) supplies jumps).resolveDecl ⟨sites, way⟩ d names
      (fun t _ same => absurd ⟨t, same⟩ typedef) fun s _ _ _ _ same => absurd same ((plain _ mem).2 s)

theorem agrees_resolveVisit (plain : TemplateFree items) (other : Jump) (maxDepth : Nat) {w : Visit}
    (hw : w ∈ visitAll {} items) :
    Agrees (Grown (TypeName items) (Registry.ofVisits (visitAll {} items))) Unit
      (resolveVisit (jumpWithin (Registry.ofVisits (visitAll {} items)).depthBound) maxDepth w)
      (resolveVisit (jumpWatched maxDepth other (Registry.ofVisits (visitAll {} items)).depthBound)
        maxDepth w) := by
  -- The model has no part in what is looked up.
  cases w with
  | scope path kind =>
    refine Maintains.agrees fun s _ t hs run => ?_
    cases run
    exact hs
  | decl d origin view =>
    refine (agrees_resolveDecl plain maxDepth origin (mem_declarations.mpr ⟨origin, hw⟩)).bind fun d' => ?_
    refine Maintains.agrees fun s _ t hs run => ?_
    cases run
    exact hs

/-- In a unit without templates the typedefs that are being resolved are distinct and within the bound, at
any time, and the number of types under way suffices. -/
theorem resolveBy_jumpWatched (plain : TemplateFree items) (other : Jump) (constants : List MacroConstant)
    (config : Config) :
    resolveBy (jumpWatched config.maxTypedefDepth other) items constants config =
      resolve items constants config := by
  have added : Agrees (Grown (TypeName items) (Registry.ofVisits (visitAll {} items))) Unit
      (Resolver.each addConstant constants) (Resolver.each addConstant constants) := by
    refine Maintains.agrees (Maintains.each fun c _ s _ t hs run => ?_)
    cases run
    exact hs
  have visited := Agrees.each fun w hw =>
    agrees_resolveVisit plain other config.maxTypedefDepth (w := w) hw
  have same := ((added.bind fun _ => visited) { registry := Registry.ofVisits (visitAll {} items) }
    (Registry.GrownBy.refl _ _)).1
  unfold resolveBy resolve
  dsimp only
  rw [← same]

end Units

end Resolution

end HeaderDecl
