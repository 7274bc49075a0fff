import HeaderDecl.Proofs.TypeNames
import HeaderDecl.Resolution.Unit

/-!
The names that the resolution of a type looks up, and relations between two resolutions of one type. A
relation that holds wherever a name is looked up, and that is kept when computations are put together,
holds of the whole.
-/

namespace HeaderDecl

/-! ### Parts as they are seen from a view -/

open Resolution

/-- The template arguments of a segment that are types. -/
def NameSegment.types {τ : Type} (s : NameSegment (TemplateArg τ)) : List τ :=
  (s.args.getD []).flatMap (·.types)

/-- The types in a function see its template parameters. -/
def FunctionDecl.parts (v : View) (f : FunctionDecl TypeExpr) : List (View × TypeExpr) :=
  f.types.map (v.withParams f.templateParams, ·)

def RecordDecl.parts (v : View) (r : ParsedRecord) : List (View × TypeExpr) :=
  r.fields.map (fun f => (v, f.ty)) ++ r.methods.flatMap (·.parts v)

namespace TypeExpr

/-- The names that a type itself is looked up by, with the kinds that keywords ask for. -/
def lookups : TypeExpr → List (Option NamedKind × PathExpr)
  | .path p => [(none, p)]
  | .elaborated kind p => [(some kind, p)]
  | .record r => r.bases.map fun b => (none, b.name)
  | _ => []

/-- The types that a type is resolved with, apart from template arguments. -/
def parts (v : View) : TypeExpr → List (View × TypeExpr)
  | .pointer t | .reference t | .rvalueReference t | .array t _ | .qualified _ t => [(v, t)]
  | .function sig => sig.types.map (v, ·)
  | .record r => r.parts v
  | .enum e => [(v, e.underlying)]
  | .primitive _ | .path _ | .elaborated _ _ | .dependent _ => []

end TypeExpr

/-- The types that a declaration is resolved with. A record stands for the type of its members and
bases, which are looked up from within it. -/
def Decl.parts (v : View) : ParsedDecl → List (View × TypeExpr)
  | .record r => [((memberView v (.record r)).getD v, .record r)]
  | .enum e => [(v, .enum e)]
  | .typedef t => [(v, t.ty)]
  | .function f => f.parts v
  | .var x => [(v, x.ty)]
  | .constant _ => []
  | .template t =>
    let outer := v.withParams t.params
    (t.params.flatMap (·.types)).map (outer, ·) ++
      [((memberView v (.template t)).getD outer, .record t.record)]
  | .specialization s =>
    let outer := v.withParams s.params
    (s.params.flatMap (·.types) ++ s.args.flatMap (·.types)).map (outer, ·) ++
      [((memberView v (.specialization s)).getD outer, .record s.record)]

namespace Resolution

/-- A name that is looked up, from where, and the kind that a keyword before it asks for. -/
structure NameUse where
  view : View
  kind : Option NamedKind
  path : PathExpr

/-- Whether a name is looked up for a type that is seen from a view, anywhere within it. -/
inductive LooksUp (u : NameUse) : View → TypeExpr → Prop
  | name {v : View} {t : TypeExpr} {kind : Option NamedKind} {p : PathExpr}
      (h : (kind, p) ∈ t.lookups) (same : u = ⟨v, kind, p⟩) : LooksUp u v t
  | arg {v : View} {t a : TypeExpr} {kind : Option NamedKind} {p : PathExpr}
      (h : (kind, p) ∈ t.lookups) (ha : a ∈ p.last.types) (within : LooksUp u v a) : LooksUp u v t
  | part {v v' : View} {t t' : TypeExpr} (h : (v', t') ∈ t.parts v) (within : LooksUp u v' t') :
      LooksUp u v t

/-- Whether all names that are looked up for a type have some property. -/
def LooksUpOnly (A : NameUse → Prop) (v : View) (t : TypeExpr) : Prop := ∀ u, LooksUp u v t → A u

section LooksUpOnly

variable {A : NameUse → Prop} {v : View} {t : TypeExpr}

theorem LooksUpOnly.part (h : LooksUpOnly A v t) {v' : View} {t' : TypeExpr}
    (part : (v', t') ∈ t.parts v) : LooksUpOnly A v' t' :=
  fun u hu => h u (.part part hu)

theorem LooksUpOnly.arg (h : LooksUpOnly A v t) {kind : Option NamedKind} {p : PathExpr}
    (name : (kind, p) ∈ t.lookups) : ∀ a ∈ p.last.types, LooksUpOnly A v a :=
  fun _ ha u hu => h u (.arg name ha hu)

theorem LooksUpOnly.name (h : LooksUpOnly A v t) {kind : Option NamedKind} {p : PathExpr}
    (name : (kind, p) ∈ t.lookups) : A ⟨v, kind, p⟩ :=
  h _ (.name name rfl)

/-- All names looked up for a type are those of the type itself, of its template arguments and of its
parts. -/
theorem looksUpOnly_iff : LooksUpOnly A v t ↔
    (∀ x ∈ t.lookups, A ⟨v, x.1, x.2⟩ ∧ ∀ a ∈ x.2.last.types, LooksUpOnly A v a) ∧
      ∀ x ∈ t.parts v, LooksUpOnly A x.1 x.2 := by
  constructor
  · exact fun h => ⟨fun x hx => ⟨h.name hx, h.arg hx⟩, fun x hx => h.part hx⟩
  · rintro ⟨names, parts⟩ u hu
    cases hu with
    | name hx same =>
      subst same
      exact (names _ hx).1
    | arg hx ha within => exact (names _ hx).2 _ ha u within
    | part hx within => exact parts _ hx u within

end LooksUpOnly

/-! ### Two resolutions of one type -/

/-- A relation between sites from which the same is seen, wherever they are moved. -/
structure Sites (V : Site → Site → Prop) : Prop where
  view {site site' : Site} (h : V site site') : site'.view = site.view
  moved {site site' : Site} (h : V site site') (view : View) :
    V { site with view } { site' with view }

/-- Sites with one view. -/
abbrev Site.Alike (site site' : Site) : Prop := site'.view = site.view

theorem sites_alike : Sites Site.Alike := ⟨id, fun _ _ => rfl⟩

theorem Sites.withParams {V : Site → Site → Prop} (h : Sites V) {site site' : Site}
    (sites : V site site') (params : List (TemplateParam TypeExpr)) :
    V (site.withParams params) (site'.withParams params) := by
  unfold Site.withParams
  rw [h.view sites]
  exact h.moved sites _

/-- A relation between computations that resolve alike, by one jump and by another, from sites that are
related. The names for which it is to hold have some property, and of its template arguments it may be
taken to hold already. -/
structure Traversal (J : ∀ α : Type, Resolver α → Resolver α → Prop) (jump jump' : Jump)
    (V : Site → Site → Prop) (A : NameUse → Prop) : Prop extends Sites V where
  pure {α : Type} (a : α) : J α (pure a) (pure a)
  bind {α β : Type} {x y : Resolver α} {f g : α → Resolver β} (first : J α x y)
    (next : ∀ a, J β (f a) (g a)) : J β (x >>= f) (y >>= g)
  path {site site' : Site} (sites : V site site') (kind : Option NamedKind) (p : PathExpr)
    (h : A ⟨site.view, kind, p⟩)
    (args : J _ (resolveArgs? jump site p.last.args) (resolveArgs? jump' site' p.last.args)) :
    J _ (resolvePath jump site kind p) (resolvePath jump' site' kind p)

namespace Traversal

variable {J : ∀ α : Type, Resolver α → Resolver α → Prop} {jump jump' : Jump}
  {V : Site → Site → Prop} {A : NameUse → Prop}

theorem done (h : Traversal J jump jump' V A) {α β : Type} {x y : Resolver α} (first : J α x y)
    (g : α → β) : J β (x >>= fun a => Pure.pure (g a)) (y >>= fun a => Pure.pure (g a)) :=
  h.bind first fun a => h.pure (g a)

-- The cases are those of the written types: each part looks up no other names than the whole.

mutual

theorem resolveType (h : Traversal J jump jump' V A) {site site' : Site}
    (sites : V site site') :
    (t : TypeExpr) → LooksUpOnly A site.view t →
      J _ (Resolution.resolveType jump site t) (Resolution.resolveType jump' site' t)
  | .primitive _, _ => h.pure _
  | .path p, ht => h.resolvePath sites none p (ht.name List.mem_cons_self) (ht.arg List.mem_cons_self)
  | .elaborated kind p, ht =>
    h.resolvePath sites (some kind) p (ht.name List.mem_cons_self) (ht.arg List.mem_cons_self)
  | .dependent _, _ => h.pure _
  | .pointer t, ht => h.done (h.resolveType sites t (ht.part List.mem_cons_self)) _
  | .reference t, ht => h.done (h.resolveType sites t (ht.part List.mem_cons_self)) _
  | .rvalueReference t, ht => h.done (h.resolveType sites t (ht.part List.mem_cons_self)) _
  | .array t _, ht => h.done (h.resolveType sites t (ht.part List.mem_cons_self)) _
  | .function sig, ht =>
    h.done (h.resolveSignature sites sig fun _ mem => ht.part (List.mem_map_of_mem mem)) _
  | .qualified _ t, ht => h.done (h.resolveType sites t (ht.part List.mem_cons_self)) _
  | .record r, ht => h.done (h.resolveRecord sites r ht) _
  | .enum e, ht => h.done (h.resolveEnum sites e (ht.part List.mem_cons_self)) _

theorem resolvePath (h : Traversal J jump jump' V A) {site site' : Site}
    (sites : V site site')
    (kind : Option NamedKind) : (p : PathExpr) → A ⟨site.view, kind, p⟩ →
      (∀ a ∈ p.last.types, LooksUpOnly A site.view a) →
      J _ (Resolution.resolvePath jump site kind p) (Resolution.resolvePath jump' site' kind p)
  | ⟨absolute, scope, ⟨last, args⟩⟩, hp, ha =>
    h.path sites kind ⟨absolute, scope, ⟨last, args⟩⟩ hp (h.resolveArgs? sites args ha)

theorem resolveArgs? (h : Traversal J jump jump' V A) {site site' : Site}
    (sites : V site site') :
    (args : Option (List ArgExpr)) →
      (∀ a ∈ (args.getD []).flatMap (·.types), LooksUpOnly A site.view a) →
      J _ (Resolution.resolveArgs? jump site args) (Resolution.resolveArgs? jump' site' args)
  | none, _ => h.pure _
  | some args, ha => h.done (h.resolveArgs sites args ha) _

theorem resolveArgs (h : Traversal J jump jump' V A) {site site' : Site}
    (sites : V site site') :
    (args : List ArgExpr) → (∀ a ∈ args.flatMap (·.types), LooksUpOnly A site.view a) →
      J _ (Resolution.resolveArgs jump site args) (Resolution.resolveArgs jump' site' args)
  | [], _ => h.pure _
  | a :: rest, ha =>
    h.bind (h.resolveArg sites a fun t ht => ha t (List.mem_append_left _ ht)) fun _ =>
      h.done (h.resolveArgs sites rest fun t ht => ha t (List.mem_append_right _ ht)) _

theorem resolveArg (h : Traversal J jump jump' V A) {site site' : Site}
    (sites : V site site') :
    (a : ArgExpr) → (∀ t ∈ a.types, LooksUpOnly A site.view t) →
      J _ (Resolution.resolveArg jump site a) (Resolution.resolveArg jump' site' a)
  | .type t, ha => h.done (h.resolveType sites t (ha t List.mem_cons_self)) _
  | .literal _, _ => h.pure _

theorem resolveSignature (h : Traversal J jump jump' V A) {site site' : Site}
    (sites : V site site') :
    (sig : Signature TypeExpr) → (∀ t ∈ sig.types, LooksUpOnly A site.view t) →
      J _ (Resolution.resolveSignature jump site sig) (Resolution.resolveSignature jump' site' sig)
  | ⟨returnTy, params, _⟩, hs =>
    h.bind (h.resolveParameters sites params fun t ht => hs t (List.mem_cons_of_mem _ ht)) fun _ =>
      h.done (h.resolveType sites returnTy (hs returnTy List.mem_cons_self)) _

theorem resolveParameters (h : Traversal J jump jump' V A) {site site' : Site}
    (sites : V site site') :
    (ps : List (Parameter TypeExpr)) → (∀ t ∈ ps.map (·.ty), LooksUpOnly A site.view t) →
      J _ (Resolution.resolveParameters jump site ps) (Resolution.resolveParameters jump' site' ps)
  | [], _ => h.pure _
  | ⟨_, ty, _⟩ :: rest, hp =>
    h.bind (h.resolveType sites ty (hp ty List.mem_cons_self)) fun _ =>
      h.done (h.resolveParameters sites rest fun t ht => hp t (List.mem_cons_of_mem _ ht)) _

theorem resolveTemplateParams (h : Traversal J jump jump' V A) {site site' : Site}
    (sites : V site site') :
    (ps : List (TemplateParam TypeExpr)) →
      (∀ t ∈ ps.flatMap (·.types), LooksUpOnly A site.view t) →
      J _ (Resolution.resolveTemplateParams jump site ps)
        (Resolution.resolveTemplateParams jump' site' ps)
  | [], _ => h.pure _
  | ⟨_, kind, _⟩ :: rest, hp =>
    h.bind (h.resolveParamKind sites kind fun t ht => hp t (List.mem_append_left _ ht)) fun _ =>
      h.done (h.resolveTemplateParams sites rest fun t ht => hp t (List.mem_append_right _ ht)) _

theorem resolveParamKind (h : Traversal J jump jump' V A) {site site' : Site}
    (sites : V site site') :
    (kind : TemplateParamKind TypeExpr) → (∀ t ∈ kind.types, LooksUpOnly A site.view t) →
      J _ (Resolution.resolveParamKind jump site kind) (Resolution.resolveParamKind jump' site' kind)
  | .type none, _ => h.pure _
  | .type (some t), hk => h.done (h.resolveType sites t (hk t List.mem_cons_self)) _
  | .nonType t _, hk => h.done (h.resolveType sites t (hk t List.mem_cons_self)) _
  | .template _, _ => h.pure _

theorem resolveFunction (h : Traversal J jump jump' V A) {site site' : Site}
    (sites : V site site') :
    (f : FunctionDecl TypeExpr) → (∀ x ∈ f.parts site.view, LooksUpOnly A x.1 x.2) →
      J _ (Resolution.resolveFunction jump site f) (Resolution.resolveFunction jump' site' f)
  | ⟨name, kind, signature, qualifiers, access, params, scope⟩, hf => by
    have inner : V (site.withParams params) (site'.withParams params) := h.withParams sites params
    have part {t : TypeExpr} (ht : t ∈ signature.types ++ params.flatMap (·.types)) :
        LooksUpOnly A (site.withParams params).view t :=
      hf (_, t) (List.mem_map_of_mem ht)
    unfold Resolution.resolveFunction
    rw [h.view sites]
    refine h.bind (h.resolveSignature inner signature fun t ht => ?_) fun sig => ?_
    · exact part (List.mem_append_left _ ht)
    · refine h.done (h.resolveTemplateParams inner params fun t ht => ?_) _
      exact part (List.mem_append_right _ ht)

theorem resolveMethods (h : Traversal J jump jump' V A) {site site' : Site}
    (sites : V site site') :
    (fs : List (FunctionDecl TypeExpr)) →
      (∀ x ∈ fs.flatMap (·.parts site.view), LooksUpOnly A x.1 x.2) →
      J _ (Resolution.resolveMethods jump site fs) (Resolution.resolveMethods jump' site' fs)
  | [], _ => h.pure _
  | f :: rest, hf =>
    h.bind (h.resolveFunction sites f fun x hx => hf x (List.mem_append_left _ hx)) fun _ =>
      h.done (h.resolveMethods sites rest fun x hx => hf x (List.mem_append_right _ hx)) _

theorem resolveFields (h : Traversal J jump jump' V A) {site site' : Site}
    (sites : V site site') :
    (fs : List (Field TypeExpr)) → (∀ t ∈ fs.map (·.ty), LooksUpOnly A site.view t) →
      J _ (Resolution.resolveFields jump site fs) (Resolution.resolveFields jump' site' fs)
  | [], _ => h.pure _
  | ⟨_, ty, _, _, _, _⟩ :: rest, hf =>
    h.bind (h.resolveType sites ty (hf ty List.mem_cons_self)) fun _ =>
      h.done (h.resolveFields sites rest fun t ht => hf t (List.mem_cons_of_mem _ ht)) _

theorem resolveBases (h : Traversal J jump jump' V A) {site site' : Site}
    (sites : V site site') :
    (bs : List (BaseSpec PathExpr)) → (∀ b ∈ bs, A ⟨site.view, none, b.name⟩) →
      (∀ b ∈ bs, ∀ a ∈ b.name.last.types, LooksUpOnly A site.view a) →
      J _ (Resolution.resolveBases jump site bs) (Resolution.resolveBases jump' site' bs)
  | [], _, _ => h.pure _
  | ⟨name, _, _⟩ :: rest, hb, ha =>
    h.bind (h.resolvePath sites none name (hb _ List.mem_cons_self) (ha _ List.mem_cons_self))
      fun _ => h.done (h.resolveBases sites rest (fun b mem => hb b (List.mem_cons_of_mem _ mem))
        fun b mem => ha b (List.mem_cons_of_mem _ mem)) _

theorem resolveRecord (h : Traversal J jump jump' V A) {site site' : Site}
    (sites : V site site') :
    (r : ParsedRecord) → LooksUpOnly A site.view (.record r) →
      J _ (Resolution.resolveRecord jump site r) (Resolution.resolveRecord jump' site' r)
  | ⟨name, kind, fields, methods, bases, complete, typedefName⟩, hr => by
    have base {b : BaseSpec PathExpr} (mem : b ∈ bases) : (none, b.name) ∈ (TypeExpr.record
        ⟨name, kind, fields, methods, bases, complete, typedefName⟩).lookups :=
      List.mem_map_of_mem (f := fun b : BaseSpec PathExpr => (none, b.name)) mem
    unfold Resolution.resolveRecord
    refine h.bind (h.resolveFields sites fields fun t ht => ?_) fun fs => ?_
    · obtain ⟨f, hf, rfl⟩ := List.mem_map.mp ht
      exact hr.part (List.mem_append_left _ (List.mem_map_of_mem hf))
    · refine h.bind (h.resolveMethods sites methods fun x hx => ?_) fun ms => ?_
      · exact hr.part (List.mem_append_right _ hx)
      · exact h.done (h.resolveBases sites bases (fun b mem => hr.name (base mem))
          fun b mem => hr.arg (base mem)) _

theorem resolveEnum (h : Traversal J jump jump' V A) {site site' : Site}
    (sites : V site site') :
    (e : EnumDecl TypeExpr) → LooksUpOnly A site.view e.underlying →
      J _ (Resolution.resolveEnum jump site e) (Resolution.resolveEnum jump' site' e)
  | ⟨_, _, underlying, _, _, _⟩, he => h.done (h.resolveType sites underlying he) _

end

/-- A declaration is resolved alike if its types are. A typedef and a specialization do more than that
with them. -/
theorem resolveDecl (h : Traversal J jump jump' V A) {site site' : Site}
    (sites : V site site') (d : ParsedDecl)
    (names : ∀ x ∈ d.parts site.view, LooksUpOnly A x.1 x.2)
    (typedef : ∀ t name, d = .typedef t →
      J _ (resolveTypedef jump site name t.ty) (resolveTypedef jump' site' name t.ty))
    (specialization : ∀ s inner inner', V inner inner' →
      inner.view = (memberView site.view d).getD (site.view.withParams s.params) →
      d = .specialization s →
      J _ (resolveSpecialization jump site s inner) (resolveSpecialization jump' site' s inner')) :
    J _ (Resolution.resolveDecl jump site d) (Resolution.resolveDecl jump' site' d) := by
  unfold Resolution.resolveDecl
  rw [h.view sites]
  cases d with
  | record r =>
    exact h.done (h.resolveRecord (h.moved sites _) r (names _ List.mem_cons_self)) _
  | enum e =>
    have underlying : LooksUpOnly A site.view e.underlying :=
      (names _ List.mem_cons_self).part List.mem_cons_self
    exact h.done (h.resolveEnum sites e underlying) _
  | typedef t => exact h.done (typedef t _ rfl) _
  | function f => exact h.done (h.resolveFunction sites f names) _
  | var x => exact h.done (h.resolveType sites x.ty (names _ List.mem_cons_self)) _
  | constant c => exact h.pure _
  | template t =>
    have outer : V (site.withParams t.params) (site'.withParams t.params) :=
      h.withParams sites t.params
    refine h.bind (h.resolveTemplateParams outer t.params fun ty hty => ?_) fun ps => ?_
    · exact names (_, ty) (List.mem_append_left _ (List.mem_map_of_mem hty))
    · have inner := h.moved sites
        ((memberView site.view (.template t)).getD (site.withParams t.params).view)
      unfold Site.withParams
      rw [h.view sites]
      exact h.done (h.resolveRecord inner t.record
        (names _ (List.mem_append_right _ List.mem_cons_self))) _
  | specialization s => exact h.done (specialization s _ _ (h.moved sites _) rfl rfl) _

end Traversal

end Resolution

end HeaderDecl
