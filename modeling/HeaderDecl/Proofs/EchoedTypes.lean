import HeaderDecl.Proofs.ClosedModel
import HeaderDecl.Proofs.ReplacedParameters

/-!
The resolution of a type that is echoed by that of another one, seen from elsewhere: it comes to the same
type with arguments in place of parameters.
-/

namespace HeaderDecl.Resolution

open Template

/-! ### Computations that are echoed -/

/-- A computation after some state whose result, changed in some way, is that of another computation in
every later state. No specialization that they lead to is under way. -/
def Echoes {α β : Type} (r : Registry) (R : String → Prop) (start : State) (g : α → β)
    (x : Resolver α) (y : Resolver β) : Prop :=
  ∀ s a t, Later start s → Recalling r s → s.LedTo r R → s.Clear R → x s = (.ok a, t) →
    Recalling r t ∧ Calm s t ∧ ∀ u, Later t u → y u = (.ok (g a), u)

section Rules

variable {r : Registry} {R : String → Prop} {start : State} {α β γ δ : Type} {g : α → β}
  {x : Resolver α} {y : Resolver β}

theorem Echoes.pure {a : α} {b : β} (same : g a = b) :
    Echoes r R start g (pure a) (pure b) := by
  intro s _ t _ hs _ _ run
  cases run
  exact ⟨hs, .refl s, fun u _ => by rw [same]; rfl⟩

theorem Echoes.bind (first : Echoes r R start g x y) {f : α → Resolver γ} {f' : β → Resolver δ}
    {g' : γ → δ} (next : ∀ a, Echoes r R start g' (f a) (f' (g a))) :
    Echoes r R start g' (x >>= f) (y >>= f') := by
  intro s c t after hs begun clear run
  obtain ⟨a, u, here, rest⟩ := bind_eq_ok run
  obtain ⟨hu, calm, again⟩ := first s a u after hs begun clear here
  obtain ⟨ht, calm', again'⟩ := next a u c t (after.trans calm.toLater) hu (begun.calm calm)
    (clear.calm calm) rest
  refine ⟨ht, calm.trans calm', fun v later => ?_⟩
  rw [bind_run, again v (calm'.toLater.trans later)]
  exact again' v later

theorem Echoes.done (first : Echoes r R start g x y) {f : α → γ} {f' : β → δ} {g' : γ → δ}
    (same : ∀ a, g' (f a) = f' (g a)) :
    Echoes r R start g' (x >>= fun a => Pure.pure (f a)) (y >>= fun b => Pure.pure (f' b)) :=
  first.bind fun a => .pure (same a)

theorem Replays.echoes {x y : Resolver α} {led : List String} (h : Replays r R led x y) :
    Echoes r R start id x y := by
  intro s a t _ hs begun clear run
  obtain ⟨ht, calm, -, again⟩ := h s a t hs begun run
  exact ⟨ht, calm, again clear⟩

end Rules

/-- Sites with some views, to which nothing led but what leads to some names. -/
structure Across (r : Registry) (R : String → Prop) (v v' : View) (site site' : Site) : Prop where
  view : site.view = v
  view' : site'.view = v'
  left : site.LedTo r R
  right : site'.LedTo r R

section Steps

variable {r : Registry} {R : String → Prop} {start : State} {v v' : View} {site site' : Site}
  {b : Option Bindings} {fuel fuel' : Nat} {jump jump' : Jump}

theorem Across.beside (h : Across r R v v' site site') :
    Beside r R [] site { site' with view := site.view } :=
  ⟨rfl, h.left, h.right, nofun⟩

/-! ### Names -/

/-- What a name is found to be at two sites leads on alike. -/
theorem echoes_look (h : Coherent r) (across : Across r R v v' site site') {kind : Option NamedKind}
    {p p' : PathExpr} (inside : Inside r R ⟨v, kind, p⟩) {f : Found}
    (found : r.found ⟨v, kind, p⟩ = some f) (found' : r.found ⟨v', kind, p'⟩ = some f) {α β : Type}
    {g : α → β} {x : Found → Resolver α} {y : Found → Resolver β}
    (next : Echoes r R start g (x f) (y f)) :
    Echoes r R start g (look site kind p >>= x) (look site' kind p' >>= y) := by
  intro s c t after hs begun clear run
  obtain ⟨f', u, looked, rest⟩ := bind_eq_ok run
  -- What leads on inside is found in every state as it is in the registry.
  have inside' := inside.seenFrom found found'
  rw [← across.view] at inside found
  rw [← across.view'] at inside' found'
  obtain ⟨here, rfl⟩ := look_eq_ok (inside.findsAlike h across.left hs.same) inside.1 looked
  rw [found] at here
  cases here
  obtain ⟨ht, calm, again⟩ := next u c t after hs begun clear rest
  refine ⟨ht, calm, fun v later => ?_⟩
  have alike : FindsAlike r v site' kind p' :=
    inside'.findsAlike h across.right (ht.same.trans later.same)
  rw [bind_run, look_of_found alike found']
  exact again v later

/-- The type that a template name with arguments stands for. -/
def instantiated (jump : Jump) (site : Site) (name : String)
    (params : List (TemplateParam TypeExpr)) (view : View) (args : List ArgExpr) : Resolver TypeRef := do
  let args ← resolveArgs jump site args
  return .instantiation (← instantiate jump site name params view args)

/-- The type that something found under a name stands for, with the template arguments behind it. -/
def resolveFound (jump : Jump) (site : Site) (args : Option (List ArgExpr)) : Found → Resolver TypeRef
  | .type t => return t
  | .meaning name (.record kind) => return .named name kind.toNamed
  | .meaning name .enum => return .named name .enum
  | .meaning name (.typedef target view) => do
    return .typedef name (← terminalOf jump { site with view } name target)
  | .meaning name (.template kind params view) =>
    match args with
    | some args => instantiated jump site name params view args
    | none => return .named name kind.toNamed

theorem resolvePath_eq (jump : Jump) (site : Site) (kind : Option NamedKind) (p : PathExpr) :
    resolvePath jump site kind p = look site kind p >>= resolveFound jump site p.last.args := by
  obtain ⟨absolute, scope, ⟨last, args⟩⟩ := p
  unfold resolvePath
  congr 1
  funext f
  match f, args with
  | .type _, _ | .meaning _ (.record _), _ | .meaning _ .enum, _ | .meaning _ (.typedef _ _), _ => rfl
  | .meaning _ (.template _ _ _), none => rfl
  | .meaning name (.template kind params view), some args =>
    funext s
    simp only [resolveArgs?, resolveFound, instantiated, bind_run]
    rcases resolveArgs jump site args s with ⟨e | as, t⟩ <;> rfl

theorem resolveType_named (jump : Jump) (site : Site) (kind : Option NamedKind) (p : PathExpr) :
    resolveType jump site (.named kind p) = resolvePath jump site kind p := by
  cases kind <;> rfl

/-- A name that is found alike from two views is resolved alike, but for template arguments. -/
theorem echoes_named (h : Coherent r) (across : Across r R v v' site site')
    {kind : Option NamedKind} {p p' : PathExpr} (inside : Inside r R ⟨v, kind, p⟩) {f : Found}
    (found : r.found ⟨v, kind, p⟩ = some f) (found' : r.found ⟨v', kind, p'⟩ = some f)
    (type : ∀ t, f = .type t → replace b t = t)
    (template : ∀ name kind params view, f = .meaning name (.template kind params view) →
      Echoes r R start (replace b) (resolveFound (jumpWithin fuel) site p.last.args f)
        (resolveFound (jumpWithin fuel') site' p'.last.args f)) :
    Echoes r R start (replace b) (resolveType (jumpWithin fuel) site (.named kind p))
      (resolveType (jumpWithin fuel') site' (.named kind p')) := by
  rw [resolveType_named, resolveType_named, resolvePath_eq, resolvePath_eq]
  refine echoes_look h across inside found found' ?_
  match f with
  | .type t => exact .pure (type t rfl)
  | .meaning _ (.record _) | .meaning _ .enum => exact .pure replace_named
  | .meaning name (.typedef target view) =>
    have known : Meant r R name (.typedef target view) := inside.meant found
    have beside : Beside r R [] { site with view } { site' with view } :=
      ⟨rfl, across.left, across.right, nofun⟩
    exact (replays_terminalOf h (replays_jumpWithin h (Nat.le_refl fuel)) beside known).echoes.done
      fun _ => replace_typedef
  | .meaning name (.template kind params view) => exact template _ _ _ _ rfl

/-- A parameter is echoed by the type that is written for it. -/
theorem echoes_param {args : List (String × ArgExpr)} {name : String} {t : TypeExpr}
    (across : Across r R v v' site site') (own : v.params.contains name = true)
    (bound : Bound (SettledAt jump' site' start) (some args) b)
    (written : args.lookup name = some (.type t)) :
    Echoes r R start (replace b) (resolveType jump site (.path (.simple name)))
      (resolveType jump' site' t) := by
  intro s a u after hs begun clear run
  have here : ownType? site.view (.simple name) = some (.param name) := by
    rw [across.view]
    simp [ownType?, NamePath.simple, NamePath.first, NamePath.isQualified] at own ⊢
    exact own
  have found : resolvePath jump site none (.simple name) s = (.ok (.param name), s) := by
    rw [resolvePath_eq, bind_run, look, here]
    rfl
  cases found.symm.trans run
  exact ⟨hs, .refl s, fun w later => bound.param written w (after.trans later)⟩

/-! ### Template arguments -/

theorem echoes_resolveArg {w : Writings} {S : TypeExpr → TypeRef → Prop} (bound : Bound S w b)
    {a a' : ArgExpr} (kinds : a'.isType = a.isType)
    (types : ∀ t t', a = .type t → a' = .type t' → Echoes r R start (replace b)
      (resolveType jump site t) (resolveType jump' site' t'))
    (texts : ∀ text text', a = .literal text → a' = .literal text' → w.Replaces text text') :
    Echoes r R start (replaceArg b) (resolveArg jump site a) (resolveArg jump' site' a') := by
  cases a with
  | type t =>
    cases a' with
    | type t' => exact (types t t' rfl rfl).done fun _ => replaceArg_type
    | literal text => cases kinds
  | literal text =>
    cases a' with
    | type t => cases kinds
    | literal text' => exact .pure (bound.replaces (texts text text' rfl rfl))

theorem echoes_resolveArgs {w : Writings} {S : TypeExpr → TypeRef → Prop} (bound : Bound S w b)
    {args args' : List ArgExpr} (kinds : args'.map (·.isType) = args.map (·.isType))
    (types : ∀ (i : Nat) t t', args[i]? = some (.type t) → args'[i]? = some (.type t') →
      Echoes r R start (replace b) (resolveType jump site t) (resolveType jump' site' t'))
    (texts : ∀ (i : Nat) text text', args[i]? = some (.literal text) →
      args'[i]? = some (.literal text') → w.Replaces text text') :
    Echoes r R start (replaceArgs b) (resolveArgs jump site args)
      (resolveArgs jump' site' args') := by
  induction args generalizing args' with
  | nil =>
    obtain rfl : args' = [] := List.map_eq_nil_iff.mp kinds
    exact .pure rfl
  | cons a rest ih =>
    obtain ⟨a', rest', rfl, first, others⟩ := List.map_eq_cons_iff.mp kinds
    refine (echoes_resolveArg bound first (fun t t' here there => types 0 t t' (by rw [here]; rfl)
      (by rw [there]; rfl)) fun x y here there => texts 0 x y (by rw [here]; rfl)
        (by rw [there]; rfl)).bind fun _ => ?_
    exact (ih others (fun i => types (i + 1)) fun i => texts (i + 1)).done fun _ => rfl

/-! ### Instantiations -/

theorem defaultArg_eq (jump : Jump) (site : Site) (p : TemplateParam TypeExpr) :
    defaultArg jump site p = match p.default? with
      | none => pure none
      | some (.type t) => do return some (.type (← jump site t))
      | some (.literal text) => pure (some (.literal text)) := by
  obtain ⟨name, kind, pack⟩ := p
  unfold defaultArg TemplateParam.default?
  cases pack with
  | true => rfl
  | false =>
    cases kind with
    | type default => cases default <;> rfl
    | nonType t default => cases default <;> rfl
    | template default => cases default <;> rfl

/-- An instantiation that leaves out a default is the one with one more argument, as long as there is a
default. -/
theorem instantiate_eq (jump : Jump) (site : Site) (name : String)
    (params : List (TemplateParam TypeExpr)) (view : View) (args : List ArgRef) :
    instantiate jump site name params view args =
      match params[args.length]?.bind (·.default?) with
      | none => do return ⟨name, args, ← select jump site name args⟩
      | some (.type t) => do
        let a ← jump { site with view := view.withParams params } t
        instantiate jump site name params view
          (args ++ [substituteArg (Template.bind params args) (.type a)])
      | some (.literal text) =>
        instantiate jump site name params view
          (args ++ [substituteArg (Template.bind params args) (.literal text)]) := by
  have longer (a : ArgRef) : params.drop (args ++ [a]).length = params.drop (args.length + 1) := by
    rw [List.length_append, List.length_singleton]
  unfold instantiate fillDefaults
  cases here : params[args.length]? with
  | none =>
    rw [List.drop_eq_nil_of_le (List.getElem?_eq_none_iff.mp here)]
    rfl
  | some p =>
    obtain ⟨short, rfl⟩ := List.getElem?_eq_some_iff.mp here
    rw [List.drop_eq_getElem_cons short, appendDefaults, defaultArg_eq, Option.bind_some]
    funext s
    rw [bind_run, bind_run]
    cases params[args.length].default? with
    | none => rfl
    | some a =>
      cases a with
      | literal text =>
        dsimp only
        rw [longer]
        rfl
      | type t =>
        dsimp only
        rw [bind_run, bind_run]
        rcases jump { site with view := view.withParams params } t s with ⟨e | a, u⟩
        · rfl
        · dsimp only
          rw [longer]
          rfl

theorem echoes_select (h : Coherent r) (across : Across r R v v' site site') {name : String}
    (hn : R name) (args : List ArgRef) : Echoes r R start id
      (select (jumpWithin fuel) site name args) (select (jumpWithin fuel') site' name args) :=
  (replays_select h (fun _ more => replays_jumpWithin h more) across.beside.own hn args).echoes

/-- A template without specializations selects none. -/
theorem select_of_unspecialized {s : State} (same : r.Same s.registry) {name : String}
    (unspecialized : r.patternsOf name = []) (jump : Jump) (site : Site) (args : List ArgRef) :
    select jump site name args s = (.ok none, s) := by
  have none : ((s.registry.patterns.get? name).getD []).length = 0 := by
    rw [← List.length_map Pattern.fresh]
    exact congrArg List.length ((same.patterns name).trans unspecialized)
  unfold select
  rw [bind_run]
  dsimp only [Resolver.get]
  rw [none]
  rfl

theorem echoes_instantiate (h : Coherent r) (closed : Closed r R) (enough : fuel ≤ fuel')
    (across : Across r R v v' site site') {name : String} {kind : RecordKind}
    {params : List (TemplateParam TypeExpr)} {view : View}
    (known : Meant r R name (.template kind params view)) (args : List ArgRef) :
    Echoes r R start id (instantiate (jumpWithin fuel) site name params view args)
      (instantiate (jumpWithin fuel') site' name params view args) := by
  have filled := (jumps_of_replays (replays_jumpWithin h enough) closed).fillDefaults across.beside
    params view args fun q hq t ht => h.inside_closed closed (known.2 rfl) (.default known.1 hq ht)
  exact filled.echoes.bind fun args => (echoes_select h across (known.2 rfl) args).done fun _ => rfl

theorem length_resolveArgs {args : List ArgExpr} {as : List ArgRef} {s t : State}
    (run : resolveArgs jump site args s = (.ok as, t)) : as.length = args.length := by
  induction args generalizing as s with
  | nil =>
    cases run
    rfl
  | cons a rest ih =>
    obtain ⟨a, u, -, run⟩ := bind_eq_ok run
    obtain ⟨as, v, others, done⟩ := bind_eq_ok run
    cases done
    rw [List.length_cons, List.length_cons, ih others]

/-- An instantiation that leaves out no default, and whose template has specializations only if its
arguments stay what they are, is changed in its arguments alone. -/
theorem echoes_full (h : Coherent r) (across : Across r R v v' site site') {name : String}
    (hn : R name) {params : List (TemplateParam TypeExpr)} {view : View} {args args' : List ArgExpr}
    (full : params[args.length]?.bind (·.default?) = none)
    (changed : Echoes r R start (replaceArgs b) (resolveArgs (jumpWithin fuel) site args)
      (resolveArgs (jumpWithin fuel') site' args'))
    (unchanged : r.patternsOf name ≠ [] → Echoes r R start id
      (resolveArgs (jumpWithin fuel) site args) (resolveArgs (jumpWithin fuel') site' args')) :
    Echoes r R start (replace b) (instantiated (jumpWithin fuel) site name params view args)
      (instantiated (jumpWithin fuel') site' name params view args') := by
  intro s a t after hs begun clear run
  obtain ⟨as, u, resolved, run⟩ := bind_eq_ok run
  obtain ⟨i, _, made, done⟩ := bind_eq_ok run
  cases done
  obtain ⟨hu, calm, again⟩ := changed s as u after hs begun clear resolved
  have many : as.length = args.length := length_resolveArgs resolved
  rw [instantiate_eq, many, full] at made
  obtain ⟨selected, _, chosen, done⟩ := bind_eq_ok made
  cases done
  -- The other arguments are as many, so that no default is left out of them either.
  have other {v : State} (later : Later u v) {selected : Option (List ArgRef)} {v' : State}
      (chosen : select (jumpWithin fuel') site' name (replaceArgs b as) v = (.ok selected, v')) :
      instantiated (jumpWithin fuel') site' name params view args' v =
        (.ok (.instantiation ⟨name, replaceArgs b as, selected⟩), v') := by
    have many' : (replaceArgs b as).length = args.length := by
      rw [replaceArgs, List.length_map, many]
    rw [instantiated, bind_run, again v later]
    dsimp only
    rw [bind_run, instantiate_eq, many', full]
    dsimp only
    rw [bind_run, chosen]
    rfl
  by_cases unspecialized : r.patternsOf name = []
  · rw [select_of_unspecialized hu.same unspecialized] at chosen
    cases chosen
    refine ⟨hu, calm, fun v later => ?_⟩
    rw [replace_instantiation]
    exact other later (select_of_unspecialized (hu.same.trans later.same) unspecialized _ _ _)
  · obtain ⟨-, -, again'⟩ := unchanged unspecialized s as u after hs begun clear resolved
    have stays : replaceArgs b as = as := by
      have both := (again u (.refl u)).symm.trans (again' u (.refl u))
      exact Except.ok.inj (congrArg Prod.fst both)
    obtain ⟨ht, calm', chosen'⟩ := echoes_select h across hn as u selected t (Later.refl u) hu
      (begun.calm calm) (clear.calm calm) chosen
    refine ⟨ht, calm.trans calm', fun v later => ?_⟩
    rw [replace_instantiation]
    refine other (calm'.toLater.trans later) ?_
    rw [stays]
    exact chosen' v later

/-- An instantiation is changed in its arguments alone, if nothing is replaced or it leaves out no
default, and if its template has no specializations or the arguments stay what they are. -/
theorem echoes_instantiated (h : Coherent r) (closed : Closed r R) (enough : fuel ≤ fuel')
    (across : Across r R v v' site site') {name : String} {kind : RecordKind}
    {params : List (TemplateParam TypeExpr)} {view : View}
    (known : Meant r R name (.template kind params view)) {args args' : List ArgExpr}
    (full : b = none ∨ params[args.length]?.bind (·.default?) = none)
    (changed : Echoes r R start (replaceArgs b) (resolveArgs (jumpWithin fuel) site args)
      (resolveArgs (jumpWithin fuel') site' args'))
    (unchanged : r.patternsOf name ≠ [] → Echoes r R start (replaceArgs none)
      (resolveArgs (jumpWithin fuel) site args) (resolveArgs (jumpWithin fuel') site' args')) :
    Echoes r R start (replace b) (instantiated (jumpWithin fuel) site name params view args)
      (instantiated (jumpWithin fuel') site' name params view args') := by
  have kept : (replaceArgs none : List ArgRef → List ArgRef) = id := funext fun _ => replaceArgs_none
  rw [kept] at unchanged
  rcases full with rfl | full
  · rw [kept] at changed
    -- What is left out is filled in alike.
    exact changed.bind fun as => (echoes_instantiate h closed enough across known as).done fun _ => rfl
  · exact echoes_full h across (known.2 rfl) full changed unchanged

/-! ### Defaults that are written out -/

theorem SettledAt.later {s t : State} {ty : TypeExpr} {a : TypeRef} (h : SettledAt jump site s ty a)
    (later : Later s t) : SettledAt jump site t ty a :=
  fun u after => h u (later.trans after)

theorem SettledArg.later {s t : State} {arg : ArgExpr} {a : ArgRef}
    (h : SettledArg jump site s arg a) (later : Later s t) : SettledArg jump site t arg a :=
  h.imp fun _ _ settled => settled.later later

theorem settled_later {s t : State} {args : List ArgExpr} {as : List ArgRef}
    (settled : List.Forall₂ (SettledArg jump site s) args as) (later : Later s t) :
    List.Forall₂ (SettledArg jump site t) args as :=
  settled.imp fun _ _ h => h.later later

/-- Arguments that are settled are resolved to what they are settled to. -/
theorem instantiated_of_settled {s u : State} {args : List ArgExpr} {as : List ArgRef}
    (settled : List.Forall₂ (SettledArg jump site s) args as) (later : Later s u)
    {name : String} {params : List (TemplateParam TypeExpr)} {view : View} {i : Instantiation TypeRef}
    (made : instantiate jump site name params view as u = (.ok i, u)) :
    instantiated jump site name params view args u = (.ok (.instantiation i), u) := by
  -- One argument after the other is resolved without a change of the state.
  have resolved : resolveArgs jump site args u = (.ok as, u) := by
    clear made
    induction settled with
    | nil => rfl
    | cons first rest ih =>
      cases first with
      | literal text =>
        rw [resolveArgs, resolveArg, bind_run]
        dsimp only [Pure.pure, Resolver.pure]
        rw [bind_run, ih]
        rfl
      | type first =>
        rw [resolveArgs, resolveArg, bind_run, bind_run, first u later]
        dsimp only [Pure.pure, Resolver.pure]
        rw [bind_run, ih]
        rfl
  rw [instantiated, bind_run, resolved]
  dsimp only
  rw [bind_run, made]
  rfl

/-- The arguments of an instantiation are settled once they are resolved. -/
theorem settled_resolveArgs (h : Coherent r) (closed : Closed r R) (enough : fuel ≤ fuel')
    (across : Across r R v v site site') {args : List ArgExpr}
    (within : ∀ t ∈ args.flatMap (·.types), LooksUpOnly (Inside r R) v t) {s t : State}
    {as : List ArgRef} (hs : Recalling r s) (begun : s.LedTo r R) (clear : s.Clear R)
    (run : resolveArgs (jumpWithin fuel) site args s = (.ok as, t)) :
    Recalling r t ∧ Calm s t ∧
      List.Forall₂ (SettledArg (jumpWithin fuel') site' t) args as := by
  have beside : Beside r R [] site site' :=
    ⟨across.view'.trans across.view.symm, across.left, across.right, nofun⟩
  induction args generalizing s as with
  | nil =>
    cases run
    exact ⟨hs, .refl _, .nil⟩
  | cons a rest ih =>
    obtain ⟨x, u, here, run⟩ := bind_eq_ok run
    obtain ⟨xs, t', others, done⟩ := bind_eq_ok run
    cases done
    obtain ⟨hu, calm, alike⟩ : Recalling r u ∧ Calm s u ∧
        SettledArg (jumpWithin fuel') site' u a x := by
      cases a with
      | literal text =>
        cases here
        exact ⟨hs, .refl s, .literal text⟩
      | type ty =>
        obtain ⟨c, _, resolved, done⟩ := bind_eq_ok here
        cases done
        have names : LooksUpOnly (Inside r R) site.view ty := by
          rw [across.view]
          exact within ty (List.mem_append_left _ List.mem_cons_self)
        obtain ⟨hu, calm, -, again⟩ :=
          (traversal_replays h enough closed).resolveType beside ty names s c u hs begun resolved
        exact ⟨hu, calm, .type (again clear)⟩
    obtain ⟨ht, calm', settled⟩ := ih (fun t ht => within t (List.mem_append_right _ ht)) hu
      (begun.calm calm) (clear.calm calm) others
    exact ⟨ht, calm.trans calm', .cons (alike.later calm'.toLater) settled⟩

/-- An instantiation that leaves out a default is the same with the default written behind its arguments:
the arguments stand in it where parameters stood. -/
theorem echoes_defaultType (h : Coherent r) (closed : Closed r R) (enough : fuel ≤ fuel')
    (across : Across r R v v site site') {name : String} {kind : RecordKind}
    {params : List (TemplateParam TypeExpr)} {view : View}
    (known : Meant r R name (.template kind params view)) {args : List ArgExpr}
    (within : ∀ t ∈ args.flatMap (·.types), LooksUpOnly (Inside r R) v t) {d d' : TypeExpr}
    (default : params[args.length]?.bind (·.default?) = some (.type d))
    (written : ∀ n ≤ fuel', ∀ (start : State) (as : List ArgRef),
      List.Forall₂ (SettledArg (jumpWithin fuel') site' start) args as →
        Echoes r R start (replace (some (Template.bind params as)))
          (resolveType (jumpWithin n) { site with view := view.withParams params } d)
          (resolveType (jumpWithin fuel') site' d')) :
    Echoes r R start id (instantiated (jumpWithin fuel) site name params view args)
      (instantiated (jumpWithin fuel') site' name params view (args ++ [.type d'])) := by
  intro s a t after hs begun clear run
  obtain ⟨as, u, resolved, run⟩ := bind_eq_ok run
  obtain ⟨i, _, made, done⟩ := bind_eq_ok run
  cases done
  obtain ⟨hu, calm, settled⟩ :=
    settled_resolveArgs h closed enough across within hs begun clear resolved
  rw [instantiate_eq, length_resolveArgs resolved, default] at made
  obtain ⟨c, u', jumped, made⟩ := bind_eq_ok made
  cases fuel with
  | zero => cases jumped
  | succ n =>
    -- The default is resolved where the template stands, and what is written for it at the site.
    obtain ⟨hu', calm', again⟩ := written n (Nat.le_of_succ_le enough) u as settled u c u' (.refl u) hu
      (begun.calm calm) (clear.calm calm) jumped
    have far := calm.trans calm'
    obtain ⟨ht, calm'', again'⟩ := echoes_instantiate h closed enough across known _ u' i t
      (Later.refl u') hu' (begun.calm far) (clear.calm far) made
    refine ⟨ht, far.trans calm'', fun w later => ?_⟩
    -- The arguments stay settled, and now the default is settled behind them.
    have longer := List.rel_append (settled_later settled calm'.toLater) (.cons (.type again) .nil)
    exact instantiated_of_settled longer (calm''.toLater.trans later) (again' w later)

theorem echoes_defaultText (h : Coherent r) (closed : Closed r R) (enough : fuel ≤ fuel')
    (across : Across r R v v site site') {name : String} {kind : RecordKind}
    {params : List (TemplateParam TypeExpr)} {view : View}
    (known : Meant r R name (.template kind params view)) {args : List ArgExpr}
    (within : ∀ t ∈ args.flatMap (·.types), LooksUpOnly (Inside r R) v t) {text text' : String}
    (default : params[args.length]?.bind (·.default?) = some (.literal text))
    (written : Writings.Replaces (some (writings params args)) text text') :
    Echoes r R start id (instantiated (jumpWithin fuel) site name params view args)
      (instantiated (jumpWithin fuel') site' name params view (args ++ [.literal text'])) := by
  intro s a t after hs begun clear run
  obtain ⟨as, u, resolved, run⟩ := bind_eq_ok run
  obtain ⟨i, _, made, done⟩ := bind_eq_ok run
  cases done
  obtain ⟨hu, calm, settled⟩ :=
    settled_resolveArgs h closed enough across within hs begun clear resolved
  have same : substituteArg (Template.bind params as) (.literal text) = .literal text' :=
    (bound_bind params settled).replaces written
  rw [instantiate_eq, length_resolveArgs resolved, default] at made
  dsimp only at made
  rw [same] at made
  obtain ⟨ht, calm', again⟩ := echoes_instantiate h closed enough across known _ u i t
    (Later.refl u) hu (begun.calm calm) (clear.calm calm) made
  refine ⟨ht, calm.trans calm', fun w later => ?_⟩
  have longer := List.rel_append settled (.cons (.literal text') .nil)
  exact instantiated_of_settled longer (calm'.toLater.trans later) (again w later)

/-! ### Functions -/

theorem echoes_resolveSignature {sig : Signature TypeExpr}
    (same : ∀ t ∈ sig.types, Echoes r R start id (resolveType jump site t)
      (resolveType jump' site' t)) :
    Echoes r R start id (resolveSignature jump site sig) (resolveSignature jump' site' sig) := by
  obtain ⟨returnTy, params, variadic⟩ := sig
  have parameters (ps : List (Parameter TypeExpr))
      (same : ∀ t ∈ ps.map (·.ty), Echoes r R start id (resolveType jump site t)
        (resolveType jump' site' t)) :
      Echoes r R start id (resolveParameters jump site ps) (resolveParameters jump' site' ps) := by
    induction ps with
    | nil => exact .pure rfl
    | cons p rest ih =>
      refine (same p.ty List.mem_cons_self).bind fun _ => ?_
      exact (ih fun t ht => same t (List.mem_cons_of_mem _ ht)).done fun _ => rfl
  refine (parameters params fun t ht => same t (List.mem_cons_of_mem _ ht)).bind fun _ => ?_
  exact (same returnTy List.mem_cons_self).done fun _ => rfl

theorem pointerTo_eq {t : TypeRef} (other : ¬ ∃ sig, t = .function sig) : pointerTo t = .pointer t := by
  cases t with
  | function sig => exact absurd ⟨sig, rfl⟩ other
  | _ => rfl

/-- What a name stands for is no function, as only a typedef could name one. -/
theorem resolvePath_ne_function (kind : Option NamedKind) (p : PathExpr) :
    Returns (resolvePath jump site kind p) (fun a => ∀ sig, a ≠ .function sig) := by
  have implicit (kind : NamedKind) (name : String) :
      Returns (declareImplicitly site kind name) (fun a => ∀ sig, a ≠ .function sig) := by
    unfold declareImplicitly
    refine .after fun s => ?_
    dsimp only
    exact .after fun id => .after fun _ => .after fun _ => .pure nofun
  have looked : Returns (look site kind p) (fun f => ∀ t, f = .type t → ∀ sig, t ≠ .function sig) := by
    unfold look
    split
    · rename_i own
      refine .pure fun t same sig function => ?_
      cases same
      subst function
      unfold ownType? at own
      split at own
      · split at own <;> cases own
      · split at own <;> cases own
    · refine .after fun s => ?_
      dsimp only
      split
      · exact .pure nofun
      · split
        · exact .pure fun t same => by cases same; nofun
        · split
          · exact (implicit _ _).bind fun a other => .pure fun t same => by cases same; exact other
          · intro s a t run
            cases run
  rw [resolvePath_eq]
  refine looked.bind fun f other => ?_
  match f with
  | .type t => exact .pure (other t rfl)
  | .meaning _ (.record _) | .meaning _ .enum => exact .pure nofun
  | .meaning _ (.typedef _ _) => exact .after fun _ => .pure nofun
  | .meaning _ (.template _ _ _) =>
    cases p.last.args with
    | none => exact .pure nofun
    | some args => exact .after fun _ => .after fun _ => .pure nofun

/-- Whether a type is resolved to that of functions can be seen from how it is written. -/
theorem isFunction_iff {s t : State} {a : TypeRef} : (e : TypeExpr) →
    resolveType jump site e s = (.ok a, t) → (e.isFunction = true ↔ ∃ sig, a = .function sig)
  | .primitive _, run | .dependent _, run => by
    cases run
    simp [TypeExpr.isFunction]
  | .path p, run => by
    have other := resolvePath_ne_function none p _ _ _ run
    simpa [TypeExpr.isFunction] using other
  | .elaborated kind p, run => by
    have other := resolvePath_ne_function (some kind) p _ _ _ run
    simpa [TypeExpr.isFunction] using other
  | .pointer _, run => by
    obtain ⟨a, u, -, done⟩ := bind_eq_ok run
    cases done
    cases a <;> simp [TypeExpr.isFunction, pointerTo]
  | .reference _, run | .rvalueReference _, run | .array _ _, run | .record _, run | .enum _, run => by
    obtain ⟨a, u, -, done⟩ := bind_eq_ok run
    cases done
    simp [TypeExpr.isFunction]
  | .function _, run => by
    obtain ⟨a, u, -, done⟩ := bind_eq_ok run
    cases done
    simp [TypeExpr.isFunction]
  | .qualified q e, run => by
    obtain ⟨a, u, inner, done⟩ := bind_eq_ok run
    cases done
    have within := isFunction_iff e inner
    by_cases none : q.isEmpty
    · simpa [TypeExpr.isFunction, TypeRef.withQualifiers, none] using within
    · cases a <;> simp [TypeExpr.isFunction, TypeRef.withQualifiers, none]

/-- A pointer is echoed by a pointer, unless only the other one is to a function. -/
theorem echoes_pointer {t t' : TypeExpr} (inner : Echoes r R start (replace b)
      (resolveType jump site t) (resolveType jump' site' t'))
    (function : t'.isFunction = true → t.isFunction = true) :
    Echoes r R start (replace b) (resolveType jump site (.pointer t))
      (resolveType jump' site' (.pointer t')) := by
  intro s a u after hs begun clear run
  obtain ⟨c, _, resolved, done⟩ := bind_eq_ok run
  cases done
  obtain ⟨hu, calm, again⟩ := inner s c u after hs begun clear resolved
  have same : pointerTo (replace b c) = replace b (pointerTo c) := by
    by_cases pointee : ∃ sig, c = .function sig
    · obtain ⟨sig, rfl⟩ := pointee
      simp [pointerTo]
    · have other : ¬ ∃ sig, replace b c = .function sig := fun same => pointee
        ((isFunction_iff t resolved).mp (function ((isFunction_iff t' (again u (.refl u))).mpr same)))
      rw [pointerTo_eq pointee, pointerTo_eq other, replace_pointer]
  refine ⟨hu, calm, fun v later => ?_⟩
  rw [resolveType, bind_run, again v later, ← same]
  rfl

end Steps

end HeaderDecl.Resolution
