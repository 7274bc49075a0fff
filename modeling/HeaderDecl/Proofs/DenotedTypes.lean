import HeaderDecl.Proofs.EchoedTypes
import HeaderDecl.Proofs.UnaliasedTypes

/-!
What written types stand for, apart from the specializations that are selected in them. Whatever a type
is resolved to, in any state of a resolution, is what it stands for.
-/

namespace HeaderDecl

/-- The name that a type is, with the kind that a keyword before it asks for. -/
def TypeExpr.name? : TypeExpr → Option (Option NamedKind × PathExpr)
  | .path p => some (none, p)
  | .elaborated kind p => some (some kind, p)
  | _ => none

namespace Resolution

open Relation Template

/-! ### What types stand for -/

/-- What something found under a name stands for with the template arguments behind it, if it leads to
nothing else. -/
def Found.itself? (args : Option (List ArgExpr)) : Found → Option TypeRef
  | .type t => some t
  | .meaning name (.record kind) => some (.named name kind.toNamed)
  | .meaning name .enum => some (.named name .enum)
  | .meaning name (.template kind _ _) => if args.isNone then some (.named name kind.toNamed) else none
  | .meaning _ (.typedef _ _) => none

/-- Whether a type comes to one thing wherever it is resolved until some state. -/
def Registry.Fixes (r : Registry) (fin : State) (v : View) (t : TypeExpr) (a : TypeRef) : Prop :=
  ∀ R fuel site s b s', Closed r R → LooksUpOnly (Inside r R) v t → site.view = v → site.LedTo r R →
    Recalling r s → s.LedTo r R → resolveType (jumpWithin fuel) site t s = (.ok b, s') →
      Later s' fin → b = a

mutual

/-- What a type stands for that is seen from a view, with typedef names but without the choice of
specializations. Functions, and types that are defined in place, stand for what they come to whenever they
are resolved until some state. -/
inductive StandsFor (r : Registry) (fin : State) : View → TypeExpr → TypeRef → Prop
  | primitive {v : View} (p : Primitive) : StandsFor r fin v (.primitive p) (.primitive p)
  | dependent {v : View} {p : PathExpr} :
      StandsFor r fin v (.dependent p) (.dependent (TypeExpr.renderPath p))
  | name {v : View} {t : TypeExpr} {kind : Option NamedKind} {p : PathExpr} {f : Found} {d : TypeRef}
      (written : t.name? = some (kind, p)) (found : r.found ⟨v, kind, p⟩ = some f)
      (itself : f.itself? p.last.args = some d) : StandsFor r fin v t d
  | typedef {v view : View} {t target : TypeExpr} {kind : Option NamedKind} {p : PathExpr}
      {name : String} {d : TypeRef} (written : t.name? = some (kind, p))
      (found : r.found ⟨v, kind, p⟩ = some (.meaning name (.typedef target view)))
      (h : StandsFor r fin view target d) : StandsFor r fin v t (.typedef name (chainEnd d))
  | instantiation {v view : View} {t : TypeExpr} {kind : Option NamedKind} {p : PathExpr}
      {name : String} {record : RecordKind} {params : List (TemplateParam TypeExpr)}
      {args : List ArgExpr} {ds es : List ArgRef} (written : t.name? = some (kind, p))
      (found : r.found ⟨v, kind, p⟩ = some (.meaning name (.template record params view)))
      (given : p.last.args = some args) (arguments : ArgsStandFor r fin v args ds)
      (filled : Fills r fin params (view.withParams params) (params.drop ds.length) ds es) :
      StandsFor r fin v t (.instantiation ⟨name, es, none⟩)
  | pointer {v : View} {t : TypeExpr} {d : TypeRef} (h : StandsFor r fin v t d) :
      StandsFor r fin v (.pointer t) (pointerTo d)
  | reference {v : View} {t : TypeExpr} {d : TypeRef} (h : StandsFor r fin v t d) :
      StandsFor r fin v (.reference t) (.reference d)
  | rvalueReference {v : View} {t : TypeExpr} {d : TypeRef} (h : StandsFor r fin v t d) :
      StandsFor r fin v (.rvalueReference t) (.rvalueReference d)
  | array {v : View} {t : TypeExpr} {size : Option Value} {d : TypeRef} (h : StandsFor r fin v t d) :
      StandsFor r fin v (.array t size) (.array d size)
  | qualified {v : View} {q : Qualifiers} {t : TypeExpr} {d : TypeRef} (h : StandsFor r fin v t d) :
      StandsFor r fin v (.qualified q t) (.withQualifiers q d)
  | function {v : View} {sig : Signature TypeExpr} {sig' : Signature TypeRef}
      (fixed : r.Fixes fin v (.function sig) (.function sig')) :
      StandsFor r fin v (.function sig) (.function sig')
  | record {v : View} {x : ParsedRecord} {x' : ResolvedRecord}
      (fixed : r.Fixes fin v (.record x) (.anonymousRecord x')) :
      StandsFor r fin v (.record x) (.anonymousRecord x')
  | enum {v : View} {x : EnumDecl TypeExpr} {x' : EnumDecl TypeRef}
      (fixed : r.Fixes fin v (.enum x) (.anonymousEnum x')) : StandsFor r fin v (.enum x) (.anonymousEnum x')

/-- What template arguments stand for. -/
inductive ArgsStandFor (r : Registry) (fin : State) : View → List ArgExpr → List ArgRef → Prop
  | nil {v : View} : ArgsStandFor r fin v [] []
  | literal {v : View} {text : String} {rest : List ArgExpr} {ds : List ArgRef}
      (others : ArgsStandFor r fin v rest ds) :
      ArgsStandFor r fin v (.literal text :: rest) (.literal text :: ds)
  | type {v : View} {t : TypeExpr} {d : TypeRef} {rest : List ArgExpr} {ds : List ArgRef}
      (first : StandsFor r fin v t d) (others : ArgsStandFor r fin v rest ds) :
      ArgsStandFor r fin v (.type t :: rest) (.type d :: ds)

/-- The arguments of a template with defaults behind them for some of its parameters, up to the first
that has none. -/
inductive Fills (r : Registry) (fin : State) : List (TemplateParam TypeExpr) → View →
    List (TemplateParam TypeExpr) → List ArgRef → List ArgRef → Prop
  | done {params : List (TemplateParam TypeExpr)} {v : View} {ds : List ArgRef} :
      Fills r fin params v [] ds ds
  | stop {params rest : List (TemplateParam TypeExpr)} {v : View} {p : TemplateParam TypeExpr}
      {ds : List ArgRef} (none : p.default? = none) : Fills r fin params v (p :: rest) ds ds
  | literal {params rest : List (TemplateParam TypeExpr)} {v : View} {p : TemplateParam TypeExpr}
      {text : String} {ds es : List ArgRef} (default : p.default? = some (.literal text))
      (next : Fills r fin params v rest (ds ++ [substituteArg (bind params ds) (.literal text)]) es) :
      Fills r fin params v (p :: rest) ds es
  | type {params rest : List (TemplateParam TypeExpr)} {v : View} {p : TemplateParam TypeExpr}
      {t : TypeExpr} {d : TypeRef} {ds es : List ArgRef} (default : p.default? = some (.type t))
      (h : StandsFor r fin v t d)
      (next : Fills r fin params v rest (ds ++ [substituteArg (bind params ds) (.type d)]) es) :
      Fills r fin params v (p :: rest) ds es

end

/-- What the arguments of a specialization stand for, with the defaults of the template. -/
def Pattern.StandsFor (r : Registry) (fin : State) (template : String) (p : Pattern)
    (es : List ArgRef) : Prop :=
  ∃ kind params view ds, r.find? [] none template = some (.template kind params view) ∧
    ArgsStandFor r fin p.view p.args ds ∧
      Fills r fin params (view.withParams params) (params.drop ds.length) ds es

/-! ### States in which everything is kept as what it stands for -/

/-- A state in which the ends of chains and the arguments of specializations are kept as what they stand
for until any later state. -/
structure Truthful (r : Registry) (s : State) : Prop extends Recalling r s where
  terminals : ∀ fin, Later s fin → ∀ name target view a d,
    r.find? [] none name = some (.typedef target view) → s.terminals.get? name = some a →
      StandsFor r fin view target d → unselected a = chainEnd d
  patterns : ∀ fin, Later s fin → ∀ template i p w f es, (r.patternsOf template)[i]? = some p →
    s.registry.progress? template i = some (.resolved w f) → p.StandsFor r fin template es →
      unselectedArgs f = es

/-- A computation in such states, whose results have some property that may depend on a later state. All
that is under way leads to some names. -/
def Yields {α : Type} (r : Registry) (R : String → Prop) (x : Resolver α) (P : State → α → Prop) :
    Prop :=
  ∀ s a t, Truthful r s → s.LedTo r R → x s = (.ok a, t) →
    Truthful r t ∧ Calm s t ∧ ∀ fin, Later t fin → P fin a

/-- A jump that resolves types to what they stand for. -/
def Jump.Tells (r : Registry) (jump : Jump) : Prop :=
  ∀ R site t, Closed r R → site.LedTo r R → LooksUpOnly (Inside r R) site.view t →
    Yields r R (jump site t) fun fin a => ∀ d, StandsFor r fin site.view t d → unselected a = d

section Rules

variable {r : Registry} {R : String → Prop} {α β : Type} {x : Resolver α} {P P' : State → α → Prop}
  {Q : State → β → Prop}

theorem Yields.pure {a : α} (ha : ∀ fin, P fin a) : Yields r R (pure a) P := by
  intro s _ t hs _ run
  cases run
  exact ⟨hs, .refl s, fun fin _ => ha fin⟩

/-- What is known of the first result holds until any later state, so it does for the second one. -/
theorem Yields.bind {f : α → Resolver β} (first : Yields r R x P)
    (next : ∀ a, (∃ fin, P fin a) → Yields r R (f a) fun fin b => P fin a → Q fin b) :
    Yields r R (x >>= f) Q := by
  intro s b t hs begun run
  obtain ⟨a, u, here, rest⟩ := bind_eq_ok run
  obtain ⟨hu, calm, ha⟩ := first s a u hs begun here
  obtain ⟨ht, calm', hb⟩ := next a ⟨u, ha u (.refl u)⟩ u b t hu (begun.calm calm) rest
  exact ⟨ht, calm.trans calm', fun fin later => hb fin later (ha fin (calm'.toLater.trans later))⟩

theorem Yields.done (first : Yields r R x P) {f : α → β} (next : ∀ fin a, P fin a → Q fin (f a)) :
    Yields r R (x >>= fun a => Pure.pure (f a)) Q :=
  first.bind fun a _ => .pure fun fin => next fin a

theorem Yields.andThen {f : α → Resolver β} (first : Yields r R x P)
    (next : ∀ a, Yields r R (f a) Q) : Yields r R (x >>= f) Q := by
  intro s b t hs begun run
  obtain ⟨a, u, here, rest⟩ := bind_eq_ok run
  obtain ⟨hu, calm, -⟩ := first s a u hs begun here
  obtain ⟨ht, calm', hb⟩ := next a u b t hu (begun.calm calm) rest
  exact ⟨ht, calm.trans calm', hb⟩

theorem Yields.weaken (h : Yields r R x P) (weaker : ∀ fin a, P fin a → P' fin a) :
    Yields r R x P' := by
  intro s a t hs begun run
  obtain ⟨ht, calm, ha⟩ := h s a t hs begun run
  exact ⟨ht, calm, fun fin later => weaker fin a (ha fin later)⟩

end Rules

/-! ### Parts of types -/

theorem unselected_pointerTo (t : TypeRef) : unselected (pointerTo t) = pointerTo (unselected t) := by
  cases t <;> rfl

theorem unselected_chainEnd (t : TypeRef) : unselected (chainEnd t) = chainEnd (unselected t) := by
  cases t <;> rfl

/-- A default is filled in alike with or without choices. -/
theorem unselectedArgs_append_default (params : List (TemplateParam TypeExpr)) (args : List ArgRef)
    (a : ArgRef) : unselectedArgs (args ++ [substituteArg (bind params args) a]) =
      unselectedArgs args ++
        [substituteArg (bind params (unselectedArgs args)) (unselectedArg a)] := by
  simp only [unselectedArgs_eq, List.map_append, List.map_cons, List.map_nil,
    unselectedArg_substituteArg, bind_map]

section Steps

variable {r : Registry} {R : String → Prop} {site : Site} {jump : Jump}

theorem mem_types_of_default? {p : TemplateParam TypeExpr} {t : TypeExpr}
    (default : p.default? = some (.type t)) : t ∈ p.types := by
  obtain ⟨_, kind, pack⟩ := p
  unfold TemplateParam.default? at default
  split at default
  · cases default
  · split at default <;> simp_all [TemplateParam.types, TemplateParamKind.types]

/-- Defaults are appended to arguments as they stand for something. -/
theorem yields_appendDefaults (tells : jump.Tells r) (closed : Closed r R) (led : site.LedTo r R)
    (params rest : List (TemplateParam TypeExpr)) (args : List ArgRef)
    (names : ∀ p ∈ rest, ∀ t ∈ p.types, LooksUpOnly (Inside r R) site.view t) :
    Yields r R (appendDefaults jump site params rest args) fun fin as =>
      ∀ es, Fills r fin params site.view rest (unselectedArgs args) es → unselectedArgs as = es := by
  induction rest generalizing args with
  | nil =>
    refine .pure fun fin es fills => ?_
    cases fills
    rfl
  | cons p rest ih =>
    have names' : ∀ q ∈ rest, ∀ t ∈ q.types, LooksUpOnly (Inside r R) site.view t :=
      fun q hq => names q (List.mem_cons_of_mem _ hq)
    rw [appendDefaults, defaultArg_eq]
    cases default : p.default? with
    | none =>
      refine Yields.bind (P := fun _ o => o = none) (.pure fun _ => rfl) fun o known => ?_
      obtain ⟨_, rfl⟩ := known
      refine .pure fun fin _ es fills => ?_
      cases fills with
      | stop => rfl
      | literal default' => cases default.symm.trans default'
      | type default' => cases default.symm.trans default'
    | some a =>
      cases a with
      | literal text =>
        refine Yields.bind (P := fun _ o => o = some (.literal text)) (.pure fun _ => rfl)
          fun o known => ?_
        obtain ⟨_, rfl⟩ := known
        refine (ih _ names').weaken fun fin as told _ es fills => told es ?_
        rw [unselectedArgs_append_default]
        cases fills with
        | stop default' => cases default.symm.trans default'
        | literal default' next =>
          cases default.symm.trans default'
          exact next
        | type default' => cases default.symm.trans default'
      | type t =>
        have own := names p List.mem_cons_self t (mem_types_of_default? default)
        have jumped : Yields r R (do return some (TemplateArg.type (← jump site t))) fun fin o =>
            ∃ a, o = some (TemplateArg.type a) ∧
              ∀ d, StandsFor r fin site.view t d → unselected a = d :=
          (tells R site t closed led own).done fun _ a told => ⟨a, rfl, told⟩
        refine jumped.bind fun o known => ?_
        obtain ⟨_, a, rfl, -⟩ := known
        refine (ih _ names').weaken fun fin as told' known es fills => told' es ?_
        obtain ⟨_, same, told⟩ := known
        cases same
        rw [unselectedArgs_append_default]
        cases fills with
        | stop default' => cases default.symm.trans default'
        | literal default' => cases default.symm.trans default'
        | type default' h next =>
          cases default.symm.trans default'
          rw [unselectedArg, told _ h]
          exact next

theorem yields_fillDefaults (tells : jump.Tells r) (closed : Closed r R) (led : site.LedTo r R)
    (params : List (TemplateParam TypeExpr)) (view : View) (args : List ArgRef)
    (names : ∀ p ∈ params, ∀ t ∈ p.types, LooksUpOnly (Inside r R) (view.withParams params) t) :
    Yields r R (fillDefaults jump site params view args) fun fin as =>
      ∀ es, Fills r fin params (view.withParams params) (params.drop (unselectedArgs args).length)
        (unselectedArgs args) es → unselectedArgs as = es := by
  have same : (unselectedArgs args).length = args.length := by
    rw [unselectedArgs_eq, List.length_map]
  rw [same]
  exact yields_appendDefaults tells closed
    (show ({ site with view := view.withParams params } : Site).LedTo r R from led) params _ args
      fun p hp => names p (List.mem_of_mem_drop hp)

theorem yields_jumpArgs (tells : jump.Tells r) (closed : Closed r R) (led : site.LedTo r R)
    (args : List ArgExpr)
    (names : ∀ t ∈ args.flatMap (·.types), LooksUpOnly (Inside r R) site.view t) :
    Yields r R (jumpArgs jump site args) fun fin as =>
      ∀ ds, ArgsStandFor r fin site.view args ds → unselectedArgs as = ds := by
  induction args with
  | nil =>
    refine .pure fun fin ds standing => ?_
    cases standing
    rfl
  | cons a rest ih =>
    have others := ih fun t ht => names t (List.mem_append_right _ ht)
    cases a with
    | literal text =>
      refine others.done fun fin as told ds standing => ?_
      cases standing with
      | literal others => rw [unselectedArgs, unselectedArg, told _ others]
    | type t =>
      have own := names t (List.mem_append_left _ List.mem_cons_self)
      refine (tells R site t closed led own).bind fun b _ => ?_
      refine others.done fun fin as told' told ds standing => ?_
      cases standing with
      | type first others => rw [unselectedArgs, unselectedArg, told _ first, told' _ others]

/-! ### Chains -/

/-- The end of the chain of a typedef is kept as what its target stands for. -/
theorem yields_terminalOf (h : Coherent r) {fuel : Nat} (tells : (jumpWithin fuel).Tells r)
    (led : site.LedTo r R) {name : String} {target : TypeExpr}
    (known : Meant r R name (.typedef target site.view))
    (own : r.find? [] none name = some (.typedef target site.view)) :
    Yields r R (terminalOf (jumpWithin fuel) site name target) fun fin a =>
      ∀ d, StandsFor r fin site.view target d → unselected a = chainEnd d := by
  intro s a t hs begun run
  have again : Replays r R [] (terminalOf (jumpWithin fuel) site name target)
      (terminalOf (jumpWithin fuel) site name target) :=
    replays_terminalOf h (replays_jumpWithin h (Nat.le_refl fuel)) ⟨rfl, led, led, by simp⟩ known
  obtain ⟨ht, calm, -, -⟩ := again s a t hs.toRecalling begun run
  cases fresh : s.terminals.get? name with
  | some b =>
    rw [terminalOf_run, fresh] at run
    cases run
    exact ⟨hs, calm, fun fin later d standing =>
      hs.terminals fin later name target _ a d own fresh standing⟩
  | none =>
    rcases terminalOf_eq_ok run with ⟨kept, -⟩ | ⟨b, u, resolved, rfl, rfl⟩
    · rw [fresh] at kept
      cases kept
    obtain ⟨w, jumped, -, rfl⟩ := resolveTypedef_eq_ok resolved
    have hn : R name := known.2 rfl
    have onward : ∀ n, TransGen r.Leads name n → TransGen r.Leads name n := fun _ leads => leads
    have names := h.inside (.target known.1)
    obtain ⟨hw, -, told⟩ := tells (TransGen r.Leads name) _ target (closed_transGen r name)
      (led.behind hn) names s b w hs (begun.through hn onward) jumped
    obtain ⟨-, -, untouched, -⟩ := replays_jumpWithin h (Nat.le_refl fuel) (TransGen r.Leads name) [name]
      _ _ target (closed_transGen r name) ⟨rfl, led.behind hn, led.behind hn, by simp⟩ names s b w
      hs.toRecalling (begun.through hn onward) jumped
    -- The end is not kept before it is reached, so what was known below holds on.
    have unkept : w.terminals.get? name = none := untouched name List.mem_cons_self fresh
    have stored := ((Calm.terminal unkept (chainEnd b)).trans
      (.lengths _ (w.lengths.insert name (chainLength w.lengths b)))).toLater
    have ended (fin : State) (later : Later w fin) (d : TypeRef)
        (standing : StandsFor r fin site.view target d) : unselected (chainEnd b) = chainEnd d := by
      rw [unselected_chainEnd, told fin later d standing]
    refine ⟨⟨ht, fun fin later q target' view' c d found kept standing => ?_,
      fun fin later => hw.patterns fin (stored.trans later)⟩, calm,
      fun fin later => ended fin (stored.trans later)⟩
    dsimp only at kept
    rw [NameMap.get?_insert] at kept
    split at kept
    · rename_i same
      subst same
      cases own.symm.trans found
      cases kept
      exact ended fin (stored.trans later) d standing
    · exact hw.terminals fin (stored.trans later) q target' view' c d found kept standing

/-! ### Specializations -/

section Specializations

variable {template : String} {i : Nat} {s t : State}

theorem Truthful.begin (hs : Truthful r s)
    (unresolved : ∀ w f, s.registry.progress? template i ≠ some (.resolved w f)) :
    Truthful r (s.withProgress template i .underWay) := by
  have begun := later_withProgress unresolved .underWay
  refine ⟨hs.toRecalling.begin unresolved, fun fin later => hs.terminals fin (begun.trans later),
    fun fin later q j p w f es hp resolved standing => ?_⟩
  rw [progress?_withProgress] at resolved
  split at resolved
  · obtain ⟨_, -, same⟩ := Option.map_eq_some_iff.mp resolved
    cases same
  · exact hs.patterns fin (begun.trans later) q j p w f es hp resolved standing

/-- The arguments of one more specialization are kept as what they stand for. -/
theorem Truthful.finish {w f : List ArgRef} (hs : Truthful r s)
    (unresolved : ∀ w f, s.registry.progress? template i ≠ some (.resolved w f))
    (recalling : Recalling r (s.withProgress template i (.resolved w f)))
    (told : ∀ fin, Later s fin → ∀ p es, (r.patternsOf template)[i]? = some p →
      p.StandsFor r fin template es → unselectedArgs f = es) :
    Truthful r (s.withProgress template i (.resolved w f)) := by
  have ended := later_withProgress unresolved (.resolved w f)
  refine ⟨recalling, fun fin later => hs.terminals fin (ended.trans later),
    fun fin later q j p w' f' es hp resolved standing => ?_⟩
  rw [progress?_withProgress] at resolved
  split at resolved
  · rename_i here
    obtain ⟨rfl, rfl⟩ := here
    obtain ⟨_, -, same⟩ := Option.map_eq_some_iff.mp resolved
    cases same
    exact told fin (ended.trans later) p es hp standing
  · exact hs.patterns fin (ended.trans later) q j p w' f' es hp resolved standing

theorem yields_fillFound (h : Coherent r) (tells : jump.Tells r)
    (led : site.LedTo r (TransGen r.Leads template)) (args : List ArgRef) {found : Option Meaning}
    (known : ∀ m, found = some m → m ∈ (r.meanings.get? template).getD []) :
    Yields r (TransGen r.Leads template) (fillFound jump site args found) fun fin as =>
      ∀ kind params view es, found = some (.template kind params view) →
        Fills r fin params (view.withParams params) (params.drop (unselectedArgs args).length)
          (unselectedArgs args) es → unselectedArgs as = es := by
  cases found with
  | none => exact .pure fun _ => nofun
  | some m =>
    cases m with
    | template kind params view =>
      refine (yields_fillDefaults tells (closed_transGen r template) led params view args
        fun q hq t ht => h.inside (.default (known _ rfl) hq ht)).weaken ?_
      intro fin as told kind' params' view' es same fills
      cases same
      exact told es fills
    | _ => exact .pure fun _ => nofun

/-- The arguments of a specialization are resolved with their defaults to what they stand for. -/
theorem resolvePattern_truthful (h : Coherent r) {fuel : Nat} (tells : (jumpWithin fuel).Tells r)
    (led : site.LedTo r R) (ht : R template) {p : Pattern} (hs : Truthful r s) (begun : s.LedTo r R)
    (found : s.registry.pattern? template i = some p) (pending : p.progress = .pending)
    {a : List ArgRef × List ArgRef}
    (run : resolvePattern (jumpWithin fuel) site template i p s = (.ok a, t)) :
    Truthful r t ∧ ∀ fin, Later t fin → ∀ es, p.StandsFor r fin template es → unselectedArgs a.2 = es := by
  obtain ⟨recalling, -, -, -⟩ := resolvePattern_recalling h
    (fun fuel' more => replays_jumpWithin h more) (⟨rfl, led, led, nofun⟩ : Beside r R [] site site) ht
    hs.toRecalling begun found pending run
  obtain ⟨u, v, jumped, filled, rfl⟩ := resolvePattern_eq_ok run
  have here : (r.patternsOf template)[i]? = some p := by
    rw [mem_patternsOf hs.same found, Pattern.fresh, ← pending]
  have hp : p ∈ r.patternsOf template := List.mem_of_getElem? here
  have waiting : s.registry.progress? template i = some .pending := by
    rw [Registry.progress?_of_pattern? found, pending]
  -- The arguments lead where the template leads, and so do its defaults.
  have outward (n : String) (reached : p.Reaches r n) : TransGen r.Leads template n :=
    transGen_of_reaches hp reached
  have onward (n : String) (leads : TransGen r.Leads template n) : TransGen r.Leads template n := leads
  have within : Site.LedTo r (p.Reaches r) { site with view := p.view } := led.through ht outward
  obtain ⟨hu, calm, written⟩ := yields_jumpArgs tells
    (closed_patternReaches r p) within p.args (fun t ht => h.inside_reaches hp ht)
    _ a.1 u (hs.begin (by simp [waiting])) ((begun.through ht outward).begin i outward) jumped
  have known (m : Meaning) (meant : u.registry.find? site.resolving none template = some m) :
      m ∈ (r.meanings.get? template).getD [] := by
    rw [← hu.same.meanings]
    exact Registry.mem_of_find? meant
  obtain ⟨hv, calm', told⟩ := yields_fillFound h tells (led.through ht onward) a.1 known u a.2 v hu
    (((begun.through ht onward).begin i onward).calm calm) filled
  have way := underWay_of_calm waiting (calm.trans calm')
  have unresolved : ∀ w f, v.registry.progress? template i ≠ some (.resolved w f) := by simp [way]
  have standing (fin : State) (later : Later v fin) (es : List ArgRef)
      (stands : p.StandsFor r fin template es) : unselectedArgs a.2 = es := by
    obtain ⟨kind, params, view, ds, meant, arguments, fills⟩ := stands
    have there : u.registry.find? site.resolving none template = some (.template kind params view) := by
      rw [hu.same.find?]
      exact Registry.find?_resolving meant fun _ => rfl
    refine told fin later kind params view es there ?_
    rw [written fin (calm'.toLater.trans later) ds arguments]
    exact fills
  refine ⟨hv.finish unresolved recalling fun fin later q es hq stands => ?_,
    fun fin later => standing fin ((later_withProgress unresolved _).trans later)⟩
  rw [here] at hq
  cases hq
  exact standing fin later es stands

/-- Whatever is known of the arguments of a specialization is what they stand for. -/
theorem yields_patternArgs (h : Coherent r) {fuel : Nat} (tells : (jumpWithin fuel).Tells r)
    (led : site.LedTo r R) (ht : R template) (i : Nat) :
    Yields r R (patternArgs (jumpWithin fuel) site template i) fun fin o =>
      ∀ p x es, (r.patternsOf template)[i]? = some p → o = some x → p.StandsFor r fin template es →
        unselectedArgs x.2.2 = es := by
  intro s o t hs begun run
  rcases patternArgs_eq_ok run with ⟨-, rfl, rfl⟩ | ⟨p, found, ⟨-, rfl, rfl⟩ |
    ⟨w, f, resolved, rfl, rfl⟩ | ⟨a, pending, rfl, now⟩⟩
  · exact ⟨hs, .refl _, fun _ _ => nofun⟩
  · exact ⟨hs, .refl _, fun _ _ => nofun⟩
  · refine ⟨hs, .refl _, fun fin later q x es hq same standing => ?_⟩
    cases same
    have progress := Registry.progress?_of_pattern? found
    rw [resolved] at progress
    exact hs.patterns fin later template i q w f es hq progress standing
  · obtain ⟨-, calm, -, -⟩ := resolvePattern_recalling h
      (fun fuel' more => replays_jumpWithin h more) (⟨rfl, led, led, nofun⟩ : Beside r R [] site site)
      ht hs.toRecalling begun found pending now
    obtain ⟨ht', told⟩ := resolvePattern_truthful h tells led ht hs begun found pending now
    refine ⟨ht', calm, fun fin later q x es hq same standing => ?_⟩
    cases same
    have here : (r.patternsOf template)[i]? = some p := by
      rw [mem_patternsOf hs.same found, Pattern.fresh, ← pending]
    cases here.symm.trans hq
    exact told fin later es standing

theorem yields_selectFrom (h : Coherent r) {fuel : Nat} (tells : (jumpWithin fuel).Tells r)
    (led : site.LedTo r R) (ht : R template) (actual : List ArgRef) (is : List Nat)
    (partialMatch : Option (List ArgRef)) :
    Yields r R (selectFrom (jumpWithin fuel) site template actual is partialMatch) fun _ _ => True := by
  induction is generalizing partialMatch with
  | nil => exact .pure fun _ => trivial
  | cons i rest ih =>
    unfold selectFrom
    refine (yields_patternArgs h tells led ht i).andThen fun o => ?_
    cases o with
    | none => exact ih _
    | some x =>
      obtain ⟨params, w, f⟩ := x
      dsimp only
      split
      · split
        · exact .pure fun _ => trivial
        · exact ih _
      · split
        · exact ih _
        · exact ih _

theorem yields_select (h : Coherent r) {fuel : Nat} (tells : (jumpWithin fuel).Tells r)
    (led : site.LedTo r R) (ht : R template) (args : List ArgRef) :
    Yields r R (select (jumpWithin fuel) site template args) fun _ _ => True := by
  intro s a t hs begun run
  exact yields_selectFrom h tells led ht _ _ _ s a t hs begun run

end Specializations

end Steps

end Resolution

end HeaderDecl
