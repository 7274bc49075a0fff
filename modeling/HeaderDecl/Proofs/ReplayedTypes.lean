import HeaderDecl.Proofs.LaterStates
import HeaderDecl.Proofs.ResolvedReferences

/-!
Types that are resolved again. Whatever a resolution comes to, while no specialization that it leads to is
under way, it comes to in every later state, and leaves that state as it is.
-/

namespace HeaderDecl.Resolution

open Relation

/-! ### What is recalled -/

/-- Whether the arguments of a specialization, as they are written, are resolved to some arguments in all
later states. -/
def Pattern.Recalled (r : Registry) (p : Pattern) (written : List ArgRef) (s : State) : Prop :=
  ∃ fuel, ∀ fuel' ≥ fuel, ∀ site : Site, site.view = p.view → site.LedTo r (p.Reaches r) →
    ∀ t, Later s t → jumpArgs (jumpWithin fuel') site p.args t = (.ok written, t)

/-- A state of a resolution in which the arguments of specializations are kept as they are resolved, but
for those that lead back to their own template. -/
structure Recalling (r : Registry) (s : State) : Prop where
  same : r.Same s.registry
  recalled : ∀ template i p w f, (r.patternsOf template)[i]? = some p →
    s.registry.progress? template i = some (.resolved w f) → ¬ p.Reaches r template →
      p.Recalled r w s

section Recalling

variable {r : Registry} {s t : State} {template : String} {i : Nat} {p : Pattern}
  {written : List ArgRef}

theorem Pattern.Recalled.later (h : p.Recalled r written s) (later : Later s t) :
    p.Recalled r written t := by
  obtain ⟨fuel, recalled⟩ := h
  exact ⟨fuel, fun fuel' more site view led u after =>
    recalled fuel' more site view led u (later.trans after)⟩

/-- Nothing else than the arguments of specializations has a part in it. -/
theorem Recalling.later (h : Recalling r s) (later : Later s t)
    (progress : ∀ template i w f, t.registry.progress? template i = some (.resolved w f) →
      s.registry.progress? template i = some (.resolved w f)) : Recalling r t :=
  ⟨h.same.trans later.same, fun q i p w f hp resolved outside =>
    (h.recalled q i p w f hp (progress q i w f resolved) outside).later later⟩

theorem Recalling.begin (h : Recalling r s)
    (unresolved : ∀ w f, s.registry.progress? template i ≠ some (.resolved w f)) :
    Recalling r (s.withProgress template i .underWay) := by
  refine h.later (later_withProgress unresolved _) fun q j w f resolved => ?_
  rw [progress?_withProgress] at resolved
  split at resolved
  · obtain ⟨_, -, same⟩ := Option.map_eq_some_iff.mp resolved
    cases same
  · exact resolved

/-- The arguments of one more specialization are kept as they are resolved. -/
theorem Recalling.finish (h : Recalling r s)
    (unresolved : ∀ w f, s.registry.progress? template i ≠ some (.resolved w f))
    (filled : List ArgRef) (recalled : ∀ p, (r.patternsOf template)[i]? = some p →
      ¬ p.Reaches r template → p.Recalled r written s) :
    Recalling r (s.withProgress template i (.resolved written filled)) := by
  have later := later_withProgress unresolved (.resolved written filled)
  refine ⟨h.same.trans later.same, fun q j p w f hp resolved outside => ?_⟩
  rw [progress?_withProgress] at resolved
  split at resolved
  · rename_i here
    obtain ⟨rfl, rfl⟩ := here
    obtain ⟨_, -, same⟩ := Option.map_eq_some_iff.mp resolved
    cases same
    exact (recalled p hp outside).later later
  · exact (h.recalled q j p w f hp resolved outside).later later

end Recalling

/-! ### Computations that are replayed -/

/-- A computation that comes to something which another one comes to in every later state, if no
specialization of some templates is under way. It keeps no typedef of those that led to it. -/
def Replays {α : Type} (r : Registry) (R : String → Prop) (led : List String) (x y : Resolver α) :
    Prop :=
  ∀ s a t, Recalling r s → s.LedTo r R → x s = (.ok a, t) →
    Recalling r t ∧ Calm s t ∧
      (∀ n ∈ led, s.terminals.get? n = none → t.terminals.get? n = none) ∧
      (s.Clear R → ∀ u, Later t u → y u = (.ok a, u))

/-- Sites with one view, to which some typedefs led. All that led to them leads to some names. -/
structure Beside (r : Registry) (R : String → Prop) (led : List String) (site site' : Site) : Prop where
  view : site'.view = site.view
  left : site.LedTo r R
  right : site'.LedTo r R
  led : ∀ n ∈ led, n ∈ site.resolving

theorem Beside.own {r : Registry} {R : String → Prop} {led : List String} {site site' : Site}
    (h : Beside r R led site site') : Beside r R led site site :=
  ⟨rfl, h.left, h.left, h.led⟩

theorem sites_beside (r : Registry) (R : String → Prop) (led : List String) :
    Sites (Beside r R led) :=
  ⟨(·.view), fun h _ => ⟨rfl, h.left, h.right, h.led⟩⟩

/-- A jump that is replayed by another one, wherever it leads. -/
def Jump.Replays (r : Registry) (jump jump' : Jump) : Prop :=
  ∀ R led site site' ty, Closed r R → Beside r R led site site' →
    LooksUpOnly (Inside r R) site.view ty →
      Resolution.Replays r R led (jump site ty) (jump' site' ty)

section Rules

variable {r : Registry} {R : String → Prop} {led : List String} {α β : Type}

theorem Replays.pure (a : α) : Replays r R led (pure a) (pure a) := by
  intro s _ t hs _ run
  cases run
  exact ⟨hs, .refl s, fun _ _ h => h, fun _ _ _ => rfl⟩

theorem Replays.bind {x y : Resolver α} {f g : α → Resolver β} (first : Replays r R led x y)
    (next : ∀ a, Replays r R led (f a) (g a)) : Replays r R led (x >>= f) (y >>= g) := by
  intro s b t hs begun run
  obtain ⟨a, u, here, rest⟩ := bind_eq_ok run
  obtain ⟨hu, calm, kept, again⟩ := first s a u hs begun here
  obtain ⟨ht, calm', kept', again'⟩ := next a u b t hu (begun.calm calm) rest
  refine ⟨ht, calm.trans calm', fun n hn fresh => kept' n hn (kept n hn fresh), ?_⟩
  intro clear v later
  rw [bind_run, again clear v (calm'.toLater.trans later)]
  exact again' (clear.calm calm) v later

end Rules

/-! ### Names -/

section Names

variable {r : Registry} {R : String → Prop} {led : List String} {site site' : Site}

theorem replays_look (h : Coherent r) (sites : Beside r R led site site') {kind : Option NamedKind}
    {p : PathExpr} (inside : Inside r R ⟨site.view, kind, p⟩) {β : Type} {f g : Found → Resolver β}
    (next : ∀ found, found.Known (Meant r R) → Replays r R led (f found) (g found)) :
    Replays r R led (look site kind p >>= f) (look site' kind p >>= g) := by
  intro s b t hs begun run
  obtain ⟨found, u, looked, rest⟩ := bind_eq_ok run
  obtain ⟨here, rfl⟩ := look_eq_ok (inside.findsAlike h sites.left hs.same) inside.1 looked
  obtain ⟨ht, calm, kept, again⟩ := next found (inside.meant here) u b t hs begun rest
  refine ⟨ht, calm, kept, fun clear v later => ?_⟩
  -- The other site sees the same, and finds the same in any state.
  rw [← sites.view] at inside here
  have alike : FindsAlike r v site' kind p :=
    inside.findsAlike h sites.right (ht.same.trans later.same)
  rw [bind_run, look_of_found alike here]
  exact again clear v later

theorem mayResolve_of_ok {jump : Jump} {name : String} {target : TypeExpr} {s t : State} {a : TypeRef}
    (run : resolveTypedef jump site name target s = (.ok a, t)) : name ∉ site.resolving := by
  unfold resolveTypedef at run
  split at run
  · rename_i may
    unfold Site.mayResolve at may
    simp only [Bool.and_eq_true, Bool.not_eq_true', List.contains_eq_mem, decide_eq_false_iff_not]
      at may
    exact may.2
  · cases run

/-- What is found at the end of a chain is kept, and found there ever after. -/
theorem replays_terminalOf (h : Coherent r) {jump jump' : Jump} (jumps : jump.Replays r jump)
    (sites : Beside r R led site site') {name : String}
    {target : TypeExpr} (known : Meant r R name (.typedef target site.view)) :
    Replays r R led (terminalOf jump site name target) (terminalOf jump' site' name target) := by
  intro s a t hs begun run
  have hn : R name := known.2 rfl
  have refound {u : State} (kept : u.terminals.get? name = some a) :
      terminalOf jump' site' name target u = (.ok a, u) := by
    rw [terminalOf_run, kept]
  cases fresh : s.terminals.get? name with
  | some b =>
    rw [terminalOf_run, fresh] at run
    cases run
    exact ⟨hs, .refl s, fun _ _ h => h, fun _ u later => refound (later.terminals _ _ fresh)⟩
  | none =>
    rcases terminalOf_eq_ok run with ⟨kept, -⟩ | ⟨v, u, resolved, rfl, rfl⟩
    · rw [fresh] at kept
      cases kept
    · have other : name ∉ site.resolving := mayResolve_of_ok resolved
      obtain ⟨w, jumped, -, rfl⟩ := resolveTypedef_eq_ok resolved
      have onward : ∀ n, TransGen r.Leads name n → TransGen r.Leads name n := fun _ leads => leads
      -- Below the name everything leads from it, and it is not kept before its end is reached.
      have inner : ({ site with resolving := site.resolving ++ [name] } : Site).LedTo r
          (TransGen r.Leads name) := sites.left.behind hn
      obtain ⟨hw, calm, kept, -⟩ := jumps (TransGen r.Leads name) (name :: led)
        { site with resolving := site.resolving ++ [name] }
        { site with resolving := site.resolving ++ [name] } target (closed_transGen r name)
        ⟨rfl, inner, inner, fun n hn => by
          rcases List.mem_cons.mp hn with rfl | hn
          · simp
          · exact List.mem_append_left _ (sites.led n hn)⟩
        (h.inside (.target known.1)) s v w hs (begun.through hn onward) jumped
      have unkept : w.terminals.get? name = none := kept name List.mem_cons_self fresh
      have ended : Calm w { w with
          lengths := w.lengths.insert name (chainLength w.lengths v)
          terminals := w.terminals.insert name (chainEnd v) } :=
        (Calm.terminal unkept _).trans (.lengths _ _)
      refine ⟨hw.later ended.toLater fun _ _ _ _ same => same, calm.trans ended, fun n hn fresh => ?_,
        fun _ u later => refound (later.terminals _ _ (by simp))⟩
      have apart : n ≠ name := fun same => other (same ▸ sites.led n hn)
      dsimp only
      rw [NameMap.get?_insert, if_neg apart]
      exact kept n (List.mem_cons_of_mem _ hn) fresh

end Names

/-! ### Specializations -/

section Specializations

variable {r : Registry} {R : String → Prop} {led : List String} {site site' : Site}
  {template : String} {i : Nat} {p : Pattern} {s t : State} {fuel : Nat}

theorem mem_patternsOf (same : r.Same s.registry) (found : s.registry.pattern? template i = some p) :
    (r.patternsOf template)[i]? = some p.fresh := by
  rw [← same.patterns, Registry.patternsOf_getElem?, found]
  rfl

theorem jumps_of_replays {jump jump' : Jump} (jumps : jump.Replays r jump') (closed : Closed r R) :
    Jumps (fun _ => Replays r R led) jump jump' (Beside r R led) (Inside r R) where
  toSites := sites_beside r R led
  pure a := .pure a
  bind first next := first.bind next
  target sites names := jumps R led _ _ _ closed sites names

/-- Arguments with the defaults of a template, if that is what was found. -/
def fillFound (jump : Jump) (site : Site) (args : List ArgRef) : Option Meaning → Resolver (List ArgRef)
  | some (.template _ params view) => fillDefaults jump site params view args
  | _ => pure args

/-- Whatever the defaults of a template lead to, it leads there. -/
theorem replays_fillFound (h : Coherent r) {jump jump' : Jump} (jumps : jump.Replays r jump')
    (sites : Beside r (TransGen r.Leads template) led site site') (args : List ArgRef)
    {found : Option Meaning} (known : ∀ m, found = some m → m ∈ (r.meanings.get? template).getD []) :
    Replays r (TransGen r.Leads template) led (fillFound jump site args found)
      (fillFound jump' site' args found) := by
  cases found with
  | none => exact .pure _
  | some m =>
    cases m with
    | template kind params view =>
      exact (jumps_of_replays jumps (closed_transGen r template)).fillDefaults sites params view args
        fun q hq t ht => h.inside (.default (known _ rfl) hq ht)
    | _ => exact .pure _

/-- A specialization that was begun is under way for as long as nothing else is done than what is over
again in the end. -/
theorem underWay_of_calm (waiting : s.registry.progress? template i = some .pending)
    (calm : Calm (s.withProgress template i .underWay) t) :
    t.registry.progress? template i = some .underWay := by
  refine (calm.underWay template i).mpr ?_
  rw [progress?_withProgress, if_pos ⟨rfl, rfl⟩, waiting, Option.map_some]

/-- Once its arguments are resolved, what was under way before it is under way again. -/
theorem Calm.withResolved (waiting : s.registry.progress? template i = some .pending)
    (calm : Calm (s.withProgress template i .underWay) t) (written filled : List ArgRef) :
    Calm s (t.withProgress template i (.resolved written filled)) := by
  have way := underWay_of_calm waiting calm
  have later : Later s (t.withProgress template i (.resolved written filled)) :=
    (later_withProgress (by simp [waiting]) _).trans (calm.toLater.trans
      (later_withProgress (by simp [way]) _))
  refine ⟨later, fun q j => ?_⟩
  rw [progress?_withProgress]
  split
  · rename_i same
    obtain ⟨rfl, rfl⟩ := same
    rw [waiting, way]
    simp
  · rename_i other
    rw [calm.underWay q j, progress?_withProgress, if_neg other]

/-- The arguments of a specialization are recalled once they are resolved, unless they lead back to the
template: only then is something under way that they lead to. -/
theorem jumpArgs_recalling (h : Coherent r)
    (jumps : ∀ fuel' ≥ fuel, (jumpWithin fuel).Replays r (jumpWithin fuel'))
    (sites : Beside r R led site site) (ht : R template) (hs : Recalling r s) (begun : s.LedTo r R)
    (here : (r.patternsOf template)[i]? = some p)
    (waiting : s.registry.progress? template i = some .pending) {written : List ArgRef}
    (jumped : jumpArgs (jumpWithin fuel) { site with view := p.view } p.args
      (s.withProgress template i .underWay) = (.ok written, t)) :
    Recalling r t ∧ Calm (s.withProgress template i .underWay) t ∧
      (∀ n ∈ led, s.terminals.get? n = none → t.terminals.get? n = none) ∧
      (¬ p.Reaches r template → p.Recalled r written t) := by
  have hp : p ∈ r.patternsOf template := List.mem_of_getElem? here
  have unresolved : ∀ w f, s.registry.progress? template i ≠ some (.resolved w f) := by
    simp [waiting]
  -- The arguments lead where the template leads.
  have outward (n : String) (reached : p.Reaches r n) : TransGen r.Leads template n :=
    transGen_of_reaches hp reached
  have start : (s.withProgress template i .underWay).LedTo r (p.Reaches r) :=
    (begun.through ht outward).begin i outward
  have led' : ({ site with view := p.view } : Site).LedTo r (p.Reaches r) :=
    sites.left.through ht outward
  have writing (fuel' : Nat) (more : fuel' ≥ fuel) (other : Site) (view : other.view = p.view)
      (there : other.LedTo r (p.Reaches r)) :
      Replays r (p.Reaches r) led (jumpArgs (jumpWithin fuel) { site with view := p.view } p.args)
        (jumpArgs (jumpWithin fuel') other p.args) :=
    (jumps_of_replays (jumps fuel' more) (closed_patternReaches r p)).jumpArgs
      ⟨view, led', there, sites.led⟩ p.args fun t ht => h.inside_reaches hp ht
  obtain ⟨hu, calm, kept, -⟩ := writing fuel (Nat.le_refl _) _ rfl led' _ _ _
    (hs.begin unresolved) start jumped
  refine ⟨hu, calm, kept, fun outside => ⟨fuel, fun fuel' more other view there w later => ?_⟩⟩
  obtain ⟨-, -, -, again⟩ := writing fuel' more other view there _ _ _ (hs.begin unresolved) start
    jumped
  refine again (fun q j way reached => ?_) w later
  -- What is under way leads to the template, and would lead the arguments back to it.
  rw [progress?_withProgress] at way
  split at way
  · rename_i same
    exact outside (same.1 ▸ reached)
  · exact outside ((closed_patternReaches r p).transGen reached (begun q j way template ht))

/-- The arguments of a specialization are resolved with their defaults, and recalled from then on. -/
theorem resolvePattern_recalling (h : Coherent r)
    (jumps : ∀ fuel' ≥ fuel, (jumpWithin fuel).Replays r (jumpWithin fuel'))
    (sites : Beside r R led site site) (ht : R template) (hs : Recalling r s) (begun : s.LedTo r R)
    (found : s.registry.pattern? template i = some p) (pending : p.progress = .pending)
    {a : List ArgRef × List ArgRef}
    (run : resolvePattern (jumpWithin fuel) site template i p s = (.ok a, t)) :
    Recalling r t ∧ Calm s t ∧
      (∀ n ∈ led, s.terminals.get? n = none → t.terminals.get? n = none) ∧
      t.registry.progress? template i = some (.resolved a.1 a.2) := by
  obtain ⟨u, v, jumped, filled, rfl⟩ := resolvePattern_eq_ok run
  have here : (r.patternsOf template)[i]? = some p := by
    rw [mem_patternsOf hs.same found, Pattern.fresh, ← pending]
  have waiting : s.registry.progress? template i = some .pending := by
    rw [Registry.progress?_of_pattern? found, pending]
  obtain ⟨hu, calm, kept, recalled⟩ :=
    jumpArgs_recalling h jumps sites ht hs begun here waiting jumped
  -- The defaults lead where the template leads.
  have onward (n : String) (leads : TransGen r.Leads template n) : TransGen r.Leads template n := leads
  have known (m : Meaning) (meant : u.registry.find? site.resolving none template = some m) :
      m ∈ (r.meanings.get? template).getD [] := by
    rw [← hu.same.meanings]
    exact Registry.mem_of_find? meant
  have filling := replays_fillFound h (jumps fuel (Nat.le_refl _))
    (⟨rfl, sites.left.through ht onward, sites.left.through ht onward, sites.led⟩ :
      Beside r (TransGen r.Leads template) led site site) a.1 known
  obtain ⟨hv, calm', kept', -⟩ :=
    filling u a.2 v hu (((begun.through ht onward).begin i onward).calm calm) filled
  have whole := calm.trans calm'
  have way := underWay_of_calm waiting whole
  refine ⟨hv.finish (by simp [way]) a.2 fun q hq outside => ?_, whole.withResolved waiting a.1 a.2,
    fun n hn fresh => kept' n hn (kept n hn fresh), ?_⟩
  · rw [here] at hq
    cases hq
    exact (recalled outside).later calm'.toLater
  · rw [progress?_withProgress, if_pos ⟨rfl, rfl⟩, way, Option.map_some]

theorem patternArgs_of_unknown {jump : Jump} (unknown : s.registry.pattern? template i = none) :
    patternArgs jump site template i s = (.ok none, s) := by
  unfold patternArgs
  rw [bind_run]
  dsimp only [Resolver.get]
  have none : (s.registry.patterns.get? template).bind (·[i]?) = none := by
    unfold Registry.pattern? at unknown
    cases known : s.registry.patterns.get? template with
    | none => rfl
    | some ps =>
      rw [known] at unknown
      exact unknown
  rw [none]
  rfl

theorem patternArgs_of_resolved {jump : Jump} {w f : List ArgRef}
    (found : s.registry.pattern? template i = some p) (resolved : p.progress = .resolved w f) :
    patternArgs jump site template i s = (.ok (some (p.params, w, f)), s) := by
  unfold patternArgs
  rw [bind_run]
  dsimp only [Resolver.get]
  have some : (s.registry.patterns.get? template).bind (·[i]?) = some p := by
    unfold Registry.pattern? at found
    cases known : s.registry.patterns.get? template with
    | none => simp [known] at found
    | some ps =>
      rw [known] at found
      exact found
  rw [some]
  dsimp only
  rw [resolved]
  rfl

/-- In later states the arguments of a specialization are there. -/
theorem patternArgs_later {jump : Jump} {w f : List ArgRef} {u : State} (same : s.registry.Same u.registry)
    (found : s.registry.pattern? template i = some p)
    (resolved : u.registry.progress? template i = some (.resolved w f)) :
    patternArgs jump site template i u = (.ok (some (p.params, w, f)), u) := by
  obtain ⟨q, hq, progress⟩ := Option.map_eq_some_iff.mp resolved
  have alike : q.fresh = p.fresh := by
    have both := same.pattern? template i
    rw [hq, found] at both
    exact Option.some.inj both
  have params : q.fresh.params = p.fresh.params := congrArg Pattern.params alike
  rw [show p.params = q.params from params.symm]
  exact patternArgs_of_resolved hq progress

theorem replays_patternArgs (h : Coherent r)
    (jumps : ∀ fuel' ≥ fuel, (jumpWithin fuel).Replays r (jumpWithin fuel')) {jump' : Jump}
    (own : Beside r R led site site) (ht : R template) (i : Nat) :
    Replays r R led (patternArgs (jumpWithin fuel) site template i)
      (patternArgs jump' site' template i) := by
  intro s o t hs begun run
  rcases patternArgs_eq_ok run with ⟨unknown, rfl, rfl⟩ | ⟨p, found, ⟨way, rfl, rfl⟩ |
    ⟨w, f, resolved, rfl, rfl⟩ | ⟨a, pending, rfl, now⟩⟩
  · refine ⟨hs, .refl _, fun _ _ fresh => fresh, fun _ u later => patternArgs_of_unknown ?_⟩
    have same := later.same.pattern? template i
    rwa [unknown, Option.map_none, Option.map_eq_none_iff] at same
  · have progress := Registry.progress?_of_pattern? found
    rw [way] at progress
    exact ⟨hs, .refl _, fun _ _ fresh => fresh, fun clear => absurd ht (clear template i progress)⟩
  · have progress := Registry.progress?_of_pattern? found
    rw [resolved] at progress
    exact ⟨hs, .refl _, fun _ _ fresh => fresh, fun _ u later =>
      patternArgs_later later.same found (later.resolved _ _ _ _ progress)⟩
  · obtain ⟨ht', calm, kept, resolved⟩ :=
      resolvePattern_recalling h jumps own ht hs begun found pending now
    exact ⟨ht', calm, kept, fun _ u later =>
      patternArgs_later (calm.same.trans later.same) found (later.resolved _ _ _ _ resolved)⟩

theorem replays_selectFrom (h : Coherent r)
    (jumps : ∀ fuel' ≥ fuel, (jumpWithin fuel).Replays r (jumpWithin fuel')) {jump' : Jump}
    (own : Beside r R led site site) (ht : R template) (actual : List ArgRef) (is : List Nat)
    (partialMatch : Option (List ArgRef)) :
    Replays r R led (selectFrom (jumpWithin fuel) site template actual is partialMatch)
      (selectFrom jump' site' template actual is partialMatch) := by
  induction is generalizing partialMatch with
  | nil => exact .pure _
  | cons i rest ih =>
    unfold selectFrom
    refine (replays_patternArgs h jumps own ht i).bind fun o => ?_
    cases o with
    | none => exact ih _
    | some x =>
      obtain ⟨params, w, f⟩ := x
      dsimp only
      split
      · split
        · exact .pure _
        · exact ih _
      · split
        · exact ih _
        · exact ih _

/-- In later states there are as many specializations of a template. -/
theorem replays_select (h : Coherent r)
    (jumps : ∀ fuel' ≥ fuel, (jumpWithin fuel).Replays r (jumpWithin fuel')) {jump' : Jump}
    (own : Beside r R led site site) (ht : R template) (args : List ArgRef) :
    Replays r R led (select (jumpWithin fuel) site template args)
      (select jump' site' template args) := by
  intro s o t hs begun run
  have unfolded (jump : Jump) (site : Site) {u : State} (same : r.Same u.registry) :
      select jump site template args u = selectFrom jump site template (Template.unaliasedArgs args)
        (List.range (r.patternsOf template).length) none u := by
    unfold select
    rw [bind_run]
    dsimp only [Resolver.get]
    rw [← same.patterns, Registry.patternsOf, List.length_map]
  rw [unfolded _ _ hs.same] at run
  obtain ⟨ht', calm, kept, again⟩ :=
    replays_selectFrom h jumps own ht _ _ none s o t hs begun run
  refine ⟨ht', calm, kept, fun clear u later => ?_⟩
  rw [unfolded _ _ (ht'.same.trans later.same)]
  exact again clear u later

end Specializations

/-! ### Types -/

section Types

variable {r : Registry} {R : String → Prop} {led : List String}

theorem walk_replays (h : Coherent r) {fuel fuel' : Nat} (enough : fuel ≤ fuel')
    (jumps : ∀ fuel' ≥ fuel, (jumpWithin fuel).Replays r (jumpWithin fuel')) (closed : Closed r R) :
    Walk (fun _ => Replays r R led) (jumpWithin fuel) (jumpWithin fuel') (Beside r R led) (Inside r R)
      (Meant r R) where
  toJumps := jumps_of_replays (jumps fuel' enough) closed
  look sites inside next := replays_look h sites inside next
  ends sites known := replays_terminalOf h (jumps fuel (Nat.le_refl _)) sites known
  defaults known _ hp _ ht := h.inside_closed closed (known.2 rfl) (.default known.1 hp ht)
  select sites _ _ _ _ known args := replays_select h jumps sites.own (known.2 rfl) args

/-- Whatever a type is resolved to, it is resolved to in every later state, with as much fuel or more. -/
theorem replays_jumpWithin (h : Coherent r) {fuel fuel' : Nat} (enough : fuel ≤ fuel') :
    (jumpWithin fuel).Replays r (jumpWithin fuel') := by
  induction fuel generalizing fuel' with
  | zero =>
    intro R led site site' ty _ _ _ s a t _ _ run
    cases run
  | succ fuel ih =>
    cases fuel' with
    | zero => exact absurd enough (Nat.not_succ_le_zero fuel)
    | succ fuel' =>
      intro R led site site' ty closed sites names
      exact (walk_replays h (Nat.le_of_succ_le_succ enough) (fun _ more => ih more)
        closed).traversal.resolveType sites ty names

theorem traversal_replays (h : Coherent r) {fuel fuel' : Nat} (enough : fuel ≤ fuel')
    (closed : Closed r R) : Traversal (fun _ => Replays r R led) (jumpWithin fuel) (jumpWithin fuel')
      (Beside r R led) (Inside r R) :=
  (walk_replays h enough (fun _ more => replays_jumpWithin h more) closed).traversal

end Types

end HeaderDecl.Resolution
