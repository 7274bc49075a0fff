import HeaderDecl.Proofs.DenotedTypes

/-!
The resolution of types to what they stand for. What a name is found to be decides what it stands for, and
so does what is written around it.
-/

namespace HeaderDecl.Resolution

open Relation Template

section Steps

variable {r : Registry} {R : String → Prop} {site : Site}

/-! ### Names -/

/-- A meaning that a name is found with, which does not lead beyond some names. -/
def Met (r : Registry) (R : String → Prop) (name : String) (m : Meaning) : Prop :=
  Meant r R name m ∧ (m.isTypedef = true → r.find? [] none name = some m)

theorem Inside.met {u : NameUse} (inside : Inside r R u) {f : Found} (found : r.found u = some f) :
    f.Known (Met r R) := by
  have meant := inside.meant found
  cases f with
  | type t => trivial
  | meaning q m =>
    refine ⟨meant, fun typedef => ?_⟩
    unfold Registry.found at found
    split at found
    · cases found
    · dsimp only at found
      split at found
      · rename_i known
        cases found
        have here := find?_of_findIn known
        -- No typedef is found behind a keyword.
        cases kind : u.kind with
        | none => rwa [kind] at here
        | some k =>
          rw [kind] at here
          have fits : m.fits (some k) = true := by
            simp only [Registry.find?, Option.orElse_eq_orElse, Option.orElse_eq_or,
              Option.or_eq_some_iff] at here
            rcases here with here | ⟨-, here⟩
            · have := List.find?_some here
              simp only [Bool.and_eq_true] at this
              exact this.1
            · exact List.find?_some here
          cases m with
          | typedef target view => cases fits
          | _ => cases typedef
      · split at found <;> cases found

theorem yields_look (h : Coherent r) (led : site.LedTo r R) {kind : Option NamedKind} {p : PathExpr}
    (inside : Inside r R ⟨site.view, kind, p⟩) :
    Yields r R (look site kind p) fun _ f => r.found ⟨site.view, kind, p⟩ = some f := by
  intro s f t hs begun run
  obtain ⟨found, rfl⟩ := look_eq_ok (inside.findsAlike h led hs.same) inside.1 run
  exact ⟨hs, .refl _, fun _ _ => found⟩

theorem walk_yields (h : Coherent r) {fuel : Nat} (tells : (jumpWithin fuel).Tells r)
    (closed : Closed r R) : Walk (fun _ x _ => Yields r R x fun _ _ => True) (jumpWithin fuel)
      (jumpWithin fuel) (Beside r R []) (Inside r R) (Met r R) where
  toSites := sites_beside r R []
  pure _ := .pure fun _ => trivial
  bind first next := first.andThen next
  target sites names := (tells R _ _ closed sites.left names).weaken fun _ _ _ => trivial
  look sites inside next := (yields_look h sites.left inside).bind fun f ⟨_, found⟩ =>
    (next f (inside.met found)).weaken fun _ _ _ _ => trivial
  ends sites known := (yields_terminalOf h tells sites.left known.1 (known.2 rfl)).weaken
    fun _ _ _ => trivial
  defaults known _ hp _ ht := h.inside_closed closed (known.1.2 rfl) (.default known.1.1 hp ht)
  select sites _ _ _ _ known args := yields_select h tells sites.left (known.1.2 rfl) args

/-- Functions and types that are defined in place come to what they stand for. -/
theorem yields_fixed (h : Coherent r) {fuel : Nat} (tells : (jumpWithin fuel).Tells r)
    (closed : Closed r R) (led : site.LedTo r R) {t : TypeExpr}
    (names : LooksUpOnly (Inside r R) site.view t) :
    Yields r R (resolveType (jumpWithin fuel) site t) fun fin a =>
      ∀ d, r.Fixes fin site.view t d → a = d := by
  intro s a u hs begun run
  obtain ⟨hu, calm, -⟩ := (walk_yields h tells closed).traversal.resolveType
    (⟨rfl, led, led, nofun⟩ : Beside r R [] site site) t names s a u hs begun run
  exact ⟨hu, calm, fun fin later d fixed =>
    fixed R fuel site s a u closed names rfl led hs.toRecalling begun run later⟩

/-- A name stands for what it is found to be. -/
theorem StandsFor.named_cases {fin : State} {v : View} {t : TypeExpr} {d : TypeRef}
    (standing : StandsFor r fin v t d) {kind : Option NamedKind} {p : PathExpr} (written : t.name? = some (kind, p)) :
    (∃ f, r.found ⟨v, kind, p⟩ = some f ∧ f.itself? p.last.args = some d) ∨
      (∃ name target view d', r.found ⟨v, kind, p⟩ = some (.meaning name (.typedef target view)) ∧
        StandsFor r fin view target d' ∧ d = .typedef name (chainEnd d')) ∨
      ∃ name record params view args ds es,
        r.found ⟨v, kind, p⟩ = some (.meaning name (.template record params view)) ∧
          p.last.args = some args ∧ ArgsStandFor r fin v args ds ∧
            Fills r fin params (view.withParams params) (params.drop ds.length) ds es ∧
              d = .instantiation ⟨name, es, none⟩ := by
  cases standing with
  | name written' found itself =>
    cases written.symm.trans written'
    exact .inl ⟨_, found, itself⟩
  | typedef written' found h =>
    cases written.symm.trans written'
    exact .inr (.inl ⟨_, _, _, _, found, h, rfl⟩)
  | instantiation written' found given arguments filled =>
    cases written.symm.trans written'
    exact .inr (.inr ⟨_, _, _, _, _, _, _, found, given, arguments, filled, rfl⟩)
  | _ => cases written

/-- A type that is found under a name has no other types in it. -/
theorem type_of_found {u : NameUse} {t : TypeRef} (found : r.found u = some (.type t)) :
    (∃ name, t = .param name) ∨ (∃ text, t = .dependent text) ∨ ∃ name, t = .builtin name := by
  unfold Registry.found at found
  split at found
  · rename_i own
    cases found
    unfold ownType? at own
    split at own
    · split at own <;> cases own
      · exact .inr (.inl ⟨_, rfl⟩)
      · exact .inl ⟨_, rfl⟩
    · split at own <;> cases own
      exact .inr (.inl ⟨_, rfl⟩)
  · dsimp only at found
    split at found
    · cases found
    · split at found <;> cases found
      exact .inr (.inr ⟨_, rfl⟩)

/-- A name is resolved to what it stands for, if the arguments behind it are. -/
theorem yields_named (h : Coherent r) {fuel : Nat} (tells : (jumpWithin fuel).Tells r)
    (closed : Closed r R) (led : site.LedTo r R) {t : TypeExpr} {kind : Option NamedKind}
    {p : PathExpr} (written : t.name? = some (kind, p)) (inside : Inside r R ⟨site.view, kind, p⟩)
    (arguments : ∀ args, p.last.args = some args →
      Yields r R (resolveArgs (jumpWithin fuel) site args) fun fin as =>
        ∀ ds, ArgsStandFor r fin site.view args ds → unselectedArgs as = ds) :
    Yields r R (resolvePath (jumpWithin fuel) site kind p) fun fin a =>
      ∀ d, StandsFor r fin site.view t d → unselected a = d := by
  rw [resolvePath_eq]
  refine (yields_look h led inside).bind fun f ⟨_, found⟩ => ?_
  have met := inside.met found
  -- What is found decides which of the three cases it is.
  have ways {fin : State} {d : TypeRef} (standing : StandsFor r fin site.view t d) :=
    standing.named_cases written
  rw [found] at ways
  match f with
  | .type b =>
    refine .pure fun fin _ d standing => ?_
    obtain ⟨f, same, itself⟩ | ⟨_, _, _, _, same, -⟩ | ⟨_, _, _, _, _, _, _, same, -⟩ := ways standing
    · cases same
      cases itself
      obtain ⟨_, rfl⟩ | ⟨_, rfl⟩ | ⟨_, rfl⟩ := type_of_found found <;> rfl
    · cases same
    · cases same
  | .meaning _ (.record _) | .meaning _ .enum =>
    refine .pure fun fin _ d standing => ?_
    obtain ⟨f, same, itself⟩ | ⟨_, _, _, _, same, -⟩ | ⟨_, _, _, _, _, _, _, same, -⟩ := ways standing
    · cases same
      cases itself
      rfl
    · cases same
    · cases same
  | .meaning name (.typedef target view) =>
    have led : Site.LedTo r R { site with view } := led
    refine (yields_terminalOf h tells led met.1 (met.2 rfl)).done fun fin a told _ d standing => ?_
    obtain ⟨f, same, itself⟩ | ⟨_, _, _, d', same, standing, rfl⟩ | ⟨_, _, _, _, _, _, _, same, -⟩ :=
      ways standing
    · cases same
      cases itself
    · cases same
      rw [unselected, told d' standing]
    · cases same
  | .meaning name (.template record params view) =>
    cases given : p.last.args with
    | none =>
      refine .pure fun fin _ d standing => ?_
      obtain ⟨f, same, itself⟩ | ⟨_, _, _, _, same, -⟩ | ⟨_, _, _, _, _, _, _, -, given', -⟩ :=
        ways standing
      · cases same
        rw [given] at itself
        cases itself
        rfl
      · cases same
      · cases given.symm.trans given'
    | some args =>
      refine (arguments args given).bind fun as _ => ?_
      have names : ∀ q ∈ params, ∀ t ∈ q.types,
          LooksUpOnly (Inside r R) (view.withParams params) t := fun q hq t ht =>
        h.inside_closed closed (met.1.2 rfl) (.default met.1.1 hq ht)
      have made : Yields r R (instantiate (jumpWithin fuel) site name params view as) fun fin i =>
          i.template = name ∧ ∀ es, Fills r fin params (view.withParams params)
            (params.drop (unselectedArgs as).length) (unselectedArgs as) es →
              unselectedArgs i.args = es :=
        (yields_fillDefaults tells closed led params view as names).bind fun filled _ =>
          (yields_select h tells led (met.1.2 rfl) filled).done fun _ _ _ told' => ⟨rfl, told'⟩
      refine made.done fun fin i ⟨template, told'⟩ told _ d standing => ?_
      obtain ⟨f, same, itself⟩ | ⟨_, _, _, _, same, -⟩ |
        ⟨_, _, _, _, _, ds, es, same, given', standing', fills, rfl⟩ := ways standing
      · cases same
        rw [given] at itself
        cases itself
      · cases same
      · cases same
        cases given.symm.trans given'
        obtain ⟨_, as', selected⟩ := i
        cases template
        rw [told ds standing'] at told'
        rw [unselected, told' es fills]

/-! ### Types -/

-- The cases are those of the written types, and of what a name may stand for.

mutual

theorem yields_resolveType (h : Coherent r) {fuel : Nat} (tells : (jumpWithin fuel).Tells r)
    (closed : Closed r R) (led : site.LedTo r R) :
    (t : TypeExpr) → LooksUpOnly (Inside r R) site.view t →
      Yields r R (resolveType (jumpWithin fuel) site t) fun fin a =>
        ∀ d, StandsFor r fin site.view t d → unselected a = d
  | .primitive p, _ => by
    refine .pure fun fin d standing => ?_
    cases standing with
    | primitive => rfl
    | name written | typedef written | instantiation written => cases written
  | .dependent p, _ => by
    refine .pure fun fin d standing => ?_
    cases standing with
    | dependent => rfl
    | name written | typedef written | instantiation written => cases written
  | .path ⟨absolute, scope, ⟨last, none⟩⟩, names =>
    yields_named h tells closed led rfl (names.name List.mem_cons_self) nofun
  | .path ⟨absolute, scope, ⟨last, some args⟩⟩, names => by
    have arguments := yields_resolveArgs h tells closed led args (names.arg List.mem_cons_self)
    refine yields_named h tells closed led rfl (names.name List.mem_cons_self) fun _ given => ?_
    cases given
    exact arguments
  | .elaborated kind ⟨absolute, scope, ⟨last, none⟩⟩, names =>
    yields_named h tells closed led rfl (names.name List.mem_cons_self) nofun
  | .elaborated kind ⟨absolute, scope, ⟨last, some args⟩⟩, names => by
    have arguments := yields_resolveArgs h tells closed led args (names.arg List.mem_cons_self)
    refine yields_named h tells closed led rfl (names.name List.mem_cons_self) fun _ given => ?_
    cases given
    exact arguments
  | .pointer t, names => by
    refine (yields_resolveType h tells closed led t (names.part List.mem_cons_self)).done
      fun fin a told d standing => ?_
    cases standing with
    | pointer standing => rw [unselected_pointerTo, told _ standing]
    | name written | typedef written | instantiation written => cases written
  | .reference t, names => by
    refine (yields_resolveType h tells closed led t (names.part List.mem_cons_self)).done
      fun fin a told d standing => ?_
    cases standing with
    | reference standing => rw [unselected, told _ standing]
    | name written | typedef written | instantiation written => cases written
  | .rvalueReference t, names => by
    refine (yields_resolveType h tells closed led t (names.part List.mem_cons_self)).done
      fun fin a told d standing => ?_
    cases standing with
    | rvalueReference standing => rw [unselected, told _ standing]
    | name written | typedef written | instantiation written => cases written
  | .array t size, names => by
    refine (yields_resolveType h tells closed led t (names.part List.mem_cons_self)).done
      fun fin a told d standing => ?_
    cases standing with
    | array standing => rw [unselected, told _ standing]
    | name written | typedef written | instantiation written => cases written
  | .qualified q t, names => by
    refine (yields_resolveType h tells closed led t (names.part List.mem_cons_self)).done
      fun fin a told d standing => ?_
    cases standing with
    | qualified standing => rw [unselected_withQualifiers, told _ standing]
    | name written | typedef written | instantiation written => cases written
  | .function sig, names => by
    refine (yields_fixed h tells closed led names).weaken fun fin a told d standing => ?_
    cases standing with
    | function fixed => rw [told _ fixed, unselected]; all_goals nofun
    | name written | typedef written | instantiation written => cases written
  | .record x, names => by
    refine (yields_fixed h tells closed led names).weaken fun fin a told d standing => ?_
    cases standing with
    | record fixed => rw [told _ fixed, unselected]; all_goals nofun
    | name written | typedef written | instantiation written => cases written
  | .enum x, names => by
    refine (yields_fixed h tells closed led names).weaken fun fin a told d standing => ?_
    cases standing with
    | enum fixed => rw [told _ fixed, unselected]; all_goals nofun
    | name written | typedef written | instantiation written => cases written

theorem yields_resolveArgs (h : Coherent r) {fuel : Nat} (tells : (jumpWithin fuel).Tells r)
    (closed : Closed r R) (led : site.LedTo r R) :
    (args : List ArgExpr) → (∀ t ∈ args.flatMap (·.types), LooksUpOnly (Inside r R) site.view t) →
      Yields r R (resolveArgs (jumpWithin fuel) site args) fun fin as =>
        ∀ ds, ArgsStandFor r fin site.view args ds → unselectedArgs as = ds
  | [], _ => by
    refine .pure fun fin ds standing => ?_
    cases standing
    rfl
  | .literal text :: rest, names => by
    have others := yields_resolveArgs h tells closed led rest fun t ht =>
      names t (List.mem_append_right _ ht)
    refine Yields.bind (P := fun _ a => a = .literal text) (.pure fun _ => rfl) fun a ⟨_, same⟩ => ?_
    subst same
    refine others.done fun fin as told _ ds standing => ?_
    cases standing with
    | literal others => rw [unselectedArgs, unselectedArg, told _ others]
  | .type t :: rest, names => by
    have first := yields_resolveType h tells closed led t
      (names t (List.mem_append_left _ List.mem_cons_self))
    have others := yields_resolveArgs h tells closed led rest fun t ht =>
      names t (List.mem_append_right _ ht)
    have argument : Yields r R (resolveArg (jumpWithin fuel) site (.type t)) fun fin a =>
        ∀ d, StandsFor r fin site.view t d → unselectedArg a = .type d :=
      first.done fun fin a told d standing => by rw [unselectedArg, told d standing]
    refine argument.bind fun a _ => others.done fun fin as told' told ds standing => ?_
    cases standing with
    | type first others => rw [unselectedArgs, told _ first, told' _ others]

end

/-- Whatever a type is resolved to is what it stands for. -/
theorem tells_jumpWithin (h : Coherent r) (fuel : Nat) : (jumpWithin fuel).Tells r := by
  induction fuel with
  | zero =>
    intro R site t _ _ _ s a u _ _ run
    cases run
  | succ fuel ih =>
    intro R site t closed led names
    exact yields_resolveType h ih closed led t names

end Steps

/-! ### Types that come to one thing -/

/-- A type comes to what it once was resolved to, unless it leads to a name that leads back to itself. -/
theorem Registry.fixes_of_run {r : Registry} (h : Coherent r) {site : Site} {t : TypeExpr}
    (led : site.LedTo r (r.Reaches site.view t))
    (acyclic : ∀ n, r.Reaches site.view t n → ¬ TransGen r.Leads n n) {s s' : State}
    (hs : Recalling r s) (begun : s.LedTo r (r.Reaches site.view t)) {fuel : Nat} {a : TypeRef}
    (run : resolveType (jumpWithin fuel) site t s = (.ok a, s')) {fin : State} (later : Later s' fin) :
    r.Fixes fin site.view t a := by
  intro R fuel' site' s₁ b s₁' closed names view led' hs₁ begun₁ run' later'
  have inside : LooksUpOnly (Inside r (r.Reaches site.view t)) site.view t :=
    inside_of_uses (names.weaken fun _ inside => inside.1) fun n uses => ⟨n, uses, .refl⟩
  have reached (n : String) (reaches : r.Reaches site.view t n) : R n := by
    obtain ⟨m, ⟨u, meaning, looked, found, leads⟩, onward⟩ := reaches
    have first : R m := (names u looked).2 _ _ found leads
    induction onward with
    | refl => exact first
    | tail _ step ih => exact closed _ _ ih step
  have led₁ : site'.LedTo r (r.Reaches site.view t) := fun q hq n hn => led' q hq n (reached n hn)
  have begun₁' : s₁.LedTo r (r.Reaches site.view t) := fun q i way n hn => begun₁ q i way n (reached n hn)
  have clear {s : State} (begun : s.LedTo r (r.Reaches site.view t)) :
      s.Clear (r.Reaches site.view t) :=
    fun q i way reaches => acyclic q reaches (begun q i way q reaches)
  -- Both resolutions are replayed in the last state.
  have closed := closed_reaches r site.view t
  obtain ⟨-, -, -, again⟩ := (traversal_replays h (Nat.le_max_left fuel fuel') closed).resolveType
    (⟨view, led, led₁, nofun⟩ : Beside r _ [] site site') t inside s a s' hs begun run
  obtain ⟨-, -, -, again'⟩ := (traversal_replays h (Nat.le_max_right fuel fuel') closed).resolveType
    (⟨rfl, led₁, led₁, nofun⟩ : Beside r _ [] site' site') t (view ▸ inside) s₁ b s₁' hs₁ begun₁' run'
  have same := (again (clear begun) fin later).symm.trans (again' (clear begun₁') fin later')
  cases same
  rfl

end HeaderDecl.Resolution
