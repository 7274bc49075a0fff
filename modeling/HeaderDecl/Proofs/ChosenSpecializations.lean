import HeaderDecl.Proofs.DenotedNames
import HeaderDecl.Proofs.RecalledUnits

/-!
The specializations that instantiations choose between two types of a unit. The choice depends on what the
arguments of the specializations stand for, and on nothing else that was resolved before.
-/

namespace HeaderDecl.Resolution

open Relation Template

/-! ### The choice -/

/-- Whether a specialization without parameters has the actual arguments. -/
def matchesFully (actual : List ArgRef) (p : List String × List ArgRef) : Bool :=
  p.1.isEmpty && p.2 = actual

/-- Whether a specialization with parameters applies to the actual arguments. -/
def matchesPartly (actual : List ArgRef) (p : List String × List ArgRef) : Bool :=
  !p.1.isEmpty && applies p.1 p.2 actual

/-- The number of the specialization that is chosen among those with some parameters and arguments: the
first without parameters that has the actual arguments, or else the first that applies to them. -/
def choose (actual : List ArgRef) (ps : List (List String × List ArgRef)) : Option Nat :=
  (ps.findIdx? (matchesFully actual)).or (ps.findIdx? (matchesPartly actual))

/-- Whether the arguments of an instantiation with the specialization of some number are those that are
kept of it, or there are none. -/
def State.Selects (s : State) (template : String) : Option Nat → Option (List ArgRef) → Prop
  | none, selected => selected = none
  | some i, selected => ∃ w f, s.registry.progress? template i = some (.resolved w f) ∧
    selected = some w

theorem State.Selects.later {s t : State} {template : String} {choice : Option Nat}
    {selected : Option (List ArgRef)} (h : s.Selects template choice selected) (later : Later s t) :
    t.Selects template choice selected := by
  cases choice with
  | none => exact h
  | some i =>
    obtain ⟨w, f, resolved, same⟩ := h
    exact ⟨w, f, later.resolved _ _ _ _ resolved, same⟩

theorem State.Selects.isNone {s : State} {template : String} {choice : Option Nat}
    {selected : Option (List ArgRef)} (h : s.Selects template choice selected) :
    selected.isNone = choice.isNone := by
  cases choice with
  | none =>
    obtain rfl : selected = none := h
    rfl
  | some i =>
    obtain ⟨w, f, -, rfl⟩ := h
    rfl

section Selection

variable {r : Registry} {R : String → Prop} {site : Site} {fuel : Nat} {template : String}
  {s t : State}

/-- With nothing under way, the arguments of a specialization are there, and kept from then on. -/
theorem patternArgs_run (h : Coherent r) (led : site.LedTo r R) (ht : R template) (hs : Truthful r s)
    (idle : s.Idle) {i : Nat} {p : Pattern} (hp : (r.patternsOf template)[i]? = some p)
    {o : Option (List String × List ArgRef × List ArgRef)}
    (run : patternArgs (jumpWithin fuel) site template i s = (.ok o, t)) :
    Truthful r t ∧ Calm s t ∧ ∃ w f, o = some (p.params, w, f) ∧
      t.registry.progress? template i = some (.resolved w f) ∧
        ∀ fin, Later t fin → ∀ es, p.StandsFor r fin template es → unselectedArgs f = es := by
  obtain ⟨ht', calm, told⟩ := yields_patternArgs h (tells_jumpWithin h fuel) led ht i s o t hs
    (idle.ledTo r R) run
  have fresh {q : Pattern} (found : s.registry.pattern? template i = some q) : q.params = p.params := by
    have same := mem_patternsOf hs.same found
    rw [hp] at same
    cases same
    rfl
  refine ⟨ht', calm, ?_⟩
  rcases patternArgs_eq_ok run with ⟨unknown, -, -⟩ | ⟨q, found, ⟨way, -, -⟩ |
    ⟨w, f, resolved, rfl, rfl⟩ | ⟨a, pending, rfl, now⟩⟩
  · have there := hs.same.patterns template
    rw [← there, Registry.patternsOf_getElem?, unknown] at hp
    cases hp
  · exact absurd (by rw [Registry.progress?_of_pattern? found, way]) (idle template i)
  · refine ⟨w, f, by rw [fresh found], ?_, fun fin later es standing =>
      told fin later p _ es hp rfl standing⟩
    rw [Registry.progress?_of_pattern? found, resolved]
  · obtain ⟨-, -, -, resolved⟩ := resolvePattern_recalling h
      (fun fuel' more => replays_jumpWithin h more) (⟨rfl, led, led, nofun⟩ : Beside r R [] site site)
      ht hs.toRecalling (idle.ledTo r R) found pending now
    exact ⟨a.1, a.2, by rw [fresh found], resolved, fun fin later es standing =>
      told fin later p _ es hp rfl standing⟩

/-- A place is counted from one more, if it is not the first. -/
theorem map_findIdx?_of_neg {α : Type} {q : α → Bool} {x : α} (h : q x = false) (xs : List α) (k : Nat) :
    ((x :: xs).findIdx? q).map (· + k) = (xs.findIdx? q).map (· + (k + 1)) := by
  rw [List.findIdx?_cons, h, if_neg Bool.false_ne_true, Option.map_map]
  congr 1
  funext n
  exact Nat.succ_add_eq_add_succ n k

theorem map_findIdx?_of_pos {α : Type} {q : α → Bool} {x : α} (h : q x = true) (xs : List α) (k : Nat) :
    ((x :: xs).findIdx? q).map (· + k) = some k := by
  rw [List.findIdx?_cons, h, if_pos rfl, Option.map_some, Nat.zero_add]

/-- What is compared of some specializations, given what their arguments stand for. -/
def compared (ps : List Pattern) (es : List (List ArgRef)) : List (List String × List ArgRef) :=
  List.zipWith (fun p e => (p.params, unaliasedArgs e)) ps es

/-- From some specialization on, the choice is the first that has the arguments, or else the one chosen
before, or else the first that applies. -/
theorem selectFrom_chosen (h : Coherent r) (led : site.LedTo r R) (ht : R template)
    {actual : List ArgRef} {fin : State} {ps : List Pattern} {es : List (List ArgRef)}
    (standing : List.Forall₂ (fun p e => p.StandsFor r fin template e) ps es) {k : Nat}
    (here : (r.patternsOf template).drop k = ps) (hs : Truthful r s) (idle : s.Idle)
    {best : Option Nat} {partialMatch selected : Option (List ArgRef)}
    (before : s.Selects template best partialMatch)
    (run : selectFrom (jumpWithin fuel) site template actual (List.range' k ps.length) partialMatch s =
      (.ok selected, t)) (later : Later t fin) :
    t.Selects template ((((compared ps es).findIdx? (matchesFully actual)).map (· + k)).or
      (best.or (((compared ps es).findIdx? (matchesPartly actual)).map (· + k)))) selected := by
  induction standing generalizing k s best partialMatch with
  | nil =>
    cases run
    simpa [compared] using before
  | @cons p e ps es first rest ih =>
    have own : (r.patternsOf template)[k]? = some p := by
      have head := congrArg (·[0]?) here
      simpa using head
    have behind : (r.patternsOf template).drop (k + 1) = ps := by
      rw [← List.tail_drop, here, List.tail_cons]
    rw [List.length_cons, List.range'_succ, selectFrom] at run
    obtain ⟨o, u, looked, run⟩ := bind_eq_ok run
    obtain ⟨hu, calm, w, f, rfl, resolved, told⟩ := patternArgs_run h led ht hs idle own looked
    have before' := before.later calm.toLater
    have whole : compared (p :: ps) (e :: es) = (p.params, unaliasedArgs e) :: compared ps es := rfl
    dsimp only at run
    have remaining {partialMatch : Option (List ArgRef)} (run : selectFrom (jumpWithin fuel) site
        template actual (List.range' (k + 1) ps.length) partialMatch u = (.ok selected, t)) :
        Later u t :=
      (yields_selectFrom h (tells_jumpWithin h fuel) led ht _ _ _ u selected t hu
        ((idle.calm calm).ledTo r R) run).2.1.toLater
    have onward : Later u t := by
      split at run
      · split at run
        · cases run
          exact .refl _
        · exact remaining run
      · split at run
        · exact remaining run
        · exact remaining run
    have same : unaliasedArgs f = unaliasedArgs e := by
      rw [← told fin (onward.trans later) e first, unaliasedArgs_unselectedArgs]
    rw [same] at run
    rw [whole]
    by_cases full : p.params.isEmpty = true
    · have apart : matchesPartly actual (p.params, unaliasedArgs e) = false := by
        simp [matchesPartly, full]
      rw [if_pos full] at run
      rw [map_findIdx?_of_neg apart]
      by_cases equal : unaliasedArgs e = actual
      · have found : matchesFully actual (p.params, unaliasedArgs e) = true := by
          simp [matchesFully, full, equal]
        rw [if_pos equal] at run
        cases run
        rw [map_findIdx?_of_pos found]
        exact ⟨w, f, resolved, rfl⟩
      · have other : matchesFully actual (p.params, unaliasedArgs e) = false := by
          simp [matchesFully, equal]
        rw [if_neg equal] at run
        rw [map_findIdx?_of_neg other]
        exact ih behind hu (idle.calm calm) before' run
    · have apart : matchesFully actual (p.params, unaliasedArgs e) = false := by
        simp [matchesFully, full]
      rw [if_neg full] at run
      rw [map_findIdx?_of_neg apart]
      by_cases applying : applies p.params (unaliasedArgs e) actual = true
      · have found : matchesPartly actual (p.params, unaliasedArgs e) = true := by
          simp [matchesPartly, full, applying]
        rw [map_findIdx?_of_pos found]
        rw [applying, Bool.and_true, before'.isNone] at run
        -- One that was chosen before stays, whether or not this one applies.
        cases best with
        | none =>
          have chosen : u.Selects template (some k) (some w) := ⟨w, f, resolved, rfl⟩
          exact ih behind hu (idle.calm calm) chosen run
        | some b => exact ih behind hu (idle.calm calm) before' run
      · have other : matchesPartly actual (p.params, unaliasedArgs e) = false := by
          simp [matchesPartly, applying]
        rw [if_neg (by simp [applying])] at run
        rw [map_findIdx?_of_neg other]
        exact ih behind hu (idle.calm calm) before' run

/-- With nothing under way, the specialization is selected that is chosen by what the arguments of all
specializations stand for. -/
theorem select_chosen (h : Coherent r) (led : site.LedTo r R) (ht : R template) (hs : Truthful r s)
    (idle : s.Idle) {fin : State} {es : List (List ArgRef)}
    (standing : List.Forall₂ (fun p e => p.StandsFor r fin template e) (r.patternsOf template) es)
    {args : List ArgRef} {selected : Option (List ArgRef)}
    (run : select (jumpWithin fuel) site template args s = (.ok selected, t)) (later : Later t fin) :
    t.Selects template (choose (unaliasedArgs args) (compared (r.patternsOf template) es)) selected := by
  have scanned : selectFrom (jumpWithin fuel) site template (unaliasedArgs args)
      (List.range' 0 (r.patternsOf template).length) none s = (.ok selected, t) := by
    unfold select at run
    obtain ⟨_, _, got, run⟩ := bind_eq_ok run
    cases got
    rw [← List.range_eq_range', ← hs.same.patterns, Registry.patternsOf, List.length_map]
    exact run
  have before : s.Selects template none none := rfl
  have chosen := selectFrom_chosen h led ht standing List.drop_zero hs idle before scanned
    later
  simpa [choose] using chosen

/-- A name that is resolved to an instantiation has the specialization that is chosen. -/
theorem resolvePath_chosen (h : Coherent r) (closed : Closed r R) (led : site.LedTo r R)
    {kind : Option NamedKind} {p : PathExpr} (inside : Inside r R ⟨site.view, kind, p⟩)
    (within : ∀ t ∈ p.last.types, LooksUpOnly (Inside r R) site.view t) (hs : Truthful r s)
    (idle : s.Idle) {i : Instantiation TypeRef}
    (run : resolvePath (jumpWithin fuel) site kind p s = (.ok (.instantiation i), t)) {fin : State}
    (later : Later t fin) {es : List (List ArgRef)}
    (standing : List.Forall₂ (fun p e => p.StandsFor r fin i.template e) (r.patternsOf i.template) es) :
    t.Selects i.template (choose (unaliasedArgs i.args) (compared (r.patternsOf i.template) es))
      i.specialization := by
  rw [resolvePath_eq] at run
  obtain ⟨f, u, looked, run⟩ := bind_eq_ok run
  obtain ⟨hu, calm, found⟩ := yields_look h led inside s f u hs (idle.ledTo r R) looked
  have found := found u (.refl u)
  have met := inside.met found
  match f with
  | .type b =>
    cases run
    obtain ⟨_, same⟩ | ⟨_, same⟩ | ⟨_, same⟩ := type_of_found found <;> cases same
  | .meaning _ (.record _) | .meaning _ .enum => cases run
  | .meaning name (.typedef target view) =>
    obtain ⟨a, v, -, run⟩ := bind_eq_ok run
    cases run
  | .meaning name (.template record params view) =>
    cases given : p.last.args with
    | none =>
      rw [given] at run
      cases run
    | some args =>
      rw [given] at run
      have arguments : ∀ t ∈ args.flatMap (·.types), LooksUpOnly (Inside r R) site.view t := by
        intro t ht
        refine within t ?_
        rwa [NameSegment.types, given]
      obtain ⟨as, v, resolved, run⟩ := bind_eq_ok run
      obtain ⟨_, _, made, run⟩ := bind_eq_ok run
      cases run
      obtain ⟨filled, w, filling, made⟩ := bind_eq_ok made
      obtain ⟨selected, _, selecting, made⟩ := bind_eq_ok made
      cases made
      -- Nothing is under way when the specialization is selected.
      have tells := tells_jumpWithin h fuel
      have idle' := idle.calm calm
      obtain ⟨hv, calm', -⟩ := yields_resolveArgs h tells closed led args arguments u as v hu
        (idle'.ledTo r R) resolved
      have idle'' := idle'.calm calm'
      obtain ⟨hw, calm'', -⟩ := yields_fillDefaults tells closed led params view as
        (fun q hq t ht => h.inside_closed closed (met.1.2 rfl) (.default met.1.1 hq ht)) v filled w hv
          (idle''.ledTo r R) filling
      exact select_chosen h led (met.1.2 rfl) hw (idle''.calm calm'') standing selecting later

/-- A type that is resolved to an instantiation has the specialization that is chosen. -/
theorem resolveType_chosen (h : Coherent r) (closed : Closed r R) (led : site.LedTo r R)
    (hs : Truthful r s) (idle : s.Idle) {i : Instantiation TypeRef} {fin : State} (later : Later t fin)
    {es : List (List ArgRef)}
    (standing : List.Forall₂ (fun p e => p.StandsFor r fin i.template e) (r.patternsOf i.template) es) :
    (ty : TypeExpr) → LooksUpOnly (Inside r R) site.view ty →
      resolveType (jumpWithin fuel) site ty s = (.ok (.instantiation i), t) →
        t.Selects i.template (choose (unaliasedArgs i.args) (compared (r.patternsOf i.template) es))
          i.specialization
  | .path _, names, run =>
    resolvePath_chosen h closed led (names.name List.mem_cons_self) (names.arg List.mem_cons_self) hs
      idle run later standing
  | .elaborated _ _, names, run =>
    resolvePath_chosen h closed led (names.name List.mem_cons_self) (names.arg List.mem_cons_self) hs
      idle run later standing
  | .qualified q ty, names, run => by
    obtain ⟨a, u, inner, done⟩ := bind_eq_ok run
    -- Only what no qualifiers are added to is an instantiation still.
    by_cases none : q.isEmpty
    · have same : a.withQualifiers q = a := by simp [TypeRef.withQualifiers, none]
      rw [same] at done
      cases done
      exact resolveType_chosen h closed led hs idle later standing ty (names.part List.mem_cons_self) inner
    · cases a <;> simp [TypeRef.withQualifiers, none, Pure.pure, Resolver.pure] at done
  | .pointer _, _, run => by
    obtain ⟨a, u, -, done⟩ := bind_eq_ok run
    cases a <;> cases done
  | .primitive _, _, run | .dependent _, _, run => by cases run
  | .reference _, _, run | .rvalueReference _, _, run | .array _ _, _, run | .function _, _, run
  | .record _, _, run | .enum _, _, run => by
    obtain ⟨a, u, -, done⟩ := bind_eq_ok run
    cases done

end Selection

end HeaderDecl.Resolution
