import HeaderDecl.Proofs.SettledTerminals
import Mathlib.Logic.Relation

/-!
States that follow one another in a resolution, and the names that a type leads to. What is kept of a
typedef or a specialization is kept for good, and the names that are under way lead to all that is resolved
below them.
-/

namespace HeaderDecl.Resolution

open Relation

/-! ### Registries in which specializations are resolved -/

/-- A specialization as it is registered. -/
def Pattern.fresh (p : Pattern) : Pattern := { p with progress := .pending }

/-- The specializations of a template as they are registered. -/
def Registry.patternsOf (r : Registry) (template : String) : List Pattern :=
  ((r.patterns.get? template).getD []).map Pattern.fresh

/-- Registries that differ only in how far specializations are resolved. -/
structure Registry.Same (r r' : Registry) : Prop where
  meanings : r'.meanings = r.meanings
  patterns : ∀ template, r'.patternsOf template = r.patternsOf template

namespace Registry

variable {r r' r'' : Registry} {template : String} {i : Nat}

theorem Same.refl (r : Registry) : r.Same r := ⟨rfl, fun _ => rfl⟩

theorem Same.trans (h : r.Same r') (h' : r'.Same r'') : r.Same r'' :=
  ⟨h'.meanings.trans h.meanings, fun q => (h'.patterns q).trans (h.patterns q)⟩

theorem patternsOf_getElem? : (r.patternsOf template)[i]? = (r.pattern? template i).map Pattern.fresh :=
  List.getElem?_map

theorem progress?_of_pattern? {p : Pattern} (h : r.pattern? template i = some p) :
    r.progress? template i = some p.progress := by
  rw [progress?, h]
  rfl

theorem Same.pattern? (h : r.Same r') (template : String) (i : Nat) :
    (r'.pattern? template i).map Pattern.fresh = (r.pattern? template i).map Pattern.fresh := by
  rw [← patternsOf_getElem?, ← patternsOf_getElem?, h.patterns]

theorem Same.find? (h : r.Same r') (resolving : List String) (kind : Option NamedKind)
    (name : String) : r'.find? resolving kind name = r.find? resolving kind name := by
  unfold Registry.find?
  rw [h.meanings]

end Registry

/-! ### Later states -/

/-- A state that comes after another one in a resolution: what was kept of typedefs and of
specializations still is. -/
structure Later (s t : State) : Prop where
  same : s.registry.Same t.registry
  terminals : ∀ name a, s.terminals.get? name = some a → t.terminals.get? name = some a
  resolved : ∀ template i w f, s.registry.progress? template i = some (.resolved w f) →
    t.registry.progress? template i = some (.resolved w f)

/-- A later state in which the same specializations are under way. -/
structure Calm (s t : State) : Prop extends Later s t where
  underWay : ∀ template i, t.registry.progress? template i = some .underWay ↔
    s.registry.progress? template i = some .underWay

section States

variable {s t u : State}

theorem Later.refl (s : State) : Later s s := ⟨.refl _, fun _ _ h => h, fun _ _ _ _ h => h⟩

theorem Later.trans (h : Later s t) (h' : Later t u) : Later s u :=
  ⟨h.same.trans h'.same, fun n a hn => h'.terminals n a (h.terminals n a hn),
    fun q i w f hq => h'.resolved q i w f (h.resolved q i w f hq)⟩

theorem Calm.refl (s : State) : Calm s s := ⟨.refl s, fun _ _ => Iff.rfl⟩

theorem Calm.trans (h : Calm s t) (h' : Calm t u) : Calm s u :=
  ⟨h.toLater.trans h'.toLater, fun q i => (h'.underWay q i).trans (h.underWay q i)⟩

/-- What is kept of a typedef that was not known before changes nothing else. -/
theorem Calm.terminal {name : String} (fresh : s.terminals.get? name = none) (a : TypeRef) :
    Calm s { s with terminals := s.terminals.insert name a } := by
  refine ⟨⟨.refl _, fun n b hn => ?_, fun _ _ _ _ h => h⟩, fun _ _ => Iff.rfl⟩
  dsimp only
  rw [NameMap.get?_insert, if_neg, hn]
  rintro rfl
  rw [fresh] at hn
  cases hn

theorem Calm.lengths (s : State) (lengths : NameMap Nat) : Calm s { s with lengths } :=
  ⟨⟨.refl _, fun _ _ h => h, fun _ _ _ _ h => h⟩, fun _ _ => Iff.rfl⟩

theorem Calm.reported (s : State) (diagnostics : List Diagnostic) (model : Model) :
    Calm s { s with diagnostics, model } :=
  ⟨⟨.refl _, fun _ _ h => h, fun _ _ _ _ h => h⟩, fun _ _ => Iff.rfl⟩

theorem same_withProgress (s : State) (template : String) (i : Nat) (progress : Progress) :
    s.registry.Same (s.withProgress template i progress).registry := by
  refine ⟨rfl, fun q => List.ext_getElem? fun j => ?_⟩
  rw [Registry.patternsOf_getElem?, Registry.patternsOf_getElem?, pattern?_withProgress]
  split
  · rw [Option.map_map]
    rfl
  · rfl

theorem later_withProgress {template : String} {i : Nat}
    (unresolved : ∀ w f, s.registry.progress? template i ≠ some (.resolved w f))
    (progress : Progress) : Later s (s.withProgress template i progress) := by
  refine ⟨same_withProgress s template i progress, fun _ _ h => h, fun q j w f h => ?_⟩
  rw [progress?_withProgress, if_neg, h]
  rintro ⟨rfl, rfl⟩
  exact unresolved w f h

end States

/-! ### Names that lead on -/

/-- Whether a name with a meaning stands for something else that is resolved. -/
def Meaning.leadsOn : Meaning → Bool
  | .typedef _ _ | .template _ _ _ => true
  | .record _ | .enum => false

/-- The types that are resolved for a name: the target of a typedef, the defaults of a template, and the
arguments of its specializations. -/
inductive Registry.Text (r : Registry) (name : String) : View → TypeExpr → Prop
  | target {target : TypeExpr} {view : View}
      (known : .typedef target view ∈ (r.meanings.get? name).getD []) : Text r name view target
  | default {kind : RecordKind} {params : List (TemplateParam TypeExpr)} {view : View}
      {p : TemplateParam TypeExpr} {t : TypeExpr}
      (known : .template kind params view ∈ (r.meanings.get? name).getD []) (hp : p ∈ params)
      (ht : t ∈ p.types) : Text r name (view.withParams params) t
  | arg {p : Pattern} {t : TypeExpr} (hp : p ∈ r.patternsOf name)
      (ht : t ∈ p.args.flatMap (·.types)) : Text r name p.view t

/-- Whether a type, as it is seen from a view, is resolved by a name that leads on. -/
def Registry.Uses (r : Registry) (v : View) (t : TypeExpr) (name : String) : Prop :=
  ∃ u m, LooksUp u v t ∧ r.found u = some (.meaning name m) ∧ m.leadsOn

/-- Whether what is resolved for a name is resolved by another one. -/
def Registry.Leads (r : Registry) (name name' : String) : Prop :=
  ∃ v t, r.Text name v t ∧ r.Uses v t name'

/-- The names that a type leads to. -/
def Registry.Reaches (r : Registry) (v : View) (t : TypeExpr) (name : String) : Prop :=
  ∃ n, r.Uses v t n ∧ ReflTransGen r.Leads n name

/-- The names that the arguments of a specialization lead to. -/
def Pattern.Reaches (r : Registry) (p : Pattern) (name : String) : Prop :=
  ∃ t ∈ p.args.flatMap (·.types), r.Reaches p.view t name

/-- Names that lead to one another only. -/
def Closed (r : Registry) (R : String → Prop) : Prop := ∀ n n', R n → r.Leads n n' → R n'

/-- A name use that leads to some names only, and that is found if it stands behind a keyword. -/
def Inside (r : Registry) (R : String → Prop) (u : NameUse) : Prop :=
  Declared r u ∧ ∀ name m, r.found u = some (.meaning name m) → m.leadsOn → R name

/-- A meaning of a name that does not lead beyond some names. -/
def Meant (r : Registry) (R : String → Prop) (name : String) (m : Meaning) : Prop :=
  m ∈ (r.meanings.get? name).getD [] ∧ (m.leadsOn → R name)

/-- Whether a name that leads back to itself is looked up alike whatever is being resolved. -/
def Registry.Stable (r : Registry) : Prop :=
  ∀ name, TransGen r.Leads name name →
    ∀ resolving kind, r.find? resolving kind name = r.find? [] kind name

/-- No name leads back to itself if all that is led to is one name that leads nowhere. -/
theorem Registry.stable_of_last {r : Registry} {name : String}
    (last : ∀ n n', r.Leads n n' → n' = name) (nowhere : ∀ n, ¬ r.Leads name n) : r.Stable := by
  intro q loop
  obtain ⟨n, leads, -⟩ := TransGen.head'_iff.mp loop
  obtain ⟨n', -, here⟩ := TransGen.tail'_iff.mp loop
  obtain rfl := last n' q here
  exact absurd leads (nowhere n)

/-- A registry in which names behind keywords are declared, and that is looked up alike. -/
structure Coherent (r : Registry) : Prop where
  declared : ∀ name v t, r.Text name v t → LooksUpOnly (Declared r) v t
  stable : r.Stable

section Names

variable {r : Registry} {R : String → Prop} {name : String} {v : View} {t : TypeExpr}

theorem Closed.transGen (h : Closed r R) {n n' : String} (hn : R n) (leads : TransGen r.Leads n n') :
    R n' := by
  induction leads with
  | single here => exact h _ _ hn here
  | tail _ here ih => exact h _ _ ih here

theorem closed_transGen (r : Registry) (name : String) : Closed r (TransGen r.Leads name) :=
  fun _ _ hn leads => hn.tail leads

theorem closed_reaches (r : Registry) (v : View) (t : TypeExpr) :
    Closed r (r.Reaches v t) := by
  rintro n n' ⟨m, uses, reached⟩ leads
  exact ⟨m, uses, reached.tail leads⟩

theorem closed_patternReaches (r : Registry) (p : Pattern) : Closed r (p.Reaches r) :=
  fun _ _ ⟨t, ht, reached⟩ leads => ⟨t, ht, closed_reaches r _ _ _ _ reached leads⟩

theorem closed_all (r : Registry) : Closed r fun _ => True := fun _ _ _ _ => trivial

/-- A specialization of a template leads where the template leads. -/
theorem transGen_of_reaches {template n : String} {p : Pattern} (hp : p ∈ r.patternsOf template)
    (reached : p.Reaches r n) : TransGen r.Leads template n := by
  obtain ⟨t, ht, m, uses, onward⟩ := reached
  exact TransGen.head' ⟨_, _, .arg hp ht, uses⟩ onward

theorem inside_of_uses (declared : LooksUpOnly (Declared r) v t) (uses : ∀ n, r.Uses v t n → R n) :
    LooksUpOnly (Inside r R) v t :=
  fun u looked => ⟨declared u looked, fun n m found leads => uses n ⟨u, m, looked, found, leads⟩⟩

theorem LooksUpOnly.weaken {A B : NameUse → Prop} (h : LooksUpOnly A v t) (weaker : ∀ u, A u → B u) :
    LooksUpOnly B v t :=
  fun u looked => weaker u (h u looked)

theorem Inside.weaken {R' : String → Prop} {u : NameUse} (h : Inside r R u)
    (weaker : ∀ n, R n → R' n) : Inside r R' u :=
  ⟨h.1, fun n m found leads => weaker n (h.2 n m found leads)⟩

/-- What is resolved for a name leads where the name leads. -/
theorem Coherent.inside (h : Coherent r) (text : r.Text name v t) :
    LooksUpOnly (Inside r (TransGen r.Leads name)) v t :=
  inside_of_uses (h.declared name v t text) fun _ uses => .single ⟨v, t, text, uses⟩

theorem Coherent.inside_closed (h : Coherent r) (closed : Closed r R) (hn : R name)
    (text : r.Text name v t) : LooksUpOnly (Inside r R) v t :=
  (h.inside text).weaken fun _ inside => inside.weaken fun _ leads => closed.transGen hn leads

theorem Coherent.inside_reaches (h : Coherent r) {template : String} {p : Pattern}
    (hp : p ∈ r.patternsOf template) {t : TypeExpr} (ht : t ∈ p.args.flatMap (·.types)) :
    LooksUpOnly (Inside r (p.Reaches r)) p.view t :=
  inside_of_uses (h.declared _ _ _ (.arg hp ht)) fun n uses => ⟨t, ht, n, uses, .refl⟩

end Names

/-! ### What is under way -/

/-- Whether all typedefs that led to a site lead to some names. -/
def Site.LedTo (r : Registry) (R : String → Prop) (site : Site) : Prop :=
  ∀ q ∈ site.resolving, ∀ n, R n → TransGen r.Leads q n

/-- Whether all specializations under way are of templates that lead to some names. -/
def State.LedTo (r : Registry) (R : String → Prop) (s : State) : Prop :=
  ∀ template i, s.registry.progress? template i = some .underWay →
    ∀ n, R n → TransGen r.Leads template n

/-- Whether no specialization of some templates is under way. -/
def State.Clear (R : String → Prop) (s : State) : Prop :=
  ∀ template i, s.registry.progress? template i = some .underWay → ¬ R template

section UnderWay

variable {r : Registry} {R R' : String → Prop} {site : Site} {s t : State}

theorem Site.LedTo.through (h : site.LedTo r R) {name : String} (hn : R name)
    (leads : ∀ n, R' n → TransGen r.Leads name n) : site.LedTo r R' :=
  fun q hq n hn' => (h q hq name hn).trans (leads n hn')

/-- Behind one more name, all that led to the site leads to what the name leads to. -/
theorem Site.LedTo.behind (h : site.LedTo r R) {name : String} (hn : R name) :
    ({ site with resolving := site.resolving ++ [name] } : Site).LedTo r (TransGen r.Leads name) := by
  intro q hq n leads
  rcases List.mem_append.mp hq with hq | hq
  · exact (h q hq name hn).trans leads
  · rwa [List.mem_singleton.mp hq]

theorem State.LedTo.through (h : s.LedTo r R) {name : String} (hn : R name)
    (leads : ∀ n, R' n → TransGen r.Leads name n) : s.LedTo r R' :=
  fun q i hq n hn' => (h q i hq name hn).trans (leads n hn')

theorem State.LedTo.calm (h : s.LedTo r R) (calm : Calm s t) : t.LedTo r R :=
  fun q i hq => h q i ((calm.underWay q i).mp hq)

theorem State.Clear.calm (h : s.Clear R) (calm : Calm s t) : t.Clear R :=
  fun q i hq => h q i ((calm.underWay q i).mp hq)

/-- A specialization whose resolution begins leads to whatever its template leads to. -/
theorem State.LedTo.begin (h : s.LedTo r R') {template : String} (i : Nat)
    (leads : ∀ n, R' n → TransGen r.Leads template n) :
    (s.withProgress template i .underWay).LedTo r R' := by
  intro q j hq
  rw [progress?_withProgress] at hq
  split at hq
  · rename_i same
    rw [same.1]
    exact leads
  · exact h q j hq

end UnderWay

/-! ### Names that are found alike -/

section Found

variable {r : Registry} {R : String → Prop} {resolving : List String} {kind : Option NamedKind}
  {name : String}

/-- What is no typedef is found whatever is being resolved. -/
theorem Registry.find?_resolving {m : Meaning} (found : r.find? [] kind name = some m)
    (other : name ∈ resolving → m.isTypedef = false) : r.find? resolving kind name = some m := by
  unfold Registry.find? at found ⊢
  dsimp only at found ⊢
  have first : ((r.meanings.get? name).getD []).find? (·.fits kind) = some m := by
    simpa using found
  rw [first]
  -- The first meaning that fits is no typedef, or it is not that of a typedef being resolved.
  obtain ⟨fits, before, behind, split, earlier⟩ := List.find?_eq_some_iff_append.mp first
  have taken : ((r.meanings.get? name).getD []).find? (fun m =>
      m.fits kind && !(resolving.contains name && m.isTypedef)) = some m := by
    refine List.find?_eq_some_iff_append.mpr ⟨?_, before, behind, split, fun a ha => ?_⟩
    · by_cases here : name ∈ resolving
      · simp [fits, other here]
      · simp [fits, here]
    · simp [show a.fits kind = false by simpa using earlier a ha]
  rw [taken]
  rfl

/-- A typedef that is being resolved and comes up again leads back to itself, so that it makes no
difference that it is being resolved. -/
theorem findIn_resolving (h : Coherent r) (led : ∀ q ∈ resolving, ∀ n, R n → TransGen r.Leads q n)
    {scopes : List String} (inside : ∀ q m, findIn r [] kind name scopes = some (q, m) →
      m.leadsOn → R q) :
    findIn r resolving kind name scopes = findIn r [] kind name scopes := by
  induction scopes with
  | nil => rfl
  | cons scope scopes ih =>
    unfold findIn at inside ⊢
    dsimp only at inside ⊢
    cases found : r.find? [] kind (Name.qualify scope name) with
    | none =>
      rw [found] at inside
      rw [Registry.find?_eq_none.mpr (Registry.find?_eq_none.mp found)]
      exact ih inside
    | some m =>
      rw [found] at inside
      have same : r.find? resolving kind (Name.qualify scope name) = some m := by
        by_cases typedef : m.isTypedef
        · by_cases here : Name.qualify scope name ∈ resolving
          · have leads : m.leadsOn := by
              cases m <;> first | rfl | cases typedef
            rw [h.stable _ (led _ here _ (inside _ m rfl leads)), found]
          · exact Registry.find?_resolving found fun mem => absurd mem here
        · exact Registry.find?_resolving found fun _ => by simpa using typedef
      rw [same]

theorem Inside.findsAlike (h : Coherent r) {site : Site} (led : site.LedTo r R) {p : PathExpr}
    {s : State} (same : r.Same s.registry) (inside : Inside r R ⟨site.view, kind, p⟩) :
    FindsAlike r s site kind p := by
  intro own
  rw [findIn_congr (same.find? site.resolving kind)]
  refine findIn_resolving h led fun q m found leads => inside.2 q m ?_ leads
  unfold Registry.found
  rw [own]
  dsimp only
  rw [found]

theorem Inside.meant {u : NameUse} (inside : Inside r R u) {f : Found} (found : r.found u = some f) :
    f.Known (Meant r R) := by
  cases f with
  | type t => trivial
  | meaning q m =>
    refine ⟨?_, inside.2 q m found⟩
    unfold Registry.found at found
    split at found
    · cases found
    · dsimp only at found
      split at found
      · rename_i known
        cases found
        exact Registry.mem_of_find? (find?_of_findIn known)
      · split at found <;> cases found

end Found

end HeaderDecl.Resolution
