import HeaderDecl.Proofs.DeclaredNames
import HeaderDecl.Proofs.RegisteredNames
import HeaderDecl.Resolution.Instantiation

/-!
Steps of a resolution and the references they come to. Every type that is kept or returned mentions names
with a meaning and is linked to specializations whose arguments are kept, and a name that gets its meaning
on the way is declared along with it.
-/

namespace HeaderDecl.Resolution

/-- Whether an entry is there without a declaration of its own: a macro constant, or what a name behind a
keyword declares. -/
def Implied (e : Entry) : Prop :=
  (∃ c, e.decl = .constant c) ∨ ∃ kind name, e.decl = (forwardDecl kind name).1

/-- One of the specializations of a template. -/
def Registry.pattern? (r : Registry) (template : String) (i : Nat) : Option Pattern :=
  ((r.patterns.get? template).getD [])[i]?

/-- How far the arguments of a specialization of a template are resolved. -/
def Registry.progress? (r : Registry) (template : String) (i : Nat) : Option Progress :=
  (r.pattern? template i).map (·.progress)

/-- Whether a registry knows what is referred to: the meaning of a name, or a specialization with its
arguments as they are written. -/
def Registry.Holds (r : Registry) : Reference → Prop
  | .declaration n => r.Knows n
  | .specialization template args =>
    ∃ i filled, r.progress? template i = some (.resolved args filled)

/-- Whether one registry comes of another one in a resolution: it holds all that was held, and whatever
specialization was under way still is. -/
structure Registry.Extends (r r' : Registry) : Prop where
  holds : ∀ x, r.Holds x → r'.Holds x
  underWay : ∀ template i, r.progress? template i = some .underWay →
    r'.progress? template i = some .underWay

theorem Registry.Extends.refl (r : Registry) : r.Extends r := ⟨fun _ h => h, fun _ _ h => h⟩

theorem Registry.Extends.trans {r r' r'' : Registry} (h : r.Extends r') (h' : r'.Extends r'') :
    r.Extends r'' :=
  ⟨fun x hx => h'.holds x (h.holds x hx), fun q i hq => h'.underWay q i (h.underWay q i hq)⟩

/-- What holds at any point of the resolution of some visits, with what was inserted so far. -/
structure Sound (ws : List Visit) (log : List Inserted) (s : State) : Prop where
  history : Model.History log s.model
  origins : ∀ x ∈ log, Implied x.entry ∨ ∃ w ∈ ws, x.qualifiedName = w.declares
  entries : ∀ x ∈ log, ∀ y, Referred x.entry.decl.types y → s.registry.Holds y
  known : ∀ n, s.registry.Knows n →
    (Registry.ofVisits ws).Knows n ∨ n.toList.head? = some ':' ∨ ∃ x ∈ log, x.qualifiedName = some n
  terminals : ∀ name t, s.terminals.get? name = some t → ∀ x, t.RefersTo x → s.registry.Holds x
  patterns : ∀ name ps, s.registry.patterns.get? name = some ps → ∀ p ∈ ps, ∀ written filled,
    p.progress = .resolved written filled →
      ∀ x, Referred ((written ++ filled).flatMap (·.types)) x → s.registry.Holds x

/-- Nothing else of the state has a part in it. -/
theorem Sound.congr {ws : List Visit} {log : List Inserted} {s t : State} (h : Sound ws log s)
    (model : t.model = s.model) (registry : t.registry = s.registry)
    (terminals : t.terminals = s.terminals) : Sound ws log t := by
  obtain ⟨history, origins, entries, known, ends, patterns⟩ := h
  refine ⟨?_, origins, ?_, ?_, ?_, ?_⟩
  · rwa [model]
  · rwa [registry]
  · rwa [registry]
  · rwa [terminals, registry]
  · rwa [registry]

/-- Where some references are held, a computation that succeeds keeps what holds, inserts nothing but
what is implied, and the references of its result are held. -/
def Resolves {α : Type} (ws : List Visit) (context : Reference → Prop) (x : Resolver α)
    (result : α → Reference → Prop) : Prop :=
  ∀ log s a t, Sound ws log s → (∀ y, context y → s.registry.Holds y) → x s = (.ok a, t) →
    ∃ more, (∀ x ∈ more, Implied x.entry) ∧ Sound ws (log ++ more) t ∧
      s.registry.Extends t.registry ∧ ∀ y, result a y → t.registry.Holds y

def nothing {α : Type} : α → Reference → Prop := fun _ _ => False

section Rules

variable {α β : Type} {ws : List Visit} {context : Reference → Prop} {x : Resolver α}
  {f : α → Resolver β} {a : α} {result : α → Reference → Prop} {result' : β → Reference → Prop}

theorem bind_run (x : Resolver α) (f : α → Resolver β) (s : State) :
    (x >>= f) s = match x s with
      | (.ok a, t) => f a t
      | (.error e, t) => (.error e, t) := rfl

theorem bind_eq_ok {s t : State} {b : β} (h : (x >>= f) s = (.ok b, t)) :
    ∃ a u, x s = (.ok a, u) ∧ f a u = (.ok b, t) := by
  change Resolver.bind x f s = _ at h
  unfold Resolver.bind at h
  split at h
  · exact ⟨_, _, ‹_›, h⟩
  · cases h

theorem Resolves.pure (h : ∀ y, result a y → context y) : Resolves ws context (pure a) result := by
  intro log s b t hs held run
  cases run
  refine ⟨[], by simp, ?_, .refl _, fun y hy => held y (h y hy)⟩
  rwa [List.append_nil]

theorem Resolves.bind (first : Resolves ws context x result)
    (next : ∀ a, Resolves ws (fun y => context y ∨ result a y) (f a) result') :
    Resolves ws context (x >>= f) result' := by
  intro log s b t hs held run
  obtain ⟨a, u, hx, hf⟩ := bind_eq_ok run
  obtain ⟨more, implied, hu, grows, found⟩ := first log s a u hs held hx
  -- What was held stays so, and the context of the first step is still one.
  have context' : ∀ y, context y ∨ result a y → u.registry.Holds y := by
    rintro y (h | h)
    · exact grows.holds y (held y h)
    · exact found y h
  obtain ⟨more', implied', ht, grows', found'⟩ := next a _ u b t hu context' hf
  refine ⟨more ++ more', fun y hy => ?_, by rwa [← List.append_assoc], grows.trans grows', found'⟩
  rcases List.mem_append.mp hy with hy | hy
  · exact implied y hy
  · exact implied' y hy

theorem Resolves.map {g : α → β} (first : Resolves ws context x result)
    (h : ∀ a y, result' (g a) y → result a y) :
    Resolves ws context (x >>= fun a => Pure.pure (g a)) result' :=
  first.bind fun a => .pure fun y hy => Or.inr (h a y hy)

/-- What is made of two results refers to what they refer to. -/
theorem Resolves.map₂ {γ : Type} {z : Resolver β} {g : α → β → γ} {result'' : γ → Reference → Prop}
    (first : Resolves ws context x result)
    (second : ∀ a, Resolves ws (fun y => context y ∨ result a y) z result')
    (h : ∀ a b y, result'' (g a b) y → result a y ∨ result' b y) :
    Resolves ws context (x >>= fun a => z >>= fun b => Pure.pure (g a b)) result'' := by
  refine first.bind fun a => (second a).bind fun b => .pure fun y hy => ?_
  rcases h a b y hy with hy | hy
  · exact Or.inl (Or.inr hy)
  · exact Or.inr hy

theorem Resolves.fail {site : Site} {cause : FatalCause} :
    Resolves ws context (Resolver.fail site cause) result := by
  intro log s a t hs held run
  cases run

/-- A computation that looks at the state may use whatever is held there. -/
theorem Resolves.get {f : State → Resolver β}
    (next : ∀ log s, Sound ws log s →
      Resolves ws (fun y => context y ∨ s.registry.Holds y) (f s) result') :
    Resolves ws context (Resolver.get >>= f) result' := by
  intro log s b t hs held run
  obtain ⟨u, v, hu, hf⟩ := bind_eq_ok run
  cases hu
  refine next log s hs log s b t hs ?_ hf
  rintro y (h | h)
  · exact held y h
  · exact h

/-- A change of the state that has no part in the registry. -/
theorem Resolves.modify {f : State → State}
    (keeps : ∀ log s, Sound ws log s → (∀ y, context y → s.registry.Holds y) →
      Sound ws log (f s))
    (registry : ∀ s, (f s).registry = s.registry) :
    Resolves ws context (Resolver.modify f) nothing := by
  intro log s a t hs held run
  cases run
  refine ⟨[], by simp, ?_, ?_, fun y h => False.elim h⟩
  · rw [List.append_nil]
    exact keeps log s hs held
  · rw [registry]
    exact .refl _

end Rules

/-! ### Declaring -/

variable {ws : List Visit} {log : List Inserted} {s : State}

/-- A declaration added to the scope with a path. -/
def State.declare (s : State) (path : String) (kind : ScopeKind) (e : Entry) : State :=
  let (model, id) := s.model.scopeOrInsert path kind
  let (model, ds) := model.insertReporting id e
  { s with model, diagnostics := s.diagnostics ++ ds }

theorem run_declare (path : String) (kind : ScopeKind) (e : Entry) (s : State) :
    (Resolver.scope path kind >>= fun id => Resolver.insert id e) s =
      (.ok (), s.declare path kind e) := rfl

theorem Sound.scope (h : Sound ws log s) (path : String) (kind : ScopeKind) :
    Sound ws log { s with model := (s.model.scopeOrInsert path kind).1 } :=
  ⟨h.history.scopeOrInsert path kind, h.origins, h.entries, h.known, h.terminals, h.patterns⟩

/-- What a visit declares may be added to a scope, and so may an implied entry, if what it refers to is
held. -/
theorem Sound.insert (h : Sound ws log s) {i : Nat} {sc : Scope}
    (hsc : s.model.scopes[i]? = some sc) {e : Entry}
    (origin : Implied e ∨ ∃ w ∈ ws, e.decl.name.map (Name.qualify sc.path) = w.declares)
    (he : ∀ y, Referred e.decl.types y → s.registry.Holds y) (ds : List Diagnostic) :
    ∃ x : Inserted, x.path = sc.path ∧ x.entry = e ∧ Sound ws (log ++ [x])
      { s with model := (s.model.insertReporting i e).1, diagnostics := ds } := by
  have history := h.history.insert hsc e
  have same : (s.model.insertReporting i e).1 = (s.model.insert i e).1 := by
    rw [Model.insertReporting_eq hsc]
  rw [← same] at history
  -- The history is longer by one entry, and the registry is the same.
  refine ⟨_, ?_, ?_, ⟨history, ?_, ?_, ?_, h.terminals, h.patterns⟩⟩
  · rfl
  · rfl
  · intro y hy
    rcases List.mem_append.mp hy with hy | hy
    · exact h.origins y hy
    · rw [List.mem_singleton.mp hy]
      exact origin
  · intro y hy z hz
    rcases List.mem_append.mp hy with hy | hy
    · exact h.entries y hy z hz
    · rw [List.mem_singleton.mp hy] at hz
      exact he z hz
  · intro n hn
    rcases h.known n hn with hb | hc | ⟨y, hy, hq⟩
    · exact Or.inl hb
    · exact Or.inr (Or.inl hc)
    · exact Or.inr (Or.inr ⟨y, List.mem_append_left _ hy, hq⟩)

theorem Sound.declare (h : Sound ws log s) (path : String) (kind : ScopeKind) {e : Entry}
    (origin : Implied e ∨ ∃ w ∈ ws, e.decl.name.map (Name.qualify path) = w.declares)
    (he : ∀ y, Referred e.decl.types y → s.registry.Holds y) :
    ∃ x : Inserted, x.path = path ∧ x.entry = e ∧
      Sound ws (log ++ [x]) (s.declare path kind e) := by
  obtain ⟨sc, hsc, rfl⟩ := (Model.opened_scopeOrInsert h.history.tracks.valid path kind).here
  exact (h.scope sc.path kind).insert hsc origin he _

theorem Registry.extends_addMeaning (r : Registry) (name : String) (m : Meaning) :
    r.Extends (r.addMeaning name m) := by
  refine ⟨fun x hx => ?_, fun _ _ h => h⟩
  cases x with
  | declaration n => exact Registry.knows_addMeaning.mpr (Or.inr hx)
  | specialization template args => exact hx

/-- A name that was declared may be given a meaning. -/
theorem Sound.addMeaning (h : Sound ws log s) {name : String} {m : Meaning}
    (declared : name.toList.head? = some ':' ∨ ∃ x ∈ log, x.qualifiedName = some name) :
    Sound ws log { s with registry := s.registry.addMeaning name m } := by
  have more := (s.registry.extends_addMeaning name m).holds
  refine ⟨h.history, h.origins, fun x hx y hy => more y (h.entries x hx y hy), ?_,
    fun q t ht y hy => more y (h.terminals q t ht y hy),
    fun q ps hps p hp w f hr y hy => more y (h.patterns q ps hps p hp w f hr y hy)⟩
  intro n hn
  rcases Registry.knows_addMeaning.mp hn with rfl | hn
  · exact Or.inr declared
  · exact h.known n hn

/-! ### Specializations -/

/-- A state in which the arguments of a specialization are resolved to some degree. -/
def State.withProgress (s : State) (template : String) (i : Nat) (progress : Progress) : State :=
  let ps := ((s.registry.patterns.get? template).getD []).modify i ({ · with progress })
  { s with registry := { s.registry with patterns := s.registry.patterns.insert template ps } }

theorem setProgress_run (template : String) (i : Nat) (progress : Progress) (s : State) :
    setProgress template i progress s = (.ok (), s.withProgress template i progress) := rfl

theorem pattern?_withProgress (s : State) (template : String) (i : Nat) (progress : Progress)
    (q : String) (j : Nat) : (s.withProgress template i progress).registry.pattern? q j =
      if q = template ∧ j = i then (s.registry.pattern? q j).map ({ · with progress })
      else s.registry.pattern? q j := by
  unfold Registry.pattern? State.withProgress
  dsimp only
  rw [NameMap.get?_insert]
  by_cases same : q = template
  · subst same
    rw [if_pos rfl, Option.getD_some, List.getElem?_modify]
    by_cases here : i = j
    · subst here
      simp
    · simp [here, Ne.symm here]
  · simp [same]

theorem progress?_withProgress (s : State) (template : String) (i : Nat) (progress : Progress)
    (q : String) (j : Nat) : (s.withProgress template i progress).registry.progress? q j =
      if q = template ∧ j = i then (s.registry.progress? q j).map fun _ => progress
      else s.registry.progress? q j := by
  unfold Registry.progress?
  rw [pattern?_withProgress]
  split
  · rw [Option.map_map, Option.map_map]
    rfl
  · rfl

/-- What a specialization is resolved to is no longer touched. -/
theorem holds_withProgress {template : String} {i : Nat}
    (unresolved : ∀ w f, s.registry.progress? template i ≠ some (.resolved w f)) (progress : Progress)
    {y : Reference} (hy : s.registry.Holds y) :
    (s.withProgress template i progress).registry.Holds y := by
  cases y with
  | declaration n => exact hy
  | specialization q args =>
    obtain ⟨j, filled, resolved⟩ := hy
    refine ⟨j, filled, ?_⟩
    rw [progress?_withProgress, if_neg, resolved]
    rintro ⟨rfl, rfl⟩
    exact unresolved _ _ resolved

theorem Sound.withProgress (h : Sound ws log s) {template : String} {i : Nat}
    (unresolved : ∀ w f, s.registry.progress? template i ≠ some (.resolved w f)) {progress : Progress}
    (args : ∀ w f, progress = .resolved w f →
      ∀ y, Referred ((w ++ f).flatMap (·.types)) y → s.registry.Holds y) :
    Sound ws log (s.withProgress template i progress) := by
  have more {y : Reference} (hy : s.registry.Holds y) := holds_withProgress unresolved progress hy
  refine ⟨h.history, h.origins, fun x hx y hy => more (h.entries x hx y hy), h.known,
    fun q t ht y hy => more (h.terminals q t ht y hy), ?_⟩
  intro q ps hps p hp w f resolved y hy
  obtain ⟨j, hj⟩ := List.mem_iff_getElem?.mp hp
  have found : (s.withProgress template i progress).registry.pattern? q j = some p := by
    rw [Registry.pattern?, hps]
    exact hj
  rw [pattern?_withProgress] at found
  -- The one whose progress is set, or another one, which stays as it was.
  split at found
  · obtain ⟨old, -, rfl⟩ := Option.map_eq_some_iff.mp found
    exact more (args w f resolved y hy)
  · obtain ⟨qs, hqs, hp⟩ : ∃ qs, s.registry.patterns.get? q = some qs ∧ p ∈ qs := by
      cases known : s.registry.patterns.get? q with
      | none => simp [Registry.pattern?, known] at found
      | some qs =>
        rw [Registry.pattern?, known] at found
        exact ⟨qs, rfl, List.mem_of_getElem? found⟩
    exact more (h.patterns q qs hqs p hp w f resolved y hy)

/-! ### Names -/

theorem forwardDecl_name (kind : NamedKind) (name : String) :
    (forwardDecl kind name).1.name = some name := by
  cases kind <;> rfl

theorem forwardDecl_types {kind : NamedKind} {name : String} {y : Reference} :
    ¬ Referred (forwardDecl kind name).1.types y := by
  cases kind <;> simp [forwardDecl, NamedKind.toRecord?, Decl.types, RecordDecl.forward,
    RecordDecl.types]

/-- The name that a name behind a keyword is declared under. -/
def impliedName (r : Registry) (v : View) (name : String) : String :=
  Name.qualify (((Name.enclosing v.scope).find? fun scope => !r.recordScopes.contains scope).getD "") name

theorem run_declareImplicitly (site : Site) (kind : NamedKind) (name : String) (s : State) :
    ∃ q, declareImplicitly site kind name s = (.ok (.named q kind),
      { s.declare (Name.splitScope q).1 .namespaceScope
          ⟨(forwardDecl kind (Name.splitScope q).2).1, site.origin⟩ with
        registry := s.registry.addMeaning q (forwardDecl kind (Name.splitScope q).2).2 }) :=
  ⟨_, rfl⟩

theorem resolves_declareImplicitly (site : Site) (kind : NamedKind) (name : String)
    {context : Reference → Prop} :
    Resolves ws context (declareImplicitly site kind name) (fun t y => t.RefersTo y) := by
  intro log s t u hs held run
  obtain ⟨q, hq⟩ := run_declareImplicitly site kind name s
  rw [hq] at run
  cases run
  have byKeyword : Implied ⟨(forwardDecl kind (Name.splitScope q).2).1, site.origin⟩ :=
    Or.inr ⟨kind, _, rfl⟩
  obtain ⟨x, hpath, hentry, sound⟩ := hs.declare (Name.splitScope q).1 .namespaceScope
    (Or.inl byKeyword)
    (fun y hy => False.elim (forwardDecl_types hy))
  -- The name is split for the insertion; joined again it is itself, but for a leading separator.
  have declared : q.toList.head? = some ':' ∨ ∃ y ∈ log ++ [x], y.qualifiedName = some q := by
    by_cases colon : q.toList.head? = some ':'
    · exact Or.inl colon
    · refine Or.inr ⟨x, by simp, ?_⟩
      rw [Inserted.qualifiedName, hpath, hentry, forwardDecl_name, Option.map_some,
        Name.qualify_splitScope colon]
  refine ⟨[x], fun y hy => ?_, sound.addMeaning declared, s.registry.extends_addMeaning q _,
    fun y hy => ?_⟩
  · rwa [List.mem_singleton.mp hy, hentry]
  · rw [TypeRef.refersTo_named.mp hy]
    exact Registry.knows_addMeaning.mpr (Or.inl rfl)

section Found

variable {r : Registry} {resolving : List String} {kind : Option NamedKind} {name q : String}
  {scopes : List String} {m : Meaning}

theorem find?_of_findIn (h : findIn r resolving kind name scopes = some (q, m)) :
    r.find? resolving kind q = some m := by
  induction scopes with
  | nil => cases h
  | cons scope scopes ih =>
    unfold findIn at h
    dsimp only at h
    split at h
    · cases h
      exact ‹_›
    · exact ih h

theorem findIn_of_innermost {scope : String} {before behind : List String}
    (none : ∀ s ∈ before, r.find? resolving kind (Name.qualify s name) = none)
    (here : r.find? resolving kind (Name.qualify scope name) = some m) :
    findIn r resolving kind name (before ++ scope :: behind) = some (Name.qualify scope name, m) := by
  induction before with
  | nil =>
    rw [List.nil_append, findIn, here]
  | cons s before ih =>
    rw [List.cons_append, findIn, none s List.mem_cons_self]
    exact ih fun s' mem => none s' (List.mem_cons_of_mem _ mem)

theorem exists_scope_of_findIn (found : findIn r resolving kind name scopes = some (q, m)) :
    ∃ scope ∈ scopes, q = Name.qualify scope name := by
  induction scopes with
  | nil => cases found
  | cons scope scopes ih =>
    unfold findIn at found
    dsimp only at found
    split at found
    · cases found
      exact ⟨scope, List.mem_cons_self, rfl⟩
    · obtain ⟨scope', visible, same⟩ := ih found
      exact ⟨scope', List.mem_cons_of_mem _ visible, same⟩

end Found

/-- The references of what a name is found to be. -/
def Found.RefersTo : Found → Reference → Prop
  | .type t, y => t.RefersTo y
  | .meaning name _, y => y = .declaration name

theorem ownType?_refersTo {v : View} {p : PathExpr} {t : TypeRef} (h : ownType? v p = some t)
    {y : Reference} : ¬ t.RefersTo y := by
  unfold ownType? at h
  split at h
  · split at h
    · cases h
      exact TypeRef.refersTo_dependent
    · cases h
      exact TypeRef.refersTo_param
  · split at h
    · cases h
      exact TypeRef.refersTo_dependent
    · cases h

theorem resolves_look (site : Site) (kind : Option NamedKind) (p : PathExpr)
    {context : Reference → Prop} : Resolves ws context (look site kind p) Found.RefersTo := by
  unfold look
  split
  · rename_i t own
    exact .pure fun y hy => False.elim (ownType?_refersTo own hy)
  · refine .get fun log s hs => ?_
    dsimp only
    split
    · rename_i q m found
      refine .pure fun y hy => Or.inr ?_
      rw [show y = .declaration q from hy]
      exact Registry.knows_of_find (find?_of_findIn found)
    · split
      · exact .pure fun y hy => False.elim (TypeRef.refersTo_builtin hy)
      · split
        · exact (resolves_declareImplicitly site _ _).bind fun t => .pure fun y hy => Or.inr hy
        · exact .fail

end HeaderDecl.Resolution
