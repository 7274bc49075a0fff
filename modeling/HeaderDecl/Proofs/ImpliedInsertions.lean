import HeaderDecl.Proofs.PlainItems
import HeaderDecl.Proofs.ResolutionSteps

/-!
What the resolution of a type inserts. It declares names behind keywords and nothing else, and it reports
no other conflicts than those with what it declares.
-/

namespace HeaderDecl.Resolution

/-- Whether an insertion declares a name behind a keyword. The name is one identifier. -/
def ByKeyword (x : Inserted) : Prop :=
  ∃ kind name, Name.Plain name ∧ x.entry.decl = (forwardDecl kind name).1

/-- The diagnostics for what was refused. -/
def conflicts (ds : List Diagnostic) : List Diagnostic :=
  ds.filter (·.kind = .conflictingRedeclaration)

theorem conflicts_append (ds ds' : List Diagnostic) :
    conflicts (ds ++ ds') = conflicts ds ++ conflicts ds' := List.filter_append ds ds'

theorem conflicts_reported (x : Inserted) :
    conflicts (Model.reported x).toList = (Model.reported x).toList := by
  unfold Model.reported
  split <;> rfl

/-! ### Registered names -/

/-- Whether the types that a meaning brings are written with identifiers, and stand in some scope. -/
def Meaning.Placed (records : List String) : Meaning → Prop
  | .typedef target view => target.Plain ∧ view.Placed records
  | .template _ params view => (∀ t ∈ params.flatMap (·.types), t.Plain) ∧ view.Placed records
  | .record _ | .enum => True

def Pattern.Placed (records : List String) (p : Pattern) : Prop :=
  (∀ t ∈ p.args.flatMap (·.types), t.Plain) ∧ p.view.Placed records

/-- A registry with some record scopes, all of whose types are written with identifiers. -/
structure Registry.Placed (records : List String) (r : Registry) : Prop where
  scopes : r.recordScopes = records
  meanings : ∀ name ms, r.meanings.get? name = some ms → ∀ m ∈ ms, m.Placed records
  patterns : ∀ name ps, r.patterns.get? name = some ps → ∀ p ∈ ps, p.Placed records

section Registered

variable {records : List String} {r : Registry}

/-- What is put behind the values of a name is one of its values. -/
theorem mem_push {α : Type} {m : NameMap (List α)} {name n : String} {a b : α} {bs : List α}
    (h : (Registry.push m name a).get? n = some bs) (hb : b ∈ bs) :
    b = a ∨ ∃ cs, m.get? n = some cs ∧ b ∈ cs := by
  unfold Registry.push at h
  rw [NameMap.get?_insert] at h
  split at h
  · rename_i same
    cases h
    rcases List.mem_append.mp hb with hb | hb
    · cases old : m.get? name with
      | none => simp [old] at hb
      | some cs =>
        rw [old] at hb
        exact .inr ⟨cs, same ▸ old, hb⟩
    · exact .inl (List.mem_singleton.mp hb)
  · exact .inr ⟨bs, h, hb⟩

theorem Registry.Placed.addMeaning (h : r.Placed records) {name : String} {m : Meaning}
    (hm : m.Placed records) : (r.addMeaning name m).Placed records := by
  refine ⟨h.scopes, fun n ms hms q hq => ?_, h.patterns⟩
  rcases mem_push hms hq with rfl | ⟨ms, hms, hq⟩
  · exact hm
  · exact h.meanings n ms hms q hq

theorem Registry.Placed.addPattern (h : r.Placed records) {template : String} {p : Pattern}
    (hp : p.Placed records) : (r.addPattern template p).Placed records := by
  refine ⟨h.scopes, h.meanings, fun n ps hps q hq => ?_⟩
  rcases mem_push hps hq with rfl | ⟨ps, hps, hq⟩
  · exact hp
  · exact h.patterns n ps hps q hq

theorem Registry.Placed.find (h : r.Placed records) {resolving : List String}
    {kind : Option NamedKind} {name : String} {m : Meaning}
    (found : r.find? resolving kind name = some m) : m.Placed records := by
  cases hms : r.meanings.get? name with
  | none => simp [Registry.find?, hms] at found
  | some ms =>
    have known := Registry.mem_of_find? found
    rw [hms] at known
    exact h.meanings name ms hms m known

theorem Registry.Placed.findIn (h : r.Placed records) {resolving : List String}
    {kind : Option NamedKind} {name : String} {scopes : List String} {q : String} {m : Meaning}
    (found : findIn r resolving kind name scopes = some (q, m)) : m.Placed records :=
  h.find (find?_of_findIn found)

end Registered

/-! ### What is inserted -/

/-- What holds while some visits are resolved: the model comes of what was inserted, and of that
everything that was refused was reported. -/
structure Accounted (records : List String) (log : List Inserted) (s : State) : Prop where
  history : Model.History log s.model
  registry : s.registry.Placed records
  reported : conflicts s.diagnostics = log.filterMap Model.reported

/-- A computation that inserts nothing but names behind keywords. -/
def Adds {α : Type} (records : List String) (x : Resolver α)
    (result : α → Prop := fun _ => True) : Prop :=
  ∀ log s a t, Accounted records log s → x s = (.ok a, t) →
    ∃ more, (∀ y ∈ more, ByKeyword y) ∧ Accounted records (log ++ more) t ∧ result a

section Rules

variable {α β : Type} {records : List String} {x : Resolver α} {f : α → Resolver β} {a : α}
  {result : α → Prop} {result' : β → Prop}

theorem Adds.pure (h : result a) : Adds records (pure a) result := by
  intro log s b t hs run
  cases run
  exact ⟨[], by simp, by rwa [List.append_nil], h⟩

theorem Adds.bind (first : Adds records x result) (next : ∀ a, result a → Adds records (f a) result') :
    Adds records (x >>= f) result' := by
  intro log s b t hs run
  obtain ⟨a, u, hx, hf⟩ := bind_eq_ok run
  obtain ⟨more, implied, hu, ha⟩ := first log s a u hs hx
  obtain ⟨more', implied', ht, hb⟩ := next a ha _ u b t hu hf
  refine ⟨more ++ more', fun y hy => ?_, by rwa [← List.append_assoc], hb⟩
  rcases List.mem_append.mp hy with hy | hy
  · exact implied y hy
  · exact implied' y hy

/-- What comes after a computation does not ask for its result. -/
theorem Adds.after (first : Adds records x) (next : ∀ a, Adds records (f a) result') :
    Adds records (x >>= f) result' :=
  first.bind fun a _ => next a

theorem Adds.done (first : Adds records x) {g : α → β} :
    Adds records (x >>= fun a => Pure.pure (g a)) :=
  first.after fun _ => .pure trivial

theorem Adds.fail {site : Site} {cause : FatalCause} :
    Adds records (Resolver.fail site cause) result := by
  intro log s a t hs run
  cases run

theorem Adds.get {f : State → Resolver β}
    (next : ∀ s, s.registry.Placed records → Adds records (f s) result') :
    Adds records (Resolver.get >>= f) result' := by
  intro log s b t hs run
  obtain ⟨u, v, hu, hf⟩ := bind_eq_ok run
  cases hu
  exact next s hs.registry log s b t hs hf

/-- A change of the state that has no part in the model. -/
theorem Adds.modify {f : State → State} (model : ∀ s, (f s).model = s.model)
    (diagnostics : ∀ s, conflicts (f s).diagnostics = conflicts s.diagnostics)
    (registry : ∀ s, s.registry.Placed records → (f s).registry.Placed records) :
    Adds records (Resolver.modify f) := by
  intro log s a t hs run
  cases run
  refine ⟨[], by simp, ?_, trivial⟩
  rw [List.append_nil]
  refine ⟨?_, registry s hs.registry, ?_⟩
  · rw [model]
    exact hs.history
  · rw [diagnostics]
    exact hs.reported

end Rules

section Names

variable {records : List String} {log : List Inserted} {s : State}

theorem Accounted.scope (h : Accounted records log s) (path : String) (kind : ScopeKind) :
    Accounted records log { s with model := (s.model.scopeOrInsert path kind).1 } :=
  ⟨h.history.scopeOrInsert path kind, h.registry, h.reported⟩

/-- What is inserted is accounted for, and reported if it is refused. -/
theorem Accounted.insert (h : Accounted records log s) {i : Nat} {sc : Scope}
    (hsc : s.model.scopes[i]? = some sc) (e : Entry) :
    Accounted records (log ++ [⟨sc.path, e, (s.model.insert i e).2⟩])
      { s with
        model := (s.model.insertReporting i e).1
        diagnostics := s.diagnostics ++ (s.model.insertReporting i e).2 } := by
  have history := h.history.insert hsc e
  rw [Model.insertReporting_eq hsc]
  refine ⟨history, h.registry, ?_⟩
  rw [conflicts_append, h.reported, conflicts_reported, List.filterMap_append]
  congr 1

/-- Whatever is declared in the scope with a path is the last thing that was inserted. -/
theorem Accounted.declare (h : Accounted records log s) (path : String) (kind : ScopeKind)
    (e : Entry) : ∃ outcome,
      Accounted records (log ++ [⟨path, e, outcome⟩]) (s.declare path kind e) := by
  obtain ⟨sc, hsc, rfl⟩ := (Model.opened_scopeOrInsert h.history.tracks.valid path kind).here
  exact ⟨_, (h.scope sc.path kind).insert hsc e⟩

/-- A name behind a keyword is declared in a scope behind which no bracket is open, for that is no record. -/
theorem splitScope_impliedName {r : Registry} (hr : r.Placed records) {v : View}
    (hv : v.Placed records) {p : PathExpr} (hp : ∀ seg ∈ p.segments, Name.Plain seg.name) :
    (Name.splitScope (impliedName r v p.plainName)).2 = p.last.name := by
  refine Name.splitScope_qualify_plainName ?_ hp
  cases found : (Name.enclosing v.scope).find? fun scope => !r.recordScopes.contains scope with
  | none => exact Name.bare_empty.settled
  | some scope =>
    -- A scope without brackets, or one around a scope: there every bracket is closed.
    have outside : scope ∉ records := by
      have other := List.find?_some found
      rw [hr.scopes] at other
      simpa using other
    rw [Option.getD_some]
    rcases Name.settled_of_mem_enclosing (List.mem_of_find?_eq_some found) with rfl | settled
    · exact (hv.resolve_left outside).settled
    · exact settled

theorem adds_declareImplicitly {site : Site} (hv : site.view.Placed records) {kind : NamedKind}
    {p : PathExpr} (hp : ∀ seg ∈ p.segments, Name.Plain seg.name) :
    Adds records (declareImplicitly site kind p.plainName) := by
  intro log s t u hs run
  -- So what is declared has the last segment for its name, which is one identifier.
  have last := splitScope_impliedName hs.registry hv hp
  obtain ⟨outcome, declared⟩ := hs.declare
    (Name.splitScope (impliedName s.registry site.view p.plainName)).1 .namespaceScope
    ⟨(forwardDecl kind p.last.name).1, site.origin⟩
  have placed : (forwardDecl kind p.last.name).2.Placed records := by cases kind <;> trivial
  have whole : declareImplicitly site kind p.plainName s =
      (.ok (.named (impliedName s.registry site.view p.plainName) kind),
        { s.declare (Name.splitScope (impliedName s.registry site.view p.plainName)).1 .namespaceScope
            ⟨(forwardDecl kind (Name.splitScope (impliedName s.registry site.view p.plainName)).2).1,
              site.origin⟩ with
          registry := s.registry.addMeaning (impliedName s.registry site.view p.plainName)
            (forwardDecl kind (Name.splitScope (impliedName s.registry site.view p.plainName)).2).2 }) :=
    rfl
  rw [whole, last] at run
  cases run
  refine ⟨[_], ?_, ⟨declared.history, hs.registry.addMeaning placed, declared.reported⟩, trivial⟩
  intro y hy
  rw [List.mem_singleton.mp hy]
  exact ⟨kind, p.last.name, hp p.last (by simp [NamePath.segments]), rfl⟩

/-- Whether what a name is found to mean is written with identifiers. -/
def Found.Placed (records : List String) : Found → Prop
  | .type _ => True
  | .meaning _ m => m.Placed records

theorem adds_look {site : Site} (hv : site.view.Placed records) (kind : Option NamedKind)
    {p : PathExpr} (hp : ∀ seg ∈ p.segments, Name.Plain seg.name) :
    Adds records (look site kind p) (Found.Placed records) := by
  unfold look
  split
  · exact .pure trivial
  · refine .get fun s hs => ?_
    dsimp only
    split
    · rename_i q m found
      exact .pure (hs.findIn found)
    · split
      · exact .pure trivial
      · split
        · exact (adds_declareImplicitly hv hp).after fun t => .pure trivial
        · exact .fail

end Names

end HeaderDecl.Resolution
