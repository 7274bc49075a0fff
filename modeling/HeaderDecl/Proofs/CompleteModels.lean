import HeaderDecl.Proofs.ResolvedVisits
import HeaderDecl.Proofs.RetainedEntries

/-!
Nothing is lost in a resolution. Every constant and every declaration, at any depth, has its entry in the
scope of the namespaces and records around it, entries are appended in the order of the file, and every
refusal is reported.
-/

namespace HeaderDecl.Resolution

/-! ### Where declarations stand -/

/-- A declaration that stands among some items, or within one of them, is looked at with the view that
the namespaces and records around it lead to. -/
inductive Stands (d : ParsedDecl) (origin : Origin) (view : View) : View → List Item → Prop
  | here {items nested : List Item} (h : .decl d nested origin ∈ items) :
      Stands d origin view view items
  | inNamespace {v : View} {items inner : List Item} {name : String} {o : Origin}
      (h : .namespaceItem (some name) inner o ∈ items)
      (within : Stands d origin view (v.enter name) inner) : Stands d origin view v items
  | inUnnamed {v : View} {items inner : List Item} {o : Origin}
      (h : .namespaceItem none inner o ∈ items) (within : Stands d origin view v inner) :
      Stands d origin view v items
  | inRecord {v : View} {items nested : List Item} {outer : ParsedDecl} {o : Origin}
      (h : .decl outer nested o ∈ items)
      (within : Stands d origin view ((memberView v outer).getD v) nested) :
      Stands d origin view v items

section Stands

variable {d : ParsedDecl} {origin : Origin} {view v : View} {items : List Item}

theorem mem_visitAll {i : Item} {w : Visit} (hi : i ∈ items) (hw : w ∈ visit v i) :
    w ∈ visitAll v items := by
  induction items with
  | nil => cases hi
  | cons j items ih =>
    rw [visitAll]
    rcases List.mem_cons.mp hi with rfl | hi
    · exact List.mem_append_left _ hw
    · exact List.mem_append_right _ (ih hi)

/-- What stands within a declaration is visited behind it. -/
theorem mem_visit_of_nested {outer : ParsedDecl} {nested : List Item} {o : Origin} {w : Visit}
    (hw : w ∈ visitAll ((memberView v outer).getD v) nested) : w ∈ visit v (.decl outer nested o) := by
  rw [visit]
  cases member : memberView v outer with
  | none =>
    rw [member] at hw
    exact List.mem_cons_of_mem _ hw
  | some inner =>
    rw [member] at hw
    exact List.mem_cons_of_mem _ (List.mem_append_right _ hw)

theorem Stands.visited (h : Stands d origin view v items) :
    .decl d origin view ∈ visitAll v items := by
  induction h with
  | here h =>
    refine mem_visitAll h ?_
    rw [visit]
    split <;> exact List.mem_cons_self
  | inNamespace h within ih =>
    refine mem_visitAll h ?_
    rw [visit]
    exact List.mem_cons_of_mem _ ih
  | inUnnamed h within ih =>
    refine mem_visitAll h ?_
    rw [visit]
    exact ih
  | inRecord h within ih => exact mem_visitAll h (mem_visit_of_nested ih)

end Stands

/-! ### Traces -/

/-- What the visits of a file insert behind what was inserted before: for each declaration the names that
it declares by keywords, and then its resolved form, in the scope of its view. -/
inductive Traced (jump : Jump) (maxDepth : Nat) :
    List Inserted → State → List Visit → List Inserted → State → Prop
  | done {log : List Inserted} {s : State} : Traced jump maxDepth log s [] log s
  | scope {log all : List Inserted} {s t : State} {path : String} {kind : ScopeKind}
      {vs : List Visit}
      (rest : Traced jump maxDepth log { s with model := (s.model.scopeOrInsert path kind).1 } vs
        all t) : Traced jump maxDepth log s (.scope path kind :: vs) all t
  | decl {log implied all : List Inserted} {s u t : State} {d : ParsedDecl} {origin : Origin}
      {view : View} {vs : List Visit} {d' : ResolvedDecl} {outcome : Insertion}
      (resolved : resolveDecl jump { maxDepth, origin, view } d s = (.ok d', u))
      (byKeyword : ∀ x ∈ implied, ByKeyword x) (history : Model.History (log ++ implied) u.model)
      (rest : Traced jump maxDepth (log ++ implied ++ [⟨view.scope, ⟨d', origin⟩, outcome⟩])
        (u.declare view.scope .namespaceScope ⟨d', origin⟩) vs all t) :
      Traced jump maxDepth log s (.decl d origin view :: vs) all t

section Traces

variable {jump : Jump} {maxDepth : Nat} {log all : List Inserted} {s t : State} {vs : List Visit}
  {records : List String}

theorem Traced.extends (h : Traced jump maxDepth log s vs all t) : log <+: all := by
  induction h with
  | done => exact List.prefix_refl _
  | scope rest ih => exact ih
  | decl resolved byKeyword history rest ih =>
    rw [List.append_assoc] at ih
    exact (List.prefix_append _ _).trans ih

/-- The resolved form of every declaration that is visited was inserted. -/
theorem Traced.inserted (h : Traced jump maxDepth log s vs all t) {d : ParsedDecl} {origin : Origin}
    {view : View} (hw : .decl d origin view ∈ vs) :
    ∃ d' outcome, ⟨view.scope, ⟨d', origin⟩, outcome⟩ ∈ all ∧ d'.name = d.name ∧
      ∃ u w, resolveDecl jump { maxDepth, origin, view } d u = (.ok d', w) := by
  induction h with
  | done => cases hw
  | scope rest ih =>
    rcases List.mem_cons.mp hw with same | hw
    · cases same
    · exact ih hw
  | decl resolved byKeyword history rest ih =>
    rcases List.mem_cons.mp hw with same | hw
    · cases same
      refine ⟨_, _, rest.extends.subset (List.mem_append_right _ List.mem_cons_self), ?_, _, _,
        resolved⟩
      exact resolveDecl_name _ _ _ _ _ resolved
    · exact ih hw

/-- Behind the constants nothing else is a constant. -/
theorem ByKeyword.ne_constant {x : Inserted} (h : ByKeyword x) (c : ConstantDecl) :
    x.entry.decl ≠ .constant c := by
  obtain ⟨kind, name, -, same⟩ := h
  rw [same]
  cases kind <;> simp [forwardDecl, NamedKind.toRecord?]

theorem ByKeyword.fair {x : Inserted} (h : ByKeyword x) : x.Fair := by
  obtain ⟨kind, name, plain, same⟩ := h
  refine .inr ⟨true, ?_, by simp⟩
  rw [same]
  cases kind <;> exact fun n hn => Option.mem_some_iff.mp hn ▸ plain

/-- One declaration is resolved and inserted. -/
theorem resolveVisit_decl (hj : jump.Adds records) {d : ParsedDecl} {origin : Origin} {view : View}
    {u : Unit} (hs : Accounted records log s)
    (placed : (Visit.decl d origin view).Placed records)
    (registered : ∀ inner, memberView view d = some inner → inner.scope ∈ records)
    (run : resolveVisit jump maxDepth (.decl d origin view) s = (.ok u, t)) :
    ∃ implied d' v outcome, (∀ x ∈ implied, ByKeyword x) ∧
      resolveDecl jump { maxDepth, origin, view } d s = (.ok d', v) ∧
      Accounted records (log ++ implied) v ∧ t = v.declare view.scope .namespaceScope ⟨d', origin⟩ ∧
      Inserted.Fair ⟨view.scope, ⟨d', origin⟩, outcome⟩ ∧ (∀ c, d' ≠ .constant c) ∧
      Accounted records (log ++ implied ++ [⟨view.scope, ⟨d', origin⟩, outcome⟩]) t := by
  obtain ⟨hd, hv, inRecord, named, bare⟩ := placed
  obtain ⟨d', v, resolved, run⟩ := bind_eq_ok run
  obtain ⟨implied, byKeyword, hv', -⟩ :=
    adds_resolveDecl hj { maxDepth, origin, view } hv hd registered log s d' v hs resolved
  obtain ⟨outcome, declared⟩ := hv'.declare view.scope .namespaceScope ⟨d', origin⟩
  have last : v.declare view.scope .namespaceScope ⟨d', origin⟩ = t := by
    have same := run_declare view.scope .namespaceScope ⟨d', origin⟩ v
    exact congrArg Prod.snd (same.symm.trans run)
  have named' : d'.Named inRecord := resolveDecl_named _ d inRecord s d' v resolved named
  refine ⟨implied, d', v, outcome, byKeyword, resolved, hv', last.symm, .inr ⟨inRecord, named', bare⟩,
    fun c same => ?_, last ▸ declared⟩
  rw [same] at named'
  exact named'

/-- The visits of a file are resolved and inserted in turn. -/
theorem each_resolveVisit_traced (hj : jump.Adds records) {u : Unit} (hs : Accounted records log s)
    (placed : ∀ w ∈ vs, w.Placed records)
    (registered : ∀ d o v inner, .decl d o v ∈ vs → memberView v d = some inner →
      inner.scope ∈ records)
    (run : Resolver.each (resolveVisit jump maxDepth) vs s = (.ok u, t)) :
    ∃ rest, Traced jump maxDepth log s vs (log ++ rest) t ∧ Accounted records (log ++ rest) t ∧
      ∀ x ∈ rest, x.Fair ∧ ∀ c, x.entry.decl ≠ .constant c := by
  induction vs generalizing log s with
  | nil =>
    cases run
    rw [← List.append_nil log] at hs
    refine ⟨[], ?_, hs, by simp⟩
    rw [List.append_nil]
    exact .done
  | cons w vs ih =>
    obtain ⟨_, s', first, run⟩ := bind_eq_ok run
    have placed' (w : Visit) (hw : w ∈ vs) := placed w (List.mem_cons_of_mem _ hw)
    have registered' (d o v inner) (hw : Visit.decl d o v ∈ vs) :=
      registered d o v inner (List.mem_cons_of_mem _ hw)
    cases w with
    | scope path kind =>
      cases first
      obtain ⟨rest, traced, ht, fair⟩ := ih (hs.scope path kind) placed' registered' run
      exact ⟨rest, .scope traced, ht, fair⟩
    | decl d o v =>
      obtain ⟨implied, d', w, outcome, byKeyword, resolved, hw, rfl, own, other, hs'⟩ :=
        resolveVisit_decl hj hs (placed _ List.mem_cons_self)
          (fun inner => registered d o v inner List.mem_cons_self) first
      obtain ⟨rest, traced, ht, fair⟩ := ih hs' placed' registered' run
      -- What its types imply, the declaration itself, and what comes behind it.
      refine ⟨implied ++ ⟨v.scope, ⟨d', o⟩, outcome⟩ :: rest, ?_, ?_, fun x hx => ?_⟩
      · simpa using Traced.decl resolved byKeyword hw.history traced
      · simpa using ht
      · rcases List.mem_append.mp hx with hx | hx
        · exact ⟨(byKeyword x hx).fair, (byKeyword x hx).ne_constant⟩
        · rcases List.mem_cons.mp hx with rfl | hx
          · exact ⟨own, other⟩
          · exact fair x hx

end Traces

/-! ### Constants -/

/-- The entry of a macro constant. -/
def constantEntry (c : MacroConstant) : Entry := ⟨.constant ⟨c.name, c.value⟩, c.loc⟩

theorem each_addConstant_accounted {records : List String} {log : List Inserted} {s t : State}
    {cs : List MacroConstant} {u : Unit} (hs : Accounted records log s)
    (run : Resolver.each addConstant cs s = (.ok u, t)) :
    ∃ first, Accounted records (log ++ first) t ∧
      first.map (fun x => (x.path, x.entry)) = cs.map fun c => ("", constantEntry c) := by
  induction cs generalizing log s with
  | nil =>
    cases run
    exact ⟨[], by rwa [List.append_nil], rfl⟩
  | cons c cs ih =>
    obtain ⟨_, s', first, rest⟩ := bind_eq_ok run
    obtain ⟨root, hroot, path, -⟩ := hs.history.tracks.valid.root
    have hs' := hs.insert hroot (constantEntry c)
    cases first
    obtain ⟨more, ht, same⟩ := ih hs' rest
    refine ⟨⟨root.path, constantEntry c, _⟩ :: more, by simpa using ht, ?_⟩
    rw [List.map_cons, List.map_cons, same, path]

/-! ### Units -/

/-- An account of a resolution: all that was inserted, in order, and what is left of it. -/
structure Complete (items : List Item) (constants : List MacroConstant) (config : Config) (m : Model)
    (ds : List Diagnostic) (log : List Inserted) : Prop where
  /-- The model comes of the insertions, one after another. -/
  history : Model.History log m
  /-- The constants come first of all, and then the declarations in the order of the file. -/
  order : ∃ first mid t,
    Resolver.each addConstant constants { registry := Registry.ofVisits (visitAll {} items) } =
      (.ok (), mid) ∧
    first.map (fun x => (x.path, x.entry)) = constants.map (fun c => ("", constantEntry c)) ∧
    Traced (jumpWithin (Registry.ofVisits (visitAll {} items)).depthBound) config.maxTypedefDepth
      first mid (visitAll {} items) log t ∧ t.model = m
  /-- The global scope has an entry for every constant. -/
  constants : ∀ c ∈ constants, m.Retains "" (constantEntry c)
  /-- The scope of a declaration's view has an entry for its resolved form. -/
  declared : ∀ d origin view, Stands d origin view {} items → ∃ d' outcome,
    ⟨view.scope, ⟨d', origin⟩, outcome⟩ ∈ log ∧ d'.name = d.name ∧
    (∃ s t, resolveDecl (jumpWithin (Registry.ofVisits (visitAll {} items)).depthBound)
      { maxDepth := config.maxTypedefDepth, origin, view } d s = (.ok d', t)) ∧
    m.Retains view.scope ⟨d', origin⟩
  /-- The entries of the model are those that were appended, each in the scope it was inserted in. -/
  appended : ∀ x ∈ log, ∀ r, x.outcome = .added r → ∃ s e, m.scopes[r.scope]? = some s ∧
    s.path = x.path ∧ s.entries[r.entry]? = some e ∧ e.decl.name = x.entry.decl.name ∧
      e.decl.identity = x.entry.decl.identity
  filled : ∀ r e, m.entry? r = some e → ∃ x ∈ log, x.outcome = .added r
  /-- In every scope they stand in the order in which they were appended. -/
  increasing : (log.filterMap (·.place?)).Pairwise fun r r' => r.scope = r'.scope → r.entry < r'.entry
  /-- In front of a constant there are only constants. -/
  ahead : ∀ s, m.scopes[Model.global]? = some s → ∀ (i j : Nat) (e e' : Entry), i < j →
    s.entries[i]? = some e → s.entries[j]? = some e' → (∃ c, e'.decl = .constant c) →
      ∃ c, e.decl = .constant c
  /-- Every refusal is reported once, and nothing else is reported as one. -/
  conflicts : conflicts ds = log.filterMap Model.reported

/-- What was reported up to the end of a resolution. -/
theorem diagnostics_of_resolve {items : List Item} {constants : List MacroConstant} {config : Config}
    {result : Except FatalError Model} {ds : List Diagnostic} {mid t : State} {u v : Unit}
    (first : Resolver.each addConstant constants
      { registry := Registry.ofVisits (visitAll {} items) } = (.ok u, mid))
    (rest : Resolver.each (resolveVisit (jumpWithin
      (Registry.ofVisits (visitAll {} items)).depthBound) config.maxTypedefDepth)
        (visitAll {} items) mid = (.ok v, t))
    (run : resolve items constants config = (result, ds)) : ds = t.diagnostics := by
  have whole : (Resolver.each addConstant constants >>= fun _ =>
      Resolver.each (resolveVisit (jumpWithin (Registry.ofVisits (visitAll {} items)).depthBound)
        config.maxTypedefDepth) (visitAll {} items))
      { registry := Registry.ofVisits (visitAll {} items) } = (.ok v, t) := by
    show Resolver.bind _ _ _ = _
    rw [Resolver.bind, first]
    exact rest
  unfold resolve at run
  dsimp only at run
  rw [whole] at run
  exact (congrArg Prod.snd run).symm

/-- An entry is a constant if what is kept in its place is one. -/
theorem kept_constant (log : List Inserted) (x : Inserted) :
    (∃ c, (Model.kept log x).decl = .constant c) ↔ ∃ c, x.entry.decl = .constant c := by
  have id := (Model.kept_identity log x).1
  constructor
  · rintro ⟨c, same⟩
    exact Model.constant_of_identity (id.symm.trans (by rw [same]; rfl))
  · rintro ⟨c, same⟩
    exact Model.constant_of_identity (id.trans (by rw [same]; rfl))

/-- Where the constants were inserted first, only constants are in front of one in its scope. -/
theorem constants_ahead {cs later : List Inserted} {m : Model} (h : Model.History (cs ++ later) m)
    (first : ∀ x ∈ cs, ∃ c, x.entry.decl = .constant c)
    (others : ∀ x ∈ later, ∀ c, x.entry.decl ≠ .constant c) {s : Scope}
    (hs : m.scopes[Model.global]? = some s) {i j : Nat} {e e' : Entry} (lt : i < j)
    (he : s.entries[i]? = some e) (he' : s.entries[j]? = some e')
    (constant : ∃ c, e'.decl = .constant c) : ∃ c, e.decl = .constant c := by
  have entry {k : Nat} {e : Entry} (he : s.entries[k]? = some e) :
      m.entry? ⟨Model.global, k⟩ = some e := by rwa [Model.entry?_of_scope hs]
  obtain ⟨x, hx, hr, rfl⟩ := (h.tracks.slots _ e).mp (entry he)
  obtain ⟨y, hy, hr', rfl⟩ := (h.tracks.slots _ e').mp (entry he')
  rw [kept_constant] at constant ⊢
  have earlier : y ∈ cs := by
    refine (List.mem_append.mp hy).resolve_right fun hy => ?_
    obtain ⟨c, same⟩ := constant
    exact others y hy c same
  rcases List.mem_append.mp hx with hx | hx
  · exact first x hx
  · -- It was inserted behind the constants, and so it was appended behind them.
    have increasing := h.places_increase
    rw [List.filterMap_append] at increasing
    have behind := (List.pairwise_append.mp increasing).2.2
      _ (List.mem_filterMap.mpr ⟨y, earlier, Inserted.place?_eq_some.mpr hr'⟩)
      _ (List.mem_filterMap.mpr ⟨x, hx, Inserted.place?_eq_some.mpr hr⟩) rfl
    dsimp only at behind
    omega

/-- A resolution of items whose names are identifiers loses nothing. -/
theorem complete_of_plain {items : List Item} (plain : ∀ i ∈ items, i.Plain false)
    {constants : List MacroConstant} {config : Config} {m : Model} {ds : List Diagnostic}
    (run : resolve items constants config = (.ok m, ds)) :
    ∃ log, Complete items constants config m ds log := by
  obtain ⟨mid, t, u, v, rfl, first, rest⟩ := resolve_eq_ok run
  obtain rfl := diagnostics_of_resolve first rest run
  have registered (d o v inner) (hw : Visit.decl d o v ∈ visitAll {} items)
      (member : memberView v d = some inner) :
      inner.scope ∈ (Registry.ofVisits (visitAll {} items)).recordScopes :=
    Registry.mem_recordScopes hw member
  -- The scopes of records are taken from the registry, which is complete before anything is resolved.
  have placed : ∀ w ∈ visitAll {} items,
      w.Placed (Registry.ofVisits (visitAll {} items)).recordScopes :=
    placed_of_mem_visitAll items plain (.inr Name.bare_empty) (fun _ => Name.bare_empty) registered
  have start : Accounted (Registry.ofVisits (visitAll {} items)).recordScopes []
      { registry := Registry.ofVisits (visitAll {} items) } :=
    ⟨.empty, Registry.placed_ofVisits placed, rfl⟩
  obtain ⟨cs, hmid, constantsFirst⟩ := each_addConstant_accounted start first
  rw [List.nil_append] at hmid
  obtain ⟨later, traced, ht, fairLater⟩ :=
    each_resolveVisit_traced (adds_jumpWithin _) hmid placed registered rest
  have constantOf (x : Inserted) (hx : x ∈ cs) : x.path = "" ∧ ∃ c, x.entry.decl = .constant c := by
    have mem := List.mem_map_of_mem (f := fun x : Inserted => (x.path, x.entry)) hx
    rw [constantsFirst] at mem
    obtain ⟨c, -, same⟩ := List.mem_map.mp mem
    obtain ⟨path, entry⟩ := Prod.mk.inj same
    exact ⟨path.symm, ⟨c.name, c.value⟩, by rw [← entry]; rfl⟩
  have fair : ∀ x ∈ cs ++ later, x.Fair := by
    intro x hx
    rcases List.mem_append.mp hx with hx | hx
    · exact .inl (constantOf x hx)
    · exact (fairLater x hx).1
  have tracks := ht.history.tracks
  refine ⟨cs ++ later, ht.history, ⟨cs, mid, t, first, constantsFirst, traced, rfl⟩,
    fun c hc => ?_, fun d o v stands => ?_, fun x hx r hr => ?_, fun r e he => ?_,
    ht.history.places_increase, fun s hs i j e e' lt he he' => ?_, ht.reported⟩
  · obtain ⟨x, hx, same⟩ : ∃ x ∈ cs, (x.path, x.entry) = ("", constantEntry c) :=
      List.mem_map.mp (constantsFirst ▸ List.mem_map_of_mem hc)
    obtain ⟨path, entry⟩ := Prod.mk.inj same
    rw [← path, ← entry]
    exact ht.history.retains fair (List.mem_append_left _ hx)
  · obtain ⟨d', outcome, hx, name, resolved⟩ := traced.inserted stands.visited
    exact ⟨d', outcome, hx, name, resolved, ht.history.retains fair hx⟩
  · obtain ⟨s, hs, path, held⟩ := tracks.held_of_added hx hr
    exact ⟨s, _, hs, path, held, Model.kept_named fair hx⟩
  · obtain ⟨x, hx, hr, -⟩ := (tracks.slots r e).mp he
    exact ⟨x, hx, hr⟩
  · exact constants_ahead ht.history (fun x hx => (constantOf x hx).2)
      (fun x hx => (fairLater x hx).2) hs lt he he'

end HeaderDecl.Resolution
