import HeaderDecl.Proofs.RegisteredNames
import HeaderDecl.Proofs.ResolvedTypes
import HeaderDecl.Resolution.Unit

/-!
Closed models: every name that a type of a resolved model mentions is declared in the model, but for
templates that are known only from specializations written with a qualified name.
-/

namespace HeaderDecl.Resolution

/-! ### Names that declarations keep -/

section Names

variable {α β : Type} {p : β → Prop}

/-- A property of whatever a computation returns. -/
def Returns (x : Resolver α) (p : α → Prop) : Prop := ∀ s a t, x s = (.ok a, t) → p a

theorem Returns.pure {a : α} {p : α → Prop} (h : p a) : Returns (pure a) p := by
  intro s b t run
  cases run
  exact h

theorem Returns.bind {x : Resolver α} {f : α → Resolver β} {q : α → Prop} (first : Returns x q)
    (next : ∀ a, q a → Returns (f a) p) : Returns (x >>= f) p := by
  intro s b t run
  obtain ⟨a, u, hx, hf⟩ := bind_eq_ok run
  exact next a (first s a u hx) u b t hf

theorem Returns.after {x : Resolver α} {f : α → Resolver β} (next : ∀ a, Returns (f a) p) :
    Returns (x >>= f) p :=
  Returns.bind (q := fun _ => True) (fun _ _ _ _ => trivial) fun a _ => next a

end Names

variable {ws : List Visit} {jump : Jump} {log : List Inserted} {s t : State}

theorem resolveRecord_name (site : Site) (r : ParsedRecord) :
    Returns (resolveRecord jump site r) (fun r' => r'.name = r.name) := by
  unfold resolveRecord
  exact .after fun fs => .after fun ms => .after fun bs => .pure rfl

theorem resolveSpecialization_name (site inner : Site)
    (s : SpecializationDecl TypeExpr ArgExpr PathExpr) :
    Returns (resolveSpecialization jump site s inner)
      (fun s' => s'.record.name = s.record.name) := by
  unfold resolveSpecialization
  refine .after fun u => ?_
  dsimp only
  split
  · exact .after fun _ => .after fun ps => .after fun args =>
      (resolveRecord_name inner s.record).bind fun r hr => .pure hr
  · exact .after fun ps => .after fun args =>
      (resolveRecord_name inner s.record).bind fun r hr => .pure hr

/-- A declaration is resolved under the name it was written with. -/
theorem resolveDecl_name (site : Site) (d : ParsedDecl) :
    Returns (resolveDecl jump site d) (fun d' => d'.name = d.name) := by
  unfold resolveDecl
  cases d with
  | record r => exact (resolveRecord_name _ r).bind fun r hr => .pure hr
  | enum e =>
    dsimp only
    unfold resolveEnum
    exact .bind (.after fun t => .pure rfl) fun e he => .pure he
  | typedef t => exact .after fun u => .pure rfl
  | function f =>
    dsimp only
    unfold resolveFunction
    exact .bind (.after fun sig => .after fun ps => .pure rfl) fun f hf => .pure hf
  | var v => exact .after fun u => .pure rfl
  | constant c => exact .pure rfl
  | template t => exact .after fun ps => (resolveRecord_name _ t.record).bind fun r hr => .pure hr
  | specialization s => exact (resolveSpecialization_name site _ s).bind fun s hs => .pure hs

/-! ### References of declarations -/

theorem resolves_resolveSpecialization (hj : jump.Resolves ws) (site inner : Site)
    (s : SpecializationDecl TypeExpr ArgExpr PathExpr) {context : Reference → Prop} :
    Resolves ws context (resolveSpecialization jump site s inner)
      (fun s y => Referred
        (s.params.flatMap (·.types) ++ (s.args.flatMap (·.types) ++ s.record.types)) y) := by
  unfold resolveSpecialization
  refine .get fun log u hu => ?_
  have rest {context : Reference → Prop} {template : String} {orphaned : Bool} :
      Resolves ws context (do
        let params ← resolveTemplateParams jump (site.withParams s.params) s.params
        let args ← resolveArgs jump (site.withParams s.params) s.args
        let record ← resolveRecord jump inner s.record
        return (⟨template, params, args, record, orphaned⟩ :
          SpecializationDecl TypeRef ArgRef String))
        (fun s y => Referred
          (s.params.flatMap (·.types) ++ (s.args.flatMap (·.types) ++ s.record.types)) y) := by
    refine (resolves_resolveTemplateParams hj _ _).bind fun ps => ?_
    refine (resolves_resolveArgs hj _ _).bind fun args => ?_
    refine (resolves_resolveRecord hj _ _).bind fun r => .pure fun y hy => ?_
    rcases referred_append.mp hy with hy | hy
    · exact Or.inl (Or.inl (Or.inr hy))
    · rcases referred_append.mp hy with hy | hy
      · exact Or.inl (Or.inr hy)
      · exact Or.inr hy
  dsimp only
  split
  · exact (resolves_report _).bind fun _ => rest
  · exact rest

theorem resolves_resolveDecl (hj : jump.Resolves ws) (site : Site) (d : ParsedDecl)
    {context : Reference → Prop} :
    Resolves ws context (resolveDecl jump site d) (fun d y => Referred d.types y) := by
  unfold resolveDecl
  cases d with
  | record r => exact (resolves_resolveRecord hj _ r).map fun _ _ hy => hy
  | enum e => exact (resolves_resolveEnum hj site e).map fun _ _ => referred_singleton.mp
  | typedef t =>
    exact (resolves_resolveTypedef hj site _ t.ty).map fun _ _ => referred_singleton.mp
  | function f => exact (resolves_resolveFunction hj site f).map fun _ _ hy => hy
  | var v => exact (resolves_resolveType hj site v.ty).map fun _ _ => referred_singleton.mp
  | constant c => exact .pure fun y hy => False.elim (referred_nil hy)
  | template t =>
    exact (resolves_resolveTemplateParams hj _ t.params).map₂
      (fun _ => resolves_resolveRecord hj _ t.record) fun _ _ _ => referred_append.mp
  | specialization s => exact (resolves_resolveSpecialization hj site _ s).map fun _ _ hy => hy

/-! ### Visits -/

/-- A declaration that is resolved is inserted in the scope of its view, behind what its types imply. -/
theorem declare_sound (hj : jump.Resolves ws) {maxDepth : Nat} {d : ParsedDecl} {o : Origin} {v : View}
    {d' : ResolvedDecl} (hw : .decl d o v ∈ ws) (hs : Sound ws log s)
    (resolved : resolveDecl jump ⟨maxDepth, o, [], v⟩ d s = (.ok d', t)) :
    ∃ implied x, (∀ y ∈ implied, Implied y.entry) ∧ x.path = v.scope ∧ x.entry = ⟨d', o⟩ ∧
      Sound ws (log ++ (implied ++ [x])) (t.declare v.scope .namespaceScope ⟨d', o⟩) := by
  have name : d'.name = d.name := resolveDecl_name _ d s d' t resolved
  obtain ⟨implied, byTypes, ht, -, known⟩ := resolves_resolveDecl hj _ d log s d' t hs
    (fun _ h => False.elim h) resolved
  have origin : Implied ⟨d', o⟩ ∨ ∃ w ∈ ws, d'.name.map (Name.qualify v.scope) = w.declares :=
    Or.inr ⟨_, hw, congrArg _ name⟩
  obtain ⟨x, path, entry, sound⟩ := ht.declare v.scope .namespaceScope origin known
  exact ⟨implied, x, byTypes, path, entry, by rwa [← List.append_assoc]⟩

/-- A visit of a declaration resolves it and adds it to the model. -/
theorem resolveVisit_eq_ok {maxDepth : Nat} {d : ParsedDecl} {o : Origin} {v : View} {a : Unit}
    (run : resolveVisit jump maxDepth (.decl d o v) s = (.ok a, t)) :
    ∃ d' u, resolveDecl jump ⟨maxDepth, o, [], v⟩ d s = (.ok d', u) ∧
      t = u.declare v.scope .namespaceScope ⟨d', o⟩ := by
  obtain ⟨d', u, resolved, run⟩ := bind_eq_ok run
  rw [run_declare] at run
  cases run
  exact ⟨d', u, resolved, rfl⟩

/-- What a visit declares stands in the model after it. -/
theorem resolveVisit_sound (hj : jump.Resolves ws) {maxDepth : Nat} {w : Visit} {u : Unit}
    (hw : w ∈ ws) (hs : Sound ws log s) (run : resolveVisit jump maxDepth w s = (.ok u, t)) :
    ∃ more, Sound ws (log ++ more) t ∧
      ∀ q, w.declares = some q → ∃ x ∈ more, x.qualifiedName = some q := by
  cases w with
  | scope path kind =>
    cases run
    refine ⟨[], ?_, fun q hq => by cases hq⟩
    rw [List.append_nil]
    exact hs.scope path kind
  | decl d o v =>
    obtain ⟨d', s', resolved, rfl⟩ := resolveVisit_eq_ok run
    have name : d'.name = d.name := resolveDecl_name _ d s d' s' resolved
    obtain ⟨implied, x, -, path, entry, sound⟩ := declare_sound hj hw hs resolved
    refine ⟨implied ++ [x], sound, fun q hq => ⟨x, by simp, ?_⟩⟩
    rw [Inserted.qualifiedName, path, entry, name]
    exact hq

theorem each_resolveVisit_sound (hj : jump.Resolves ws) {maxDepth : Nat} {vs : List Visit}
    {u : Unit} (hv : ∀ w ∈ vs, w ∈ ws) (hs : Sound ws log s)
    (run : Resolver.each (resolveVisit jump maxDepth) vs s = (.ok u, t)) :
    ∃ more, Sound ws (log ++ more) t ∧
      ∀ w ∈ vs, ∀ q, w.declares = some q → ∃ x ∈ log ++ more, x.qualifiedName = some q := by
  induction vs generalizing log s with
  | nil =>
    cases run
    exact ⟨[], by rwa [List.append_nil], fun w hw => by cases hw⟩
  | cons w vs ih =>
    obtain ⟨v, s', first, rest⟩ := bind_eq_ok run
    obtain ⟨more, hs', here⟩ := resolveVisit_sound hj (hv w List.mem_cons_self) hs first
    obtain ⟨more', ht, later⟩ := ih (fun w hw => hv w (List.mem_cons_of_mem _ hw)) hs' rest
    refine ⟨more ++ more', by rwa [← List.append_assoc], fun w' hw q hq => ?_⟩
    rw [← List.append_assoc]
    rcases List.mem_cons.mp hw with rfl | hw
    · obtain ⟨x, hx, hname⟩ := here q hq
      exact ⟨x, by simp [hx], hname⟩
    · exact later w' hw q hq

theorem each_addConstant_sound {cs : List MacroConstant} {u : Unit} (hs : Sound ws log s)
    (run : Resolver.each addConstant cs s = (.ok u, t)) :
    ∃ more, Sound ws (log ++ more) t ∧ ∀ x ∈ more, Implied x.entry := by
  induction cs generalizing log s with
  | nil =>
    cases run
    exact ⟨[], by rwa [List.append_nil], by simp⟩
  | cons c cs ih =>
    obtain ⟨v, s', first, rest⟩ := bind_eq_ok run
    -- Macro constants go into the global scope.
    obtain ⟨root, hroot, -⟩ := hs.history.tracks.valid.root
    have constant : Implied ⟨.constant ⟨c.name, c.value⟩, c.loc⟩ := Or.inl ⟨_, rfl⟩
    obtain ⟨x, -, entry, hs'⟩ := hs.insert hroot (Or.inl constant)
      (fun y hy => False.elim (referred_nil hy)) (s.diagnostics ++ _)
    cases first
    obtain ⟨more, ht, implied⟩ := ih hs' rest
    refine ⟨x :: more, by simpa using ht, fun y hy => ?_⟩
    rcases List.mem_cons.mp hy with rfl | hy
    · rwa [entry]
    · exact implied y hy

/-! ### Units -/

theorem sound_start (ws : List Visit) : Sound ws [] { registry := Registry.ofVisits ws } := by
  refine ⟨.empty, ?_, ?_, ?_, ?_, ?_⟩
  · exact fun x hx => by cases hx
  · exact fun x hx => by cases hx
  · exact fun n hn => Or.inl hn
  · exact fun name t ht => by cases ht
  · intro name ps hps p hp written filled resolved
    rw [Registry.fresh_ofVisits name ps hps p hp] at resolved
    cases resolved

/-- The name of a template that no declaration bears: a specialization is written with it, but is
itself declared under its last segment. -/
def Undeclared (ws : List Visit) (n : String) : Prop :=
  n ∈ (Registry.ofVisits ws).orphans ∧ (∀ w ∈ ws, w.declares ≠ some n) ∧
    ∃ s o v, Visit.decl (.specialization s) o v ∈ ws ∧ n = Name.qualify v.scope s.template ∧
      s.record.name ≠ some s.template

theorem undeclared_of_orphan {ws : List Visit} {n : String}
    (orphan : (Registry.ofVisits ws).IsOrphan ws n) (nowhere : ∀ w ∈ ws, w.declares ≠ some n) :
    Undeclared ws n := by
  obtain ⟨listed, s, o, v, hs, hn⟩ := orphan
  refine ⟨listed, nowhere, s, o, v, hs, hn, fun own => nowhere _ hs ?_⟩
  show s.record.name.map _ = _
  rw [own, hn]
  rfl

theorem resolve_eq_ok {items : List Item} {constants : List MacroConstant} {config : Config}
    {m : Model} {ds : List Diagnostic} (h : resolve items constants config = (.ok m, ds)) :
    ∃ mid t u v, t.model = m ∧
      Resolver.each addConstant constants { registry := Registry.ofVisits (visitAll {} items) } =
        (.ok u, mid) ∧
      Resolver.each (resolveVisit (jumpWithin (Registry.ofVisits (visitAll {} items)).depthBound)
        config.maxTypedefDepth) (visitAll {} items) mid = (.ok v, t) := by
  unfold resolve at h
  simp only [Prod.mk.injEq] at h
  obtain ⟨ok, -⟩ := h
  cases run : (Resolver.each addConstant constants >>= fun _ =>
      Resolver.each (resolveVisit (jumpWithin (Registry.ofVisits (visitAll {} items)).depthBound)
        config.maxTypedefDepth) (visitAll {} items))
      { registry := Registry.ofVisits (visitAll {} items) } with
  | mk result t =>
    rw [run] at ok
    cases result with
    | error err => cases ok
    | ok v =>
      obtain ⟨u, mid, first, rest⟩ := bind_eq_ok run
      cases ok
      exact ⟨mid, t, u, v, rfl, first, rest⟩

/-- In a resolved model every name that a type mentions is declared, unless it is that of a template
which only specializations under a qualified name make known; under such a name nothing stands but
what is implied. No name that is written begins with a colon. -/
theorem lookup_of_mentions {items : List Item} {constants : List MacroConstant} {config : Config}
    {m : Model} {ds : List Diagnostic} (resolved : resolve items constants config = (.ok m, ds))
    {n : String} (mention : m.Mentions n) (plain : n.toList.head? ≠ some ':') :
    (¬ Undeclared (visitAll {} items) n → m.lookup n ≠ []) ∧
      (Undeclared (visitAll {} items) n → ∀ e ∈ m.lookup n, Implied e) := by
  obtain ⟨mid, t, u, v, rfl, first, rest⟩ := resolve_eq_ok resolved
  obtain ⟨log, hmid, -⟩ := each_addConstant_sound (sound_start _) first
  obtain ⟨more, sound, declared⟩ :=
    each_resolveVisit_sound (resolves_jumpWithin _) (fun w hw => hw) hmid rest
  have found (w : Visit) (hw : w ∈ visitAll {} items) (hn : w.declares = some n) :
      t.model.lookup n ≠ [] := by
    obtain ⟨x, hx, hname⟩ := declared w hw n hn
    exact (sound.history.lookup_ne_nil_iff n).mpr ⟨x, hx, hname⟩
  constructor
  · intro fine
    obtain ⟨x, hx, hmentioned⟩ := sound.history.mentions mention
    -- What is mentioned is known: from the start, or since it was inserted.
    rcases sound.known n (sound.entries x hx _ hmentioned) with known | colon | inserted
    · by_cases somewhere : ∃ w ∈ visitAll {} items, w.declares = some n
      · obtain ⟨w, hw, hn⟩ := somewhere
        exact found w hw hn
      · have nowhere : ∀ w ∈ visitAll {} items, w.declares ≠ some n :=
          fun w hw hn => somewhere ⟨w, hw, hn⟩
        rcases Registry.knows_ofVisits known with here | orphan
        · exact False.elim (somewhere here)
        · exact False.elim (fine (undeclared_of_orphan orphan nowhere))
    · exact False.elim (plain colon)
    · exact (sound.history.lookup_ne_nil_iff n).mpr inserted
  · rintro ⟨-, nowhere, -⟩ e he
    obtain ⟨x, hx, rfl, hname⟩ := sound.history.mem_lookup he
    rcases sound.origins x hx with implied | ⟨w, hw, same⟩
    · exact implied
    · exact False.elim (nowhere w hw (same.symm.trans hname))

/-- A unit resolves if a declaration of its model is known. -/
theorem exists_model {items : List Item} {r : DeclRef} {d : ResolvedDecl}
    (h : ((resolve items [] {}).1.toOption.bind fun m => (m.entry? r).map (·.decl)) = some d) :
    ∃ m ds, resolve items [] {} = (.ok m, ds) ∧ ∀ n, Mentioned d.types n → m.Mentions n := by
  rcases resolved : resolve items [] {} with ⟨err | m, ds⟩
  · rw [resolved] at h
    cases h
  · rw [resolved] at h
    obtain ⟨e, he, rfl⟩ := Option.map_eq_some_iff.mp h
    exact ⟨m, ds, rfl, fun n hn => Model.mentions_of_entry he hn⟩

/-- A struct that is declared forward, and a variable of it. -/
def structUnit : List Item :=
  [.decl (.record (RecordDecl.forward "S" .struct)) [] ⟨"s.h", 1, 1⟩,
    .decl (.var ⟨"x", .path (.simple "S"), false, false⟩) [] ⟨"s.h", 2, 1⟩]

theorem lookup_of_mentions_struct :
    ∃ m ds, resolve structUnit [] {} = (.ok m, ds) ∧ m.Mentions "S" ∧ "S".toList.head? ≠ some ':' ∧
      (¬ Undeclared (visitAll {} structUnit) "S" → m.lookup "S" ≠ []) ∧
      (Undeclared (visitAll {} structUnit) "S" → ∀ e ∈ m.lookup "S", Implied e) := by
  have kept : ((resolve structUnit [] {}).1.toOption.bind fun m =>
      (m.entry? ⟨0, 1⟩).map (·.decl)) = some (.var ⟨"x", .named "S" .struct, false, false⟩) := by
    decide +kernel
  obtain ⟨m, ds, resolved, mentions⟩ := exists_model kept
  have mention : m.Mentions "S" := mentions "S" (by simp [Decl.types])
  have plain : "S".toList.head? ≠ some ':' := by decide
  exact ⟨m, ds, resolved, mention, plain, lookup_of_mentions resolved mention plain⟩

/-- A specialization of a template in a namespace that is nowhere opened, and a variable of it. -/
def orphanUnit : List Item :=
  [.decl (.specialization ⟨"ns::C", [], [.type (.primitive .int)],
      { RecordDecl.forward "C" .struct with complete := true }, false⟩) [] ⟨"s.h", 1, 1⟩,
    .decl (.var ⟨"x", .path ⟨false, [⟨"ns", none⟩], ⟨"C", some [.type (.primitive .int)]⟩⟩, false,
      false⟩) [] ⟨"s.h", 2, 1⟩]

/-- The model of such a unit mentions the template and does not declare it. -/
theorem orphan_not_found :
    ∃ m ds, resolve orphanUnit [] {} = (.ok m, ds) ∧ m.Mentions "ns::C" ∧
      m.lookup "ns::C" = [] := by
  have kept : ((resolve orphanUnit [] {}).1.toOption.bind fun m =>
      (m.entry? ⟨0, 1⟩).map (·.decl)) = some (.var ⟨"x", .instantiation ⟨"ns::C",
        [.type (.primitive .int)], some [.type (.primitive .int)]⟩, false, false⟩) := by
    decide +kernel
  have none : (resolve orphanUnit [] {}).1.toOption.map (·.lookup "ns::C") = some [] := by
    decide +kernel
  obtain ⟨m, ds, resolved, mentions⟩ := exists_model kept
  rw [resolved] at none
  exact ⟨m, ds, resolved, mentions "ns::C" (by simp [Decl.types]), Option.some.inj none⟩

end HeaderDecl.Resolution
