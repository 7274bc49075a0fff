import HeaderDecl.Proofs.ResolutionSteps

/-!
The names in what a type refers to: typedef chains, template arguments with their defaults, and
instantiations with the specializations that apply.
-/

namespace HeaderDecl.Resolution

/-! ### What names a result has -/

abbrev typeReferences (t : TypeRef) (y : Reference) : Prop := t.RefersTo y

def argReferences (args : List ArgRef) (y : Reference) : Prop := Referred (args.flatMap (·.types)) y

section Arguments

variable {y : Reference} {args args' : List ArgRef}

@[simp]
theorem argReferences_nil : ¬ argReferences [] y := referred_nil

@[simp]
theorem argReferences_type {t : TypeRef} :
    argReferences (.type t :: args) y ↔ t.RefersTo y ∨ argReferences args y := by
  simp [argReferences, TemplateArg.types]

@[simp]
theorem argReferences_literal {text : String} :
    argReferences (.literal text :: args) y ↔ argReferences args y := by
  simp [argReferences, TemplateArg.types]

@[simp]
theorem argReferences_append :
    argReferences (args ++ args') y ↔ argReferences args y ∨ argReferences args' y := by
  simp [argReferences]

end Arguments

variable {ws : List Visit} {context : Reference → Prop} {jump : Jump}

/-- A jump whose results refer to what is held only, from anywhere. -/
def Jump.Resolves (ws : List Visit) (jump : Jump) : Prop :=
  ∀ context site ty, Resolution.Resolves ws context (jump site ty) typeReferences

theorem resolves_lengths (f : State → NameMap Nat) :
    Resolves ws context (Resolver.modify fun s => { s with lengths := f s }) nothing :=
  .modify (fun _ _ hs _ => hs.congr rfl rfl rfl) fun _ => rfl

theorem resolves_report (d : Diagnostic) : Resolves ws context (Resolver.report d) nothing :=
  .modify (fun _ _ hs _ => hs.congr rfl rfl rfl) fun _ => rfl

/-- The type at the end of a chain may be kept if what it refers to is held. -/
theorem resolves_terminal {name : String} {t : TypeRef} (ht : ∀ y, t.RefersTo y → context y) :
    Resolves ws context
      (Resolver.modify fun s => { s with terminals := s.terminals.insert name t }) nothing := by
  refine .modify (fun log s hs held => ?_) fun _ => rfl
  refine ⟨hs.history, hs.origins, hs.entries, hs.known, ?_, hs.patterns⟩
  intro q u hu y hy
  rw [NameMap.get?_insert] at hu
  split at hu
  · cases hu
    exact held y (ht y hy)
  · exact hs.terminals q u hu y hy

section Jumps

variable (hj : jump.Resolves ws)

include hj

theorem resolves_resolveTypedef (site : Site) (name : String) (target : TypeExpr) :
    Resolves ws context (resolveTypedef jump site name target) typeReferences := by
  unfold resolveTypedef
  split
  · refine (hj context _ target).bind fun t => ?_
    refine .get fun log s hs => ?_
    dsimp only
    split
    · exact .fail
    · exact (resolves_lengths _).bind fun _ => .pure fun y hy => Or.inl (Or.inl (Or.inr hy))
  · exact .fail

theorem resolves_terminalOf (site : Site) (name : String) (target : TypeExpr) :
    Resolves ws context (terminalOf jump site name target) typeReferences := by
  unfold terminalOf
  refine .get fun log s hs => ?_
  split
  · rename_i t kept
    exact .pure fun y hy => Or.inr (hs.terminals name t kept y hy)
  · refine (resolves_resolveTypedef hj site name target).bind fun t => ?_
    -- Only a typedef that ends in a typedef is cut short, to what is under its name.
    cases t with
    | typedef q u =>
      have inner (y : Reference) (hy : u.RefersTo y) : (TypeRef.typedef q u).RefersTo y :=
        TypeRef.refersTo_typedef.mpr (Or.inr hy)
      refine (resolves_terminal fun y hy => Or.inr (inner y hy)).bind fun _ => ?_
      exact .pure fun y hy => Or.inl (Or.inr (inner y hy))
    | _ =>
      refine (resolves_terminal fun y hy => Or.inr hy).bind fun _ => ?_
      exact .pure fun y hy => Or.inl (Or.inr hy)

/-! ### Template arguments -/

theorem resolves_defaultArg (site : Site) (p : TemplateParam TypeExpr) :
    Resolves ws context (defaultArg jump site p) (fun a y => argReferences a.toList y) := by
  unfold defaultArg
  split
  · exact .pure fun y hy => False.elim (argReferences_nil hy)
  · split
    · refine (hj context site _).bind fun t => .pure fun y hy => Or.inr ?_
      simpa using hy
    · exact .pure fun y hy => by simp at hy
    · exact .pure fun y hy => by simp at hy
    · exact .pure fun y hy => False.elim (argReferences_nil hy)

/-- A default refers to what the arguments before it refer to, or to what is held. -/
theorem resolves_appendDefaults (site : Site) (params rest : List (TemplateParam TypeExpr))
    (args : List ArgRef) (ha : ∀ y, argReferences args y → context y) :
    Resolves ws context (appendDefaults jump site params rest args) argReferences := by
  induction rest generalizing args context with
  | nil => exact .pure ha
  | cons p rest ih =>
    unfold appendDefaults
    refine (resolves_defaultArg hj site p).bind fun a => ?_
    cases a with
    | none => exact .pure fun y hy => Or.inl (ha y hy)
    | some a =>
      refine ih _ fun y hy => ?_
      rcases argReferences_append.mp hy with hy | hy
      · exact Or.inl (ha y hy)
      · rw [argReferences, List.flatMap_singleton] at hy
        rcases Template.referred_substituteArg a hy with hy | hy
        · right
          simpa [argReferences] using hy
        · exact Or.inl (ha y (Template.referred_bind hy))

theorem resolves_fillDefaults (site : Site) (params : List (TemplateParam TypeExpr)) (view : View)
    (args : List ArgRef) (ha : ∀ y, argReferences args y → context y) :
    Resolves ws context (fillDefaults jump site params view args) argReferences :=
  resolves_appendDefaults hj _ params _ args ha

theorem resolves_jumpArgs (site : Site) (args : List ArgExpr) :
    Resolves ws context (jumpArgs jump site args) argReferences := by
  induction args generalizing context with
  | nil => exact .pure fun y hy => False.elim (argReferences_nil hy)
  | cons a rest ih =>
    cases a with
    | literal text =>
      refine ih.bind fun as => .pure fun y hy => Or.inr ?_
      exact argReferences_literal.mp hy
    | type ty =>
      refine (hj context site ty).bind fun t => ih.bind fun as => .pure fun y hy => ?_
      rcases argReferences_type.mp hy with hy | hy
      · exact Or.inl (Or.inr hy)
      · exact Or.inr hy

end Jumps

/-! ### Specializations -/

/-- The arguments of a specialization are resolved as they are written, and then with defaults. -/
theorem resolvePattern_eq_ok {site : Site} {template : String} {i : Nat} {p : Pattern} {s t : State}
    {a : List ArgRef × List ArgRef} (run : resolvePattern jump site template i p s = (.ok a, t)) :
    ∃ u v, jumpArgs jump { site with view := p.view } p.args (s.withProgress template i .underWay) =
        (.ok a.1, u) ∧
      (match u.registry.find? site.resolving none template with
        | some (.template _ params view) => fillDefaults jump site params view a.1
        | _ => Pure.pure a.1) u = (.ok a.2, v) ∧
      t = v.withProgress template i (.resolved a.1 a.2) := by
  unfold resolvePattern at run
  obtain ⟨_, _, began, run⟩ := bind_eq_ok run
  rw [setProgress_run] at began
  cases began
  obtain ⟨written, u, jumped, run⟩ := bind_eq_ok run
  obtain ⟨_, _, got, run⟩ := bind_eq_ok run
  cases got
  -- The same is done with or without defaults.
  have finish {x : Resolver (List ArgRef)} (run : (x >>= fun filled => do
      setProgress template i (.resolved written filled)
      return (written, filled)) u = (.ok a, t)) :
      ∃ v, x u = (.ok a.2, v) ∧ a.1 = written ∧
        t = v.withProgress template i (.resolved a.1 a.2) := by
    obtain ⟨filled, v, filling, run⟩ := bind_eq_ok run
    cases run
    exact ⟨v, filling, rfl, rfl⟩
  dsimp only at run
  cases found : u.registry.find? site.resolving none template with
  | none =>
    rw [found] at run
    obtain ⟨v, filling, rfl, ended⟩ := finish run
    exact ⟨u, v, jumped, by rw [found]; exact filling, ended⟩
  | some m =>
    rw [found] at run
    cases m <;>
      (obtain ⟨v, filling, rfl, ended⟩ := finish run
       exact ⟨u, v, jumped, by rw [found]; exact filling, ended⟩)

/-- The arguments of a specialization are there, unless they are under way, or they are resolved now. -/
theorem patternArgs_eq_ok {site : Site} {template : String} {i : Nat} {s t : State}
    {o : Option (List String × List ArgRef × List ArgRef)}
    (run : patternArgs jump site template i s = (.ok o, t)) :
    (s.registry.pattern? template i = none ∧ o = none ∧ t = s) ∨
      ∃ p, s.registry.pattern? template i = some p ∧
        ((p.progress = .underWay ∧ o = none ∧ t = s) ∨
          (∃ w f, p.progress = .resolved w f ∧ o = some (p.params, w, f) ∧ t = s) ∨
          ∃ a, p.progress = .pending ∧ o = some (p.params, a) ∧
            resolvePattern jump site template i p s = (.ok a, t)) := by
  unfold patternArgs at run
  obtain ⟨_, _, got, run⟩ := bind_eq_ok run
  cases got
  have same : (s.registry.patterns.get? template).bind (·[i]?) =
      s.registry.pattern? template i := by
    unfold Registry.pattern?
    cases s.registry.patterns.get? template <;> rfl
  rw [same] at run
  cases found : s.registry.pattern? template i with
  | none =>
    rw [found] at run
    cases run
    exact .inl ⟨rfl, rfl, rfl⟩
  | some p =>
    rw [found] at run
    refine .inr ⟨p, rfl, ?_⟩
    dsimp only at run
    cases progress : p.progress with
    | underWay =>
      rw [progress] at run
      cases run
      exact .inl ⟨rfl, rfl, rfl⟩
    | resolved w f =>
      rw [progress] at run
      cases run
      exact .inr (.inl ⟨w, f, rfl, rfl, rfl⟩)
    | pending =>
      rw [progress] at run
      obtain ⟨a, u, resolved, run⟩ := bind_eq_ok run
      cases run
      exact .inr (.inr ⟨a, rfl, rfl, resolved⟩)

/-- A specialization that may be chosen, and what its arguments refer to. -/
def choiceReferences (template : String) (o : Option (List ArgRef)) (y : Reference) : Prop :=
  ∃ args ∈ o, y = .specialization template args ∨ argReferences args y

section Patterns

variable (hj : jump.Resolves ws)

include hj

/-- A specialization whose arguments are resolved is held from then on. -/
theorem sound_resolvePattern {site : Site} {template : String} {i : Nat} {p : Pattern}
    {log : List Inserted} {s t : State} {a : List ArgRef × List ArgRef} (hs : Sound ws log s)
    (pending : s.registry.progress? template i = some .pending)
    (run : resolvePattern jump site template i p s = (.ok a, t)) :
    ∃ more, (∀ x ∈ more, Implied x.entry) ∧ Sound ws (log ++ more) t ∧
      s.registry.Extends t.registry ∧
        ∀ y, choiceReferences template (some a.1) y → t.registry.Holds y := by
  obtain ⟨u, v, jumped, filled, rfl⟩ := resolvePattern_eq_ok run
  have unresolved : ∀ w f, s.registry.progress? template i ≠ some (.resolved w f) := by
    simp [pending]
  have jumping : Resolves ws (fun _ => False) (jumpArgs jump { site with view := p.view } p.args)
      argReferences := resolves_jumpArgs hj _ p.args
  obtain ⟨more, implied, hu, toWritten, written⟩ := jumping log _ _ u
    (hs.withProgress unresolved fun _ _ same => by cases same) (fun _ h => False.elim h) jumped
  have filling : Resolves ws (argReferences a.1)
      (match u.registry.find? site.resolving none template with
        | some (.template _ params view) => fillDefaults jump site params view a.1
        | _ => Pure.pure a.1) argReferences := by
    split
    · exact resolves_fillDefaults hj site _ _ a.1 fun _ hy => hy
    · exact .pure fun _ hy => hy
  obtain ⟨more', implied', hv, toFilled, filled⟩ := filling _ u _ v hu written filled
  -- Whatever happened in between, it was under way all the time.
  have underWay : v.registry.progress? template i = some .underWay := by
    refine (toWritten.trans toFilled).underWay template i ?_
    rw [progress?_withProgress, if_pos ⟨rfl, rfl⟩, pending, Option.map_some]
  have unresolved' : ∀ w f, v.registry.progress? template i ≠ some (.resolved w f) := by
    simp [underWay]
  have held {y : Reference} (hy : s.registry.Holds y) : v.registry.Holds y :=
    (toWritten.trans toFilled).holds y (holds_withProgress unresolved .underWay hy)
  refine ⟨more ++ more', fun x hx => ?_, ?_, ⟨fun y hy => ?_, fun q j other => ?_⟩, ?_⟩
  · exact (List.mem_append.mp hx).elim (implied x) (implied' x)
  · rw [← List.append_assoc]
    refine hv.withProgress unresolved' fun w f same y hy => ?_
    cases same
    rcases argReferences_append.mp hy with hy | hy
    · exact toFilled.holds y (written y hy)
    · exact filled y hy
  · exact holds_withProgress unresolved' _ (held hy)
  · have apart : ¬ (q = template ∧ j = i) := by
      rintro ⟨rfl, rfl⟩
      rw [pending] at other
      cases other
    rw [progress?_withProgress, if_neg apart]
    refine (toWritten.trans toFilled).underWay q j ?_
    rwa [progress?_withProgress, if_neg apart]
  · rintro y ⟨_, same, hy⟩
    cases same
    rcases hy with rfl | hy
    · exact ⟨i, a.2, by rw [progress?_withProgress, if_pos ⟨rfl, rfl⟩, underWay, Option.map_some]⟩
    · exact holds_withProgress unresolved' _ (toFilled.holds y (written y hy))

theorem resolves_patternArgs (site : Site) (template : String) (i : Nat) :
    Resolves ws context (patternArgs jump site template i)
      (fun o => choiceReferences template (o.map (·.2.1))) := by
  intro log s o t hs _ run
  rcases patternArgs_eq_ok run with ⟨-, rfl, rfl⟩ | ⟨p, found, ⟨-, rfl, rfl⟩ |
    ⟨w, f, progress, rfl, rfl⟩ | ⟨a, progress, rfl, now⟩⟩
  · exact ⟨[], by simp, by rwa [List.append_nil], .refl _, fun y ⟨_, same, _⟩ => by cases same⟩
  · exact ⟨[], by simp, by rwa [List.append_nil], .refl _, fun y ⟨_, same, _⟩ => by cases same⟩
  · refine ⟨[], by simp, by rwa [List.append_nil], .refl _, ?_⟩
    rintro y ⟨_, same, hy⟩
    cases same
    rcases hy with rfl | hy
    · exact ⟨i, f, by rw [Registry.progress?, found, Option.map_some, progress]⟩
    · unfold Registry.pattern? at found
      cases known : t.registry.patterns.get? template with
      | none => simp [known] at found
      | some ps =>
        rw [known] at found
        exact hs.patterns template ps known p (List.mem_of_getElem? found) w f progress y
          (argReferences_append.mpr (Or.inl hy))
  · exact sound_resolvePattern hj hs (by rw [Registry.progress?, found, Option.map_some, progress]) now

/-- What is selected was selected before, or is written in a specialization. -/
theorem resolves_selectFrom (site : Site) (template : String) (actual : List ArgRef)
    (is : List Nat) (partialMatch : Option (List ArgRef))
    (hp : ∀ y, choiceReferences template partialMatch y → context y) :
    Resolves ws context (selectFrom jump site template actual is partialMatch)
      (choiceReferences template) := by
  induction is generalizing partialMatch context with
  | nil => exact .pure hp
  | cons i rest ih =>
    unfold selectFrom
    refine (resolves_patternArgs hj site template i).bind fun o => ?_
    have later : Resolves ws (fun y => context y ∨ choiceReferences template (o.map (·.2.1)) y)
        (selectFrom jump site template actual rest partialMatch) (choiceReferences template) :=
      ih partialMatch fun y hy => Or.inl (hp y hy)
    split
    · exact later
    · dsimp only
      -- A full specialization ends the search, and a partial one is kept if it is the first.
      split
      · split
        · exact .pure fun y hy => Or.inr hy
        · exact later
      · split
        · exact ih (some _) fun y hy => Or.inr hy
        · exact later

theorem resolves_select (site : Site) (template : String) (args : List ArgRef) :
    Resolves ws context (select jump site template args) (choiceReferences template) := by
  unfold select
  refine .get fun log s hs => ?_
  exact resolves_selectFrom hj site template _ _ none fun y ⟨_, same, _⟩ => by cases same

theorem resolves_instantiate (site : Site) (template : String)
    (params : List (TemplateParam TypeExpr)) (view : View) (args : List ArgRef)
    (ht : context (.declaration template)) (ha : ∀ y, argReferences args y → context y) :
    Resolves ws context (instantiate jump site template params view args)
      (fun i y => (TypeRef.instantiation i).RefersTo y) := by
  unfold instantiate
  refine (resolves_fillDefaults hj site params view args ha).bind fun args => ?_
  refine (resolves_select hj site template args).bind fun selected => .pure fun y hy => ?_
  rcases TypeRef.refersTo_instantiation.mp hy with rfl | ⟨chosen, same, rfl⟩ | hy
  · exact Or.inl (Or.inl ht)
  · exact Or.inr ⟨chosen, same, Or.inl rfl⟩
  · rcases referred_append.mp hy with hy | hy
    · exact Or.inl (Or.inr hy)
    · cases selected with
      | none => exact False.elim (referred_nil hy)
      | some chosen => exact Or.inr ⟨chosen, rfl, Or.inr hy⟩

end Patterns

end HeaderDecl.Resolution
