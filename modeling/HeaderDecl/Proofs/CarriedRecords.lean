import HeaderDecl.Proofs.ContainedRecords
import HeaderDecl.Proofs.UnitTypeNames

/-!
The records that resolution carries along. A resolved type has records in it that come from wherever the
names of the type lead: from the end of a typedef chain, from a default of a template or from an argument
of a specialization.
-/

namespace HeaderDecl

/-! ### Substitution -/

namespace Template

variable {Q : ResolvedRecord → Prop} {b : Bindings}

mutual

/-- A substitution brings no records but those within what is put in. -/
theorem each_substitute (hb : ∀ t ∈ b.types, t.Each Q) :
    (t : TypeRef) → t.Each Q → (substitute b t).Each Q
  | .param name, ht => by
    unfold substitute
    split
    · rename_i t found
      intro r within
      obtain ⟨before, after, rfl, -⟩ := List.lookup_eq_some_iff.mp found
      have mem : t ∈ Bindings.types (before ++ (name, .type t) :: after) :=
        List.mem_flatMap.mpr ⟨(name, .type t), by simp, List.mem_singleton.mpr rfl⟩
      exact hb t mem r within
    · exact ht
  | .pointer t, ht => TypeRef.each_pointer.mpr (each_substitute hb t (TypeRef.each_pointer.mp ht))
  | .reference t, ht => TypeRef.each_reference.mpr (each_substitute hb t (TypeRef.each_reference.mp ht))
  | .rvalueReference t, ht =>
    TypeRef.each_rvalueReference.mpr (each_substitute hb t (TypeRef.each_rvalueReference.mp ht))
  | .array t _, ht => TypeRef.each_array.mpr (each_substitute hb t (TypeRef.each_array.mp ht))
  | .qualified _ t, ht =>
    TypeRef.each_withQualifiers.mpr (each_substitute hb t (TypeRef.each_qualified.mp ht))
  | .instantiation ⟨name, args, selected⟩, ht => by
    obtain ⟨given, chosen⟩ := TypeRef.each_instantiation.mp ht
    exact TypeRef.each_instantiation.mpr ⟨each_substituteArgs hb args given, chosen⟩
  | .primitive _, ht | .builtin _, ht | .named _ _, ht | .typedef _ _, ht | .dependent _, ht
  | .functionPointer _, ht | .function _, ht | .anonymousRecord _, ht | .anonymousEnum _, ht => ht

theorem each_substituteArg (hb : ∀ t ∈ b.types, t.Each Q) : (a : ArgRef) →
    (∀ t ∈ a.types, t.Each Q) → ∀ t ∈ (substituteArg b a).types, t.Each Q
  | .type t, ht => List.forall_mem_singleton.mpr (each_substitute hb t (ht t List.mem_cons_self))
  | .literal text, _ => by
    unfold substituteArg
    split <;> exact List.forall_mem_nil _

theorem each_substituteArgs (hb : ∀ t ∈ b.types, t.Each Q) : (args : List ArgRef) →
    ArgRef.Each Q args → ArgRef.Each Q (substituteArgs b args)
  | [], _ => ArgRef.each_nil
  | a :: as, h => by
    obtain ⟨first, rest⟩ := ArgRef.each_cons.mp h
    exact ArgRef.each_cons.mpr ⟨each_substituteArg hb a first, each_substituteArgs hb as rest⟩

end

theorem each_bind {τ : Type} {params : List (TemplateParam τ)} {args : List ArgRef}
    (h : ArgRef.Each Q args) : ∀ t ∈ (bind params args).types, t.Each Q := by
  intro t ht
  simp only [Bindings.types, bind, List.mem_flatMap, List.mem_reverse, List.mem_filterMap] at ht
  obtain ⟨p, ⟨⟨q, a⟩, hq, hp⟩, ht⟩ := ht
  obtain ⟨name, -, rfl⟩ := Option.map_eq_some_iff.mp hp
  exact h t (List.mem_flatMap.mpr ⟨a, (List.of_mem_zip hq).2, ht⟩)

end Template

namespace Resolution

/-! ### Computations -/

/-- A computation that keeps a property of states, and whose result has a property. -/
def Upholds {α : Type} (I : State → Prop) (x : Resolver α) (Q : α → Prop) : Prop :=
  ∀ s a t, I s → x s = (.ok a, t) → I t ∧ Q a

section Rules

variable {α β : Type} {I : State → Prop} {x : Resolver α} {f : α → Resolver β} {Q Q' : α → Prop}
  {R : β → Prop}

theorem Upholds.pure {a : α} (h : Q a) : Upholds I (pure a) Q := by
  intro s b t hs run
  cases run
  exact ⟨hs, h⟩

theorem Upholds.bind (first : Upholds I x Q) (next : ∀ a, Q a → Upholds I (f a) R) :
    Upholds I (x >>= f) R := by
  intro s b t hs run
  obtain ⟨a, u, here, rest⟩ := bind_eq_ok run
  obtain ⟨hu, ha⟩ := first s a u hs here
  exact next a ha u b t hu rest

theorem Upholds.map {g : α → β} (first : Upholds I x Q) (h : ∀ a, Q a → R (g a)) :
    Upholds I (x >>= fun a => Pure.pure (g a)) R :=
  first.bind fun a ha => .pure (h a ha)

theorem Upholds.get {f : State → Resolver β} (next : ∀ s, I s → Upholds I (f s) R) :
    Upholds I (Resolver.get >>= f) R := by
  intro s b t hs run
  obtain ⟨u, v, here, rest⟩ := bind_eq_ok run
  cases here
  exact next s hs s b t hs rest

/-- What a computation returns from any state may be added. -/
theorem Upholds.and (h : Upholds I x Q) (returns : Returns x Q') : Upholds I x fun a => Q' a ∧ Q a := by
  intro s a t hs run
  obtain ⟨ht, ha⟩ := h s a t hs run
  exact ⟨ht, returns s a t run, ha⟩

end Rules

/-! ### What names lead to -/

section Carried

variable {P : ParsedRecord → Prop} {Q : ResolvedRecord → Prop} {N : String → Prop} {r₀ r : Registry}

/-- What is resolved for a name was so from the beginning. -/
theorem Registry.GrownBy.text (h : r₀.GrownBy N r) {name : String} {v : View} {t : TypeExpr}
    (text : r.Text name v t) : r₀.Text name v t := by
  cases text with
  | target known => exact .target (h.of_leadsOn known rfl)
  | default known hp ht => exact .default (h.of_leadsOn known rfl) hp ht
  | arg hp ht => exact .arg (h.patterns name ▸ hp) ht

/-- The records of a state have certain properties: those in types that are still to be resolved, and those
in types that were. -/
structure State.Each (P : ParsedRecord → Prop) (Q : ResolvedRecord → Prop) (s : State) : Prop where
  texts : ∀ name v t, s.registry.Text name v t → t.Each P
  terminals : ∀ name t, s.terminals.get? name = some t → t.Each Q
  resolved : ∀ template i p, s.registry.pattern? template i = some p → ∀ w f,
    p.progress = .resolved w f → ArgRef.Each Q (w ++ f)

/-- The progress of a specialization adds the arguments that it is resolved to. -/
theorem State.Each.withProgress {s : State} (h : s.Each P Q) (template : String) (i : Nat)
    {progress : Progress} (args : ∀ w f, progress = .resolved w f → ArgRef.Each Q (w ++ f)) :
    (s.withProgress template i progress).Each P Q := by
  have grown := (Registry.GrownBy.refl (fun _ => True) s.registry).withProgress template i progress
  refine ⟨fun name v t text => h.texts name v t (grown.text text), h.terminals, ?_⟩
  intro q j p found w f resolved
  rw [pattern?_withProgress] at found
  split at found
  · obtain ⟨old, -, rfl⟩ := Option.map_eq_some_iff.mp found
    exact args w f resolved
  · exact h.resolved q j p found w f resolved

/-- Jumps to types with certain records give types with certain records. -/
def Jump.Carries (jump : Jump) (P : ParsedRecord → Prop) (Q : ResolvedRecord → Prop) : Prop :=
  ∀ site t, t.Each P → Upholds (State.Each P Q) (jump site t) (TypeRef.Each Q)

/-- Whether the records have certain properties in what a name is found to be. -/
def Found.Each (P : ParsedRecord → Prop) (Q : ResolvedRecord → Prop) : Found → Prop
  | .type t => t.Each Q
  | .meaning _ (.typedef target _) => target.Each P
  | .meaning _ (.template _ params _) => ∀ p ∈ params, ∀ t ∈ p.types, t.Each P
  | .meaning _ _ => True

theorem State.Each.found {s : State} (h : s.Each P Q) {name : String} {m : Meaning}
    (known : m ∈ (s.registry.meanings.get? name).getD []) : (Found.meaning name m).Each P Q := by
  cases m with
  | record kind => trivial
  | enum => trivial
  | typedef target view => exact h.texts name view target (.target known)
  | template kind params view => exact fun p hp t ht => h.texts name _ t (.default known hp ht)

theorem upholds_look (site : Site) (kind : Option NamedKind) (p : PathExpr) :
    Upholds (State.Each P Q) (look site kind p) (Found.Each P Q) := by
  intro s found t hs run
  cases looked_of_run run with
  | @own u own =>
    refine ⟨hs, ?_⟩
    unfold ownType? at own
    split at own
    · cases own
      show TypeRef.Each Q (if _ then _ else _)
      split
      · exact TypeRef.each_dependent
      · exact TypeRef.each_param
    · split at own <;> cases own
      exact TypeRef.each_dependent
  | meaning _ found => exact ⟨hs, hs.found (Registry.mem_of_find? (find?_of_findIn found))⟩
  | library => exact ⟨hs, TypeRef.each_builtin⟩
  | @implied k _ _ _ _ _ _ declared =>
    -- The meaning of a name that is declared here leads nowhere.
    have nowhere (name : String) : (forwardDecl k name).2.leadsOn = false := by cases k <;> rfl
    obtain ⟨q, same⟩ := run_declareImplicitly site k p.plainName s
    rw [same] at declared
    cases declared
    have grown : s.registry.GrownBy (fun _ => True)
        (s.registry.addMeaning q (forwardDecl k (Name.splitScope q).2).2) :=
      (Registry.GrownBy.refl _ s.registry).addMeaning (nowhere _) trivial
    exact ⟨⟨fun name v t text => hs.texts name v t (grown.text text), hs.terminals, hs.resolved⟩,
      TypeRef.each_named⟩

variable {jump : Jump} (carries : jump.Carries P Q) (site : Site)

include carries

theorem upholds_resolveTypedef (name : String) {target : TypeExpr} (h : target.Each P) :
    Upholds (State.Each P Q) (resolveTypedef jump site name target) (TypeRef.Each Q) := by
  intro s a t hs run
  obtain ⟨u, jumped, -, rfl⟩ := resolveTypedef_eq_ok run
  obtain ⟨hu, ha⟩ := carries _ target h s a u hs jumped
  exact ⟨⟨hu.texts, hu.terminals, hu.resolved⟩, ha⟩

theorem upholds_terminalOf (name : String) {target : TypeExpr} (h : target.Each P) :
    Upholds (State.Each P Q) (terminalOf jump site name target) (TypeRef.Each Q) := by
  intro s a t hs run
  rcases terminalOf_eq_ok run with ⟨kept, rfl⟩ | ⟨b, u, resolved, rfl, rfl⟩
  · exact ⟨hs, hs.terminals name a kept⟩
  · obtain ⟨hu, hb⟩ := upholds_resolveTypedef carries site name h s b u hs resolved
    have ha : (chainEnd b).Each Q := by
      unfold chainEnd
      split
      · exact TypeRef.each_typedef.mp hb
      · exact hb
    refine ⟨⟨hu.texts, fun q c kept => ?_, hu.resolved⟩, ha⟩
    dsimp only at kept
    rw [NameMap.get?_insert] at kept
    split at kept
    · cases kept
      exact ha
    · exact hu.terminals q c kept

/-! ### Template arguments -/

theorem upholds_defaultArg {p : TemplateParam TypeExpr} (h : ∀ t ∈ p.types, t.Each P) :
    Upholds (State.Each P Q) (defaultArg jump site p) (fun a => ArgRef.Each Q a.toList) := by
  obtain ⟨name, kind, pack⟩ := p
  unfold defaultArg
  split
  · exact .pure ArgRef.each_nil
  · split
    · rename_i ty same
      cases same
      refine (carries site ty (h ty List.mem_cons_self)).map fun t ht => ?_
      exact ArgRef.each_cons.mpr ⟨List.forall_mem_singleton.mpr ht, ArgRef.each_nil⟩
    · exact .pure (ArgRef.each_cons.mpr ⟨List.forall_mem_nil _, ArgRef.each_nil⟩)
    · exact .pure (ArgRef.each_cons.mpr ⟨List.forall_mem_nil _, ArgRef.each_nil⟩)
    · exact .pure ArgRef.each_nil

/-- A default has the records of the arguments before it that it refers to. -/
theorem upholds_appendDefaults (params : List (TemplateParam TypeExpr))
    {rest : List (TemplateParam TypeExpr)} (h : ∀ p ∈ rest, ∀ t ∈ p.types, t.Each P)
    {args : List ArgRef} (ha : ArgRef.Each Q args) :
    Upholds (State.Each P Q) (appendDefaults jump site params rest args) (ArgRef.Each Q) := by
  induction rest generalizing args with
  | nil => exact .pure ha
  | cons p rest ih =>
    unfold appendDefaults
    refine (upholds_defaultArg carries site (h p List.mem_cons_self)).bind fun a given => ?_
    cases a with
    | none => exact .pure ha
    | some a =>
      have bound : ∀ t ∈ (Template.bind params args).types, t.Each Q := Template.each_bind ha
      have more := Template.each_substituteArg bound a (ArgRef.each_cons.mp given).1
      have last := ArgRef.each_append.mpr ⟨ha, ArgRef.each_cons.mpr ⟨more, ArgRef.each_nil⟩⟩
      exact ih (fun p hp => h p (List.mem_cons_of_mem _ hp)) last

theorem upholds_fillDefaults {params : List (TemplateParam TypeExpr)}
    (h : ∀ p ∈ params, ∀ t ∈ p.types, t.Each P) (view : View) {args : List ArgRef}
    (ha : ArgRef.Each Q args) :
    Upholds (State.Each P Q) (fillDefaults jump site params view args) (ArgRef.Each Q) :=
  upholds_appendDefaults carries _ params (fun p hp => h p (List.mem_of_mem_drop hp)) ha

theorem upholds_jumpArgs {args : List ArgExpr} (h : ∀ t ∈ args.flatMap (·.types), t.Each P) :
    Upholds (State.Each P Q) (jumpArgs jump site args) (ArgRef.Each Q) := by
  induction args with
  | nil => exact .pure ArgRef.each_nil
  | cons a rest ih =>
    have later := ih fun t ht => h t (List.mem_append_right _ ht)
    cases a with
    | literal text =>
      exact later.map fun as has => ArgRef.each_cons.mpr ⟨List.forall_mem_nil _, has⟩
    | type ty =>
      have first := carries site ty (h ty (List.mem_append_left _ List.mem_cons_self))
      refine first.bind fun t ht => later.map fun as has => ?_
      exact ArgRef.each_cons.mpr ⟨List.forall_mem_singleton.mpr ht, has⟩

/-! ### Specializations -/

theorem upholds_fillFound {args : List ArgRef} (ha : ArgRef.Each Q args) {found : Option Meaning}
    (h : ∀ m, found = some m → ∃ name, (Found.meaning name m).Each P Q) :
    Upholds (State.Each P Q) (fillFound jump site args found) (ArgRef.Each Q) := by
  cases found with
  | none => exact .pure ha
  | some m =>
    cases m with
    | template kind params view =>
      obtain ⟨name, each⟩ := h _ rfl
      exact upholds_fillDefaults carries site each view ha
    | _ => exact .pure ha

/-- A specialization that is resolved has its arguments from where it stands, and its defaults from where
the template stands. -/
theorem State.Each.resolvePattern {s t : State} (hs : s.Each P Q) {template : String} {i : Nat}
    {p : Pattern} (pattern : s.registry.pattern? template i = some p) {a : List ArgRef × List ArgRef}
    (run : resolvePattern jump site template i p s = (.ok a, t)) :
    t.Each P Q ∧ ArgRef.Each Q a.1 := by
  obtain ⟨u, v, jumped, filled, rfl⟩ := resolvePattern_eq_ok run
  have fresh : p.fresh ∈ s.registry.patternsOf template :=
    List.mem_map_of_mem (List.mem_of_getElem? pattern)
  have args : ∀ t ∈ p.args.flatMap (·.types), t.Each P := fun t ht =>
    hs.texts template p.view t (.arg (p := p.fresh) fresh ht)
  have begun : (s.withProgress template i .underWay).Each P Q := hs.withProgress template i nofun
  obtain ⟨hu, written⟩ := upholds_jumpArgs carries _ args _ _ u begun jumped
  have filling : Upholds (State.Each P Q)
      (fillFound jump site a.1 (u.registry.find? site.resolving none template)) (ArgRef.Each Q) :=
    upholds_fillFound carries site written fun m found =>
      ⟨template, hu.found (Registry.mem_of_find? found)⟩
  obtain ⟨hv, filled⟩ := filling u _ v hu filled
  refine ⟨hv.withProgress template i fun w f same => ?_, written⟩
  cases same
  exact ArgRef.each_append.mpr ⟨written, filled⟩

theorem upholds_patternArgs (template : String) (i : Nat) :
    Upholds (State.Each P Q) (patternArgs jump site template i)
      (fun o => ∀ x ∈ o, ArgRef.Each Q x.2.1) := by
  intro s o t hs run
  rcases patternArgs_eq_ok run with ⟨-, rfl, rfl⟩ | ⟨p, pattern, ⟨-, rfl, rfl⟩ |
    ⟨w, f, progress, rfl, rfl⟩ | ⟨a, -, rfl, now⟩⟩
  · exact ⟨hs, nofun⟩
  · exact ⟨hs, nofun⟩
  · refine ⟨hs, ?_⟩
    rintro _ ⟨⟩
    exact (ArgRef.each_append.mp (hs.resolved template i p pattern w f progress)).1
  · obtain ⟨ht, written⟩ := hs.resolvePattern carries site pattern now
    refine ⟨ht, ?_⟩
    rintro _ ⟨⟩
    exact written

/-- What is selected was selected before, or is written in a specialization. -/
theorem upholds_selectFrom (template : String) (actual : List ArgRef) (is : List Nat)
    {partialMatch : Option (List ArgRef)} (h : ∀ args ∈ partialMatch, ArgRef.Each Q args) :
    Upholds (State.Each P Q) (selectFrom jump site template actual is partialMatch)
      (fun o => ∀ args ∈ o, ArgRef.Each Q args) := by
  induction is generalizing partialMatch with
  | nil => exact .pure h
  | cons i rest ih =>
    unfold selectFrom
    refine (upholds_patternArgs carries site template i).bind fun o written => ?_
    cases o with
    | none => exact ih h
    | some x =>
      obtain ⟨params, w, filled⟩ := x
      have chosen : ∀ args ∈ some w, ArgRef.Each Q args := by
        rintro _ ⟨⟩
        exact written _ rfl
      dsimp only
      split
      · split
        · exact .pure chosen
        · exact ih h
      · split
        · exact ih chosen
        · exact ih h

theorem upholds_instantiate {template : String} {params : List (TemplateParam TypeExpr)}
    (h : ∀ p ∈ params, ∀ t ∈ p.types, t.Each P) (view : View) {args : List ArgRef}
    (ha : ArgRef.Each Q args) :
    Upholds (State.Each P Q) (instantiate jump site template params view args)
      (fun i => (TypeRef.instantiation i).Each Q) := by
  refine (upholds_fillDefaults carries site h view ha).bind fun args given => ?_
  refine Upholds.bind (.get fun s _ => upholds_selectFrom carries site template _ _ nofun)
    fun selected chosen => .pure (TypeRef.each_instantiation.mpr ⟨given, ?_⟩)
  cases selected with
  | none => exact ArgRef.each_nil
  | some args => exact chosen args rfl

end Carried

end Resolution

end HeaderDecl
