import HeaderDecl.Proofs.ParameterNames
import HeaderDecl.Proofs.TwoInsertions

/-!
Declarations that are equal up to the names of parameters. The second one repeats the first one if and
only if it is a forward declaration or they agree in the names within the types that they mention: only
the names in a declaration's own lists of parameters make no difference.
-/

namespace HeaderDecl

namespace Decl

open TypeRef

/-- A declaration without the names of the parameters of all functions in it. -/
def nameless : ResolvedDecl → ResolvedDecl
  | .record r => .record (namelessRecord r)
  | .enum e => .enum (namelessEnum e)
  | .typedef ⟨n, t⟩ => .typedef ⟨n, t.nameless⟩
  | .function f => .function (namelessFunction f)
  | .var ⟨n, t, e, s⟩ => .var ⟨n, t.nameless, e, s⟩
  | .constant c => .constant c
  | .template ⟨ps, r⟩ => .template ⟨namelessTemplateParams ps, namelessRecord r⟩
  | .specialization ⟨t, ps, as, r, o⟩ =>
    .specialization ⟨t, namelessTemplateParams ps, namelessArgs as, namelessRecord r, o⟩

/-- The names of the parameters within the types that a function mentions, its own ones apart. -/
def functionInnerNames (f : FunctionDecl TypeRef) : List (Option String) :=
  f.signature.returnTy.paramNames ++ f.signature.params.flatMap (·.ty.paramNames) ++
    templateParamsNames f.templateParams

/-- The names of the parameters within the types that a record mentions, those of its methods apart. -/
def recordInnerNames (r : ResolvedRecord) : List (Option String) :=
  fieldsNames r.fields ++ r.methods.flatMap functionInnerNames

/-- The names of the parameters of functions within the types that a declaration mentions. -/
def innerNames : ResolvedDecl → List (Option String)
  | .record r => recordInnerNames r
  | .enum e => enumNames e
  | .typedef t => t.ty.paramNames
  | .function f => functionInnerNames f
  | .var v => v.ty.paramNames
  | .constant _ => []
  | .template t => templateParamsNames t.params ++ recordInnerNames t.record
  | .specialization s =>
    templateParamsNames s.params ++ argsNames s.args ++ recordInnerNames s.record

/-! ### What the names of parameters do not change -/

@[simp] theorem name_nameless (d : ResolvedDecl) : d.nameless.name = d.name := by
  cases d <;> simp [nameless, name]

@[simp] theorem completeness?_nameless (d : ResolvedDecl) :
    d.nameless.completeness? = d.completeness? := by
  cases d <;> simp [nameless, completeness?]

theorem map_render_nameless (ps : List (Parameter TypeRef)) :
    (namelessParams ps).map (fun p => p.ty.render) = ps.map fun p => p.ty.render := by
  induction ps with
  | nil => rfl
  | cons p ps ih => simp only [namelessParams, List.map_cons, render_nameless, ih]

theorem map_renderArg_nameless (as : List ArgRef) :
    (namelessArgs as).map renderArg = as.map renderArg := by
  induction as with
  | nil => rfl
  | cons a as ih => simp only [namelessArgs, List.map_cons, renderArg_nameless, ih]

@[simp] theorem identity_nameless (d : ResolvedDecl) : d.nameless.identity = d.identity := by
  cases d with
  | typedef _ | var _ | constant _ | template _ => rfl
  | record r => simp only [nameless, identity, namelessRecord_name]
  | enum e => simp only [nameless, identity, namelessEnum_name, namelessEnum_members]
  | function f =>
    obtain ⟨_, _, ⟨_, _, _⟩, _, _, _, _⟩ := f
    simp only [nameless, identity, namelessFunction, namelessSignature, map_render_nameless]
  | specialization s => simp only [nameless, identity, map_renderArg_nameless]

section

variable {d d' : ResolvedDecl} (equal : d.nameless = d'.nameless)

include equal

theorem name_renamed : d'.name = d.name := by
  rw [← name_nameless, ← equal, name_nameless]

theorem completeness?_renamed : d'.completeness? = d.completeness? := by
  rw [← completeness?_nameless, ← equal, completeness?_nameless]

theorem identity_renamed : d'.identity = d.identity := by
  rw [← identity_nameless, ← equal, identity_nameless]

end

/-! ### What is compared -/

theorem functionInnerNames_anonymousParams (f : FunctionDecl TypeRef) :
    functionInnerNames (anonymousParams f) = functionInnerNames f := by
  simp [functionInnerNames, anonymousParams, List.flatMap_map]

theorem recordInnerNames_normalizedRecord (r : ResolvedRecord) :
    recordInnerNames (normalizedRecord r) = recordInnerNames r := by
  simp [recordInnerNames, normalizedRecord, List.flatMap_map, functionInnerNames_anonymousParams]

theorem innerNames_normalized (d : ResolvedDecl) : d.normalized.innerNames = d.innerNames := by
  cases d with
  | record r => exact recordInnerNames_normalizedRecord r
  | function f => exact functionInnerNames_anonymousParams f
  | template t => simp only [normalized, innerNames, recordInnerNames_normalizedRecord]
  | specialization s => simp only [normalized, innerNames, recordInnerNames_normalizedRecord]
  | constant c =>
    obtain ⟨_, _ | _ | _⟩ := c <;> rfl
  | enum e =>
    cases e
    rfl
  | typedef _ | var _ => rfl

theorem toldOwnParams : ∀ ps ps' : List (Parameter TypeRef), ∀ {rest rest'},
    namelessParams ps = namelessParams ps' →
    ps.flatMap (·.ty.paramNames) ++ rest = ps'.flatMap (·.ty.paramNames) ++ rest' →
    ps.map (fun p => { p with name := none }) = ps'.map (fun p => { p with name := none }) ∧ rest = rest'
  | [], [], _, _, _, n => ⟨rfl, n⟩
  | [], ⟨_, _, _⟩ :: _, _, _, h, _ | ⟨_, _, _⟩ :: _, [], _, _, h, _ => by
    simp only [namelessParams, reduceCtorEq] at h
  | ⟨_, t, _⟩ :: ps, ⟨_, _, _⟩ :: ps', _, _, h, n => by
    simp only [namelessParams, List.cons.injEq, Parameter.mk.injEq] at h
    simp only [List.flatMap_cons, List.append_assoc] at n
    obtain ⟨rfl, behind⟩ := told t _ _ _ h.1.2.1 n
    obtain ⟨same, rfl⟩ := toldOwnParams ps ps' h.2 behind
    exact ⟨by rw [List.map_cons, List.map_cons, same, h.1.2.2], rfl⟩

theorem toldMethod (f f' : FunctionDecl TypeRef) {rest rest' : List (Option String)}
    (h : namelessFunction f = namelessFunction f')
    (n : functionInnerNames f ++ rest = functionInnerNames f' ++ rest') :
    anonymousParams f = anonymousParams f' ∧ rest = rest' := by
  obtain ⟨_, _, ⟨t, ps, _⟩, _, _, tps, _⟩ := f
  obtain ⟨_, _, ⟨t', ps', _⟩, _, _, tps', _⟩ := f'
  simp only [namelessFunction, namelessSignature, FunctionDecl.mk.injEq, Signature.mk.injEq] at h
  simp only [functionInnerNames, List.append_assoc] at n
  obtain ⟨rfl, behind⟩ := told t _ _ _ h.2.2.1.1 n
  obtain ⟨same, behind⟩ := toldOwnParams ps ps' h.2.2.1.2.1 behind
  obtain ⟨rfl, rfl⟩ := toldTemplateParams tps _ _ _ h.2.2.2.2.2.1 behind
  simp only [anonymousParams, same, h, and_self]

theorem toldMethods : ∀ fs fs' : List (FunctionDecl TypeRef), ∀ {rest rest'},
    namelessFunctions fs = namelessFunctions fs' →
    fs.flatMap functionInnerNames ++ rest = fs'.flatMap functionInnerNames ++ rest' →
    fs.map anonymousParams = fs'.map anonymousParams ∧ rest = rest'
  | [], [], _, _, _, n => ⟨rfl, n⟩
  | [], _ :: _, _, _, h, _ | _ :: _, [], _, _, h, _ => by
    simp only [namelessFunctions, reduceCtorEq] at h
  | f :: fs, f' :: fs', _, _, h, n => by
    simp only [namelessFunctions, List.cons.injEq] at h
    simp only [List.flatMap_cons, List.append_assoc] at n
    obtain ⟨first, behind⟩ := toldMethod f f' h.1 n
    obtain ⟨others, rfl⟩ := toldMethods fs fs' h.2 behind
    exact ⟨by rw [List.map_cons, List.map_cons, first, others], rfl⟩

theorem toldMembers {r r' : ResolvedRecord} {rest rest' : List (Option String)}
    (h : namelessRecord r = namelessRecord r')
    (n : recordInnerNames r ++ rest = recordInnerNames r' ++ rest') :
    normalizedRecord r = normalizedRecord r' ∧ rest = rest' := by
  obtain ⟨_, _, fs, ms, _, _, _⟩ := r
  obtain ⟨_, _, fs', ms', _, _, _⟩ := r'
  simp only [namelessRecord, RecordDecl.mk.injEq] at h
  simp only [recordInnerNames, List.append_assoc] at n
  obtain ⟨rfl, behind⟩ := toldFields fs _ _ _ h.2.2.1 n
  obtain ⟨same, rfl⟩ := toldMethods ms ms' h.2.2.2.1 behind
  simp only [normalizedRecord, same, h, and_self]

/-- Declarations that are equal up to the names of parameters are compared by the names within the
types that they mention. -/
theorem normalized_eq_iff {d d' : ResolvedDecl} (equal : d.nameless = d'.nameless) :
    d.normalized = d'.normalized ↔ d.innerNames = d'.innerNames := by
  constructor
  · intro same
    rw [← innerNames_normalized d, ← innerNames_normalized d', same]
  · intro names
    replace names : d.innerNames ++ [] = d'.innerNames ++ [] := by rw [names]
    cases d <;> cases d' <;> simp only [nameless, reduceCtorEq] at equal
    case record.record r r' =>
      simp only [record.injEq] at equal
      simp only [normalized, (toldMembers equal names).1]
    case enum.enum e e' =>
      simp only [enum.injEq] at equal
      simp only [(toldEnum e _ _ _ equal names).1]
    case typedef.typedef t t' =>
      obtain ⟨_, ty⟩ := t
      obtain ⟨_, ty'⟩ := t'
      simp only [typedef.injEq, TypedefDecl.mk.injEq] at equal
      obtain ⟨rfl, -⟩ := told ty _ _ _ equal.2 names
      simp only [equal]
    case function.function f f' =>
      simp only [function.injEq] at equal
      simp only [normalized, (toldMethod f f' equal names).1]
    case var.var v v' =>
      obtain ⟨_, ty, _, _⟩ := v
      obtain ⟨_, ty', _, _⟩ := v'
      simp only [var.injEq, VariableDecl.mk.injEq] at equal
      obtain ⟨rfl, -⟩ := told ty _ _ _ equal.2.1 names
      simp only [equal]
    case constant.constant c c' => rw [equal]
    case template.template t t' =>
      simp only [template.injEq, TemplateDecl.mk.injEq] at equal
      simp only [innerNames, List.append_assoc] at names
      obtain ⟨same, behind⟩ := toldTemplateParams t.params _ _ _ equal.1 names
      simp only [normalized, same, (toldMembers equal.2 behind).1]
    case specialization.specialization s s' =>
      simp only [specialization.injEq, SpecializationDecl.mk.injEq] at equal
      simp only [innerNames, List.append_assoc] at names
      obtain ⟨params, behind⟩ := toldTemplateParams s.params _ _ _ equal.2.1 names
      obtain ⟨args, behind⟩ := toldArgs s.args _ _ _ equal.2.2.1 behind
      simp only [normalized, params, args, equal, (toldMembers equal.2.2.2.1 behind).1]

end Decl

/-! ### Two entries -/

/-- A function that takes a pointer to a function, with the names of both parameters. -/
def Entry.ofListener (own inner : String) (line : Nat) : Entry :=
  ⟨.function ⟨"listen", .free, ⟨.primitive .void, [⟨some own, .functionPointer
    ⟨.primitive .void, [⟨some inner, .primitive .int, false⟩], false⟩, false⟩], false⟩, {}, .pub, [], ""⟩,
    ⟨"a.h", line, 1⟩⟩

namespace Model

variable {log : List Inserted} {m : Model} {i : Nat} {s : Scope} {old e₁ e₂ : Entry} {q : String}
  {r : DeclRef}

/-- What is the same as a declaration is compared to one that is equal to it up to the names of
parameters. -/
theorem reconcile_renamed (identity : old.decl.identity = e₁.decl.identity)
    (known : e₁.decl.identity.isSome) (same : reconcile old.decl e₁.decl = .same)
    (equal : e₁.decl.nameless = e₂.decl.nameless) : reconcile old.decl e₂.decl =
      if e₂.isFinal ∧ e₁.decl.innerNames ≠ e₂.decl.innerNames then .conflict else .same := by
  obtain ⟨id, identified₁⟩ := Option.isSome_iff_exists.mp known
  have identified : old.decl.identity = some id := identity.trans identified₁
  have identified₂ : e₂.decl.identity = some id := (Decl.identity_renamed equal).trans identified₁
  have completeness := Decl.completeness?_renamed equal
  have kinds := completeness?_isSome_of_identity identified identified₂
  have stays : ¬(old.decl.completeness? = some false ∧ e₂.decl.completeness? = some true) := by
    rw [completeness, ← reconcile_eq_replace, same]
    exact nofun
  by_cases final : e₂.decl.completeness? = some false
  · -- A forward declaration agrees with whatever is there.
    have forward : e₂.isFinal = false := by
      rw [Entry.isFinal, final]
      rfl
    rw [if_neg (fun h => Bool.false_ne_true (forward.symm.trans h.1)), reconcile, final]
    rw [final] at kinds
    rcases complete : old.decl.completeness? with _ | _ | _
    · rw [complete] at kinds
      cases kinds
    · rfl
    · rfl
  · have settled : old.decl.completeness? ≠ some false := by
      intro forward
      rw [forward] at kinds
      rcases complete : e₂.decl.completeness? with _ | _ | _
      · rw [complete] at kinds
        cases kinds
      · exact final complete
      · exact stays ⟨forward, complete⟩
    have agrees : old.decl.normalized = e₁.decl.normalized := by
      by_contra differs
      have conflict := (reconcile_eq_conflict identified identified₁).mpr
        ⟨settled, completeness.symm ▸ final, differs⟩
      rw [same] at conflict
      cases conflict
    have refused : reconcile old.decl e₂.decl = .conflict ↔ e₁.decl.innerNames ≠ e₂.decl.innerNames := by
      rw [reconcile_eq_conflict identified identified₂, agrees]
      have compared := not_congr (Decl.normalized_eq_iff equal)
      exact ⟨fun h => compared.mp h.2.2, fun h => ⟨settled, final, compared.mpr h⟩⟩
    have complete : e₂.isFinal = true := decide_eq_true final
    by_cases names : e₁.decl.innerNames = e₂.decl.innerNames
    · rw [if_neg (fun h => h.2 names)]
      cases decided : reconcile old.decl e₂.decl with
      | same => rfl
      | replace => exact absurd (reconcile_eq_replace.mp decided) stays
      | conflict => exact absurd names (refused.mp decided)
    · rw [if_pos ⟨complete, names⟩, refused.mpr names]

/-- Whether an entry would be taken for a repetition of what stands at a place, without a report. -/
def Repeats (m : Model) (i : Nat) (e : Entry) (r : DeclRef) : Prop :=
  m.insert i e = (m, .duplicate r) ∧ m.insertReporting i e = (m, [])

/-- Whether an entry would be refused under a name for what stands at a place, with a report. -/
def Refuses (m : Model) (i : Nat) (q : String) (e : Entry) (r : DeclRef) : Prop :=
  ∃ old, m.entry? r = some old ∧ m.insert i e = (m, .conflict r old.origin) ∧
    m.insertReporting i e = (m, [conflictDiagnostic (some q) e old.origin])

/-- What becomes of an entry that goes into a scope behind another one, which is equal to it up to the
names of parameters. A forward declaration is repeated whatever its names are; anything else is repeated
as long as the names within the types that it mentions agree, and refused otherwise. What was refused
once is refused again. -/
structure FollowsRenamed (m : Model) (i : Nat) (q : String) (e₁ e₂ : Entry) : Prop where
  repeated : (m.insertReporting i e₁).2 = [] →
    (e₂.isFinal → e₁.decl.innerNames = e₂.decl.innerNames) →
    ∃ r, Stands (m.insert i e₁).1 q e₁ r ∧ Repeats (m.insert i e₁).1 i e₂ r
  refused : (m.insertReporting i e₁).2 = [] →
    e₂.isFinal → e₁.decl.innerNames ≠ e₂.decl.innerNames →
    ∃ r, Stands (m.insert i e₁).1 q e₁ r ∧ Refuses (m.insert i e₁).1 i q e₂ r
  again : ∀ r, m.Refuses i q e₁ r → e₁.decl.innerNames = e₂.decl.innerNames →
    Refuses (m.insert i e₁).1 i q e₂ r

theorem qualifiedName_renamed (equal : e₁.decl.nameless = e₂.decl.nameless) :
    qualifiedName s e₂ = qualifiedName s e₁ := by
  rw [qualifiedName, Decl.name_renamed equal, qualifiedName]

theorem existing?_renamed (equal : e₁.decl.nameless = e₂.decl.nameless) :
    m.existing? i s e₂ = m.existing? i s e₁ := by
  rw [existing?, existing?, qualifiedName_renamed equal, Decl.identity_renamed equal]

theorem reconcile_congr (equal : e₁.decl.nameless = e₂.decl.nameless)
    (names : e₁.decl.innerNames = e₂.decl.innerNames) :
    reconcile old.decl e₂.decl = reconcile old.decl e₁.decl := by
  rw [reconcile, reconcile, Decl.completeness?_renamed equal, (Decl.normalized_eq_iff equal).mpr names]

theorem repeats_of_met (hs : m.scopes[i]? = some s) (met : m.existing? i s e₁ = some r)
    (held : m.entry? r = some old) (same : reconcile old.decl e₁.decl = .same) : m.Repeats i e₁ r := by
  have inserted : m.insert i e₁ = (m, .duplicate r) := by rw [insert_of_met hs met held, same]
  refine ⟨inserted, Prod.ext ?_ ?_⟩
  · rw [insertReporting_fst, inserted]
  · rw [report_of_met hs met held, verdict, same]
    rfl

theorem refuses_of_met (hs : m.scopes[i]? = some s) (qualified : qualifiedName s e₁ = some q)
    (met : m.existing? i s e₁ = some r) (held : m.entry? r = some old)
    (conflict : reconcile old.decl e₁.decl = .conflict) : m.Refuses i q e₁ r := by
  have inserted : m.insert i e₁ = (m, .conflict r old.origin) := by
    rw [insert_of_met hs met held, conflict]
  refine ⟨old, held, inserted, Prod.ext ?_ ?_⟩
  · rw [insertReporting_fst, inserted]
  · have name : e₁.decl.name.map (Name.qualify s.path) = some q := qualified
    rw [report_of_met hs met held, verdict, if_pos conflict, name]

/-- What an entry is refused for is found in its way. -/
theorem Refuses.met (refuses : m.Refuses i q e₁ r) (hs : m.scopes[i]? = some s) :
    m.existing? i s e₁ = some r ∧
      ∃ old, m.entry? r = some old ∧ reconcile old.decl e₁.decl = .conflict := by
  obtain ⟨_, _, inserted, _⟩ := refuses
  cases met : m.existing? i s e₁ with
  | none =>
    rw [insert_of_new hs met] at inserted
    cases (Prod.mk.inj inserted).2
  | some r' =>
    obtain ⟨old, held, -, -⟩ := exists_of_met hs met
    rw [insert_of_met hs met held] at inserted
    cases decided : reconcile old.decl e₁.decl with
    | same =>
      rw [decided] at inserted
      cases (Prod.mk.inj inserted).2
    | replace =>
      rw [decided] at inserted
      dsimp only at inserted
      split at inserted <;> cases (Prod.mk.inj inserted).2
    | conflict =>
      rw [decided] at inserted
      obtain rfl : r' = r := (Insertion.conflict.inj (Prod.mk.inj inserted).2).1
      exact ⟨rfl, old, held, decided⟩

/-- An entry that is told from the one before it by nothing but the names of parameters is a repetition of
it if they are names in its own lists of parameters, and refused if they are not. -/
theorem History.followsRenamed (h : History log m) (hs : m.scopes[i]? = some s)
    (qualified : qualifiedName s e₁ = some q) (equal : e₁.decl.nameless = e₂.decl.nameless) :
    m.FollowsRenamed i q e₁ e₂ := by
  have known : e₁.decl.identity.isSome := identity_isSome (isSome_of_qualified qualified)
  have qualified₂ : qualifiedName s e₂ = some q := (qualifiedName_renamed equal).trans qualified
  -- After the first insertion the second entry meets what the first one would meet again.
  have settled := h.settled_insert hs known
  rw [insertReporting_fst] at settled
  obtain ⟨s₁, r, old, hs₁, path, met, held, report, stays⟩ := settled.meets
  have stands := ((h.insert hs e₁).existing?_eq_some
    ((qualifiedName_of_paths path e₁).trans qualified)).mp met
  have met₂ := (existing?_renamed equal).trans met
  have compared : (m.insertReporting i e₁).2 = [] → reconcile old.decl e₂.decl =
      if e₂.isFinal ∧ e₁.decl.innerNames ≠ e₂.decl.innerNames then .conflict else .same := by
    intro quiet
    refine reconcile_renamed ?_ known ?_ equal
    · obtain ⟨-, old', held', identity⟩ := stands
      rw [Option.some.inj (held.symm.trans held'), identity]
    · cases decided : reconcile old.decl e₁.decl with
      | same => rfl
      | replace =>
        have named : e₁.decl.name.isSome := isSome_of_qualified qualified
        rw [stays decided] at named
        cases named
      | conflict =>
        rw [quiet, verdict, if_pos decided] at report
        cases report
  refine ⟨fun quiet agree => ⟨r, stands, ?_⟩, fun quiet final differ => ⟨r, stands, ?_⟩, ?_⟩
  · refine repeats_of_met hs₁ met₂ held ?_
    rw [compared quiet, if_neg (fun h => h.2 (agree h.1))]
  · refine refuses_of_met hs₁ ((qualifiedName_of_paths path e₂).trans qualified₂) met₂ held ?_
    rw [compared quiet, if_pos ⟨final, differ⟩]
  · intro r' refuses names
    obtain ⟨met', old', held', conflict⟩ := refuses.met hs
    obtain ⟨_, _, inserted, _⟩ := refuses
    rw [inserted]
    refine refuses_of_met hs qualified₂ ((existing?_renamed equal).trans met') held' ?_
    rw [← conflict, reconcile_congr equal names]

/-- The name of the pointer makes no difference. -/
theorem followsRenamed_listener : ((Entry.ofListener "f" "a" 1).decl.nameless =
      (Entry.ofListener "g" "a" 2).decl.nameless) ∧
    ∃ r, Repeats (insert .empty 0 (Entry.ofListener "f" "a" 1)).1 0 (Entry.ofListener "g" "a" 2) r := by
  have follows : FollowsRenamed .empty 0 "listen" (.ofListener "f" "a" 1) (.ofListener "g" "a" 2) :=
    History.empty.followsRenamed rfl (by decide) rfl
  obtain ⟨r, -, repeats⟩ := follows.repeated rfl fun _ => rfl
  exact ⟨rfl, r, repeats⟩

/-- The name of the parameter of the function that is pointed to makes one. -/
theorem refuses_listener : ((Entry.ofListener "f" "a" 1).decl.nameless =
      (Entry.ofListener "f" "b" 2).decl.nameless) ∧
    (insertReporting .empty 0 (Entry.ofListener "f" "a" 1)).2 = [] ∧
    Refuses (insert .empty 0 (Entry.ofListener "f" "a" 1)).1 0 "listen" (Entry.ofListener "f" "b" 2)
      ⟨0, 0⟩ :=
  ⟨rfl, rfl, refuses_of_met rfl (by decide) (by decide) rfl (by decide +kernel)⟩

end Model

end HeaderDecl
