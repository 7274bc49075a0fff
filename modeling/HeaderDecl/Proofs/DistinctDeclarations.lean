import HeaderDecl.Proofs.SpelledTypes
import HeaderDecl.Proofs.TwoInsertions

/-!
Which overloads of a function, and which specializations of a template, a model tells apart: those whose
types differ in their text. Whether a function is variadic does not count, and neither does to what part
of a type a qualifier belongs.
-/

namespace HeaderDecl

open TypeRef

/-- The types of the parameters, without their names. -/
def FunctionDecl.paramTypes (f : FunctionDecl TypeRef) : List ArgRef :=
  f.signature.params.map fun p => .type p.ty

/-- What holds of two lists of types if and only if their texts differ, or if something else is so. The
text of a type in words tells its reading, and more if the words are known. -/
structure ToldByText (kept : Prop) (as bs : List ArgRef) (otherwise : Prop) : Prop where
  iff_text : kept ↔ as.map renderArg ≠ bs.map renderArg ∨ otherwise
  iff_reading : Reading.LegibleAll (argReadings as) → Reading.LegibleAll (argReadings bs) →
    (kept ↔ argReadings as ≠ argReadings bs ∨ otherwise)
  of_length : as.length ≠ bs.length → kept
  of_plain : ∀ ν : Naming, SpelledArgs ν as → SpelledArgs ν bs →
    Reading.LegibleAll (argReadings as) → Reading.LegibleAll (argReadings bs) →
    plainArgs as ≠ plainArgs bs → kept

theorem texts_argReadings (as : List ArgRef) :
    Reading.texts (argReadings as) = (as.map renderArg).map String.toList := by
  induction as with
  | nil => rfl
  | cons a as ih =>
    rw [argReadings, Reading.texts, ih, ← toList_renderArg]
    rfl

/-- Lists of legible types are written alike if and only if they read alike. -/
theorem map_renderArg_eq_iff {as bs : List ArgRef} (ha : Reading.LegibleAll (argReadings as))
    (hb : Reading.LegibleAll (argReadings bs)) :
    as.map renderArg = bs.map renderArg ↔ argReadings as = argReadings bs := by
  have texts : Reading.texts (argReadings as) = Reading.texts (argReadings bs) ↔
      as.map renderArg = bs.map renderArg := by
    rw [texts_argReadings, texts_argReadings]
    exact List.map_inj_right fun _ _ => String.toList_inj.mp
  rw [← texts]
  exact ⟨Reading.texts_injective _ _ ha hb, fun same => by rw [same]⟩

theorem toldByText {kept otherwise : Prop} {as bs : List ArgRef}
    (h : kept ↔ as.map renderArg ≠ bs.map renderArg ∨ otherwise) :
    ToldByText kept as bs otherwise := by
  refine ⟨h, ?_, ?_, ?_⟩
  · intro ha hb
    rw [h, Ne, map_renderArg_eq_iff ha hb]
  · intro longer
    refine h.mpr (.inl fun same => longer ?_)
    rw [← List.length_map renderArg, same, List.length_map]
  · intro ν sa sb ha hb differ
    refine h.mpr (.inl fun same => differ ?_)
    exact sa.plainArgs_eq sb ((map_renderArg_eq_iff ha hb).mp same)

namespace Decl

theorem identity_function_eq_iff (f f' : FunctionDecl TypeRef) :
    identity (.function f) = identity (.function f') ↔
      f.paramTypes.map renderArg = f'.paramTypes.map renderArg ∧
        f.qualifiers.isConst = f'.qualifiers.isConst := by
  simp only [identity, Option.some.injEq, Identity.function.injEq, FunctionDecl.paramTypes, List.map_map]
  rfl

theorem identity_specialization_eq_iff (c c' : SpecializationDecl TypeRef ArgRef String) :
    identity (.specialization c) = identity (.specialization c') ↔
      c.args.map renderArg = c'.args.map renderArg := by
  simp only [identity, Option.some.injEq, Identity.specialization.injEq]

end Decl

namespace Model

variable {log : List Inserted} {m : Model} {i : Nat} {s : Scope}

/-- How a model tells two declarations of one kind apart: by the text of their types, or by something
else. If it does not, the second one is taken for a further declaration of the first one. -/
structure ToldApart (m : Model) (i : Nat) (q : String) (e₁ e₂ : Entry) (as bs : List ArgRef)
    (otherwise : Prop) : Prop where
  told : ToldByText (m.KeptApart i q e₁ e₂) as bs otherwise
  else_collapsed : ¬ m.KeptApart i q e₁ e₂ → m.Lacks q e₁ → m.Collapsed i q e₁ e₂

theorem History.toldApart (h : History log m) (hs : m.scopes[i]? = some s) {q : String} {e₁ e₂ : Entry}
    (qualified₁ : qualifiedName s e₁ = some q) (qualified₂ : qualifiedName s e₂ = some q)
    {as bs : List ArgRef} {otherwise : Prop}
    (identities : e₁.decl.identity ≠ e₂.decl.identity ↔
      as.map renderArg ≠ bs.map renderArg ∨ otherwise) :
    m.ToldApart i q e₁ e₂ as bs otherwise := by
  have apart := h.keptApart_iff hs qualified₁ qualified₂
  refine ⟨toldByText (apart.trans identities), fun joined lacks => ?_⟩
  rw [apart, not_not] at joined
  exact h.collapsed hs qualified₁ qualified₂ joined lacks

/-- Overloads are told apart by the types of their parameters and by being const, and specializations by
their arguments. -/
theorem distinct_declarations (h : History log m) (hs : m.scopes[i]? = some s) :
    (∀ f₁ f₂ : FunctionDecl TypeRef, f₁.name = f₂.name → ∀ o₁ o₂ : Origin,
      m.ToldApart i (Name.qualify s.path f₁.name) ⟨.function f₁, o₁⟩ ⟨.function f₂, o₂⟩
        f₁.paramTypes f₂.paramTypes (f₁.qualifiers.isConst ≠ f₂.qualifiers.isConst)) ∧
    (∀ (c₁ c₂ : SpecializationDecl TypeRef ArgRef String) (n : String), c₁.record.name = some n →
      c₂.record.name = some n → ∀ o₁ o₂ : Origin,
      m.ToldApart i (Name.qualify s.path n) ⟨.specialization c₁, o₁⟩ ⟨.specialization c₂, o₂⟩
        c₁.args c₂.args False) := by
  constructor
  · intro f₁ f₂ named o₁ o₂
    apply h.toldApart hs
    · rfl
    · rw [named]
      rfl
    · rw [Ne, Decl.identity_function_eq_iff, not_and_or]
  · intro c₁ c₂ n named₁ named₂ o₁ o₂
    apply h.toldApart hs
    · simp [qualifiedName, Decl.name, named₁]
    · simp [qualifiedName, Decl.name, named₂]
    · rw [Ne, Decl.identity_specialization_eq_iff, or_false]

/-- An overload of a function that returns nothing. -/
def overload (params : List TypeRef) (variadic : Bool) : FunctionDecl TypeRef :=
  ⟨"f", .free, ⟨.primitive .void, params.map (⟨none, ·, false⟩), variadic⟩, {}, .pub, [], ""⟩

def overloadAt (line : Nat) (params : List TypeRef) (variadic : Bool) : Entry :=
  ⟨.function (overload params variadic), ⟨"f.h", line, 1⟩⟩

/-- An integer that is constant. -/
def constInt : TypeRef := .qualified { isConst := true } (.primitive .int)

def pointerToConst : TypeRef := .pointer (.pointer constInt)

def pointerConst : TypeRef := .pointer (.qualified { isConst := true } (.pointer (.primitive .int)))

/-- A pointer to a constant is told from a pointer to a variable. -/
theorem distinct_declarations_pointer :
    History [] empty ∧ empty.scopes[0]? = some ⟨"", .global, none, []⟩ ∧
      empty.KeptApart 0 "f" (overloadAt 1 [.pointer constInt] false)
        (overloadAt 2 [.pointer (.primitive .int)] false) := by
  have apart := (distinct_declarations .empty (i := 0) rfl).1 (overload [.pointer constInt] false)
    (overload [.pointer (.primitive .int)] false) rfl ⟨"f.h", 1, 1⟩ ⟨"f.h", 2, 1⟩
  let ν : Naming := ⟨fun _ => .type (.primitive .int), fun _ => none⟩
  have plain : SpelledIn ν (.primitive .int) := .word rfl rfl
  have const : SpelledIn ν constInt := .qualifiedWord (by decide) rfl rfl
  have legible := Reading.isWord_primitive .int
  refine ⟨.empty, rfl, apart.told.of_plain ν ?_ ?_ ⟨legible, trivial⟩ ⟨legible, trivial⟩ ?_⟩
  · exact .singleton const.pointer
  · exact .singleton plain.pointer
  · simp [FunctionDecl.paramTypes, overload, plainArgs, plainArg, TypeRef.plain, constInt]

theorem collapsed_overloadAt {as bs : List TypeRef} (texts : as.map render = bs.map render)
    (variadic variadic' : Bool) :
    empty.Collapsed 0 "f" (overloadAt 1 as variadic) (overloadAt 2 bs variadic') := by
  have identity (line : Nat) (ts : List TypeRef) (v : Bool) :
      (overloadAt line ts v).decl.identity = some (.function (ts.map render) false) := by
    simp only [overloadAt, overload, Decl.identity, List.map_map, Function.comp_def]
  refine History.empty.collapsed rfl rfl rfl ?_ ?_
  · rw [identity, identity, texts]
  · rintro r ⟨there, -⟩
    cases there

/-- A pointer to a pointer to a constant is taken for a pointer to a constant pointer, and a function for
one that takes further arguments. -/
theorem collapsed_overloads :
    (lookup ((empty.insert 0 (overloadAt 1 [pointerToConst] false)).1.insert 0
        (overloadAt 2 [pointerConst] false)).1 "f" = [overloadAt 1 [pointerToConst] false] ∧
      ((empty.insert 0 (overloadAt 1 [pointerToConst] false)).1.insertReporting 0
        (overloadAt 2 [pointerConst] false)).2 =
          [conflictDiagnostic (some "f") (overloadAt 2 [pointerConst] false) ⟨"f.h", 1, 1⟩]) ∧
    (lookup ((empty.insert 0 (overloadAt 1 [.primitive .int] false)).1.insert 0
        (overloadAt 2 [.primitive .int] true)).1 "f" = [overloadAt 1 [.primitive .int] false] ∧
      ((empty.insert 0 (overloadAt 1 [.primitive .int] false)).1.insertReporting 0
        (overloadAt 2 [.primitive .int] true)).2 =
          [conflictDiagnostic (some "f") (overloadAt 2 [.primitive .int] true) ⟨"f.h", 1, 1⟩]) := by
  have refused {e₁ e₂ : Entry} (h : empty.Collapsed 0 "f" e₁ e₂)
      (differ : reconcile e₁.decl e₂.decl = .conflict) :
      lookup ((empty.insert 0 e₁).1.insert 0 e₂).1 "f" = [e₁] ∧
        ((empty.insert 0 e₁).1.insertReporting 0 e₂).2 =
          [conflictDiagnostic (some "f") e₂ e₁.origin] := by
    have found := h.lookup
    have report := h.report
    rw [differ] at found report
    exact ⟨found, report⟩
  constructor
  · refine refused (collapsed_overloadAt ?_ false false) ?_
    · simp [render, pointerToConst, pointerConst, constInt, Qualifiers.render, String.append_assoc]
    · simp [reconcile, overloadAt, overload, Decl.completeness?, Decl.normalized, Decl.anonymousParams,
        pointerToConst, pointerConst, constInt]
  · refine refused (collapsed_overloadAt rfl false true) ?_
    simp [reconcile, overloadAt, overload, Decl.completeness?, Decl.normalized, Decl.anonymousParams]

end Model

end HeaderDecl
