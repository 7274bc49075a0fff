import HeaderDecl.Grammar.Declared
import Mathlib.Data.List.Forall2

/-!
What declarators declare with one base type and with another. It differs only in types, and these are
made from the two base types by the same declarator.
-/

namespace HeaderDecl.Grammar

/-- The types that one of some declarators makes of two base types. -/
def Rebased (b b' : TypeExpr) (ds : List (Declarator × Tail)) (ty ty' : TypeExpr) : Prop :=
  ∃ d ∈ ds, ty = applyOps b d.1.ops ∧ ty' = applyOps b' d.1.ops

section Alike

variable (R : TypeExpr → TypeExpr → Prop) (origin origin' : Origin)

/-- The same function but for its type. Destructors and conversions have none from their base. -/
def SameFunction (f f' : FunctionDecl TypeExpr) : Prop :=
  f' = { f with signature := f'.signature } ∧ (R (.function f.signature) (.function f'.signature) ∨
    f.kind ∈ [.destructor, .conversion] ∧ f.signature = f'.signature)

/-- The same field but for its type. -/
def SameField (f f' : Field TypeExpr) : Prop := f' = { f with ty := f'.ty } ∧ R f.ty f'.ty

/-- The same item but for its type and the place of its declaration. -/
inductive SameItem : Item → Item → Prop
  | typedef {name : String} {ty ty' : TypeExpr} (types : R ty ty') :
    SameItem (.decl (.typedef ⟨name, ty⟩) [] origin) (.decl (.typedef ⟨name, ty'⟩) [] origin')
  | object {v : VariableDecl TypeExpr} {ty' : TypeExpr} (types : R v.ty ty') :
    SameItem (.decl (.var v) [] origin) (.decl (.var { v with ty := ty' }) [] origin')
  | function {f f' : FunctionDecl TypeExpr} (same : SameFunction R f f') :
    SameItem (.decl (.function f) [] origin) (.decl (.function f') [] origin')

/-- The same declared but for types and the place of the declaration. -/
structure Alike (d d' : Declared) : Prop where
  failure : d.failure = d'.failure
  reports : d.reports = d'.reports
  items : List.Forall₂ (SameItem R origin origin') d.items d'.items
  fields : List.Forall₂ (SameField R) d.fields d'.fields
  methods : List.Forall₂ (SameFunction R) d.methods d'.methods

end Alike

variable {R : TypeExpr → TypeExpr → Prop} {origin origin' : Origin}

theorem Alike.andThen {d d' e e' : Declared} (first : Alike R origin origin' d d')
    (second : Alike R origin origin' e e') :
    Alike R origin origin' (d.andThen e) (d'.andThen e') := by
  unfold Declared.andThen
  rw [← first.failure]
  cases d.failure with
  | some f => exact first
  | none =>
    refine ⟨second.failure, ?_, List.rel_append first.items second.items,
      List.rel_append first.fields second.fields, List.rel_append first.methods second.methods⟩
    simp only [first.reports, second.reports]

theorem alike_nothing {failure : Option Failure} {reports : List Report} :
    Alike R origin origin' { failure, reports } { failure, reports } :=
  ⟨rfl, rfl, .nil, .nil, .nil⟩

theorem alike_ofItem {i i' : ParsedDecl}
    (same : SameItem R origin origin' (.decl i [] origin) (.decl i' [] origin')) :
    Alike R origin origin' (.ofItem i origin) (.ofItem i' origin') :=
  ⟨rfl, rfl, .cons same .nil, .nil, .nil⟩

theorem applyOps_function {b : TypeExpr} {d : Declarator} {suffix : FunctionSuffix}
    (last : d.functionSuffix? = some suffix) :
    applyOps b d.ops = .function (suffix.toSignature (applyOps b d.ops.dropLast)) := by
  have ends : d.ops.getLast? = some (.function suffix) := by
    unfold Declarator.functionSuffix? at last
    split at last
    · rw [← Option.some.inj last]
      assumption
    · cases last
  have split : d.ops = d.ops.dropLast ++ [.function suffix] := by
    rw [List.dropLast_append_getLast? _ ends]
  rw [split]
  simp [applyOps, TypeOp.apply]

/-! ### Declarators -/

section Declare

variable {b b' : TypeExpr} {member : Option MemberContext} {scope : List String} {specs : Specifiers}
  {ps : List Keyword} {ty : Option TypeExpr} {d : Declarator}

theorem declareFunction_alike {name : DeclName} {suffix : FunctionSuffix} {tail : Tail}
    (last : d.functionSuffix? = some suffix) (types : R (applyOps b d.ops) (applyOps b' d.ops)) :
    Alike R origin origin'
      (Common.declareFunction ⟨specs, some b, member, none, origin, scope⟩ d name suffix tail)
      (Common.declareFunction ⟨{ specs with primitives := ps, base := ty }, some b', member, none, origin',
        scope⟩ d name suffix tail) := by
  rw [applyOps_function last, applyOps_function last] at types
  have function {f f' : FunctionDecl TypeExpr} (same : SameFunction R f f') :
      Alike R origin origin' (if member.isSome then { methods := [f] } else .ofItem (.function f) origin)
        (if member.isSome then { methods := [f'] } else .ofItem (.function f') origin') := by
    cases member with
    | none => exact alike_ofItem (.function same)
    | some m => exact ⟨rfl, rfl, .nil, .nil, .cons same .nil⟩
  unfold Common.declareFunction
  cases name with
  | plain name => exact function ⟨rfl, .inl types⟩
  | operator name => exact function ⟨rfl, .inl types⟩
  | destructor name => exact function ⟨rfl, .inr ⟨by simp, rfl⟩⟩
  | conversion target => exact function ⟨rfl, .inr ⟨by simp, rfl⟩⟩

theorem declareObject_alike {n : Nat} {name : DeclName} {tail : Tail}
    (types : R (applyOps b d.ops) (applyOps b' d.ops)) :
    Alike R origin origin'
      (Common.declareObject ⟨specs, some b, member, none, origin, scope⟩ n d name tail)
      (Common.declareObject ⟨{ specs with primitives := ps, base := ty }, some b', member, none, origin',
        scope⟩ n d name tail) := by
  cases name with
  | plain name =>
    simp only [Common.declareObject]
    cases specs.isTypedef with
    | true => exact alike_ofItem (.typedef types)
    | false =>
      cases member with
      | none => exact alike_ofItem (.object types)
      | some m => exact ⟨rfl, rfl, .nil, .cons ⟨rfl, types⟩ .nil, .nil⟩
  | _ => exact alike_nothing

theorem declareOne_alike {n : Nat} {tail : Tail} (types : R (applyOps b d.ops) (applyOps b' d.ops)) :
    Alike R origin origin'
      (Common.declareOne ⟨specs, some b, member, none, origin, scope⟩ n d tail)
      (Common.declareOne ⟨{ specs with primitives := ps, base := ty }, some b', member, none, origin',
        scope⟩ n d tail) := by
  simp only [Common.declareOne]
  cases d.qualified with
  | true => exact alike_nothing
  | false =>
    cases d.name with
    | none => exact alike_nothing
    | some name =>
      cases found : if specs.isTypedef then none else d.functionSuffix? with
      | some suffix =>
        have last : d.functionSuffix? = some suffix := by
          split at found
          · cases found
          · exact found
        exact declareFunction_alike last types
      | none => exact declareObject_alike types

/-- What declarators declare depends on the type in front of them only in types. -/
theorem declareAll_alike {ds : List (Declarator × Tail)} (n : Nat)
    (types : ∀ d ∈ ds, R (applyOps b d.1.ops) (applyOps b' d.1.ops)) :
    Alike R origin origin'
      (Common.declareAll ⟨specs, some b, member, none, origin, scope⟩ n ds)
      (Common.declareAll ⟨{ specs with primitives := ps, base := ty }, some b', member, none, origin',
        scope⟩ n ds) := by
  induction ds generalizing n with
  | nil => exact alike_nothing
  | cons d ds ih =>
    have first := @declareOne_alike R origin origin' b b' member scope specs ps ty d.1 n d.2
      (types d List.mem_cons_self)
    have rest := fun n => ih n fun d mem => types d (List.mem_cons_of_mem _ mem)
    unfold Common.declareAll
    dsimp only
    -- As many fields stand before the other declarators.
    rw [← first.fields.length_eq]
    exact first.andThen (rest _)

end Declare

end HeaderDecl.Grammar
