import HeaderDecl.Model.Basic
import HeaderDecl.Template.Substitution

/-!
What a resolved type refers to at any depth: declarations by name, and specializations by the arguments
they are written with. The types that stand in a declaration.
-/

namespace HeaderDecl

/-! ### The types in a declaration -/

section Types

variable {τ ν : Type}

def Signature.types (s : Signature τ) : List τ := s.returnTy :: s.params.map (·.ty)

def TemplateParamKind.types : TemplateParamKind τ → List τ
  | .type default => default.toList
  | .nonType t _ => [t]
  | .template _ => []

def TemplateParam.types (p : TemplateParam τ) : List τ := p.kind.types

def TemplateArg.types : TemplateArg τ → List τ
  | .type t => [t]
  | .literal _ => []

def FunctionDecl.types (f : FunctionDecl τ) : List τ :=
  f.signature.types ++ f.templateParams.flatMap (·.types)

def RecordDecl.types (r : RecordDecl τ ν) : List τ :=
  r.fields.map (·.ty) ++ r.methods.flatMap (·.types)

def Instantiation.types (i : Instantiation τ) : List τ :=
  i.args.flatMap (·.types) ++ (i.specialization.getD []).flatMap (·.types)

/-- The types in a declaration: of fields, parameters, results, targets, template parameters and
template arguments. -/
def Decl.types : Decl τ (TemplateArg τ) ν → List τ
  | .record r => r.types
  | .enum e => [e.underlying]
  | .typedef t => [t.ty]
  | .function f => f.types
  | .var v => [v.ty]
  | .constant _ => []
  | .template t => t.params.flatMap (·.types) ++ t.record.types
  | .specialization s =>
    s.params.flatMap (·.types) ++ (s.args.flatMap (·.types) ++ s.record.types)

end Types

/-! ### Names in types -/

namespace TypeRef

/-- The names of declarations that a type itself bears. -/
@[simp]
def names : TypeRef → List String
  | .named name _ => [name]
  | .typedef name _ => [name]
  | .instantiation i => [i.template]
  | _ => []

/-- The types that stand in a type. -/
@[simp]
def children : TypeRef → List TypeRef
  | .primitive _ | .builtin _ | .named _ _ | .param _ | .dependent _ => []
  | .typedef _ t | .pointer t | .reference t | .rvalueReference t | .array t _
  | .qualified _ t => [t]
  | .functionPointer sig | .function sig => sig.types
  | .instantiation i => i.types
  | .anonymousRecord r => r.types
  | .anonymousEnum e => [e.underlying]

/-- Whether a type refers to a declaration by a name, anywhere within it. -/
inductive Mentions (n : String) : TypeRef → Prop
  | here {t : TypeRef} (h : n ∈ t.names) : Mentions n t
  | inside {t u : TypeRef} (h : u ∈ t.children) (hu : u.Mentions n) : Mentions n t

end TypeRef

/-- Whether one of some types mentions a name. -/
def Mentioned (ts : List TypeRef) (n : String) : Prop := ∃ t ∈ ts, t.Mentions n

/-! ### References -/

/-- What a type refers to: a declaration by its name, or a specialization of a template by the arguments
it is written with. -/
inductive Reference where
  | declaration (name : String)
  | specialization (template : String) (args : List ArgRef)

namespace TypeRef

/-- The specializations that a type itself is linked to. -/
@[simp]
def links : TypeRef → List (String × List ArgRef)
  | .instantiation ⟨template, _, some args⟩ => [(template, args)]
  | _ => []

/-- What a type itself refers to. -/
def references (t : TypeRef) : List Reference :=
  t.names.map .declaration ++ t.links.map fun (template, args) => .specialization template args

/-- Whether a type refers to something, anywhere within it. -/
inductive RefersTo (x : Reference) : TypeRef → Prop
  | here {t : TypeRef} (h : x ∈ t.references) : RefersTo x t
  | inside {t u : TypeRef} (h : u ∈ t.children) (hu : u.RefersTo x) : RefersTo x t

end TypeRef

/-- Whether one of some types refers to something. -/
def Referred (ts : List TypeRef) (x : Reference) : Prop := ∃ t ∈ ts, t.RefersTo x

variable {x : Reference}

@[simp]
theorem referred_nil : ¬ Referred [] x := by simp [Referred]

@[simp]
theorem referred_cons {t : TypeRef} {ts : List TypeRef} :
    Referred (t :: ts) x ↔ t.RefersTo x ∨ Referred ts x := by
  simp [Referred]

theorem referred_singleton {t : TypeRef} : Referred [t] x ↔ t.RefersTo x := by simp

@[simp]
theorem referred_append {ts us : List TypeRef} :
    Referred (ts ++ us) x ↔ Referred ts x ∨ Referred us x := by
  simp [Referred, or_and_right, exists_or]

/-- The names of a type are those of the declarations that it refers to. -/
theorem TypeRef.mentions_iff_refersTo {t : TypeRef} {n : String} :
    t.Mentions n ↔ t.RefersTo (.declaration n) := by
  constructor
  · intro h
    induction h with
    | here h => exact .here (List.mem_append_left _ (List.mem_map_of_mem h))
    | inside h _ ih => exact .inside h ih
  · intro h
    induction h with
    | here h => exact .here (by simpa [references] using h)
    | inside h _ ih => exact .inside h ih

@[simp]
theorem mentioned_iff_referred {ts : List TypeRef} {n : String} :
    Mentioned ts n ↔ Referred ts (.declaration n) := by
  simp only [Mentioned, Referred, TypeRef.mentions_iff_refersTo]

namespace TypeRef

theorem refersTo_iff {t : TypeRef} : t.RefersTo x ↔ x ∈ t.references ∨ Referred t.children x := by
  constructor
  · rintro (h | ⟨h, hu⟩)
    · exact Or.inl h
    · exact Or.inr ⟨_, h, hu⟩
  · rintro (h | ⟨u, h, hu⟩)
    · exact .here h
    · exact .inside h hu

section Constructors

variable {t : TypeRef}

@[simp]
theorem refersTo_primitive {p : Primitive} : ¬ (primitive p).RefersTo x := by
  simp [refersTo_iff, references]

@[simp]
theorem refersTo_builtin {name : String} : ¬ (builtin name).RefersTo x := by
  simp [refersTo_iff, references]

@[simp]
theorem refersTo_param {name : String} : ¬ (param name).RefersTo x := by
  simp [refersTo_iff, references]

@[simp]
theorem refersTo_dependent {name : String} : ¬ (dependent name).RefersTo x := by
  simp [refersTo_iff, references]

@[simp]
theorem refersTo_named {name : String} {kind : NamedKind} :
    (named name kind).RefersTo x ↔ x = .declaration name := by
  simp [refersTo_iff, references]

@[simp]
theorem refersTo_typedef {name : String} :
    (typedef name t).RefersTo x ↔ x = .declaration name ∨ t.RefersTo x := by
  rw [refersTo_iff]
  simp [references]

@[simp]
theorem refersTo_pointer : (pointer t).RefersTo x ↔ t.RefersTo x := by
  rw [refersTo_iff]
  simp [references]

@[simp]
theorem refersTo_reference : (reference t).RefersTo x ↔ t.RefersTo x := by
  rw [refersTo_iff]
  simp [references]

@[simp]
theorem refersTo_rvalueReference : (rvalueReference t).RefersTo x ↔ t.RefersTo x := by
  rw [refersTo_iff]
  simp [references]

@[simp]
theorem refersTo_array {size : Option Value} : (array t size).RefersTo x ↔ t.RefersTo x := by
  rw [refersTo_iff]
  simp [references]

@[simp]
theorem refersTo_qualified {q : Qualifiers} : (qualified q t).RefersTo x ↔ t.RefersTo x := by
  rw [refersTo_iff]
  simp [references]

@[simp]
theorem refersTo_functionPointer {sig : Signature TypeRef} :
    (functionPointer sig).RefersTo x ↔ Referred sig.types x := by
  simp [refersTo_iff, references]

@[simp]
theorem refersTo_function {sig : Signature TypeRef} :
    (function sig).RefersTo x ↔ Referred sig.types x := by
  simp [refersTo_iff, references]

@[simp]
theorem refersTo_instantiation {i : Instantiation TypeRef} :
    (instantiation i).RefersTo x ↔ x = .declaration i.template ∨
      (∃ args, i.specialization = some args ∧ x = .specialization i.template args) ∨
        Referred i.types x := by
  obtain ⟨template, args, none | chosen⟩ := i <;> simp [refersTo_iff, references, or_assoc]

@[simp]
theorem refersTo_anonymousRecord {r : ResolvedRecord} :
    (anonymousRecord r).RefersTo x ↔ Referred r.types x := by
  simp [refersTo_iff, references]

@[simp]
theorem refersTo_anonymousEnum {e : EnumDecl TypeRef} :
    (anonymousEnum e).RefersTo x ↔ e.underlying.RefersTo x := by
  rw [refersTo_iff]
  simp [references]

@[simp]
theorem refersTo_withQualifiers {q : Qualifiers} :
    (withQualifiers q t).RefersTo x ↔ t.RefersTo x := by
  unfold withQualifiers
  split
  · rfl
  · split
    · simp
    · simp

end Constructors

end TypeRef

/-! ### Substitution -/

namespace Template

/-- The types that parameters stand for. -/
def Bindings.types (b : Bindings) : List TypeRef := b.flatMap (·.2.types)

theorem referred_of_lookup {b : Bindings} {name : String} {t : TypeRef}
    (h : b.lookup name = some (.type t)) (ht : t.RefersTo x) : Referred b.types x := by
  obtain ⟨before, after, rfl, -⟩ := List.lookup_eq_some_iff.mp h
  refine ⟨t, List.mem_flatMap.mpr ⟨(name, .type t), by simp, ?_⟩, ht⟩
  exact List.mem_singleton.mpr rfl

mutual

/-- A substitution refers to no more than the type and what is put into it. -/
theorem refersTo_substitute {b : Bindings} : (t : TypeRef) → (substitute b t).RefersTo x →
    t.RefersTo x ∨ Referred b.types x
  | .param name, h => by
    unfold substitute at h
    split at h
    · exact Or.inr (referred_of_lookup ‹_› h)
    · exact Or.inl h
  | .pointer t, h | .reference t, h | .rvalueReference t, h | .array t _, h => by
    simp only [substitute, TypeRef.refersTo_pointer, TypeRef.refersTo_reference,
      TypeRef.refersTo_rvalueReference, TypeRef.refersTo_array] at h ⊢
    exact refersTo_substitute t h
  | .qualified _ t, h => by
    simp only [substitute, TypeRef.refersTo_withQualifiers, TypeRef.refersTo_qualified] at h ⊢
    exact refersTo_substitute t h
  | .instantiation ⟨name, args, selected⟩, h => by
    simp only [substitute, TypeRef.refersTo_instantiation, Instantiation.types,
      referred_append] at h ⊢
    -- The choice of a specialization stays as it is.
    rcases h with h | h | h | h
    · exact Or.inl (Or.inl h)
    · exact Or.inl (Or.inr (Or.inl h))
    · rcases referred_substituteArgs args h with h | h
      · exact Or.inl (Or.inr (Or.inr (Or.inl h)))
      · exact Or.inr h
    · exact Or.inl (Or.inr (Or.inr (Or.inr h)))
  | .primitive _, h | .builtin _, h | .named _ _, h | .typedef _ _, h | .dependent _, h
  | .functionPointer _, h | .function _, h | .anonymousRecord _, h | .anonymousEnum _, h => Or.inl h

theorem referred_substituteArg {b : Bindings} : (a : ArgRef) →
    Referred (substituteArg b a).types x → Referred a.types x ∨ Referred b.types x
  | .type t, h => by
    simp only [substituteArg, TemplateArg.types, referred_cons, referred_nil, or_false] at h ⊢
    exact refersTo_substitute t h
  | .literal text, h => by
    unfold substituteArg at h
    split at h
    · exact False.elim (referred_nil h)
    · exact Or.inl h

theorem referred_substituteArgs {b : Bindings} : (args : List ArgRef) →
    Referred ((substituteArgs b args).flatMap (·.types)) x →
      Referred (args.flatMap (·.types)) x ∨ Referred b.types x
  | [], h => Or.inl h
  | a :: as, h => by
    simp only [substituteArgs, List.flatMap_cons, referred_append] at h ⊢
    rcases h with h | h
    · rcases referred_substituteArg a h with h | h
      · exact Or.inl (Or.inl h)
      · exact Or.inr h
    · rcases referred_substituteArgs as h with h | h
      · exact Or.inl (Or.inr h)
      · exact Or.inr h

end

theorem referred_bind {τ : Type} {params : List (TemplateParam τ)} {args : List ArgRef}
    (h : Referred (bind params args).types x) : Referred (args.flatMap (·.types)) x := by
  obtain ⟨t, ht, hx⟩ := h
  refine ⟨t, ?_, hx⟩
  simp only [Bindings.types, bind, List.mem_flatMap, List.mem_reverse, List.mem_filterMap] at ht ⊢
  obtain ⟨p, ⟨⟨q, a⟩, hq, hp⟩, ht⟩ := ht
  obtain ⟨name, -, rfl⟩ := Option.map_eq_some_iff.mp hp
  exact ⟨a, (List.of_mem_zip hq).2, ht⟩

end Template

end HeaderDecl
