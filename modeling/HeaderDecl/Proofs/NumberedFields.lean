import HeaderDecl.Proofs.ContainedRecords
import HeaderDecl.Proofs.ParserValues

/-!
The numbers of fields. What a declaration declares in a record goes on counting where the declarations in
front of it stopped, so that every field has its place in the layout as its ordinal.
-/

namespace HeaderDecl

open HeaderDecl.Grammar

/-- Whether each field of a record has its place among the fields as its ordinal. -/
def RecordDecl.Numbered {τ ν : Type} (r : RecordDecl τ ν) : Prop :=
  ∀ (i : Nat) (f : Field τ), r.fields[i]? = some f → f.ordinal = i

/-- Whether the ordinals of some fields go on from a number. -/
def Field.NumberedFrom {τ : Type} (n : Nat) (fields : List (Field τ)) : Prop :=
  fields.map (·.ordinal) = List.range' n fields.length

section Fields

variable {τ ν : Type} {n : Nat} {fields fields' : List (Field τ)}

theorem Field.numberedFrom_nil : NumberedFrom n ([] : List (Field τ)) := rfl

theorem Field.numberedFrom_singleton {f : Field τ} (h : f.ordinal = n) : NumberedFrom n [f] :=
  congrArg (· :: []) h

theorem Field.NumberedFrom.append (h : NumberedFrom n fields)
    (h' : NumberedFrom (n + fields.length) fields') : NumberedFrom n (fields ++ fields') := by
  unfold NumberedFrom at h h' ⊢
  rw [List.map_append, h, h', List.length_append, List.range'_append_1]

theorem RecordDecl.numbered_iff {r : RecordDecl τ ν} : r.Numbered ↔ Field.NumberedFrom 0 r.fields := by
  unfold Field.NumberedFrom
  constructor
  · intro numbered
    apply List.ext_getElem
    · simp
    · intro i h _
      have inside : i < r.fields.length := by simpa using h
      have here := numbered i _ (List.getElem?_eq_getElem inside)
      simpa using here
  · intro numbered i f found
    have here := congrArg (·[i]?) numbered
    obtain ⟨inside, rfl⟩ := List.getElem?_eq_some_iff.mp found
    simpa [inside] using here

end Fields

/-- Whether the fields of all records in a type are numbered. -/
abbrev TypeExpr.Numbered (t : TypeExpr) : Prop := t.Each RecordDecl.Numbered

abbrev PathExpr.Numbered (p : PathExpr) : Prop := PathExpr.Each RecordDecl.Numbered p

abbrev Item.Numbered (i : Item) : Prop := i.Each RecordDecl.Numbered

def TemplateParam.AllNumbered (params : List (TemplateParam TypeExpr)) : Prop :=
  ∀ p ∈ params, ∀ t ∈ p.types, t.Numbered

theorem TemplateParam.allNumbered_getD {template : Option (List (TemplateParam TypeExpr))}
    (h : ∀ ps ∈ template, TemplateParam.AllNumbered ps) :
    TemplateParam.AllNumbered (template.getD []) := by
  cases template with
  | none => exact List.forall_mem_nil _
  | some ps => exact h ps rfl

/-- The types among the arguments of a segment are those among the arguments of the name. -/
theorem PathExpr.each_iff {P : ParsedRecord → Prop} {p : PathExpr} :
    PathExpr.Each P p ↔ ∀ s ∈ p.segments, ∀ a ∈ s.args.getD [], ∀ t ∈ a.types, t.Each P := by
  simp only [PathExpr.Each, NamePath.types, List.forall_mem_flatMap]

namespace Grammar

/-! ### Specifiers -/

/-- Whether the fields are numbered in a definition and in all that stands within it. -/
structure Defined.Numbered (d : Defined) : Prop where
  type : d.toType.Numbered
  nested : ∀ i ∈ d.nested, i.Numbered
  path : ∀ p ∈ d.path, PathExpr.Numbered p

structure Specifiers.Numbered (s : Specifiers) : Prop where
  base : ∀ t ∈ s.base, t.Numbered
  defined : ∀ d ∈ s.defined, d.Numbered
  forward : ∀ d ∈ s.forward, d.Numbered

theorem Specifiers.numbered_default : Specifiers.Numbered {} :=
  ⟨forall_mem_none, forall_mem_none, forall_mem_none⟩

theorem Specifiers.Numbered.ty {s : Specifiers} (h : s.Numbered) : ∀ t ∈ s.ty, t.Numbered := by
  intro t ht
  obtain ⟨u, hu, rfl⟩ := Option.map_eq_some_iff.mp ht
  rw [TypeExpr.Numbered, TypeExpr.each_withQualifiers]
  rcases Option.or_eq_some_iff.mp hu with first | ⟨-, base⟩
  · obtain ⟨q, -, rfl⟩ := Option.map_eq_some_iff.mp first
    exact TypeExpr.each_primitive
  · exact h.base u base

namespace Defined.Numbered

variable {d : Defined}

/-- A name that a typedef gives changes no field. -/
theorem namedByTypedef (h : d.Numbered) (name : String) : (d.namedByTypedef name).Numbered := by
  obtain ⟨body, nested, path⟩ := d
  cases body with
  | inl r =>
    obtain ⟨own, bases, types⟩ := TypeExpr.each_record.mp h.type
    exact ⟨TypeExpr.each_record.mpr ⟨own, bases, types⟩, h.nested, h.path⟩
  | inr e =>
    have underlying : e.underlying.Numbered := TypeExpr.each_enum.mp h.type
    exact ⟨TypeExpr.each_enum.mpr underlying, h.nested, h.path⟩

/-- The declaration of a definition has the fields of the definition. -/
theorem toDecl (h : d.Numbered) {template : Option (List (TemplateParam TypeExpr))}
    (params : ∀ ps ∈ template, TemplateParam.AllNumbered ps) :
    (d.toDecl template).Each RecordDecl.Numbered := by
  obtain ⟨body, nested, path⟩ := d
  have types := List.forall_mem_flatMap.mpr (TemplateParam.allNumbered_getD params)
  unfold Defined.toDecl
  split
  · -- A specialization has its arguments from the name it was written with.
    rename_i r args body found
    cases body
    obtain ⟨p, hp, last⟩ := Option.bind_eq_some_iff.mp found
    have written : ∀ a ∈ args, ∀ u ∈ a.types, u.Numbered := by
      have segment := PathExpr.each_iff.mp (h.path p hp) p.last (by simp [NamePath.segments])
      simpa [last] using segment
    refine Decl.each_of_record h.type rfl rfl fun t ht => ?_
    simp only [Decl.types, List.mem_append] at ht
    rcases ht with ht | ht | ht
    · exact .inr (types t ht)
    · exact .inr (List.forall_mem_flatMap.mpr written t ht)
    · exact .inl ht
  · rename_i r body none
    cases body
    split
    · refine Decl.each_of_record h.type rfl rfl fun t ht => ?_
      exact (List.mem_append.mp ht).elim (fun ht => .inr (types t ht)) .inl
    · exact Decl.each_of_record h.type rfl rfl fun t ht => .inl ht
  · rename_i e body
    cases body
    have underlying : e.underlying.Numbered := TypeExpr.each_enum.mp h.type
    exact Decl.each_of_types (List.forall_mem_singleton.mpr underlying) rfl rfl

end Defined.Numbered

/-! ### Declarators -/

def DeclName.Numbered : DeclName → Prop
  | conversion target => target.Numbered
  | _ => True

structure FunctionSuffix.Numbered (s : FunctionSuffix) : Prop where
  params : ∀ p ∈ s.params, p.ty.Numbered
  trailing : ∀ t ∈ s.trailing, t.Numbered

theorem FunctionSuffix.Numbered.toSignature {s : FunctionSuffix} (h : s.Numbered) {t : TypeExpr}
    (ht : t.Numbered) : ∀ u ∈ (s.toSignature t).types, u.Numbered := by
  refine List.forall_mem_cons.mpr ⟨?_, List.forall_mem_map.mpr h.params⟩
  cases found : s.trailing with
  | none => simpa [FunctionSuffix.toSignature, found] using ht
  | some u => simpa [FunctionSuffix.toSignature, found] using h.trailing u found

def TypeOp.Numbered : TypeOp → Prop
  | function suffix => suffix.Numbered
  | _ => True

theorem TypeOp.Numbered.apply {op : TypeOp} (h : op.Numbered) {t : TypeExpr} (ht : t.Numbered) :
    (op.apply t).Numbered := by
  cases op with
  | pointer q => simpa [TypeOp.apply] using ht
  | reference => exact TypeExpr.each_reference.mpr ht
  | rvalueReference => exact TypeExpr.each_rvalueReference.mpr ht
  | array size => exact TypeExpr.each_array.mpr ht
  | function suffix => exact TypeExpr.each_function.mpr (FunctionSuffix.Numbered.toSignature h ht)

theorem numbered_applyOps {ops : List TypeOp} (h : ∀ op ∈ ops, op.Numbered) {t : TypeExpr}
    (ht : t.Numbered) : (applyOps t ops).Numbered := by
  induction ops generalizing t with
  | nil => exact ht
  | cons op ops ih =>
    exact ih (fun o ho => h o (List.mem_cons_of_mem _ ho)) ((h op List.mem_cons_self).apply ht)

structure Declarator.Numbered (d : Declarator) : Prop where
  name : ∀ n ∈ d.name, n.Numbered
  ops : ∀ op ∈ d.ops, op.Numbered

theorem Declarator.Numbered.suffix {d : Declarator} (h : d.Numbered) :
    ∀ s ∈ d.functionSuffix?, s.Numbered := by
  intro s hs
  unfold Declarator.functionSuffix? at hs
  split at hs
  · rename_i suffix last
    cases hs
    exact h.ops _ (List.mem_of_getLast? last)
  · cases hs

/-! ### What is declared -/

/-- Whether the fields that are declared go on from a number, and those of all records in what is declared
are numbered. -/
structure Declared.Numbered (n : Nat) (d : Declared) : Prop where
  items : ∀ i ∈ d.items, i.Numbered
  ordinals : Field.NumberedFrom n d.fields
  fields : ∀ f ∈ d.fields, f.ty.Numbered
  methods : ∀ f ∈ d.methods, ∀ t ∈ f.types, t.Numbered

namespace Declared

variable {n : Nat} {d e : Declared}

theorem numbered_ofItems {items : List Item} (h : ∀ i ∈ items, i.Numbered) {reports : List Report}
    {failure : Option Failure} : Declared.Numbered n { items, reports, failure } :=
  ⟨h, rfl, List.forall_mem_nil _, List.forall_mem_nil _⟩

theorem numbered_default {reports : List Report} {failure : Option Failure} :
    Declared.Numbered n { reports, failure } :=
  numbered_ofItems (List.forall_mem_nil _)

theorem numbered_ofItem {d : ParsedDecl} {origin : Origin} (h : d.Each RecordDecl.Numbered) :
    (ofItem d origin).Numbered n :=
  numbered_ofItems (List.forall_mem_singleton.mpr (Item.each_decl h (List.forall_mem_nil _)))

theorem Numbered.andThen (hd : d.Numbered n) (he : e.Numbered (n + d.fields.length)) :
    (d.andThen e).Numbered n := by
  unfold Declared.andThen
  split
  · exact hd
  · exact ⟨List.forall_mem_append.mpr ⟨hd.items, he.items⟩, hd.ordinals.append he.ordinals,
      List.forall_mem_append.mpr ⟨hd.fields, he.fields⟩,
      List.forall_mem_append.mpr ⟨hd.methods, he.methods⟩⟩

end Declared

namespace Common

structure Numbered (c : Common) : Prop where
  base : ∀ t ∈ c.base, t.Numbered
  template : ∀ ps ∈ c.template, TemplateParam.AllNumbered ps

variable {c : Common} (numbered : c.Numbered) {n : Nat}

include numbered

theorem numbered_functionHead {name : DeclName} (hn : name.Numbered) {ops : List TypeOp}
    (hops : ∀ op ∈ ops, op.Numbered) {text : String} {kind : FunctionKind} {returnTy : TypeExpr}
    (h : c.functionHead name ops = some (text, kind, returnTy)) : returnTy.Numbered := by
  unfold functionHead at h
  split at h
  · rename_i base has
    cases h
    exact numbered_applyOps hops (numbered.base _ has)
  · split at h <;> cases h
    exact TypeExpr.each_primitive
  · cases h
    exact TypeExpr.each_primitive
  · rename_i base has
    cases h
    exact numbered_applyOps hops (numbered.base _ has)
  · cases h
  · cases h
    exact hn

theorem numbered_declareFunction {d : Declarator} (hd : d.Numbered) {name : DeclName}
    (hn : name.Numbered) {suffix : FunctionSuffix} (hs : suffix.Numbered) (tail : Tail) :
    (c.declareFunction d name suffix tail).Numbered n := by
  have ops : ∀ op ∈ d.ops.dropLast, op.Numbered := fun op ho => hd.ops op (List.dropLast_subset _ ho)
  unfold declareFunction
  split
  · exact Declared.numbered_default
  · rename_i text kind returnTy head
    have returns := numbered_functionHead numbered hn ops head
    have types : ∀ t ∈ (suffix.toSignature returnTy).types ++
        (c.template.getD []).flatMap (·.types), t.Numbered :=
      List.forall_mem_append.mpr ⟨hs.toSignature returns,
        List.forall_mem_flatMap.mpr (TemplateParam.allNumbered_getD numbered.template)⟩
    dsimp only
    split
    · exact ⟨List.forall_mem_nil _, rfl, List.forall_mem_nil _, List.forall_mem_singleton.mpr types⟩
    · exact Declared.numbered_ofItem (Decl.each_of_types types rfl rfl)

/-- A field has the number of fields in front of it as its ordinal. -/
theorem numbered_declareObject {d : Declarator} (hd : d.Numbered) (name : DeclName) (tail : Tail) :
    (c.declareObject n d name tail).Numbered n := by
  unfold declareObject
  split
  · exact Declared.numbered_default
  · exact Declared.numbered_default
  · rename_i base text _ has
    have ty := numbered_applyOps hd.ops (numbered.base base has)
    dsimp only
    split
    · exact Declared.numbered_ofItem
        (Decl.each_of_types (List.forall_mem_singleton.mpr ty) rfl rfl)
    · split
      · exact ⟨List.forall_mem_nil _, Field.numberedFrom_singleton rfl,
          List.forall_mem_singleton.mpr ty, List.forall_mem_nil _⟩
      · exact Declared.numbered_ofItem
          (Decl.each_of_types (List.forall_mem_singleton.mpr ty) rfl rfl)
  · exact Declared.numbered_default

theorem numbered_declareOne {d : Declarator} (hd : d.Numbered) (tail : Tail) :
    (c.declareOne n d tail).Numbered n := by
  unfold declareOne
  split
  · exact Declared.numbered_default
  · split
    · exact Declared.numbered_default
    · rename_i name named
      split
      · rename_i suffix found
        have own := (Option.ite_none_left_eq_some.mp found).2
        exact numbered_declareFunction numbered hd (hd.name name named) (hd.suffix suffix own) tail
      · exact numbered_declareObject numbered hd name tail

theorem numbered_declareAll {ds : List (Declarator × Tail)} (hds : ∀ d ∈ ds, d.1.Numbered) :
    (c.declareAll n ds).Numbered n := by
  induction ds generalizing n with
  | nil => exact Declared.numbered_default
  | cons d ds ih =>
    exact (numbered_declareOne numbered (hds d List.mem_cons_self) d.2).andThen
      (ih fun e he => hds e (List.mem_cons_of_mem _ he))

end Common

/-- The number of fields in front of a declaration. -/
def fieldsBefore (member : Option MemberContext) : Nat := (member.map MemberContext.fieldCount).getD 0

section Declare

variable {specs : Specifiers} (numbered : specs.Numbered) (member : Option MemberContext)
  {template : Option (List (TemplateParam TypeExpr))}
  (params : ∀ ps ∈ template, TemplateParam.AllNumbered ps) (origin : Origin)

include numbered params

theorem numbered_declare (scope : List String) {ds : List (Declarator × Tail)}
    (hds : ∀ d ∈ ds, d.1.Numbered) :
    (declare specs member template origin scope ds).Numbered (fieldsBefore member) := by
  unfold declare
  extract_lets fieldCount
  split
  · have common : Common.Numbered ⟨specs, specs.ty, member, template, origin, scope⟩ :=
      ⟨numbered.ty, params⟩
    exact Common.numbered_declareAll common hds
  · rename_i defined found
    extract_lets given defined' ds'
    clear_value given
    have hd : defined'.Numbered := by
      cases given with
      | some name => exact (numbered.defined _ found).namedByTypedef name
      | none => exact numbered.defined _ found
    have hds' : ∀ d ∈ ds', d.1.Numbered := by
      unfold ds'
      split
      · exact fun d hd => hds d (List.mem_of_mem_drop hd)
      · exact hds
    have common (ty : TypeExpr) (hty : ty.Numbered) : Common.Numbered ⟨specs,
        some (TypeExpr.withQualifiers specs.qualifiers ty), member, template, origin, scope⟩ :=
      ⟨forall_mem_some.mpr (TypeExpr.each_withQualifiers.mpr hty), params⟩
    cases own : defined'.name with
    | some name =>
      have ty : (TypeExpr.elaborated defined'.kind (.simple name)).Numbered :=
        TypeExpr.each_elaborated.mpr
          (by simp [PathExpr.Each, NamePath.simple, NamePath.segments, NamePath.types])
      have item : (Item.decl (defined'.toDecl none) defined'.nested origin).Numbered :=
        Item.each_decl (hd.toDecl forall_mem_none) hd.nested
      exact (Declared.numbered_ofItems (List.forall_mem_singleton.mpr item)).andThen
        (Common.numbered_declareAll (common _ ty) hds')
    | none =>
      exact Declared.numbered_default.andThen (Common.numbered_declareAll (common _ hd.type) hds')

theorem numbered_declareAlone :
    (declareAlone specs member template origin).Numbered (fieldsBefore member) := by
  unfold declareAlone
  split
  · exact Declared.numbered_default
  · rename_i defined found
    have hd : defined.Numbered := by
      rcases Option.or_eq_some_iff.mp found with first | ⟨-, next⟩
      · exact numbered.defined _ first
      · exact numbered.forward _ next
    split
    · -- An anonymous member is itself a field.
      rename_i r m body none
      have record := hd.type
      rw [Defined.toType, body] at record
      exact ⟨hd.nested, Field.numberedFrom_singleton rfl, List.forall_mem_singleton.mpr record,
        List.forall_mem_nil _⟩
    · exact Declared.numbered_ofItems (List.forall_mem_singleton.mpr
        (Item.each_decl (hd.toDecl params) hd.nested))

end Declare

end Grammar

end HeaderDecl
