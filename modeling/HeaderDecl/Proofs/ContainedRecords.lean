import HeaderDecl.Proofs.PlainItems

/-!
Records in types and declarations. A record may be defined wherever a type may be written: in a field, a
parameter, a target, a template argument, and within another record, at any depth.
-/

namespace HeaderDecl

/-! ### Written types -/

namespace TypeExpr

/-- Whether a record is defined in a type, anywhere within it. -/
inductive Contains (r : ParsedRecord) : TypeExpr → Prop
  | here : Contains r (.record r)
  | argument {t u : TypeExpr} {p : PathExpr} (h : p ∈ t.paths) (hu : u ∈ p.types)
      (within : u.Contains r) : Contains r t
  | part {t u : TypeExpr} (h : u ∈ t.children) (within : u.Contains r) : Contains r t

/-- Whether all records that are defined in a type have a property. -/
def Each (P : ParsedRecord → Prop) (t : TypeExpr) : Prop := ∀ r, t.Contains r → P r

end TypeExpr

/-- Whether all records that are defined in the template arguments of a name have a property. -/
def PathExpr.Each (P : ParsedRecord → Prop) (p : PathExpr) : Prop := ∀ u ∈ p.types, u.Each P

namespace TypeExpr

variable {P : ParsedRecord → Prop} {t : TypeExpr} {p : PathExpr}

theorem each_iff : t.Each P ↔
    (∀ r, t = .record r → P r) ∧ (∀ p ∈ t.paths, PathExpr.Each P p) ∧
      ∀ u ∈ t.children, u.Each P := by
  constructor
  · intro each
    refine ⟨?_, fun p hp u hu r within => each r (.argument hp hu within),
      fun u hu r within => each r (.part hu within)⟩
    rintro r rfl
    exact each r .here
  · rintro ⟨own, arguments, parts⟩ r contains
    cases contains with
    | here => exact own r rfl
    | argument hp hu within => exact arguments _ hp _ hu r within
    | part hu within => exact parts _ hu r within

@[simp]
theorem each_primitive {q : Primitive} : (primitive q).Each P := by
  rw [each_iff]
  simp

@[simp]
theorem each_path : (path p).Each P ↔ PathExpr.Each P p := by
  rw [each_iff]
  simp

@[simp]
theorem each_elaborated {kind : NamedKind} : (elaborated kind p).Each P ↔ PathExpr.Each P p := by
  rw [each_iff]
  simp

@[simp]
theorem each_dependent : (dependent p).Each P ↔ PathExpr.Each P p := by
  rw [each_iff]
  simp

@[simp]
theorem each_pointer : (pointer t).Each P ↔ t.Each P := by
  rw [each_iff]
  simp

@[simp]
theorem each_reference : (reference t).Each P ↔ t.Each P := by
  rw [each_iff]
  simp

@[simp]
theorem each_rvalueReference : (rvalueReference t).Each P ↔ t.Each P := by
  rw [each_iff]
  simp

@[simp]
theorem each_array {size : Option Value} : (array t size).Each P ↔ t.Each P := by
  rw [each_iff]
  simp

@[simp]
theorem each_qualified {q : Qualifiers} : (qualified q t).Each P ↔ t.Each P := by
  rw [each_iff]
  simp

@[simp]
theorem each_function {sig : Signature TypeExpr} :
    (function sig).Each P ↔ ∀ u ∈ sig.types, u.Each P := by
  rw [each_iff]
  simp

@[simp]
theorem each_enum {e : EnumDecl TypeExpr} : (enum e).Each P ↔ e.underlying.Each P := by
  rw [each_iff]
  simp

theorem each_record {r : ParsedRecord} : (record r).Each P ↔
    P r ∧ (∀ b ∈ r.bases, PathExpr.Each P b.name) ∧ ∀ u ∈ r.types, u.Each P := by
  rw [each_iff]
  simp

@[simp]
theorem each_withQualifiers {q : Qualifiers} : (withQualifiers q t).Each P ↔ t.Each P := by
  unfold withQualifiers
  split <;> simp

end TypeExpr

/-! ### Resolved types -/

namespace TypeRef

/-- Whether a type has a record in it that is defined without a name. -/
inductive Contains (r : ResolvedRecord) : TypeRef → Prop
  | here : Contains r (.anonymousRecord r)
  | part {t u : TypeRef} (h : u ∈ t.children) (within : u.Contains r) : Contains r t

/-- Whether all records within a type have a property. -/
def Each (Q : ResolvedRecord → Prop) (t : TypeRef) : Prop := ∀ r, t.Contains r → Q r

end TypeRef

/-- Whether all records within some template arguments have a property. -/
def ArgRef.Each (Q : ResolvedRecord → Prop) (args : List ArgRef) : Prop :=
  ∀ u ∈ args.flatMap (·.types), u.Each Q

section Arguments

variable {Q : ResolvedRecord → Prop} {args args' : List ArgRef}

theorem ArgRef.each_nil : ArgRef.Each Q [] := List.forall_mem_nil _

theorem ArgRef.each_cons {a : ArgRef} :
    ArgRef.Each Q (a :: args) ↔ (∀ u ∈ a.types, u.Each Q) ∧ ArgRef.Each Q args :=
  List.forall_mem_append

theorem ArgRef.each_append :
    ArgRef.Each Q (args ++ args') ↔ ArgRef.Each Q args ∧ ArgRef.Each Q args' := by
  unfold ArgRef.Each
  rw [List.flatMap_append, List.forall_mem_append]

end Arguments

namespace TypeRef

variable {Q : ResolvedRecord → Prop} {t : TypeRef}

theorem each_iff : t.Each Q ↔ (∀ r, t = .anonymousRecord r → Q r) ∧ ∀ u ∈ t.children, u.Each Q := by
  constructor
  · intro each
    refine ⟨?_, fun u hu r within => each r (.part hu within)⟩
    rintro r rfl
    exact each r .here
  · rintro ⟨own, parts⟩ r contains
    cases contains with
    | here => exact own r rfl
    | part hu within => exact parts _ hu r within

@[simp]
theorem each_primitive {p : Primitive} : (primitive p).Each Q := by
  rw [each_iff]
  simp

@[simp]
theorem each_builtin {name : String} : (builtin name).Each Q := by
  rw [each_iff]
  simp

@[simp]
theorem each_named {name : String} {kind : NamedKind} : (named name kind).Each Q := by
  rw [each_iff]
  simp

@[simp]
theorem each_param {name : String} : (param name).Each Q := by
  rw [each_iff]
  simp

@[simp]
theorem each_dependent {name : String} : (dependent name).Each Q := by
  rw [each_iff]
  simp

@[simp]
theorem each_typedef {name : String} : (typedef name t).Each Q ↔ t.Each Q := by
  rw [each_iff]
  simp

@[simp]
theorem each_pointer : (pointer t).Each Q ↔ t.Each Q := by
  rw [each_iff]
  simp

@[simp]
theorem each_reference : (reference t).Each Q ↔ t.Each Q := by
  rw [each_iff]
  simp

@[simp]
theorem each_rvalueReference : (rvalueReference t).Each Q ↔ t.Each Q := by
  rw [each_iff]
  simp

@[simp]
theorem each_array {size : Option Value} : (array t size).Each Q ↔ t.Each Q := by
  rw [each_iff]
  simp

@[simp]
theorem each_qualified {q : Qualifiers} : (qualified q t).Each Q ↔ t.Each Q := by
  rw [each_iff]
  simp

@[simp]
theorem each_functionPointer {sig : Signature TypeRef} :
    (functionPointer sig).Each Q ↔ ∀ u ∈ sig.types, u.Each Q := by
  rw [each_iff]
  simp

@[simp]
theorem each_function {sig : Signature TypeRef} :
    (function sig).Each Q ↔ ∀ u ∈ sig.types, u.Each Q := by
  rw [each_iff]
  simp

theorem each_instantiation {i : Instantiation TypeRef} : (instantiation i).Each Q ↔
    ArgRef.Each Q i.args ∧ ArgRef.Each Q (i.specialization.getD []) := by
  rw [each_iff, ArgRef.Each, ArgRef.Each, ← List.forall_mem_append]
  simp [Instantiation.types]

theorem each_anonymousRecord {r : ResolvedRecord} :
    (anonymousRecord r).Each Q ↔ Q r ∧ ∀ u ∈ r.types, u.Each Q := by
  rw [each_iff]
  simp

@[simp]
theorem each_anonymousEnum {e : EnumDecl TypeRef} :
    (anonymousEnum e).Each Q ↔ e.underlying.Each Q := by
  rw [each_iff]
  simp

@[simp]
theorem each_withQualifiers {q : Qualifiers} : (withQualifiers q t).Each Q ↔ t.Each Q := by
  unfold withQualifiers
  split
  · rfl
  · split <;> simp

end TypeRef

/-! ### Declarations and items -/

/-- The record that a declaration is about. -/
def Decl.record? {τ α ν : Type} : Decl τ α ν → Option (RecordDecl τ ν)
  | .record r => some r
  | .template t => some t.record
  | .specialization s => some s.record
  | _ => none

namespace Decl

/-- Whether a declaration is about a record, or has it in a type or in the name of a base class. -/
def Contains (r : ParsedRecord) (d : ParsedDecl) : Prop :=
  d.record? = some r ∨ (∃ t ∈ d.types, t.Contains r) ∨
    ∃ b ∈ d.bases, ∃ t ∈ b.name.types, t.Contains r

/-- Whether all records in a declaration have a property. -/
def Each (P : ParsedRecord → Prop) (d : ParsedDecl) : Prop := ∀ r, d.Contains r → P r

theorem each_iff {P : ParsedRecord → Prop} {d : ParsedDecl} : d.Each P ↔
    (∀ r, d.record? = some r → P r) ∧ (∀ t ∈ d.types, t.Each P) ∧
      ∀ b ∈ d.bases, PathExpr.Each P b.name := by
  constructor
  · intro each
    exact ⟨fun r own => each r (.inl own), fun t ht r within => each r (.inr (.inl ⟨t, ht, within⟩)),
      fun b hb t ht r within => each r (.inr (.inr ⟨b, hb, t, ht, within⟩))⟩
  · rintro ⟨own, types, bases⟩ r (same | ⟨t, ht, within⟩ | ⟨b, hb, t, ht, within⟩)
    · exact own r same
    · exact types t ht r within
    · exact bases b hb t ht r within

/-- A declaration of a record has what the type has that is this record. -/
theorem each_of_record {P : ParsedRecord → Prop} {r : ParsedRecord} (h : (TypeExpr.record r).Each P)
    {d : ParsedDecl} (record : d.record? = some r) (bases : d.bases = r.bases)
    (types : ∀ t ∈ d.types, t ∈ r.types ∨ t.Each P) : d.Each P := by
  obtain ⟨own, named, parts⟩ := TypeExpr.each_record.mp h
  refine each_iff.mpr ⟨?_, fun t ht => (types t ht).elim (parts t) id, bases ▸ named⟩
  intro r' same
  cases record.symm.trans same
  exact own

/-- A declaration that is about no record has what its types have. -/
theorem each_of_types {P : ParsedRecord → Prop} {d : ParsedDecl} (types : ∀ t ∈ d.types, t.Each P)
    (record : d.record? = none) (bases : d.bases = []) : d.Each P := by
  refine each_iff.mpr ⟨fun r same => ?_, types, bases ▸ List.forall_mem_nil _⟩
  cases record.symm.trans same

/-- The record that a declaration is about has in its types what the declaration has. -/
theorem Each.record {P : ParsedRecord → Prop} {d : ParsedDecl} (h : d.Each P) {r : ParsedRecord}
    (own : d.record? = some r) : (TypeExpr.record r).Each P := by
  obtain ⟨records, types, bases⟩ := each_iff.mp h
  refine TypeExpr.each_record.mpr ⟨records r own, ?_, fun t ht => types t ?_⟩
  · cases d <;> cases own <;> exact bases
  · cases d <;> cases own
    · exact ht
    · exact List.mem_append_right _ ht
    · exact List.mem_append_right _ (List.mem_append_right _ ht)

end Decl

namespace Item

/-- Whether a record stands in an item, anywhere within it. -/
inductive Contains (r : ParsedRecord) : Item → Prop
  | declared {d : ParsedDecl} {nested : List Item} {origin : Origin} (h : d.Contains r) :
      Contains r (.decl d nested origin)
  | nested {d : ParsedDecl} {nested : List Item} {origin : Origin} {i : Item} (h : i ∈ nested)
      (within : i.Contains r) : Contains r (.decl d nested origin)
  | inNamespace {name : Option String} {items : List Item} {origin : Origin} {i : Item}
      (h : i ∈ items) (within : i.Contains r) : Contains r (.namespaceItem name items origin)

/-- Whether all records within an item have a property. -/
def Each (P : ParsedRecord → Prop) (i : Item) : Prop := ∀ r, i.Contains r → P r

variable {P : ParsedRecord → Prop} {nested items : List Item} {origin : Origin}

theorem each_decl {d : ParsedDecl} (h : d.Each P) (inner : ∀ i ∈ nested, i.Each P) :
    (decl d nested origin).Each P := by
  intro r contains
  cases contains with
  | declared own => exact h r own
  | nested hi within => exact inner _ hi r within

theorem each_namespaceItem {name : Option String} (inner : ∀ i ∈ items, i.Each P) :
    (namespaceItem name items origin).Each P := by
  intro r contains
  cases contains with
  | inNamespace hi within => exact inner _ hi r within

end Item

/-- Whether a record stands among some items, anywhere within one of them. -/
def RecordDecl.StandsIn (r : ParsedRecord) (items : List Item) : Prop := ∃ i ∈ items, i.Contains r

/-- Whether a record stands in a declaration of a model. -/
def Entry.Contains (r : ResolvedRecord) (e : Entry) : Prop :=
  e.decl.record? = some r ∨ ∃ t ∈ e.decl.types, t.Contains r

namespace Resolution

variable {r : ParsedRecord} {d : ParsedDecl} {origin : Origin} {view : View}

mutual

/-- What a declaration that is visited has in it stands in the items. -/
theorem contains_of_mem_visit (within : d.Contains r) :
    (i : Item) → ∀ {v : View}, .decl d origin view ∈ visit v i → i.Contains r
  | .namespaceItem (some name) items _, v, hw => by
    rw [visit] at hw
    have inside := (List.mem_cons.mp hw).resolve_left nofun
    obtain ⟨i, hi, here⟩ := contains_of_mem_visitAll within items inside
    exact .inNamespace hi here
  | .namespaceItem none items _, v, hw => by
    rw [visit] at hw
    obtain ⟨i, hi, here⟩ := contains_of_mem_visitAll within items hw
    exact .inNamespace hi here
  | .decl d' nested o, v, hw => by
    have deeper {v : View} (hw : .decl d origin view ∈ visitAll v nested) :
        (Item.decl d' nested o).Contains r := by
      obtain ⟨i, hi, here⟩ := contains_of_mem_visitAll within nested hw
      exact .nested hi here
    rw [visit] at hw
    split at hw
    · rcases List.mem_cons.mp hw with same | hw
      · cases same
        exact .declared within
      · exact deeper hw
    · rcases List.mem_cons.mp hw with same | hw
      · cases same
        exact .declared within
      · rcases List.mem_append.mp hw with begins | hw
        · split at begins
          · cases begins
          · cases List.mem_singleton.mp begins
        · exact deeper hw

theorem contains_of_mem_visitAll (within : d.Contains r) :
    (items : List Item) → ∀ {v : View}, .decl d origin view ∈ visitAll v items → r.StandsIn items
  | [], v, hw => by
    rw [visitAll] at hw
    cases hw
  | i :: is, v, hw => by
    rw [visitAll] at hw
    rcases List.mem_append.mp hw with hw | hw
    · exact ⟨i, List.mem_cons_self, contains_of_mem_visit within i hw⟩
    · obtain ⟨j, hj, here⟩ := contains_of_mem_visitAll within is hw
      exact ⟨j, List.mem_cons_of_mem _ hj, here⟩

end

end Resolution

end HeaderDecl
