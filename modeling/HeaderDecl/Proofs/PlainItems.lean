import HeaderDecl.Proofs.PlainNames
import HeaderDecl.Resolution.Registry

/-!
Items all of whose names are identifiers. Among the items within a record there are no functions and no
namespaces: the functions of a record are its methods.
-/

namespace HeaderDecl

/-- The types among the template arguments in a name. -/
def NamePath.types {τ : Type} (p : NamePath (TemplateArg τ)) : List τ :=
  p.segments.flatMap fun s => (s.args.getD []).flatMap (·.types)

namespace TypeExpr

/-- The names that a type itself is written with. -/
@[simp]
def paths : TypeExpr → List PathExpr
  | .path p | .elaborated _ p | .dependent p => [p]
  | .record r => r.bases.map (·.name)
  | _ => []

/-- The types that a type is written with, apart from template arguments. -/
@[simp]
def children : TypeExpr → List TypeExpr
  | .pointer t | .reference t | .rvalueReference t | .array t _ | .qualified _ t => [t]
  | .function sig => sig.types
  | .record r => r.types
  | .enum e => [e.underlying]
  | _ => []

/-- Whether every segment of a name is an identifier, anywhere within a type. -/
inductive Plain : TypeExpr → Prop
  | intro {t : TypeExpr} (names : ∀ p ∈ t.paths, ∀ s ∈ p.segments, Name.Plain s.name)
      (args : ∀ p ∈ t.paths, ∀ u ∈ p.types, u.Plain) (parts : ∀ u ∈ t.children, u.Plain) : Plain t

end TypeExpr

/-- Whether every segment of a name is an identifier, also within its template arguments. -/
def PathExpr.Plain (p : PathExpr) : Prop :=
  (∀ s ∈ p.segments, Name.Plain s.name) ∧ ∀ u ∈ p.types, u.Plain

theorem PathExpr.Plain.simple {name : String} (h : Name.Plain name) :
    PathExpr.Plain (.simple name) := by
  constructor
  · intro s hs
    rw [show s = ⟨name, none⟩ by simpa [NamePath.simple, NamePath.segments] using hs]
    exact h
  · intro u hu
    simp [NamePath.simple, NamePath.segments, NamePath.types] at hu

namespace TypeExpr

theorem plain_iff {t : TypeExpr} :
    t.Plain ↔ (∀ p ∈ t.paths, PathExpr.Plain p) ∧ ∀ u ∈ t.children, u.Plain := by
  constructor
  · rintro ⟨names, args, parts⟩
    exact ⟨fun p hp => ⟨names p hp, args p hp⟩, parts⟩
  · rintro ⟨paths, parts⟩
    exact ⟨fun p hp => (paths p hp).1, fun p hp => (paths p hp).2, parts⟩

section Constructors

variable {t : TypeExpr} {p : PathExpr}

@[simp]
theorem plain_primitive {q : Primitive} : (primitive q).Plain := by
  rw [plain_iff]
  simp

@[simp]
theorem plain_path : (path p).Plain ↔ PathExpr.Plain p := by
  rw [plain_iff]
  simp

@[simp]
theorem plain_elaborated {kind : NamedKind} : (elaborated kind p).Plain ↔ PathExpr.Plain p := by
  rw [plain_iff]
  simp

@[simp]
theorem plain_dependent : (dependent p).Plain ↔ PathExpr.Plain p := by
  rw [plain_iff]
  simp

@[simp]
theorem plain_pointer : (pointer t).Plain ↔ t.Plain := by
  rw [plain_iff]
  simp

@[simp]
theorem plain_reference : (reference t).Plain ↔ t.Plain := by
  rw [plain_iff]
  simp

@[simp]
theorem plain_rvalueReference : (rvalueReference t).Plain ↔ t.Plain := by
  rw [plain_iff]
  simp

@[simp]
theorem plain_array {size : Option Value} : (array t size).Plain ↔ t.Plain := by
  rw [plain_iff]
  simp

@[simp]
theorem plain_qualified {q : Qualifiers} : (qualified q t).Plain ↔ t.Plain := by
  rw [plain_iff]
  simp

@[simp]
theorem plain_function {sig : Signature TypeExpr} :
    (function sig).Plain ↔ ∀ u ∈ sig.types, u.Plain := by
  rw [plain_iff]
  simp

@[simp]
theorem plain_enum {e : EnumDecl TypeExpr} : (enum e).Plain ↔ e.underlying.Plain := by
  rw [plain_iff]
  simp

@[simp]
theorem plain_withQualifiers {q : Qualifiers} : (withQualifiers q t).Plain ↔ t.Plain := by
  unfold withQualifiers
  split <;> simp

end Constructors

end TypeExpr

/-! ### Declarations -/

/-- The base classes of the record that a declaration is about. -/
def Decl.bases {τ α ν : Type} : Decl τ α ν → List (BaseSpec ν)
  | .record r => r.bases
  | .template t => t.record.bases
  | .specialization s => s.record.bases
  | _ => []

/-- Whether the names in a record are identifiers. -/
def RecordDecl.Plain (r : ParsedRecord) : Prop :=
  (∀ t ∈ r.types, t.Plain) ∧ ∀ b ∈ r.bases, PathExpr.Plain b.name

theorem TypeExpr.plain_record {r : ParsedRecord} : (TypeExpr.record r).Plain ↔ r.Plain := by
  rw [plain_iff, RecordDecl.Plain, and_comm]
  simp

namespace Decl

/-- Whether the types in a declaration, and its base classes, are written with identifiers. -/
def Plain (d : ParsedDecl) : Prop :=
  (∀ t ∈ d.types, t.Plain) ∧ ∀ b ∈ d.bases, PathExpr.Plain b.name

/-- The name that a declaration may have. A function is found in a namespace, and the name of one that
converts has that of a type in it. Constants are declared by macros alone. -/
def Named {τ α ν : Type} (inRecord : Bool) : Decl τ α ν → Prop
  | .record r => ∀ n ∈ r.name, Name.Plain n
  | .enum e => ∀ n ∈ e.name, Name.Plain n
  | .typedef t => Name.Plain t.name
  | .function f => inRecord = false ∧ ':' ∉ Name.word f.name.toList
  | .var v => Name.Plain v.name
  | .constant _ => False
  | .template t => ∀ n ∈ t.record.name, Name.Plain n
  | .specialization s => ∀ n ∈ s.record.name, Name.Plain n

end Decl

/-- Whether the names in an item, and in all that stands within it, are identifiers. -/
inductive Item.Plain : Bool → Item → Prop
  | decl {inRecord : Bool} {d : ParsedDecl} {nested : List Item} {origin : Origin} (h : d.Plain)
      (named : d.Named inRecord) (inner : ∀ i ∈ nested, i.Plain true) :
      Plain inRecord (.decl d nested origin)
  | namespaceItem {name : Option String} {items : List Item} {origin : Origin}
      (named : ∀ n ∈ name, Name.Plain n) (inner : ∀ i ∈ items, i.Plain false) :
      Plain false (.namespaceItem name items origin)

/-! ### Visits -/

namespace Resolution

/-- A scope that is a record, or that namespaces lead to. -/
def View.Placed (records : List String) (v : View) : Prop := v.scope ∈ records ∨ Name.Bare v.scope

/-- A declaration with plain names. The scope of a function is a namespace. -/
def Visit.Placed (records : List String) : Visit → Prop
  | .scope _ _ => True
  | .decl d _ v => d.Plain ∧ v.Placed records ∧
    ∃ inRecord, d.Named inRecord ∧ (inRecord = false → Name.Bare v.scope)

section Visits

variable {records : List String}

mutual

/-- Functions are visited in namespaces only, and every other scope is that of a record. -/
theorem placed_of_mem_visit : (i : Item) → ∀ {inRecord : Bool} {v : View}, i.Plain inRecord →
    v.Placed records → (inRecord = false → Name.Bare v.scope) →
    (∀ d o u inner, .decl d o u ∈ visit v i → memberView u d = some inner →
      inner.scope ∈ records) → ∀ w ∈ visit v i, w.Placed records
  | .namespaceItem (some name) items _, _, v, .namespaceItem named inner, _, bare, registered => by
    intro w hw
    rw [visit] at hw registered
    have entered : Name.Bare (v.enter name).scope := (bare rfl).qualify (named name rfl).bare
    rcases List.mem_cons.mp hw with rfl | hw
    · trivial
    · exact placed_of_mem_visitAll items inner (.inr entered) (fun _ => entered)
        (fun d o u inner hd => registered d o u inner (List.mem_cons_of_mem _ hd)) w hw
  | .namespaceItem none items _, _, v, .namespaceItem _ inner, placed, bare, registered => by
    intro w hw
    rw [visit] at hw registered
    exact placed_of_mem_visitAll items inner placed bare registered w hw
  | .decl d nested origin, inRecord, v, .decl plain named inner, placed, bare, registered => by
    have own : (Visit.decl d origin v).Placed records := ⟨plain, placed, inRecord, named, bare⟩
    intro w hw
    rw [visit] at hw registered
    cases member : memberView v d with
    | none =>
      simp only [member] at hw registered
      rcases List.mem_cons.mp hw with rfl | hw
      · exact own
      · exact placed_of_mem_visitAll nested inner placed (by simp)
          (fun d o u inner hd => registered d o u inner (List.mem_cons_of_mem _ hd)) w hw
    | some within =>
      -- Whatever it is named, the scope within it is that of a record.
      simp only [member] at hw registered
      have record : within.scope ∈ records := registered d origin v within List.mem_cons_self member
      rcases List.mem_cons.mp hw with rfl | hw
      · exact own
      · rcases List.mem_append.mp hw with hw | hw
        · split at hw
          · simp at hw
          · rw [List.mem_singleton.mp hw]
            trivial
        · exact placed_of_mem_visitAll nested inner (.inl record) (by simp)
            (fun d o u inner hd => registered d o u inner
              (List.mem_cons_of_mem _ (List.mem_append_right _ hd))) w hw

theorem placed_of_mem_visitAll : (items : List Item) → ∀ {inRecord : Bool} {v : View},
    (∀ i ∈ items, i.Plain inRecord) → v.Placed records → (inRecord = false → Name.Bare v.scope) →
    (∀ d o u inner, .decl d o u ∈ visitAll v items → memberView u d = some inner →
      inner.scope ∈ records) → ∀ w ∈ visitAll v items, w.Placed records
  | [], _, _, _, _, _, _ => by
    intro w hw
    simp [visitAll] at hw
  | i :: is, _, v, plain, placed, bare, registered => by
    intro w hw
    rw [visitAll] at hw registered
    rcases List.mem_append.mp hw with hw | hw
    · exact placed_of_mem_visit i (plain i List.mem_cons_self) placed bare
        (fun d o u inner hd => registered d o u inner (List.mem_append_left _ hd)) w hw
    · exact placed_of_mem_visitAll is (fun j hj => plain j (List.mem_cons_of_mem _ hj)) placed bare
        (fun d o u inner hd => registered d o u inner (List.mem_append_right _ hd)) w hw

end

end Visits

end Resolution

end HeaderDecl
