import HeaderDecl.Proofs.RenderedTypes

/-!
Types that are spelled in words of one meaning, with qualifiers at words only. Such a type can be told
from its text, but for what makes no difference to a type.
-/

namespace HeaderDecl

namespace TypeRef

mutual

/-- A type without the names and defaults of the parameters in it, and without the specializations
that follow from the arguments in it. -/
def plain : TypeRef → TypeRef
  | .pointer t => .pointer t.plain
  | .reference t => .reference t.plain
  | .rvalueReference t => .rvalueReference t.plain
  | .array t size => .array t.plain size
  | .functionPointer ⟨returnTy, params, variadic⟩ =>
    .functionPointer ⟨returnTy.plain, plainParams params, variadic⟩
  | .function ⟨returnTy, params, variadic⟩ =>
    .function ⟨returnTy.plain, plainParams params, variadic⟩
  | .instantiation ⟨template, args, _⟩ => .instantiation ⟨template, plainArgs args, none⟩
  | .qualified q t => .qualified q t.plain
  | t => t

def plainArgs : List ArgRef → List ArgRef
  | [] => []
  | a :: rest => plainArg a :: plainArgs rest

def plainArg : ArgRef → ArgRef
  | .type t => .type t.plain
  | .literal text => .literal text

def plainParams : List (Parameter TypeRef) → List (Parameter TypeRef)
  | [] => []
  | ⟨_, t, _⟩ :: rest => ⟨none, t.plain, false⟩ :: plainParams rest

end

end TypeRef

/-- What words stand for: types or literal arguments, and the sizes of arrays. -/
structure Naming where
  word : String → ArgRef
  size : String → Option Value

/-- The text of the size of an array. -/
def sizeText : Option Value → String
  | some size => size.render
  | none => ""

/-- Types that are spelled in the words of a naming. -/
inductive SpelledIn (ν : Naming) : TypeRef → Prop
  | word {t : TypeRef} {s : String} (reading : t.reading = .word [] s) (stands : ν.word s = .type t) :
      SpelledIn ν t
  | qualifiedWord {q : Qualifiers} {t : TypeRef} {s : String} (given : q.front ≠ [])
      (reading : t.reading = .word [] s) (stands : ν.word s = .type t) : SpelledIn ν (.qualified q t)
  | pointer {t : TypeRef} (h : SpelledIn ν t) : SpelledIn ν (.pointer t)
  | reference {t : TypeRef} (h : SpelledIn ν t) : SpelledIn ν (.reference t)
  | rvalueReference {t : TypeRef} (h : SpelledIn ν t) : SpelledIn ν (.rvalueReference t)
  | array {t : TypeRef} {size : Option Value} (h : SpelledIn ν t) (stands : ν.size (sizeText size) = size) :
      SpelledIn ν (.array t size)
  | functionPointer {t : TypeRef} {params : List (Parameter TypeRef)} {variadic : Bool}
      (h : SpelledIn ν t) (types : ∀ p ∈ params, SpelledIn ν p.ty) :
      SpelledIn ν (.functionPointer ⟨t, params, variadic⟩)
  | function {t : TypeRef} {params : List (Parameter TypeRef)} {variadic : Bool}
      (h : SpelledIn ν t) (types : ∀ p ∈ params, SpelledIn ν p.ty) :
      SpelledIn ν (.function ⟨t, params, variadic⟩)
  | instantiation {i : Instantiation TypeRef} (types : ∀ t, .type t ∈ i.args → SpelledIn ν t)
      (literals : ∀ x, .literal x ∈ i.args → ν.word x = .literal x) : SpelledIn ν (.instantiation i)
  | qualifiedInstantiation {q : Qualifiers} {i : Instantiation TypeRef} (given : q.front ≠ [])
      (types : ∀ t, .type t ∈ i.args → SpelledIn ν t)
      (literals : ∀ x, .literal x ∈ i.args → ν.word x = .literal x) :
      SpelledIn ν (.qualified q (.instantiation i))

/-! ### Reading a type back -/

/-- A type behind qualifiers. -/
def behind (front : List Qualifier) (t : TypeRef) : TypeRef :=
  if front = [] then t else .qualified ⟨front.contains .const, front.contains .volatile⟩ t

theorem behind_front {q : Qualifiers} (given : q.front ≠ []) (t : TypeRef) :
    behind q.front t = .qualified q t := by
  rcases q with ⟨_ | _, _ | _⟩
  · exact absurd rfl given
  all_goals rfl

def Sign.apply : Sign → TypeRef → TypeRef
  | pointer => .pointer
  | reference => .reference
  | rvalueReference => .rvalueReference

namespace Naming

/-- The type that a word stands for. -/
def wordType (ν : Naming) (s : String) : TypeRef :=
  match ν.word s with
  | .type t => t.plain
  | .literal x => .builtin x

mutual

/-- The type that a reading tells of. -/
def type (ν : Naming) : Reading → TypeRef
  | .word front s => behind front (ν.wordType s)
  | .instantiation front template as => behind front (.instantiation ⟨template, args ν as, none⟩)
  | .signed r sign => sign.apply (type ν r)
  | .array r size => .array (type ν r) (ν.size size)
  | .function true result ps variadic => .functionPointer ⟨type ν result, params ν ps, variadic⟩
  | .function false result ps variadic => .function ⟨type ν result, params ν ps, variadic⟩

def args (ν : Naming) : List Reading → List ArgRef
  | [] => []
  | .word [] s :: rest => TypeRef.plainArg (ν.word s) :: args ν rest
  | r :: rest => .type (type ν r) :: args ν rest

def params (ν : Naming) : List Reading → List (Parameter TypeRef)
  | [] => []
  | r :: rest => ⟨none, type ν r, false⟩ :: params ν rest

end

end Naming

variable {ν : Naming}

theorem Naming.wordType_eq {t : TypeRef} {s : String} (stands : ν.word s = .type t) :
    ν.wordType s = t.plain := by
  unfold wordType
  rw [stands]

/-- An argument that is a type, also one of one word. -/
theorem Naming.args_type {t : TypeRef} (h : SpelledIn ν t) (rest : List Reading) :
    ν.args (t.reading :: rest) = .type (ν.type t.reading) :: ν.args rest := by
  cases h with
  | word reading stands =>
    -- Only the naming tells that the word is no literal.
    rw [reading, args, type, behind, if_pos rfl, wordType_eq stands, stands, TypeRef.plainArg]
  | @qualifiedWord q t s given reading stands =>
    rw [TypeRef.reading, reading]
    rcases q with ⟨_ | _, _ | _⟩
    · exact absurd rfl given
    all_goals rfl
  | @qualifiedInstantiation q i given types literals =>
    rcases q with ⟨_ | _, _ | _⟩
    · exact absurd rfl given
    all_goals
      obtain ⟨template, args, specialization⟩ := i
      rfl
  | @array t size h stands => cases size <;> rfl
  | instantiation types literals => rfl
  | _ => rfl

/-- Arguments that are spelled in the words of a naming. -/
structure SpelledArgs (ν : Naming) (as : List ArgRef) : Prop where
  types : ∀ t, .type t ∈ as → SpelledIn ν t
  literals : ∀ x, .literal x ∈ as → ν.word x = .literal x

theorem SpelledArgs.singleton {t : TypeRef} (h : SpelledIn ν t) : SpelledArgs ν [.type t] := by
  refine ⟨fun t' there => ?_, fun x there => ?_⟩
  · rw [TemplateArg.type.inj (List.mem_singleton.mp there)]
    exact h
  · cases List.mem_singleton.mp there

theorem SpelledArgs.of_cons {a : ArgRef} {as : List ArgRef} (h : SpelledArgs ν (a :: as)) :
    SpelledArgs ν as :=
  ⟨fun t there => h.types t (List.mem_cons_of_mem a there),
    fun x there => h.literals x (List.mem_cons_of_mem a there)⟩

theorem Naming.params_paramReadings {params : List (Parameter TypeRef)}
    (told : ∀ p ∈ params, ν.type p.ty.reading = p.ty.plain) :
    ν.params (TypeRef.paramReadings params) = TypeRef.plainParams params := by
  induction params with
  | nil => rfl
  | cons p params ih =>
    have first := told p List.mem_cons_self
    have rest := ih fun p' there => told p' (List.mem_cons_of_mem p there)
    rw [TypeRef.paramReadings, Naming.params, TypeRef.plainParams, first, rest]

theorem Naming.args_argReadings {as : List ArgRef} (h : SpelledArgs ν as)
    (told : ∀ t, .type t ∈ as → ν.type t.reading = t.plain) :
    ν.args (TypeRef.argReadings as) = TypeRef.plainArgs as := by
  induction as with
  | nil => rfl
  | cons a as ih =>
    have rest := ih h.of_cons fun t there => told t (List.mem_cons_of_mem a there)
    rw [TypeRef.argReadings, TypeRef.plainArgs]
    cases a with
    | type t =>
      rw [TypeRef.argReading, args_type (h.types t List.mem_cons_self), rest, TypeRef.plainArg,
        told t List.mem_cons_self]
    | literal x =>
      rw [TypeRef.argReading, Naming.args, rest, h.literals x List.mem_cons_self]

/-- The reading of a type tells all of it, given what its words stand for. -/
theorem SpelledIn.type_reading {t : TypeRef} (h : SpelledIn ν t) : ν.type t.reading = t.plain := by
  induction h with
  | word reading stands =>
    rw [reading, Naming.type, behind, if_pos rfl, Naming.wordType_eq stands]
  | @qualifiedWord q t s given reading stands =>
    rw [TypeRef.reading, reading, Reading.qualify, List.append_nil, Naming.type, behind_front given,
      Naming.wordType_eq stands, TypeRef.plain]
  | pointer h ih | reference h ih | rvalueReference h ih =>
    rw [TypeRef.reading, Naming.type, TypeRef.plain, ih, Sign.apply]
  | @array t size h stands ih =>
    cases size <;> rw [TypeRef.reading, Naming.type, TypeRef.plain, ih] <;> exact congrArg _ stands
  | functionPointer h types ih told | function h types ih told =>
    rw [TypeRef.reading, Naming.type, TypeRef.plain, ih, Naming.params_paramReadings told]
  | @instantiation i types literals told =>
    obtain ⟨template, as, specialization⟩ := i
    rw [TypeRef.reading, Naming.type, TypeRef.plain, Naming.args_argReadings ⟨types, literals⟩ told]
    rfl
  | @qualifiedInstantiation q i given types literals told =>
    obtain ⟨template, as, specialization⟩ := i
    rw [TypeRef.reading, TypeRef.reading, Reading.qualify, List.append_nil, Naming.type,
      behind_front given, Naming.args_argReadings ⟨types, literals⟩ told, TypeRef.plain, TypeRef.plain]

/-- Arguments that are spelled in words of one meaning differ in their readings if they differ at all. -/
theorem SpelledArgs.plainArgs_eq {as bs : List ArgRef} (ha : SpelledArgs ν as) (hb : SpelledArgs ν bs)
    (same : TypeRef.argReadings as = TypeRef.argReadings bs) :
    TypeRef.plainArgs as = TypeRef.plainArgs bs := by
  have first := Naming.args_argReadings ha fun t there => (ha.types t there).type_reading
  have second := Naming.args_argReadings hb fun t there => (hb.types t there).type_reading
  rw [← first, same, second]

end HeaderDecl
