import HeaderDecl.Template.Matching

/-!
What the matching of arguments finds: whether one choice of what the parameters stand for makes the
arguments of a specialization into the arguments of an instantiation.
-/

namespace HeaderDecl.Template

/-! ### Arguments in place of parameters -/

/-- Whether matching takes a type as a whole, since it does not look into types of this form. -/
def whole (params : List String) : TypeRef → Bool
  | .param name => !params.contains name
  | .pointer _ | .reference _ | .rvalueReference _ | .array _ _ | .qualified _ _ | .instantiation _ => false
  | _ => true

mutual

/-- A type of a specialization becomes another type when each of its parameters gives way to what it
stands for. The specialization that an instantiation records may be any. -/
inductive Becomes (params : List String) (σ : String → ArgRef) : TypeRef → TypeRef → Prop
  | param {name : String} {t : TypeRef} (known : name ∈ params) (assigned : σ name = .type t) :
    Becomes params σ (.param name) t
  | pointer {p t : TypeRef} (inner : Becomes params σ p t) : Becomes params σ (.pointer p) (.pointer t)
  | reference {p t : TypeRef} (inner : Becomes params σ p t) :
    Becomes params σ (.reference p) (.reference t)
  | rvalueReference {p t : TypeRef} (inner : Becomes params σ p t) :
    Becomes params σ (.rvalueReference p) (.rvalueReference t)
  | array {p t : TypeRef} (size : Option Value) (inner : Becomes params σ p t) :
    Becomes params σ (.array p size) (.array t size)
  | qualified {p t : TypeRef} (q : Qualifiers) (inner : Becomes params σ p t) :
    Becomes params σ (.qualified q p) (.qualified q t)
  | instantiation {ps as : List ArgRef} (name : String) (s s' : Option (List ArgRef))
    (args : BecomeArgs params σ ps as) :
    Becomes params σ (.instantiation ⟨name, ps, s⟩) (.instantiation ⟨name, as, s'⟩)
  | equal {t : TypeRef} (h : whole params t = true) : Becomes params σ t t

/-- An argument becomes another. A type parameter that is the argument, and a literal that is a
parameter, may stand for an argument of any kind. -/
inductive BecomesArg (params : List String) (σ : String → ArgRef) : ArgRef → ArgRef → Prop
  | param {name : String} (known : name ∈ params) : BecomesArg params σ (.type (.param name)) (σ name)
  | parameterText {name : String} (known : name ∈ params) : BecomesArg params σ (.literal name) (σ name)
  | type {p t : TypeRef} (h : Becomes params σ p t) : BecomesArg params σ (.type p) (.type t)
  | text {text : String} (unknown : text ∉ params) : BecomesArg params σ (.literal text) (.literal text)

/-- Arguments become others one by one. -/
inductive BecomeArgs (params : List String) (σ : String → ArgRef) : List ArgRef → List ArgRef → Prop
  | nil : BecomeArgs params σ [] []
  | cons {p a : ArgRef} {ps as : List ArgRef} (head : BecomesArg params σ p a)
    (tail : BecomeArgs params σ ps as) : BecomeArgs params σ (p :: ps) (a :: as)

end

variable {params : List String} {σ : String → ArgRef} {b : Bindings}

theorem BecomeArgs.length_eq {ps : List ArgRef} :
    ∀ {as : List ArgRef}, BecomeArgs params σ ps as → ps.length = as.length := by
  induction ps with
  | nil => rintro _ ⟨⟩; rfl
  | cons p ps ih => rintro _ (_ | ⟨_, tail⟩); simp [ih tail]

/-! ### Bindings as what is known of a choice -/

/-- A choice of what the parameters stand for that agrees with all bindings. -/
def Agrees (σ : String → ArgRef) (b : Bindings) : Prop :=
  ∀ name a, b.lookup name = some a → σ name = a

theorem agrees_nil : Agrees σ [] := by
  intro name a bound
  cases bound

/-- Any bindings are those of some choice. -/
theorem exists_agrees (b : Bindings) : ∃ σ, Agrees σ b :=
  ⟨fun name => (b.lookup name).getD (.literal name), fun name a bound => by simp [bound]⟩

/-- A choice agrees with a further binding if it agrees with the others and with that one. -/
theorem agrees_cons {name : String} {a : ArgRef} (unbound : b.lookup name = none) :
    Agrees σ ((name, a) :: b) ↔ Agrees σ b ∧ σ name = a := by
  have lookup_self : List.lookup name ((name, a) :: b) = some a := List.lookup_cons_self
  have lookup_other (name' : String) (other : name' ≠ name) :
      List.lookup name' ((name, a) :: b) = b.lookup name' := by
    rw [List.lookup_cons, beq_false_of_ne other]
  constructor
  · intro agrees
    refine ⟨fun name' a' bound => agrees name' a' ?_, agrees name a lookup_self⟩
    have other : name' ≠ name := by
      rintro rfl
      simp [unbound] at bound
    rw [lookup_other name' other, bound]
  · rintro ⟨agrees, assigned⟩ name' a' bound
    by_cases same : name' = name
    · subst same
      rw [lookup_self] at bound
      exact assigned.trans (Option.some.inj bound)
    · exact agrees name' a' (by rw [← lookup_other name' same, bound])

/-- Some result of a match agrees with a choice. -/
def Admits (σ : String → ArgRef) (result : Option Bindings) : Prop := ∃ b, result = some b ∧ Agrees σ b

@[simp]
theorem admits_none : ¬ Admits σ none := by
  rintro ⟨_, ⟨⟩, _⟩

@[simp]
theorem admits_some : Admits σ (some b) ↔ Agrees σ b := by simp [Admits]

@[simp]
theorem admits_ite {c : Prop} [Decidable c] {result : Option Bindings} :
    Admits σ (if c then result else none) ↔ c ∧ Admits σ result := by
  split <;> simp [*]

/-- Binding a parameter keeps the choices in which it stands for the argument. -/
theorem admits_bindParam {name : String} {a : ArgRef} :
    Admits σ (bindParam name a b) ↔ Agrees σ b ∧ σ name = a := by
  unfold bindParam
  split
  next bound found =>
    rw [admits_ite, admits_some]
    constructor
    · rintro ⟨rfl, agrees⟩
      exact ⟨agrees, agrees _ _ found⟩
    · rintro ⟨agrees, rfl⟩
      exact ⟨(agrees _ _ found).symm, agrees⟩
  next unbound => rw [admits_some, agrees_cons unbound]

/-- Two matches one after the other keep the choices that both keep. -/
theorem admits_bind {result : Option Bindings} {next : Bindings → Option Bindings} {P : Prop}
    (keeps : ∀ b, Admits σ (next b) ↔ Agrees σ b ∧ P) :
    Admits σ (result.bind next) ↔ Admits σ result ∧ P := by
  cases result with
  | none => simp
  | some b => simp [keeps]

/-! ### Matching -/

/-- What matching takes as a whole has to be the same. -/
theorem becomes_whole {p t : TypeRef} (h : whole params p = true) : Becomes params σ p t ↔ p = t := by
  constructor
  · intro becomes
    cases becomes with
    | param known => simp [whole, known] at h
    | equal => rfl
    | _ => cases h
  · rintro rfl
    exact .equal h

theorem becomes_param {name : String} {t : TypeRef} (known : name ∈ params) :
    Becomes params σ (.param name) t ↔ σ name = .type t := by
  refine ⟨fun becomes => ?_, .param known⟩
  cases becomes with
  | param _ assigned => exact assigned
  | equal h => simp [whole, known] at h

section Inside

variable {p t : TypeRef}

theorem becomes_pointer : Becomes params σ (.pointer p) (.pointer t) ↔ Becomes params σ p t := by
  refine ⟨fun becomes => ?_, .pointer⟩
  cases becomes with
  | pointer inner => exact inner
  | equal h => cases h

theorem becomes_reference : Becomes params σ (.reference p) (.reference t) ↔ Becomes params σ p t := by
  refine ⟨fun becomes => ?_, .reference⟩
  cases becomes with
  | reference inner => exact inner
  | equal h => cases h

theorem becomes_rvalueReference :
    Becomes params σ (.rvalueReference p) (.rvalueReference t) ↔ Becomes params σ p t := by
  refine ⟨fun becomes => ?_, .rvalueReference⟩
  cases becomes with
  | rvalueReference inner => exact inner
  | equal h => cases h

theorem becomes_array {size size' : Option Value} :
    Becomes params σ (.array p size) (.array t size') ↔ size = size' ∧ Becomes params σ p t := by
  constructor
  · intro becomes
    cases becomes with
    | array _ inner => exact ⟨rfl, inner⟩
    | equal h => cases h
  · rintro ⟨rfl, inner⟩
    exact .array size inner

theorem becomes_qualified {q q' : Qualifiers} :
    Becomes params σ (.qualified q p) (.qualified q' t) ↔ q = q' ∧ Becomes params σ p t := by
  constructor
  · intro becomes
    cases becomes with
    | qualified _ inner => exact ⟨rfl, inner⟩
    | equal h => cases h
  · rintro ⟨rfl, inner⟩
    exact .qualified q inner

end Inside

theorem becomes_instantiation {name name' : String} {ps as : List ArgRef} {s s' : Option (List ArgRef)} :
    Becomes params σ (.instantiation ⟨name, ps, s⟩) (.instantiation ⟨name', as, s'⟩) ↔
      name = name' ∧ BecomeArgs params σ ps as := by
  constructor
  · intro becomes
    cases becomes with
    | instantiation _ _ _ args => exact ⟨rfl, args⟩
    | equal h => cases h
  · rintro ⟨rfl, args⟩
    exact .instantiation name s s' args

section Arguments

variable {name : String} {a : ArgRef} {p : TypeRef}

theorem becomesArg_param (known : name ∈ params) :
    BecomesArg params σ (.type (.param name)) a ↔ σ name = a := by
  constructor
  · intro becomes
    cases becomes with
    | param => rfl
    | type h => exact (becomes_param known).1 h
  · rintro rfl
    exact .param known

theorem becomesArg_parameterText (known : name ∈ params) :
    BecomesArg params σ (.literal name) a ↔ σ name = a := by
  constructor
  · intro becomes
    cases becomes with
    | parameterText => rfl
    | text unknown => exact absurd known unknown
  · rintro rfl
    exact .parameterText known

theorem becomesArg_text (unknown : name ∉ params) :
    BecomesArg params σ (.literal name) a ↔ a = .literal name := by
  constructor
  · intro becomes
    cases becomes with
    | parameterText known => exact absurd known unknown
    | text => rfl
  · rintro rfl
    exact .text unknown

theorem becomesArg_type {t : TypeRef} :
    BecomesArg params σ (.type p) (.type t) ↔ Becomes params σ p t := by
  refine ⟨fun becomes => ?_, .type⟩
  generalize same : TemplateArg.type t = a at becomes
  cases becomes with
  | param known => exact .param known same.symm
  | type h => cases same; exact h

/-- Only a type that is a parameter may become an expression. -/
theorem not_becomesArg_literal {text : String} (other : ¬ ∃ name ∈ params, p = .param name) :
    ¬ BecomesArg params σ (.type p) (.literal text) := by
  intro becomes
  generalize same : TemplateArg.literal text = a at becomes
  cases becomes with
  | param known => exact other ⟨_, known, rfl⟩
  | type h => cases same

theorem matchArg_type {t : TypeRef} :
    matchArg params (.type p) (.type t) b = matchType params p t b := by
  cases p <;> simp [matchArg, matchType]

theorem matchArg_type_literal {text : String} (other : ¬ ∃ name ∈ params, p = .param name) :
    matchArg params (.type p) (.literal text) b = none := by
  cases p <;> simp_all [matchArg]

end Arguments

mutual

/-- Matching a type keeps exactly the choices that make it the other. -/
theorem admits_matchType (p t : TypeRef) (b : Bindings) :
    Admits σ (matchType params p t b) ↔ Agrees σ b ∧ Becomes params σ p t := by
  -- A type of a form that is looked into matches no type of another form.
  have mismatch (differ : p ≠ t) (never : ¬ Becomes params σ p t)
      (h : matchType params p t b = if p = t then some b else none) :
      Admits σ (matchType params p t b) ↔ Agrees σ b ∧ Becomes params σ p t := by
    simp [h, differ, never]
  match p with
  | .param name =>
    rw [matchType]
    by_cases known : name ∈ params
    · rw [if_pos (by simpa using known), admits_bindParam, becomes_param known]
    · rw [if_neg (by simpa using known), admits_ite, becomes_whole (by simpa [whole] using known)]
      simp [and_comm, eq_comm]
  | .pointer p =>
    cases t with
    | pointer t => rw [matchType, admits_matchType p t b, becomes_pointer]
    | _ => exact mismatch nofun nofun (by simp [matchType])
  | .reference p =>
    cases t with
    | reference t => rw [matchType, admits_matchType p t b, becomes_reference]
    | _ => exact mismatch nofun nofun (by simp [matchType])
  | .rvalueReference p =>
    cases t with
    | rvalueReference t => rw [matchType, admits_matchType p t b, becomes_rvalueReference]
    | _ => exact mismatch nofun nofun (by simp [matchType])
  | .array p size =>
    cases t with
    | array t size' =>
      rw [matchType, admits_ite, admits_matchType p t b, becomes_array, and_left_comm]
    | _ => exact mismatch nofun nofun (by simp [matchType])
  | .qualified q p =>
    cases t with
    | qualified q' t =>
      rw [matchType, admits_ite, admits_matchType p t b, becomes_qualified, and_left_comm]
    | _ => exact mismatch nofun nofun (by simp [matchType])
  | .instantiation ⟨name, ps, s⟩ =>
    cases t with
    | instantiation i =>
      obtain ⟨name', as, s'⟩ := i
      rw [matchType, admits_ite, admits_matchArgs ps as b, becomes_instantiation, and_left_comm]
    | _ => exact mismatch nofun nofun (by simp [matchType])
  | .primitive _ | .builtin _ | .named _ _ | .typedef _ _ | .dependent _ | .functionPointer _ | .function _
  | .anonymousRecord _ | .anonymousEnum _ =>
    rw [becomes_whole rfl]
    simp [matchType, and_comm]

theorem admits_matchArg (p a : ArgRef) (b : Bindings) :
    Admits σ (matchArg params p a b) ↔ Agrees σ b ∧ BecomesArg params σ p a := by
  match p, a with
  | .literal text, a =>
    rw [matchArg]
    by_cases known : text ∈ params
    · rw [if_pos (by simpa using known), admits_bindParam, becomesArg_parameterText known]
    · rw [if_neg (by simpa using known), admits_ite, admits_some, becomesArg_text known, and_comm]
  | .type p, .type t => rw [matchArg_type, admits_matchType p t b, becomesArg_type]
  | .type p, .literal text =>
    by_cases known : ∃ name ∈ params, p = .param name
    · obtain ⟨name, known, rfl⟩ := known
      rw [matchArg, if_pos (by simpa using known), admits_bindParam, becomesArg_param known]
    · simp [matchArg_type_literal known, not_becomesArg_literal known]

theorem admits_matchArgs (ps as : List ArgRef) (b : Bindings) :
    Admits σ (matchArgs params ps as b) ↔ Agrees σ b ∧ BecomeArgs params σ ps as := by
  match ps, as with
  | [], [] => simp [matchArgs, BecomeArgs.nil]
  | [], a :: as =>
    have : ¬ BecomeArgs params σ [] (a :: as) := nofun
    simp [matchArgs, this]
  | p :: ps, [] =>
    have : ¬ BecomeArgs params σ (p :: ps) [] := nofun
    simp [matchArgs, this]
  | p :: ps, a :: as =>
    rw [matchArgs, admits_bind (fun b => admits_matchArgs ps as b), admits_matchArg p a b, and_assoc]
    refine and_congr_right fun _ => ⟨fun ⟨head, tail⟩ => .cons head tail, ?_⟩
    rintro (_ | ⟨head, tail⟩)
    exact ⟨head, tail⟩

end

/-- The arguments of a specialization apply to actual arguments exactly if there are as many of them and
one choice of what the parameters stand for makes the ones the others. -/
theorem applies_iff_becomeArgs (params : List String) (pattern actual : List ArgRef) :
    applies params pattern actual = true ↔
      pattern.length = actual.length ∧ ∃ σ, BecomeArgs params σ pattern actual := by
  have keeps (σ : String → ArgRef) :
      Admits σ (matchArgs params pattern actual []) ↔ BecomeArgs params σ pattern actual := by
    simp [admits_matchArgs, agrees_nil]
  constructor
  · intro matched
    obtain ⟨b, found⟩ := Option.isSome_iff_exists.1 matched
    obtain ⟨σ, agrees⟩ := exists_agrees b
    have becomes := (keeps σ).1 ⟨b, found, agrees⟩
    exact ⟨becomes.length_eq, σ, becomes⟩
  · rintro ⟨-, σ, becomes⟩
    obtain ⟨b, found, -⟩ := (keeps σ).2 becomes
    simp [applies, found]

end HeaderDecl.Template
