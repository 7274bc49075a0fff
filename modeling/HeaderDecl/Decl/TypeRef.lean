import HeaderDecl.Decl.Basic

/-!
Resolved types, which refer to declarations by qualified name. Equality of types is decidable.
-/

namespace HeaderDecl

/-- A use of a class template. All arguments are there, also those that come from defaults; the
arguments of the specialization that applies tell which one it is. -/
structure Instantiation (τ : Type) where
  template : String
  args : List (TemplateArg τ)
  specialization : Option (List (TemplateArg τ))
deriving DecidableEq, Repr

/-- A resolved type. A builtin is a library type that needs no declaration, a typedef a name with
the type at the end of its chain; a dependent name is never looked up. -/
inductive TypeRef where
  | primitive (p : Primitive)
  | builtin (name : String)
  | named (name : String) (kind : NamedKind)
  | typedef (name : String) (target : TypeRef)
  | param (name : String)
  | dependent (name : String)
  | pointer (t : TypeRef)
  | reference (t : TypeRef)
  | rvalueReference (t : TypeRef)
  | array (t : TypeRef) (size : Option Value)
  | functionPointer (sig : Signature TypeRef)
  | function (sig : Signature TypeRef)
  | instantiation (i : Instantiation TypeRef)
  | qualified (q : Qualifiers) (t : TypeRef)
  | anonymousRecord (r : RecordDecl TypeRef String)
  | anonymousEnum (e : EnumDecl TypeRef)

abbrev ArgRef := TemplateArg TypeRef
abbrev ResolvedRecord := RecordDecl TypeRef String
abbrev ResolvedDecl := Decl TypeRef ArgRef String

namespace TypeRef

/-- The type under all typedef names and qualifiers. -/
def terminal : TypeRef → TypeRef
  | .typedef _ target => target.terminal
  | .qualified _ t => t.terminal
  | t => t

def unqualified : TypeRef → TypeRef
  | .qualified _ t => t
  | t => t

/-- A type with qualifiers, joined to those it has. -/
def withQualifiers (q : Qualifiers) (t : TypeRef) : TypeRef :=
  if q.isEmpty then t
  else match t with
    | .qualified r t => .qualified (q.union r) t
    | t => .qualified q t

/-! ### Text -/

/-- The end of a parameter list that may have no parameters. -/
def renderVariadic (variadic noParams : Bool) : String :=
  if variadic then if noParams then "..." else ", ..." else ""

mutual

def render : TypeRef → String
  | .primitive p => p.render
  | .builtin name => name
  | .named name kind => if kind = .enum then "enum " ++ name else name
  | .typedef name _ => name
  | .param name => name
  | .dependent name => name
  | .pointer t => t.render ++ " *"
  | .reference t => t.render ++ " &"
  | .rvalueReference t => t.render ++ " &&"
  | .array t (some size) => t.render ++ "[" ++ size.render ++ "]"
  | .array t none => t.render ++ "[]"
  | .functionPointer ⟨returnTy, params, variadic⟩ =>
    returnTy.render ++ " (*)(" ++ renderParams params ++ renderVariadic variadic params.isEmpty ++ ")"
  | .function ⟨returnTy, params, variadic⟩ =>
    returnTy.render ++ "(" ++ renderParams params ++ renderVariadic variadic params.isEmpty ++ ")"
  | .instantiation ⟨template, args, _⟩ => template ++ "<" ++ renderArgs args ++ ">"
  | .qualified q t => q.render ++ t.render
  | .anonymousRecord r => r.kind.render ++ " \x7b...\x7d"
  | .anonymousEnum _ => "enum \x7b...\x7d"

def renderArgs : List ArgRef → String
  | [] => ""
  | [a] => renderArg a
  | a :: b :: rest => renderArg a ++ ", " ++ renderArgs (b :: rest)

def renderArg : ArgRef → String
  | .type t => t.render
  | .literal text => text

def renderParams : List (Parameter TypeRef) → String
  | [] => ""
  | [⟨_, t, _⟩] => t.render
  | ⟨_, t, _⟩ :: p :: rest => t.render ++ ", " ++ renderParams (p :: rest)

end

/-! ### Equality -/

mutual

/-- Whether two types are the same. -/
def same : TypeRef → TypeRef → Bool
  | .primitive p, .primitive p' => p = p'
  | .builtin n, .builtin n' => n = n'
  | .named n k, .named n' k' => n = n' && k = k'
  | .typedef n t, .typedef n' t' => n = n' && same t t'
  | .param n, .param n' => n = n'
  | .dependent n, .dependent n' => n = n'
  | .pointer t, .pointer t' => same t t'
  | .reference t, .reference t' => same t t'
  | .rvalueReference t, .rvalueReference t' => same t t'
  | .array t s, .array t' s' => same t t' && s = s'
  | .functionPointer s, .functionPointer s' => sameSignature s s'
  | .function s, .function s' => sameSignature s s'
  | .instantiation i, .instantiation i' => sameInstantiation i i'
  | .qualified q t, .qualified q' t' => q = q' && same t t'
  | .anonymousRecord r, .anonymousRecord r' => sameRecord r r'
  | .anonymousEnum e, .anonymousEnum e' => sameEnum e e'
  | _, _ => false

def sameInstantiation : Instantiation TypeRef → Instantiation TypeRef → Bool
  | ⟨n, as, sp⟩, ⟨n', as', sp'⟩ => n = n' && sameArgs as as' && sameArgs? sp sp'

def sameEnum : EnumDecl TypeRef → EnumDecl TypeRef → Bool
  | ⟨n, s, t, ms, c, d⟩, ⟨n', s', t', ms', c', d'⟩ =>
    n = n' && s = s' && same t t' && ms = ms' && c = c' && d = d'

def same? : Option TypeRef → Option TypeRef → Bool
  | none, none => true
  | some t, some t' => same t t'
  | _, _ => false

def sameArg : ArgRef → ArgRef → Bool
  | .type t, .type t' => same t t'
  | .literal s, .literal s' => s = s'
  | _, _ => false

def sameArgs : List ArgRef → List ArgRef → Bool
  | [], [] => true
  | a :: as, b :: bs => sameArg a b && sameArgs as bs
  | _, _ => false

def sameArgs? : Option (List ArgRef) → Option (List ArgRef) → Bool
  | none, none => true
  | some as, some bs => sameArgs as bs
  | _, _ => false

def sameParams : List (Parameter TypeRef) → List (Parameter TypeRef) → Bool
  | [], [] => true
  | ⟨n, t, d⟩ :: ps, ⟨n', t', d'⟩ :: ps' => n = n' && same t t' && d = d' && sameParams ps ps'
  | _, _ => false

def sameSignature : Signature TypeRef → Signature TypeRef → Bool
  | ⟨t, ps, v⟩, ⟨t', ps', v'⟩ => same t t' && sameParams ps ps' && v = v'

def sameKind : TemplateParamKind TypeRef → TemplateParamKind TypeRef → Bool
  | .type d, .type d' => same? d d'
  | .nonType t d, .nonType t' d' => same t t' && d = d'
  | .template d, .template d' => d = d'
  | _, _ => false

def sameTemplateParams : List (TemplateParam TypeRef) → List (TemplateParam TypeRef) → Bool
  | [], [] => true
  | ⟨n, k, p⟩ :: ps, ⟨n', k', p'⟩ :: ps' =>
    n = n' && sameKind k k' && p = p' && sameTemplateParams ps ps'
  | _, _ => false

def sameFunction : FunctionDecl TypeRef → FunctionDecl TypeRef → Bool
  | ⟨n, k, s, q, a, ps, c⟩, ⟨n', k', s', q', a', ps', c'⟩ =>
    n = n' && k = k' && sameSignature s s' && q = q' && a = a' && sameTemplateParams ps ps' && c = c'

def sameFunctions : List (FunctionDecl TypeRef) → List (FunctionDecl TypeRef) → Bool
  | [], [] => true
  | f :: fs, g :: gs => sameFunction f g && sameFunctions fs gs
  | _, _ => false

def sameFields : List (Field TypeRef) → List (Field TypeRef) → Bool
  | [], [] => true
  | ⟨n, t, w, a, o, s⟩ :: fs, ⟨n', t', w', a', o', s'⟩ :: fs' =>
    n = n' && same t t' && w = w' && a = a' && o = o' && s = s' && sameFields fs fs'
  | _, _ => false

def sameRecord : ResolvedRecord → ResolvedRecord → Bool
  | ⟨n, k, fs, ms, bs, c, d⟩, ⟨n', k', fs', ms', bs', c', d'⟩ =>
    n = n' && k = k' && sameFields fs fs' && sameFunctions ms ms' && bs = bs' && c = c' && d = d'

end

mutual

theorem same_iff : ∀ t t' : TypeRef, same t t' = true ↔ t = t'
  | .primitive _, t' => by cases t' <;> simp [same]
  | .builtin _, t' => by cases t' <;> simp [same]
  | .named _ _, t' => by cases t' <;> simp [same]
  | .typedef _ t, t' => by cases t' <;> simp [same, same_iff t]
  | .param _, t' => by cases t' <;> simp [same]
  | .dependent _, t' => by cases t' <;> simp [same]
  | .pointer t, t' => by cases t' <;> simp [same, same_iff t]
  | .reference t, t' => by cases t' <;> simp [same, same_iff t]
  | .rvalueReference t, t' => by cases t' <;> simp [same, same_iff t]
  | .array t _, t' => by cases t' <;> simp [same, same_iff t]
  | .functionPointer s, t' => by cases t' <;> simp [same, sameSignature_iff s]
  | .function s, t' => by cases t' <;> simp [same, sameSignature_iff s]
  | .instantiation i, t' => by cases t' <;> simp [same, sameInstantiation_iff i]
  | .qualified _ t, t' => by cases t' <;> simp [same, same_iff t]
  | .anonymousRecord r, t' => by cases t' <;> simp [same, sameRecord_iff r]
  | .anonymousEnum e, t' => by cases t' <;> simp [same, sameEnum_iff e]

theorem sameInstantiation_iff :
    ∀ i i' : Instantiation TypeRef, sameInstantiation i i' = true ↔ i = i'
  | ⟨_, as, sp⟩, ⟨_, _, _⟩ => by
    simp [sameInstantiation, sameArgs_iff as, sameArgs?_iff sp, and_assoc]

theorem sameEnum_iff : ∀ e e' : EnumDecl TypeRef, sameEnum e e' = true ↔ e = e'
  | ⟨_, _, t, _, _, _⟩, ⟨_, _, _, _, _, _⟩ => by simp [sameEnum, same_iff t, and_assoc]

theorem same?_iff : ∀ t t' : Option TypeRef, same? t t' = true ↔ t = t'
  | none, t' => by cases t' <;> simp [same?]
  | some t, t' => by cases t' <;> simp [same?, same_iff t]

theorem sameArg_iff : ∀ a b : ArgRef, sameArg a b = true ↔ a = b
  | .type t, b => by cases b <;> simp [sameArg, same_iff t]
  | .literal _, b => by cases b <;> simp [sameArg]

theorem sameArgs_iff : ∀ as bs : List ArgRef, sameArgs as bs = true ↔ as = bs
  | [], bs => by cases bs <;> simp [sameArgs]
  | a :: as, bs => by cases bs <;> simp [sameArgs, sameArg_iff a, sameArgs_iff as]

theorem sameArgs?_iff : ∀ as bs : Option (List ArgRef), sameArgs? as bs = true ↔ as = bs
  | none, bs => by cases bs <;> simp [sameArgs?]
  | some as, bs => by cases bs <;> simp [sameArgs?, sameArgs_iff as]

theorem sameParams_iff : ∀ ps qs : List (Parameter TypeRef), sameParams ps qs = true ↔ ps = qs
  | [], qs => by cases qs <;> simp [sameParams]
  | ⟨_, t, _⟩ :: ps, [] => by simp [sameParams]
  | ⟨_, t, _⟩ :: ps, ⟨_, _, _⟩ :: qs => by
    simp [sameParams, same_iff t, sameParams_iff ps, and_assoc]

theorem sameSignature_iff : ∀ s s' : Signature TypeRef, sameSignature s s' = true ↔ s = s'
  | ⟨t, ps, _⟩, ⟨_, _, _⟩ => by simp [sameSignature, same_iff t, sameParams_iff ps, and_assoc]

theorem sameKind_iff : ∀ k k' : TemplateParamKind TypeRef, sameKind k k' = true ↔ k = k'
  | .type d, k' => by cases k' <;> simp [sameKind, same?_iff d]
  | .nonType t _, k' => by cases k' <;> simp [sameKind, same_iff t]
  | .template _, k' => by cases k' <;> simp [sameKind]

theorem sameTemplateParams_iff :
    ∀ ps qs : List (TemplateParam TypeRef), sameTemplateParams ps qs = true ↔ ps = qs
  | [], qs => by cases qs <;> simp [sameTemplateParams]
  | ⟨_, _, _⟩ :: _, [] => by simp [sameTemplateParams]
  | ⟨_, k, _⟩ :: ps, ⟨_, _, _⟩ :: qs => by
    simp [sameTemplateParams, sameKind_iff k, sameTemplateParams_iff ps, and_assoc]

theorem sameFunction_iff : ∀ f g : FunctionDecl TypeRef, sameFunction f g = true ↔ f = g
  | ⟨_, _, s, _, _, ps, _⟩, ⟨_, _, _, _, _, _, _⟩ => by
    simp [sameFunction, sameSignature_iff s, sameTemplateParams_iff ps, and_assoc]

theorem sameFunctions_iff :
    ∀ fs gs : List (FunctionDecl TypeRef), sameFunctions fs gs = true ↔ fs = gs
  | [], gs => by cases gs <;> simp [sameFunctions]
  | f :: fs, gs => by cases gs <;> simp [sameFunctions, sameFunction_iff f, sameFunctions_iff fs]

theorem sameFields_iff : ∀ fs gs : List (Field TypeRef), sameFields fs gs = true ↔ fs = gs
  | [], gs => by cases gs <;> simp [sameFields]
  | ⟨_, _, _, _, _, _⟩ :: _, [] => by simp [sameFields]
  | ⟨_, t, _, _, _, _⟩ :: fs, ⟨_, _, _, _, _, _⟩ :: gs => by
    simp [sameFields, same_iff t, sameFields_iff fs, and_assoc]

theorem sameRecord_iff : ∀ r s : ResolvedRecord, sameRecord r s = true ↔ r = s
  | ⟨_, _, fs, ms, _, _, _⟩, ⟨_, _, _, _, _, _, _⟩ => by
    simp [sameRecord, sameFields_iff fs, sameFunctions_iff ms, and_assoc]

end

instance : DecidableEq TypeRef := fun t t' => decidable_of_iff _ (same_iff t t')

end TypeRef

end HeaderDecl
