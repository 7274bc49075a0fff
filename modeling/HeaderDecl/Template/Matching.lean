import HeaderDecl.Template.Substitution

/-!
Matching of the arguments of a specialization, which may have parameters in them, with the arguments of
an instantiation.
-/

namespace HeaderDecl.Template

/-- Binds a parameter, which has to be bound to the same argument everywhere. -/
def bindParam (name : String) (arg : ArgRef) (b : Bindings) : Option Bindings :=
  match b.lookup name with
  | some bound => if bound = arg then some b else none
  | none => some ((name, arg) :: b)

mutual

/-- Matches a type. Everything but the parameters has to be equal as it stands. -/
def matchType (params : List String) : TypeRef → TypeRef → Bindings → Option Bindings
  | .param name, t, b =>
    if params.contains name then bindParam name (.type t) b
    else if t = .param name then some b else none
  | .pointer p, .pointer t, b => matchType params p t b
  | .reference p, .reference t, b => matchType params p t b
  | .rvalueReference p, .rvalueReference t, b => matchType params p t b
  | .array p size, .array t size', b => if size = size' then matchType params p t b else none
  | .qualified q p, .qualified q' t, b => if q = q' then matchType params p t b else none
  | .instantiation ⟨name, ps, _⟩, .instantiation ⟨name', as, _⟩, b =>
    if name = name' then matchArgs params ps as b else none
  | p, t, b => if p = t then some b else none

/-- Matches an argument. A parameter may stand for an argument of any kind. -/
def matchArg (params : List String) : ArgRef → ArgRef → Bindings → Option Bindings
  | .type (.param name), a, b =>
    if params.contains name then bindParam name a b
    else if a = .type (.param name) then some b else none
  | .type p, .type t, b => matchType params p t b
  | .type _, .literal _, _ => none
  | .literal text, a, b =>
    -- A literal may be the name of a parameter that is no type.
    if params.contains text then bindParam text a b
    else if a = .literal text then some b else none

def matchArgs (params : List String) : List ArgRef → List ArgRef → Bindings → Option Bindings
  | [], [], b => some b
  | p :: ps, a :: as, b => (matchArg params p a b).bind (matchArgs params ps as)
  | _, _, _ => none

end

/-- Whether the arguments of a specialization with some parameters apply to actual arguments. -/
def applies (params : List String) (pattern actual : List ArgRef) : Bool :=
  (matchArgs params pattern actual []).isSome

end HeaderDecl.Template
