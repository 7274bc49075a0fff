import HeaderDecl.Decl.TypeRef

/-!
Types with template arguments in place of template parameters, and types without typedef names.
-/

namespace HeaderDecl.Template

/-- What template parameters stand for. The first pair with a name counts. -/
abbrev Bindings := List (String × ArgRef)

/-- Binds parameters to arguments in order. Of parameters with one name the last counts. -/
def bind {τ : Type} (params : List (TemplateParam τ)) (args : List ArgRef) : Bindings :=
  ((params.zip args).filterMap fun (p, a) => p.name.map (·, a)).reverse

mutual

/-- Replaces the parameters of a type. What stands in signatures and in types that are defined in place
stays, and so does the choice of a specialization. -/
def substitute (b : Bindings) : TypeRef → TypeRef
  | .param name =>
    match b.lookup name with
    | some (.type t) => t
    | _ => .param name
  | .pointer t => .pointer (substitute b t)
  | .reference t => .reference (substitute b t)
  | .rvalueReference t => .rvalueReference (substitute b t)
  | .array t size => .array (substitute b t) size
  | .qualified q t => .withQualifiers q (substitute b t)
  | .instantiation ⟨name, args, selected⟩ => .instantiation ⟨name, substituteArgs b args, selected⟩
  | t => t

/-- Replaces the parameters of an argument. A literal that is one parameter is replaced as a whole. -/
def substituteArg (b : Bindings) : ArgRef → ArgRef
  | .type t => .type (substitute b t)
  | .literal text =>
    match b.lookup text with
    | some (.literal bound) => .literal bound
    | _ => .literal text

def substituteArgs (b : Bindings) : List ArgRef → List ArgRef
  | [] => []
  | a :: as => substituteArg b a :: substituteArgs b as

end

mutual

/-- A type with the targets of typedef names in their place, to compare it. Instantiations lose the
choice of a specialization. -/
def unaliased : TypeRef → TypeRef
  | .typedef _ target => unaliased target
  | .pointer t => .pointer (unaliased t)
  | .reference t => .reference (unaliased t)
  | .rvalueReference t => .rvalueReference (unaliased t)
  | .array t size => .array (unaliased t) size
  | .qualified q t => .withQualifiers q (unaliased t)
  | .instantiation ⟨name, args, _⟩ => .instantiation ⟨name, unaliasedArgs args, none⟩
  | t => t

def unaliasedArg : ArgRef → ArgRef
  | .type t => .type (unaliased t)
  | .literal text => .literal text

def unaliasedArgs : List ArgRef → List ArgRef
  | [] => []
  | a :: as => unaliasedArg a :: unaliasedArgs as

end

end HeaderDecl.Template
