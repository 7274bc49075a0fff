import HeaderDecl.Proofs.ResolvedReferences
import HeaderDecl.Resolution.Types

/-!
The references of resolved types and parts of declarations: all of them are held when the type is there.
-/

namespace HeaderDecl.Resolution

variable {ws : List Visit} {jump : Jump}

theorem refersTo_pointerTo {t : TypeRef} {y : Reference} :
    (pointerTo t).RefersTo y ↔ t.RefersTo y := by
  cases t <;> simp [pointerTo]

-- The cases are those of the written types: what is made of the parts refers to what they refer to.

mutual

theorem resolves_resolveType (hj : jump.Resolves ws) (site : Site) : (t : TypeExpr) →
    ∀ {context : Reference → Prop}, Resolves ws context (resolveType jump site t) typeReferences
  | .primitive _, _ => .pure fun _ => TypeRef.refersTo_primitive.elim
  | .path p, _ => resolves_resolvePath hj site none p
  | .elaborated kind p, _ => resolves_resolvePath hj site (some kind) p
  | .dependent _, _ => .pure fun _ => TypeRef.refersTo_dependent.elim
  | .pointer t, _ => (resolves_resolveType hj site t).map fun _ _ => refersTo_pointerTo.mp
  | .reference t, _ => (resolves_resolveType hj site t).map fun _ _ => TypeRef.refersTo_reference.mp
  | .rvalueReference t, _ =>
    (resolves_resolveType hj site t).map fun _ _ => TypeRef.refersTo_rvalueReference.mp
  | .array t _, _ => (resolves_resolveType hj site t).map fun _ _ => TypeRef.refersTo_array.mp
  | .function sig, _ =>
    (resolves_resolveSignature hj site sig).map fun _ _ => TypeRef.refersTo_function.mp
  | .qualified _ t, _ =>
    (resolves_resolveType hj site t).map fun _ _ => TypeRef.refersTo_withQualifiers.mp
  | .record r, _ =>
    (resolves_resolveRecord hj site r).map fun _ _ => TypeRef.refersTo_anonymousRecord.mp
  | .enum e, _ => (resolves_resolveEnum hj site e).map fun _ _ => TypeRef.refersTo_anonymousEnum.mp

theorem resolves_resolvePath (hj : jump.Resolves ws) (site : Site) (kind : Option NamedKind) :
    (p : PathExpr) → ∀ {context : Reference → Prop},
      Resolves ws context (resolvePath jump site kind p) typeReferences
  | ⟨absolute, scope, ⟨last, args⟩⟩, context => by
    unfold resolvePath
    refine (resolves_look site kind _).bind fun found => ?_
    split
    · exact .pure fun y hy => Or.inr hy
    · exact .pure fun y hy => Or.inr (TypeRef.refersTo_named.mp hy)
    · exact .pure fun y hy => Or.inr (TypeRef.refersTo_named.mp hy)
    · -- A typedef bears its own name beside those at the end of the chain.
      refine (resolves_terminalOf hj _ _ _).bind fun t => .pure fun y hy => ?_
      rcases TypeRef.refersTo_typedef.mp hy with hy | hy
      · exact Or.inl (Or.inr hy)
      · exact Or.inr hy
    · refine (resolves_resolveArgs? hj site args).bind fun args => ?_
      split
      · refine Resolves.map ?_ fun _ _ hy => hy
        exact resolves_instantiate hj site _ _ _ _ (Or.inl (Or.inr rfl)) fun y hy => Or.inr hy
      · exact .pure fun y hy => Or.inl (Or.inr (TypeRef.refersTo_named.mp hy))

theorem resolves_resolveArgs? (hj : jump.Resolves ws) (site : Site) :
    (args : Option (List ArgExpr)) → ∀ {context : Reference → Prop},
      Resolves ws context (resolveArgs? jump site args) (fun o y => argReferences (o.getD []) y)
  | none, _ => .pure fun _ => argReferences_nil.elim
  | some args, _ => (resolves_resolveArgs hj site args).map fun _ _ hy => hy

theorem resolves_resolveArgs (hj : jump.Resolves ws) (site : Site) : (args : List ArgExpr) →
    ∀ {context : Reference → Prop}, Resolves ws context (resolveArgs jump site args) argReferences
  | [], _ => .pure fun _ => argReferences_nil.elim
  | a :: rest, _ =>
    (resolves_resolveArg hj site a).map₂ (fun _ => resolves_resolveArgs hj site rest)
      fun _ _ _ => referred_append.mp

theorem resolves_resolveArg (hj : jump.Resolves ws) (site : Site) : (a : ArgExpr) →
    ∀ {context : Reference → Prop},
      Resolves ws context (resolveArg jump site a) (fun b y => Referred b.types y)
  | .type t, _ =>
    (resolves_resolveType hj site t).map fun _ _ => referred_singleton.mp
  | .literal _, _ => .pure fun _ => referred_nil.elim

theorem resolves_resolveSignature (hj : jump.Resolves ws) (site : Site) :
    (sig : Signature TypeExpr) → ∀ {context : Reference → Prop},
      Resolves ws context (resolveSignature jump site sig) (fun sig y => Referred sig.types y)
  | ⟨returnTy, params, _⟩, _ =>
    (resolves_resolveParameters hj site params).map₂
      (fun _ => resolves_resolveType hj site returnTy) fun _ _ _ hy => (referred_cons.mp hy).symm

theorem resolves_resolveParameters (hj : jump.Resolves ws) (site : Site) :
    (ps : List (Parameter TypeExpr)) → ∀ {context : Reference → Prop},
      Resolves ws context (resolveParameters jump site ps) (fun ps y => Referred (ps.map (·.ty)) y)
  | [], _ => .pure fun _ => referred_nil.elim
  | ⟨_, ty, _⟩ :: rest, _ =>
    (resolves_resolveType hj site ty).map₂ (fun _ => resolves_resolveParameters hj site rest)
      fun _ _ _ => referred_cons.mp

theorem resolves_resolveTemplateParams (hj : jump.Resolves ws) (site : Site) :
    (ps : List (TemplateParam TypeExpr)) → ∀ {context : Reference → Prop},
      Resolves ws context (resolveTemplateParams jump site ps)
        (fun ps y => Referred (ps.flatMap (·.types)) y)
  | [], _ => .pure fun _ => referred_nil.elim
  | ⟨_, kind, _⟩ :: rest, _ =>
    (resolves_resolveParamKind hj site kind).map₂
      (fun _ => resolves_resolveTemplateParams hj site rest) fun _ _ _ => referred_append.mp

theorem resolves_resolveParamKind (hj : jump.Resolves ws) (site : Site) :
    (kind : TemplateParamKind TypeExpr) → ∀ {context : Reference → Prop},
      Resolves ws context (resolveParamKind jump site kind) (fun kind y => Referred kind.types y)
  | .type none, _ => .pure fun _ => referred_nil.elim
  | .type (some t), _ =>
    (resolves_resolveType hj site t).map fun _ _ => referred_singleton.mp
  | .nonType t _, _ =>
    (resolves_resolveType hj site t).map fun _ _ => referred_singleton.mp
  | .template _, _ => .pure fun _ => referred_nil.elim

theorem resolves_resolveFunction (hj : jump.Resolves ws) (site : Site) :
    (f : FunctionDecl TypeExpr) → ∀ {context : Reference → Prop},
      Resolves ws context (resolveFunction jump site f) (fun f y => Referred f.types y)
  | ⟨_, _, signature, _, _, params, _⟩, _ =>
    (resolves_resolveSignature hj _ signature).map₂
      (fun _ => resolves_resolveTemplateParams hj _ params) fun _ _ _ => referred_append.mp

theorem resolves_resolveMethods (hj : jump.Resolves ws) (site : Site) :
    (fs : List (FunctionDecl TypeExpr)) → ∀ {context : Reference → Prop},
      Resolves ws context (resolveMethods jump site fs)
        (fun fs y => Referred (fs.flatMap (·.types)) y)
  | [], _ => .pure fun _ => referred_nil.elim
  | f :: rest, _ =>
    (resolves_resolveFunction hj site f).map₂ (fun _ => resolves_resolveMethods hj site rest)
      fun _ _ _ => referred_append.mp

theorem resolves_resolveFields (hj : jump.Resolves ws) (site : Site) :
    (fs : List (Field TypeExpr)) → ∀ {context : Reference → Prop},
      Resolves ws context (resolveFields jump site fs) (fun fs y => Referred (fs.map (·.ty)) y)
  | [], _ => .pure fun _ => referred_nil.elim
  | ⟨_, ty, _, _, _, _⟩ :: rest, _ =>
    (resolves_resolveType hj site ty).map₂ (fun _ => resolves_resolveFields hj site rest)
      fun _ _ _ => referred_cons.mp

/-- Bases are known by name only, and no type is kept for them. -/
theorem resolves_resolveBases (hj : jump.Resolves ws) (site : Site) :
    (bs : List (BaseSpec PathExpr)) → ∀ {context : Reference → Prop},
      Resolves ws context (resolveBases jump site bs) nothing
  | [], _ => .pure fun _ => False.elim
  | ⟨name, _, _⟩ :: rest, _ =>
    (resolves_resolvePath hj site none name).map₂ (fun _ => resolves_resolveBases hj site rest)
      fun _ _ _ => False.elim

theorem resolves_resolveRecord (hj : jump.Resolves ws) (site : Site) : (r : ParsedRecord) →
    ∀ {context : Reference → Prop},
      Resolves ws context (resolveRecord jump site r) (fun r y => Referred r.types y)
  | ⟨_, _, fields, methods, bases, _, _⟩, context => by
    unfold resolveRecord
    refine (resolves_resolveFields hj site fields).bind fun fs => ?_
    refine (resolves_resolveMethods hj site methods).bind fun ms => ?_
    refine (resolves_resolveBases hj site bases).bind fun bs => .pure fun y hy => ?_
    rcases referred_append.mp hy with hy | hy
    · exact Or.inl (Or.inl (Or.inr hy))
    · exact Or.inl (Or.inr hy)

theorem resolves_resolveEnum (hj : jump.Resolves ws) (site : Site) : (e : EnumDecl TypeExpr) →
    ∀ {context : Reference → Prop},
      Resolves ws context (resolveEnum jump site e) (fun e y => e.underlying.RefersTo y)
  | ⟨_, _, underlying, _, _, _⟩, _ => (resolves_resolveType hj site underlying).map fun _ _ hy => hy

end

theorem resolves_jumpWithin (bound : Nat) : (jumpWithin bound).Resolves ws := by
  induction bound with
  | zero => exact fun context site ty => .fail
  | succ bound ih => exact fun context site ty => resolves_resolveType ih site ty

end HeaderDecl.Resolution
