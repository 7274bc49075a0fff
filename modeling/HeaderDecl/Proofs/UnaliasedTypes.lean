import HeaderDecl.Proofs.ReplacedParameters

/-!
Types without the choices of specializations, and types without typedef names. Parameters may be replaced
before or after either is taken away.
-/

namespace HeaderDecl

namespace Template

/-! ### Choices taken away -/

mutual

/-- A type without the specializations that are selected in it. Signatures and types that are defined in
place stay as they are. -/
def unselected : TypeRef → TypeRef
  | .typedef name target => .typedef name (unselected target)
  | .pointer t => .pointer (unselected t)
  | .reference t => .reference (unselected t)
  | .rvalueReference t => .rvalueReference (unselected t)
  | .array t size => .array (unselected t) size
  | .qualified q t => .qualified q (unselected t)
  | .instantiation ⟨name, args, _⟩ => .instantiation ⟨name, unselectedArgs args, none⟩
  | t => t

def unselectedArg : ArgRef → ArgRef
  | .type t => .type (unselected t)
  | .literal text => .literal text

def unselectedArgs : List ArgRef → List ArgRef
  | [] => []
  | a :: as => unselectedArg a :: unselectedArgs as

end

section Arguments

variable {args : List ArgRef}

theorem unselectedArgs_eq : unselectedArgs args = args.map unselectedArg := by
  induction args with
  | nil => rfl
  | cons a rest ih => rw [unselectedArgs, ih, List.map_cons]

theorem unaliasedArgs_eq : unaliasedArgs args = args.map unaliasedArg := by
  induction args with
  | nil => rfl
  | cons a rest ih => rw [unaliasedArgs, ih, List.map_cons]

end Arguments

/-! ### Qualifiers -/

theorem unselected_withQualifiers (q : Qualifiers) (t : TypeRef) :
    unselected (t.withQualifiers q) = (unselected t).withQualifiers q := by
  unfold TypeRef.withQualifiers
  split
  · rfl
  · cases t <;> rfl

/-- Qualifiers that meet when a typedef name is taken away are put together. -/
theorem unaliased_withQualifiers (q : Qualifiers) (t : TypeRef) :
    unaliased (t.withQualifiers q) = (unaliased t).withQualifiers q := by
  by_cases none : q.isEmpty
  · simp only [TypeRef.withQualifiers, none, if_true]
  · have whole (other : t.withQualifiers q = .qualified q t) :
        unaliased (t.withQualifiers q) = (unaliased t).withQualifiers q := by
      rw [other, unaliased]
    cases t with
    | qualified r t =>
      have joined : (TypeRef.qualified r t).withQualifiers q = .qualified (q.union r) t := by
        simp [TypeRef.withQualifiers, none]
      rw [joined, unaliased, unaliased, withQualifiers_withQualifiers]
    | _ => exact whole (by simp [TypeRef.withQualifiers, none])

mutual

/-- Choices make no difference to types without typedef names. -/
theorem unaliased_unselected : (t : TypeRef) → unaliased (unselected t) = unaliased t
  | .typedef _ t | .pointer t | .reference t | .rvalueReference t | .array t _ | .qualified _ t => by
    simp only [unselected, unaliased, unaliased_unselected t]
  | .instantiation ⟨_, args, _⟩ => by
    simp only [unselected, unaliased, unaliasedArgs_unselectedArgs args]
  | .primitive _ | .builtin _ | .named _ _ | .param _ | .dependent _ | .functionPointer _
  | .function _ | .anonymousRecord _ | .anonymousEnum _ => rfl

theorem unaliasedArg_unselectedArg : (a : ArgRef) → unaliasedArg (unselectedArg a) = unaliasedArg a
  | .type t => congrArg TemplateArg.type (unaliased_unselected t)
  | .literal _ => rfl

theorem unaliasedArgs_unselectedArgs : (args : List ArgRef) →
    unaliasedArgs (unselectedArgs args) = unaliasedArgs args
  | [] => rfl
  | a :: rest => by
    rw [unselectedArgs, unaliasedArgs, unaliasedArg_unselectedArg a,
      unaliasedArgs_unselectedArgs rest, unaliasedArgs]

end

/-! ### Parameters -/

/-- Bindings with other arguments in the place of those that they have. -/
def Bindings.mapArgs (g : ArgRef → ArgRef) (b : Bindings) : Bindings := b.map (Prod.map id g)

theorem Bindings.lookup_mapArgs (g : ArgRef → ArgRef) (b : Bindings) (name : String) :
    (b.mapArgs g).lookup name = (b.lookup name).map g := by
  induction b with
  | nil => rfl
  | cons x b ih =>
    obtain ⟨n, a⟩ := x
    change ((n, g a) :: Bindings.mapArgs g b).lookup name = _
    rw [List.lookup_cons, List.lookup_cons]
    cases name == n with
    | true => rfl
    | false => exact ih

theorem bind_map {τ : Type} (g : ArgRef → ArgRef) (params : List (TemplateParam τ))
    (args : List ArgRef) : bind params (args.map g) = (bind params args).mapArgs g := by
  have pairs : (params.zip (args.map g)).filterMap (fun x => x.1.name.map (·, x.2)) =
      ((params.zip args).filterMap fun x => x.1.name.map (·, x.2)).map (Prod.map id g) := by
    rw [List.zip_map_right, List.filterMap_map, List.map_filterMap]
    congr 1
    funext ⟨p, a⟩
    change p.name.map (·, g a) = (p.name.map (·, a)).map (Prod.map id g)
    cases p.name <;> rfl
  unfold bind Bindings.mapArgs
  rw [List.map_reverse]
  exact congrArg List.reverse pairs

mutual

/-- Choices may be taken away before parameters are replaced. -/
theorem unselected_substitute (b : Bindings) : (t : TypeRef) →
    unselected (substitute b t) = substitute (b.mapArgs unselectedArg) (unselected t)
  | .param name => by
    change unselected (substitute b (.param name)) =
      substitute (b.mapArgs unselectedArg) (.param name)
    simp only [substitute, Bindings.lookup_mapArgs]
    cases b.lookup name with
    | none => rfl
    | some a => cases a <;> rfl
  | .pointer t | .reference t | .rvalueReference t | .array t _ => by
    simp only [unselected, substitute, unselected_substitute b t]
  | .qualified q t => by
    simp only [unselected, substitute, unselected_withQualifiers, unselected_substitute b t]
  | .instantiation ⟨_, args, _⟩ => by
    simp only [unselected, substitute, unselectedArgs_substituteArgs b args]
  | .typedef _ _ | .primitive _ | .builtin _ | .named _ _ | .dependent _ | .functionPointer _
  | .function _ | .anonymousRecord _ | .anonymousEnum _ => rfl

theorem unselectedArg_substituteArg (b : Bindings) : (a : ArgRef) →
    unselectedArg (substituteArg b a) = substituteArg (b.mapArgs unselectedArg) (unselectedArg a)
  | .type t => congrArg TemplateArg.type (unselected_substitute b t)
  | .literal text => by
    rw [substituteArg, unselectedArg, substituteArg, Bindings.lookup_mapArgs]
    cases b.lookup text with
    | none => rfl
    | some a => cases a <;> rfl

theorem unselectedArgs_substituteArgs (b : Bindings) : (args : List ArgRef) →
    unselectedArgs (substituteArgs b args) =
      substituteArgs (b.mapArgs unselectedArg) (unselectedArgs args)
  | [] => rfl
  | a :: rest => by
    rw [substituteArgs, unselectedArgs, unselectedArg_substituteArg b a,
      unselectedArgs_substituteArgs b rest, unselectedArgs, substituteArgs]

end

section Alike

variable {b b' : Bindings}

/-- What a name is bound to is of one kind in both. -/
theorem lookup_unaliased (same : b.mapArgs unaliasedArg = b'.mapArgs unaliasedArg) (name : String) :
    (b.lookup name = none ∧ b'.lookup name = none) ∨
      (∃ t t', b.lookup name = some (.type t) ∧ b'.lookup name = some (.type t') ∧
        unaliased t = unaliased t') ∨
      ∃ text, b.lookup name = some (.literal text) ∧ b'.lookup name = some (.literal text) := by
  have bound : (b.lookup name).map unaliasedArg = (b'.lookup name).map unaliasedArg := by
    rw [← Bindings.lookup_mapArgs, same, Bindings.lookup_mapArgs]
  cases here : b.lookup name with
  | none =>
    rw [here] at bound
    exact .inl ⟨rfl, Option.map_eq_none_iff.mp bound.symm⟩
  | some a =>
    rw [here] at bound
    obtain ⟨a', there, alike⟩ := Option.map_eq_some_iff.mp bound.symm
    cases a with
    | type t =>
      cases a' with
      | type t' => exact .inr (.inl ⟨t, t', rfl, there, (TemplateArg.type.inj alike).symm⟩)
      | literal text => cases alike
    | literal text =>
      cases a' with
      | type t' => cases alike
      | literal text' =>
        cases alike
        exact .inr (.inr ⟨text, rfl, there⟩)

mutual

/-- Arguments that differ in typedef names alone may stand for parameters. -/
theorem unaliased_substitute (same : b.mapArgs unaliasedArg = b'.mapArgs unaliasedArg) :
    (t : TypeRef) → unaliased (substitute b t) = unaliased (substitute b' t)
  | .param name => by
    rw [substitute, substitute]
    obtain ⟨here, there⟩ | ⟨t, t', here, there, alike⟩ | ⟨text, here, there⟩ :=
      lookup_unaliased same name
    · rw [here, there]
    · rw [here, there]
      exact alike
    · rw [here, there]
  | .pointer t | .reference t | .rvalueReference t | .array t _ => by
    simp only [substitute, unaliased, unaliased_substitute same t]
  | .qualified q t => by
    simp only [substitute, unaliased_withQualifiers, unaliased_substitute same t]
  | .instantiation ⟨_, args, _⟩ => by
    simp only [substitute, unaliased, unaliasedArgs_substituteArgs same args]
  | .typedef _ _ | .primitive _ | .builtin _ | .named _ _ | .dependent _ | .functionPointer _
  | .function _ | .anonymousRecord _ | .anonymousEnum _ => rfl

theorem unaliasedArg_substituteArg (same : b.mapArgs unaliasedArg = b'.mapArgs unaliasedArg) :
    (a : ArgRef) → unaliasedArg (substituteArg b a) = unaliasedArg (substituteArg b' a)
  | .type t => congrArg TemplateArg.type (unaliased_substitute same t)
  | .literal text => by
    rw [substituteArg, substituteArg]
    obtain ⟨here, there⟩ | ⟨t, t', here, there, -⟩ | ⟨bound, here, there⟩ :=
      lookup_unaliased same text
    all_goals rw [here, there]

theorem unaliasedArgs_substituteArgs (same : b.mapArgs unaliasedArg = b'.mapArgs unaliasedArg) :
    (args : List ArgRef) →
      unaliasedArgs (substituteArgs b args) = unaliasedArgs (substituteArgs b' args)
  | [] => rfl
  | a :: rest => by
    rw [substituteArgs, unaliasedArgs, unaliasedArg_substituteArg same a,
      unaliasedArgs_substituteArgs same rest, substituteArgs, unaliasedArgs]

end

end Alike

end Template

end HeaderDecl
