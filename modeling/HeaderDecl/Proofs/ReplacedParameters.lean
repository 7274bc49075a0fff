import HeaderDecl.Proofs.ReplayedTypes
import HeaderDecl.Proofs.WrittenTypes

/-!
Types in which parameters are replaced by the arguments that they are bound to.
-/

namespace HeaderDecl

/-! ### Arguments in place of parameters -/

/-- Template arguments that are alike: types are related, and expressions are the same. -/
inductive TemplateArg.Alike {τ τ' : Type} (S : τ → τ' → Prop) : TemplateArg τ → TemplateArg τ' → Prop
  | type {t : τ} {t' : τ'} (h : S t t') : Alike S (.type t) (.type t')
  | literal (text : String) : Alike S (.literal text) (.literal text)

theorem TemplateArg.Alike.imp {τ τ' : Type} {S S' : τ → τ' → Prop} (implies : ∀ t t', S t t' → S' t t')
    {a : TemplateArg τ} {a' : TemplateArg τ'} (h : Alike S a a') : Alike S' a a' := by
  cases h with
  | type h => exact .type (implies _ _ h)
  | literal text => exact .literal text

theorem withQualifiers_withQualifiers (q r : Qualifiers) (t : TypeRef) :
    (t.withQualifiers r).withQualifiers q = t.withQualifiers (q.union r) := by
  obtain ⟨c, v⟩ := q
  obtain ⟨c', v'⟩ := r
  cases t <;> cases c <;> cases v <;> cases c' <;> cases v' <;>
    simp [TypeRef.withQualifiers, Qualifiers.isEmpty, Qualifiers.union]

namespace Template

/-- A type with arguments for its parameters, if any are replaced. -/
def replace : Option Bindings → TypeRef → TypeRef
  | none, t => t
  | some b, t => substitute b t

def replaceArg : Option Bindings → ArgRef → ArgRef
  | none, a => a
  | some b, a => substituteArg b a

def replaceArgs (b : Option Bindings) (args : List ArgRef) : List ArgRef := args.map (replaceArg b)

section Replace

variable {b : Option Bindings} {t : TypeRef}

@[simp]
theorem replaceArgs_none {args : List ArgRef} : replaceArgs none args = args := List.map_id args

@[simp]
theorem replaceArg_type : replaceArg b (.type t) = .type (replace b t) := by cases b <;> rfl

@[simp]
theorem replace_pointer : replace b (.pointer t) = .pointer (replace b t) := by cases b <;> rfl

@[simp]
theorem replace_reference : replace b (.reference t) = .reference (replace b t) := by cases b <;> rfl

@[simp]
theorem replace_rvalueReference : replace b (.rvalueReference t) = .rvalueReference (replace b t) := by
  cases b <;> rfl

@[simp]
theorem replace_array {size : Option Value} : replace b (.array t size) = .array (replace b t) size := by
  cases b <;> rfl

@[simp]
theorem replace_primitive {p : Primitive} : replace b (.primitive p) = .primitive p := by
  cases b <;> rfl

@[simp]
theorem replace_dependent {text : String} : replace b (.dependent text) = .dependent text := by
  cases b <;> rfl

@[simp]
theorem replace_builtin {name : String} : replace b (.builtin name) = .builtin name := by
  cases b <;> rfl

@[simp]
theorem replace_named {name : String} {kind : NamedKind} :
    replace b (.named name kind) = .named name kind := by
  cases b <;> rfl

@[simp]
theorem replace_typedef {name : String} : replace b (.typedef name t) = .typedef name t := by
  cases b <;> rfl

@[simp]
theorem replace_function {sig : Signature TypeRef} : replace b (.function sig) = .function sig := by
  cases b <;> rfl

@[simp]
theorem replace_functionPointer {sig : Signature TypeRef} :
    replace b (.functionPointer sig) = .functionPointer sig := by
  cases b <;> rfl

@[simp]
theorem replace_instantiation {name : String} {args : List ArgRef} {selected : Option (List ArgRef)} :
    replace b (.instantiation ⟨name, args, selected⟩) =
      .instantiation ⟨name, replaceArgs b args, selected⟩ := by
  have substituted (b : Bindings) (args : List ArgRef) :
      substituteArgs b args = args.map (substituteArg b) := by
    induction args with
    | nil => rfl
    | cons a rest ih => rw [substituteArgs, ih, List.map_cons]
  cases b with
  | none => rw [replaceArgs_none, replace]
  | some b =>
    rw [replace, substitute, substituted]
    rfl

/-- Qualifiers that meet are put together, before or after parameters are replaced. -/
@[simp]
theorem replace_withQualifiers {q : Qualifiers} :
    replace b (.withQualifiers q t) = .withQualifiers q (replace b t) := by
  cases b with
  | none => rfl
  | some b =>
    change substitute b _ = TypeRef.withQualifiers q (substitute b t)
    by_cases none : q.isEmpty
    · simp [TypeRef.withQualifiers, none]
    · have whole (other : t.withQualifiers q = .qualified q t) :
          substitute b (t.withQualifiers q) = (substitute b t).withQualifiers q := by
        rw [other, substitute]
      cases t with
      | qualified r t =>
        have joined : (TypeRef.qualified r t).withQualifiers q = .qualified (q.union r) t := by
          simp [TypeRef.withQualifiers, none]
        rw [joined, substitute, substitute, withQualifiers_withQualifiers]
      | _ => exact whole (by simp [TypeRef.withQualifiers, none])

end Replace

end Template

namespace Resolution

open Template

/-! ### What parameters are bound to -/

/-- What a type is resolved to at a site, in some state and in all later ones. -/
def SettledAt (jump : Jump) (site : Site) (s : State) (t : TypeExpr) (a : TypeRef) : Prop :=
  ∀ u, Later s u → resolveType jump site t u = (.ok a, u)

/-- What an argument is resolved to at a site, in some state and in all later ones. -/
def SettledArg (jump : Jump) (site : Site) (s : State) : ArgExpr → ArgRef → Prop :=
  TemplateArg.Alike (SettledAt jump site s)

/-- Parameters that are bound to what is written for them. -/
def Bound (S : TypeExpr → TypeRef → Prop) : Writings → Option Bindings → Prop
  | none, none => True
  | some args, some b => ∀ name, Option.Rel (TemplateArg.Alike S) (args.lookup name) (b.lookup name)
  | _, _ => False

section Bound

variable {S : TypeExpr → TypeRef → Prop} {w : Writings} {b : Option Bindings}

theorem bound_bind (params : List (TemplateParam TypeExpr)) {args : List ArgExpr}
    {bound : List ArgRef} (alike : List.Forall₂ (TemplateArg.Alike S) args bound) :
    Bound S (some (writings params args)) (some (Template.bind params bound)) := by
  have pairs : List.Forall₂ (fun x y : String × _ => x.1 = y.1 ∧ TemplateArg.Alike S x.2 y.2)
      ((params.zip args).filterMap fun x => x.1.name.map (·, x.2))
      ((params.zip bound).filterMap fun x => x.1.name.map (·, x.2)) := by
    induction alike generalizing params with
    | nil => simp
    | cons first rest ih =>
      cases params with
      | nil => simp
      | cons p params =>
        cases named : p.name with
        | none => simpa [named] using ih params
        | some name => simpa [named, first] using ih params
  -- In lists of such pairs the first one of a name is found on both sides.
  have found {xs : List (String × ArgExpr)} {ys : Bindings}
      (pairs : List.Forall₂ (fun x y : String × _ => x.1 = y.1 ∧ TemplateArg.Alike S x.2 y.2) xs ys)
      (name : String) : Option.Rel (TemplateArg.Alike S) (xs.lookup name) (ys.lookup name) := by
    induction pairs with
    | nil => exact .none
    | @cons x y xs ys first rest ih =>
      obtain ⟨n, a⟩ := x
      obtain ⟨n', a'⟩ := y
      obtain ⟨rfl, alike⟩ := first
      rw [List.lookup_cons, List.lookup_cons]
      cases name == n with
      | true => exact .some alike
      | false => exact ih
  intro name
  exact found (List.rel_reverse pairs) name

theorem Bound.lookup_some {args : List (String × ArgExpr)} (h : Bound S (some args) b) {name : String}
    {a : ArgExpr} (written : args.lookup name = some a) :
    ∃ bs a', b = some bs ∧ bs.lookup name = some a' ∧ TemplateArg.Alike S a a' := by
  cases b with
  | none => cases h
  | some bs =>
    have alike := h name
    rw [written] at alike
    cases found : bs.lookup name with
    | none =>
      rw [found] at alike
      cases alike
    | some a' =>
      rw [found] at alike
      cases alike with
      | some alike => exact ⟨bs, a', rfl, found, alike⟩

theorem Bound.lookup_none {args : List (String × ArgExpr)} (h : Bound S (some args) b) {name : String}
    (free : args.lookup name = none) : ∃ bs, b = some bs ∧ bs.lookup name = none := by
  cases b with
  | none => cases h
  | some bs =>
    have alike := h name
    rw [free] at alike
    cases found : bs.lookup name with
    | none => exact ⟨bs, rfl, found⟩
    | some a =>
      rw [found] at alike
      cases alike

theorem Bound.eq_none (h : Bound S w b) (free : w = none) : b = none := by
  subst free
  cases b with
  | none => rfl
  | some bs => cases h

theorem Bound.param {args : List (String × ArgExpr)} (h : Bound S (some args) b) {name : String}
    {t : TypeExpr} (written : args.lookup name = some (.type t)) :
    S t (replace b (.param name)) := by
  obtain ⟨bs, a, rfl, found, alike⟩ := h.lookup_some written
  cases alike with
  | type settled => simpa [replace, substitute, found] using settled

theorem Bound.spared (h : Bound S w b) {name : String}
    (free : ∀ args, w = some args → args.lookup name = none) :
    replace b (.param name) = .param name ∧ replaceArg b (.literal name) = .literal name := by
  cases w with
  | none =>
    obtain rfl := h.eq_none rfl
    exact ⟨rfl, rfl⟩
  | some args =>
    obtain ⟨bs, rfl, found⟩ := h.lookup_none (free args rfl)
    simp [replace, replaceArg, substitute, substituteArg, found]

theorem Bound.replaces (h : Bound S w b) {text text' : String} (replaced : w.Replaces text text') :
    replaceArg b (.literal text) = .literal text' := by
  cases replaced with
  | spared spared =>
    exact (h.spared fun args same => spared args same text List.mem_cons_self).2
  | param same written =>
    subst same
    obtain ⟨bs, a, rfl, found, alike⟩ := h.lookup_some written
    cases alike
    simp [replaceArg, substituteArg, found]

/-- A name that is a type by itself is kept, if nothing is written for its beginning. -/
theorem Bound.replace_found (h : Bound S w b) {r : Registry} {v : View} {kind : Option NamedKind}
    {p : PathExpr} {t : TypeRef} (spared : w.SparesPath p)
    (found : r.found ⟨v, kind, p⟩ = some (.type t)) : replace b t = t := by
  unfold Registry.found at found
  split at found
  · rename_i own
    cases found
    unfold ownType? at own
    split at own
    · rename_i first
      cases own
      split
      · exact replace_dependent
      · have relative : p.absolute = false := by
          simp only [Bool.and_eq_true, Bool.not_eq_true'] at first
          exact first.1
        exact (h.spared (spared.1 relative)).1
    · split at own
      · cases own
        exact replace_dependent
      · cases own
  · dsimp only at found
    split at found
    · cases found
    · split at found
      · cases found
        exact replace_builtin
      · cases found

end Bound

end Resolution

end HeaderDecl
