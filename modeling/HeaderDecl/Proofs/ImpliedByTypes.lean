import HeaderDecl.Proofs.ImpliedInsertions
import HeaderDecl.Resolution.Types

/-!
Types, and the parts of declarations that types stand in, insert nothing but names behind keywords.
-/

namespace HeaderDecl.Resolution

variable {records : List String} {jump : Jump}

/-- A jump to a type that is written with identifiers inserts nothing but names behind keywords. -/
def Jump.Adds (records : List String) (jump : Jump) : Prop :=
  ∀ site ty, site.view.Placed records → ty.Plain → Resolution.Adds records (jump site ty)

theorem View.Placed.withParams {v : View} (h : v.Placed records) {τ : Type}
    (params : List (TemplateParam τ)) : (v.withParams params).Placed records := h

theorem adds_lengths (f : State → NameMap Nat) :
    Adds records (Resolver.modify fun s => { s with lengths := f s }) :=
  .modify (fun _ => rfl) (fun _ => rfl) fun _ hs => hs

theorem adds_terminals (f : State → NameMap TypeRef) :
    Adds records (Resolver.modify fun s => { s with terminals := f s }) :=
  .modify (fun _ => rfl) (fun _ => rfl) fun _ hs => hs

/-- A report of another kind is no refusal. -/
theorem adds_report {d : Diagnostic} (other : d.kind ≠ .conflictingRedeclaration) :
    Adds records (Resolver.report d) := by
  refine .modify (fun _ => rfl) (fun s => ?_) fun _ hs => hs
  rw [conflicts_append]
  simp [conflicts, other]

theorem adds_setProgress (template : String) (i : Nat) (progress : Progress) :
    Adds records (setProgress template i progress) := by
  refine .modify (fun _ => rfl) (fun _ => rfl) fun s hs => ?_
  refine ⟨hs.scopes, hs.meanings, fun name ps hps p hp => ?_⟩
  rw [NameMap.get?_insert] at hps
  split at hps
  · cases hps
    -- What a specialization was registered with stays.
    obtain ⟨j, hj⟩ := List.mem_iff_getElem?.mp hp
    rw [List.getElem?_modify] at hj
    obtain ⟨old, hold, hp⟩ := Option.map_eq_some_iff.mp hj
    cases known : s.registry.patterns.get? template with
    | none => simp [known] at hold
    | some ps =>
      rw [known, Option.getD_some] at hold
      have placed := hs.patterns template ps known old (List.mem_of_getElem? hold)
      split at hp
      · rw [← hp]
        exact placed
      · rwa [← hp]
  · exact hs.patterns name ps hps p hp

section Jumps

variable (hj : jump.Adds records) (site : Site) (hv : site.view.Placed records)

include hj hv

/-! ### Typedefs -/

theorem adds_resolveTypedef {name : String} {target : TypeExpr} (ht : target.Plain) :
    Adds records (resolveTypedef jump site name target) := by
  unfold resolveTypedef
  split
  · refine (hj { site with resolving := site.resolving ++ [name] } target hv ht).after fun t => ?_
    refine .get fun s hs => ?_
    dsimp only
    split
    · exact .fail
    · exact (adds_lengths _).done
  · exact .fail

theorem adds_terminalOf {name : String} {target : TypeExpr} (ht : target.Plain) :
    Adds records (terminalOf jump site name target) := by
  unfold terminalOf
  refine .get fun s hs => ?_
  split
  · exact .pure trivial
  · exact (adds_resolveTypedef hj site hv ht).after fun t => (adds_terminals _).done

/-! ### Template arguments -/

theorem adds_defaultArg {p : TemplateParam TypeExpr} (hp : ∀ t ∈ p.types, t.Plain) :
    Adds records (defaultArg jump site p) := by
  unfold defaultArg
  split
  · exact .pure trivial
  · split
    · rename_i ty same
      refine (hj site ty hv (hp ty ?_)).done
      simp [TemplateParam.types, same, TemplateParamKind.types]
    · exact .pure trivial
    · exact .pure trivial
    · exact .pure trivial

theorem adds_appendDefaults (params : List (TemplateParam TypeExpr))
    {rest : List (TemplateParam TypeExpr)} (hr : ∀ t ∈ rest.flatMap (·.types), t.Plain)
    (args : List ArgRef) : Adds records (appendDefaults jump site params rest args) := by
  induction rest generalizing args with
  | nil => exact .pure trivial
  | cons p rest ih =>
    unfold appendDefaults
    simp only [List.flatMap_cons, List.mem_append] at hr
    refine (adds_defaultArg hj site hv fun t ht => hr t (.inl ht)).after fun a => ?_
    cases a with
    | none => exact .pure trivial
    | some a => exact ih (fun t ht => hr t (.inr ht)) _

theorem adds_jumpArgs {args : List ArgExpr} (ha : ∀ t ∈ args.flatMap (·.types), t.Plain) :
    Adds records (jumpArgs jump site args) := by
  induction args with
  | nil => exact .pure trivial
  | cons a rest ih =>
    simp only [List.flatMap_cons, List.mem_append] at ha
    have later := ih fun t ht => ha t (.inr ht)
    cases a with
    | literal text => exact later.done
    | type ty => exact (hj site ty hv (ha ty (.inl (by simp [TemplateArg.types])))).after fun _ => later.done

end Jumps

section Patterns

variable (hj : jump.Adds records) (site : Site)

include hj

/-- The defaults of a template are looked up from where it stands. -/
theorem adds_fillDefaults {params : List (TemplateParam TypeExpr)}
    (hp : ∀ t ∈ params.flatMap (·.types), t.Plain) {view : View} (hv : view.Placed records)
    (args : List ArgRef) : Adds records (fillDefaults jump site params view args) := by
  refine adds_appendDefaults hj { site with view := view.withParams params } (hv.withParams params)
    params (fun t ht => ?_) args
  obtain ⟨p, hdrop, ht⟩ := List.mem_flatMap.mp ht
  exact hp t (List.mem_flatMap.mpr ⟨p, List.mem_of_mem_drop hdrop, ht⟩)

theorem adds_resolvePattern (template : String) (i : Nat) {p : Pattern} (hp : p.Placed records) :
    Adds records (resolvePattern jump site template i p) := by
  unfold resolvePattern
  refine (adds_setProgress template i _).after fun _ => ?_
  refine (adds_jumpArgs hj { site with view := p.view } hp.2 hp.1).after fun written => ?_
  refine .get fun s hs => ?_
  dsimp only
  split
  · rename_i kind params view found
    have placed := hs.find found
    exact (adds_fillDefaults hj site placed.1 placed.2 written).after fun _ =>
      (adds_setProgress template i _).done
  · exact (Adds.pure trivial).after fun _ => (adds_setProgress template i _).done

theorem adds_patternArgs (template : String) (i : Nat) :
    Adds records (patternArgs jump site template i) := by
  unfold patternArgs
  refine .get fun s hs => ?_
  split
  · exact .pure trivial
  · rename_i p found
    obtain ⟨ps, hps, hp⟩ := Option.bind_eq_some_iff.mp found
    split
    · exact .pure trivial
    · exact .pure trivial
    · exact (adds_resolvePattern hj site template i
        (hs.patterns template ps hps p (List.mem_of_getElem? hp))).done

theorem adds_selectFrom (template : String) (actual : List ArgRef) (is : List Nat)
    (partialMatch : Option (List ArgRef)) :
    Adds records (selectFrom jump site template actual is partialMatch) := by
  induction is generalizing partialMatch with
  | nil => exact .pure trivial
  | cons i rest ih =>
    unfold selectFrom
    refine (adds_patternArgs hj site template i).after fun o => ?_
    split
    · exact ih _
    · dsimp only
      split
      · split
        · exact .pure trivial
        · exact ih _
      · split
        · exact ih _
        · exact ih _

theorem adds_instantiate (template : String) {params : List (TemplateParam TypeExpr)}
    (hp : ∀ t ∈ params.flatMap (·.types), t.Plain) {view : View} (hv : view.Placed records)
    (args : List ArgRef) : Adds records (instantiate jump site template params view args) := by
  unfold instantiate
  refine (adds_fillDefaults hj site hp hv args).after fun args => ?_
  unfold select
  exact .get fun s hs => (adds_selectFrom hj site template _ _ none).done

end Patterns

/-! ### Types -/

theorem PathExpr.types_last {absolute : Bool} {scope : List (NameSegment ArgExpr)} {last : String}
    {args : List ArgExpr} {t : TypeExpr} (h : t ∈ args.flatMap (·.types)) :
    t ∈ NamePath.types ⟨absolute, scope, ⟨last, some args⟩⟩ := by
  refine List.mem_flatMap.mpr ⟨⟨last, some args⟩, ?_, h⟩
  simp [NamePath.segments]

-- The cases are those of the written types: each part is written with identifiers if the whole is.

mutual

theorem adds_resolveType (hj : jump.Adds records) (site : Site) (hv : site.view.Placed records) :
    (t : TypeExpr) → t.Plain → Adds records (resolveType jump site t)
  | .primitive _, _ => .pure trivial
  | .path p, ht => adds_resolvePath hj site hv none p (TypeExpr.plain_path.mp ht)
  | .elaborated kind p, ht => adds_resolvePath hj site hv (some kind) p (TypeExpr.plain_elaborated.mp ht)
  | .dependent _, _ => .pure trivial
  | .pointer t, ht => (adds_resolveType hj site hv t (TypeExpr.plain_pointer.mp ht)).done
  | .reference t, ht => (adds_resolveType hj site hv t (TypeExpr.plain_reference.mp ht)).done
  | .rvalueReference t, ht => (adds_resolveType hj site hv t (TypeExpr.plain_rvalueReference.mp ht)).done
  | .array t _, ht => (adds_resolveType hj site hv t (TypeExpr.plain_array.mp ht)).done
  | .function sig, ht => (adds_resolveSignature hj site hv sig (TypeExpr.plain_function.mp ht)).done
  | .qualified _ t, ht => (adds_resolveType hj site hv t (TypeExpr.plain_qualified.mp ht)).done
  | .record r, ht => (adds_resolveRecord hj site hv r (TypeExpr.plain_record.mp ht)).done
  | .enum e, ht => (adds_resolveEnum hj site hv e (TypeExpr.plain_enum.mp ht)).done

theorem adds_resolvePath (hj : jump.Adds records) (site : Site) (hv : site.view.Placed records)
    (kind : Option NamedKind) : (p : PathExpr) → PathExpr.Plain p →
      Adds records (resolvePath jump site kind p)
  | ⟨absolute, scope, ⟨last, args⟩⟩, hp => by
    unfold resolvePath
    refine (adds_look hv kind hp.1).bind fun found placed => ?_
    split
    · exact .pure trivial
    · exact .pure trivial
    · exact .pure trivial
    · exact (adds_terminalOf hj { site with view := _ } placed.2 placed.1).done
    · refine (adds_resolveArgs? hj site hv args fun t ht => ?_).after fun args => ?_
      · cases args with
        | none => simp at ht
        | some args => exact hp.2 t (PathExpr.types_last ht)
      · split
        · exact (adds_instantiate hj site _ placed.1 placed.2 _).done
        · exact .pure trivial

theorem adds_resolveArgs? (hj : jump.Adds records) (site : Site) (hv : site.view.Placed records) :
    (args : Option (List ArgExpr)) → (∀ t ∈ (args.getD []).flatMap (·.types), t.Plain) →
      Adds records (resolveArgs? jump site args)
  | none, _ => .pure trivial
  | some args, ha => (adds_resolveArgs hj site hv args ha).done

theorem adds_resolveArgs (hj : jump.Adds records) (site : Site) (hv : site.view.Placed records) :
    (args : List ArgExpr) → (∀ t ∈ args.flatMap (·.types), t.Plain) →
      Adds records (resolveArgs jump site args)
  | [], _ => .pure trivial
  | a :: rest, ha =>
    (adds_resolveArg hj site hv a fun t ht => ha t (List.mem_append_left _ ht)).after fun _ =>
      (adds_resolveArgs hj site hv rest fun t ht => ha t (List.mem_append_right _ ht)).done

theorem adds_resolveArg (hj : jump.Adds records) (site : Site) (hv : site.view.Placed records) :
    (a : ArgExpr) → (∀ t ∈ a.types, t.Plain) → Adds records (resolveArg jump site a)
  | .type t, ha => (adds_resolveType hj site hv t (ha t List.mem_cons_self)).done
  | .literal _, _ => .pure trivial

theorem adds_resolveSignature (hj : jump.Adds records) (site : Site)
    (hv : site.view.Placed records) : (sig : Signature TypeExpr) → (∀ t ∈ sig.types, t.Plain) →
      Adds records (resolveSignature jump site sig)
  | ⟨returnTy, params, _⟩, hs =>
    (adds_resolveParameters hj site hv params fun t ht => hs t (List.mem_cons_of_mem _ ht)).after
      fun _ => (adds_resolveType hj site hv returnTy (hs returnTy List.mem_cons_self)).done

theorem adds_resolveParameters (hj : jump.Adds records) (site : Site)
    (hv : site.view.Placed records) : (ps : List (Parameter TypeExpr)) →
      (∀ t ∈ ps.map (·.ty), t.Plain) → Adds records (resolveParameters jump site ps)
  | [], _ => .pure trivial
  | ⟨_, ty, _⟩ :: rest, hp =>
    (adds_resolveType hj site hv ty (hp ty List.mem_cons_self)).after fun _ =>
      (adds_resolveParameters hj site hv rest fun t ht => hp t (List.mem_cons_of_mem _ ht)).done

theorem adds_resolveTemplateParams (hj : jump.Adds records) (site : Site)
    (hv : site.view.Placed records) : (ps : List (TemplateParam TypeExpr)) →
      (∀ t ∈ ps.flatMap (·.types), t.Plain) → Adds records (resolveTemplateParams jump site ps)
  | [], _ => .pure trivial
  | ⟨_, kind, _⟩ :: rest, hp =>
    (adds_resolveParamKind hj site hv kind fun t ht => hp t (List.mem_append_left _ ht)).after fun _ =>
      (adds_resolveTemplateParams hj site hv rest fun t ht => hp t (List.mem_append_right _ ht)).done

theorem adds_resolveParamKind (hj : jump.Adds records) (site : Site)
    (hv : site.view.Placed records) : (kind : TemplateParamKind TypeExpr) →
      (∀ t ∈ kind.types, t.Plain) → Adds records (resolveParamKind jump site kind)
  | .type none, _ => .pure trivial
  | .type (some t), hk => (adds_resolveType hj site hv t (hk t List.mem_cons_self)).done
  | .nonType t _, hk => (adds_resolveType hj site hv t (hk t List.mem_cons_self)).done
  | .template _, _ => .pure trivial

theorem adds_resolveFunction (hj : jump.Adds records) (site : Site)
    (hv : site.view.Placed records) : (f : FunctionDecl TypeExpr) → (∀ t ∈ f.types, t.Plain) →
      Adds records (resolveFunction jump site f)
  | ⟨_, _, signature, _, _, params, _⟩, hf =>
    (adds_resolveSignature hj (site.withParams params) (hv.withParams params) signature fun t ht =>
      hf t (List.mem_append_left _ ht)).after fun _ =>
    (adds_resolveTemplateParams hj (site.withParams params) (hv.withParams params) params fun t ht =>
      hf t (List.mem_append_right _ ht)).done

theorem adds_resolveMethods (hj : jump.Adds records) (site : Site)
    (hv : site.view.Placed records) : (fs : List (FunctionDecl TypeExpr)) →
      (∀ t ∈ fs.flatMap (·.types), t.Plain) → Adds records (resolveMethods jump site fs)
  | [], _ => .pure trivial
  | f :: rest, hf =>
    (adds_resolveFunction hj site hv f fun t ht => hf t (List.mem_append_left _ ht)).after fun _ =>
      (adds_resolveMethods hj site hv rest fun t ht => hf t (List.mem_append_right _ ht)).done

theorem adds_resolveFields (hj : jump.Adds records) (site : Site)
    (hv : site.view.Placed records) : (fs : List (Field TypeExpr)) →
      (∀ t ∈ fs.map (·.ty), t.Plain) → Adds records (resolveFields jump site fs)
  | [], _ => .pure trivial
  | ⟨_, ty, _, _, _, _⟩ :: rest, hf =>
    (adds_resolveType hj site hv ty (hf ty List.mem_cons_self)).after fun _ =>
      (adds_resolveFields hj site hv rest fun t ht => hf t (List.mem_cons_of_mem _ ht)).done

theorem adds_resolveBases (hj : jump.Adds records) (site : Site)
    (hv : site.view.Placed records) : (bs : List (BaseSpec PathExpr)) →
      (∀ b ∈ bs, PathExpr.Plain b.name) → Adds records (resolveBases jump site bs)
  | [], _ => .pure trivial
  | ⟨name, _, _⟩ :: rest, hb =>
    (adds_resolvePath hj site hv none name (hb _ List.mem_cons_self)).after fun _ =>
      (adds_resolveBases hj site hv rest fun b hmem => hb b (List.mem_cons_of_mem _ hmem)).done

theorem adds_resolveRecord (hj : jump.Adds records) (site : Site)
    (hv : site.view.Placed records) : (r : ParsedRecord) → r.Plain →
      Adds records (resolveRecord jump site r)
  | ⟨_, _, fields, methods, bases, _, _⟩, hr =>
    (adds_resolveFields hj site hv fields fun t ht => hr.1 t (List.mem_append_left _ ht)).after fun _ =>
    (adds_resolveMethods hj site hv methods fun t ht => hr.1 t (List.mem_append_right _ ht)).after fun _ =>
    (adds_resolveBases hj site hv bases hr.2).done

theorem adds_resolveEnum (hj : jump.Adds records) (site : Site)
    (hv : site.view.Placed records) : (e : EnumDecl TypeExpr) → e.underlying.Plain →
      Adds records (resolveEnum jump site e)
  | ⟨_, _, underlying, _, _, _⟩, he => (adds_resolveType hj site hv underlying he).done

end

theorem adds_jumpWithin (bound : Nat) : (jumpWithin bound).Adds records := by
  induction bound with
  | zero => exact fun site ty _ _ => .fail
  | succ bound ih => exact fun site ty hv ht => adds_resolveType ih site hv ty ht

end HeaderDecl.Resolution
