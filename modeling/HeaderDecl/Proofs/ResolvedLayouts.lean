import HeaderDecl.Proofs.CarriedRecords
import HeaderDecl.Proofs.NumberedFields
import HeaderDecl.Proofs.RequiredTypes
import Mathlib.Data.List.Forall2

/-!
The layouts of resolved records. A record is resolved field by field, and all records that a resolved
declaration has in it are what some records of the unit were resolved to.
-/

namespace HeaderDecl

/-! ### Layouts -/

/-- Whether a field is laid out like another one, under the same name. -/
structure Field.LaidOutAs {τ τ' : Type} (f' : Field τ') (f : Field τ) : Prop where
  name : f'.name = f.name
  bitWidth : f'.bitWidth = f.bitWidth
  access : f'.access = f.access
  ordinal : f'.ordinal = f.ordinal
  isStatic : f'.isStatic = f.isStatic

/-- Whether a record has as many fields as another one, each of which is laid out like the field at the
same place. -/
def RecordDecl.LaidOutAs {τ ν τ' ν' : Type} (r' : RecordDecl τ' ν') (r : RecordDecl τ ν) : Prop :=
  List.Forall₂ Field.LaidOutAs r'.fields r.fields

theorem RecordDecl.LaidOutAs.numbered {τ ν τ' ν' : Type} {r' : RecordDecl τ' ν'}
    {r : RecordDecl τ ν} (h : r'.LaidOutAs r) (numbered : r.Numbered) : r'.Numbered := by
  obtain ⟨same, places⟩ := List.forall₂_iff_get.mp h
  intro i f' found
  obtain ⟨inside, rfl⟩ := List.getElem?_eq_some_iff.mp found
  have inside' : i < r.fields.length := same ▸ inside
  have place := places i inside inside'
  exact place.ordinal.trans (numbered i _ (List.getElem?_eq_getElem inside'))

namespace Resolution

section Layouts

variable {jump : Jump}

theorem laidOutAs_resolveFields (site : Site) (fields : List (Field TypeExpr)) :
    Returns (resolveFields jump site fields) fun fields' =>
      List.Forall₂ Field.LaidOutAs fields' fields := by
  induction fields with
  | nil => exact .pure .nil
  | cons f fields ih =>
    unfold resolveFields
    refine .after fun ty => ih.bind fun fields' laidOut => .pure (.cons ?_ laidOut)
    exact ⟨rfl, rfl, rfl, rfl, rfl⟩

/-- The types of the fields are resolved and nothing else about them. -/
theorem laidOutAs_resolveRecord (site : Site) (r : ParsedRecord) :
    Returns (resolveRecord jump site r) (·.LaidOutAs r) := by
  unfold resolveRecord
  refine (laidOutAs_resolveFields site _).bind fun fields laidOut => ?_
  exact .after fun methods => .after fun bases => .pure laidOut

end Layouts

/-- Whether a record is what another one is resolved to at some point of a resolution. -/
def RecordResolvesTo (r : ParsedRecord) (r' : ResolvedRecord) : Prop :=
  ∃ fuel site s t, resolveRecord (jumpWithin fuel) site r s = (.ok r', t)

theorem RecordResolvesTo.laidOutAs {r : ParsedRecord} {r' : ResolvedRecord}
    (h : RecordResolvesTo r r') : r'.LaidOutAs r := by
  obtain ⟨fuel, site, s, t, run⟩ := h
  exact laidOutAs_resolveRecord site r s r' t run

/-- Whether a record is what some record with a property is resolved to. -/
def Form (P : ParsedRecord → Prop) (r' : ResolvedRecord) : Prop := ∃ r, P r ∧ RecordResolvesTo r r'

/-! ### Types -/

/-- Whether jumps carry records along, and records with one property are resolved to records with another
one. -/
structure Jump.Forms (jump : Jump) (P : ParsedRecord → Prop) (Q : ResolvedRecord → Prop) : Prop where
  carries : jump.Carries P Q
  record : ∀ site r, P r → Returns (resolveRecord jump site r) Q

section Types

variable {P : ParsedRecord → Prop} {Q : ResolvedRecord → Prop} {jump : Jump}

theorem each_pointerTo {t : TypeRef} (h : t.Each Q) : (pointerTo t).Each Q := by
  unfold pointerTo
  split
  · exact TypeRef.each_functionPointer.mpr (TypeRef.each_function.mp h)
  · exact TypeRef.each_pointer.mpr h

-- The cases are those of the written types. A record within one is met where it is resolved.

mutual

theorem upholds_resolveType (forms : jump.Forms P Q) (site : Site) : (t : TypeExpr) → t.Each P →
    Upholds (State.Each P Q) (resolveType jump site t) (TypeRef.Each Q)
  | .primitive _, _ => .pure TypeRef.each_primitive
  | .path p, h => upholds_resolvePath forms site none p (TypeExpr.each_path.mp h)
  | .elaborated kind p, h => upholds_resolvePath forms site (some kind) p (TypeExpr.each_elaborated.mp h)
  | .dependent _, _ => .pure TypeRef.each_dependent
  | .pointer t, h =>
    (upholds_resolveType forms site t (TypeExpr.each_pointer.mp h)).map fun _ => each_pointerTo
  | .reference t, h =>
    (upholds_resolveType forms site t (TypeExpr.each_reference.mp h)).map fun _ =>
      TypeRef.each_reference.mpr
  | .rvalueReference t, h =>
    (upholds_resolveType forms site t (TypeExpr.each_rvalueReference.mp h)).map fun _ =>
      TypeRef.each_rvalueReference.mpr
  | .array t _, h =>
    (upholds_resolveType forms site t (TypeExpr.each_array.mp h)).map fun _ => TypeRef.each_array.mpr
  | .function sig, h =>
    (upholds_resolveSignature forms site sig (TypeExpr.each_function.mp h)).map fun _ =>
      TypeRef.each_function.mpr
  | .qualified _ t, h =>
    (upholds_resolveType forms site t (TypeExpr.each_qualified.mp h)).map fun _ =>
      TypeRef.each_withQualifiers.mpr
  | .record r, h =>
    (upholds_resolveRecord forms site r h).map fun _ => TypeRef.each_anonymousRecord.mpr
  | .enum e, h =>
    (upholds_resolveEnum forms site e (TypeExpr.each_enum.mp h)).map fun _ =>
      TypeRef.each_anonymousEnum.mpr

theorem upholds_resolvePath (forms : jump.Forms P Q) (site : Site) (kind : Option NamedKind) :
    (p : PathExpr) → PathExpr.Each P p →
      Upholds (State.Each P Q) (resolvePath jump site kind p) (TypeRef.Each Q)
  | ⟨absolute, scope, ⟨last, args⟩⟩, h => by
    have written : ∀ a ∈ args.getD [], ∀ t ∈ a.types, t.Each P :=
      PathExpr.each_iff.mp h ⟨last, args⟩ (by simp [NamePath.segments])
    unfold resolvePath
    refine (upholds_look site kind _).bind fun found each => ?_
    split
    · exact .pure each
    · exact .pure TypeRef.each_named
    · exact .pure TypeRef.each_named
    · exact (upholds_terminalOf forms.carries _ _ each).map fun _ => TypeRef.each_typedef.mpr
    · refine (upholds_resolveArgs? forms site args written).bind fun args given => ?_
      split
      · exact (upholds_instantiate forms.carries site each _ given).map fun _ => id
      · exact .pure TypeRef.each_named

theorem upholds_resolveArgs? (forms : jump.Forms P Q) (site : Site) : (args : Option (List ArgExpr)) →
    (∀ a ∈ args.getD [], ∀ t ∈ a.types, t.Each P) →
      Upholds (State.Each P Q) (resolveArgs? jump site args) (fun o => ArgRef.Each Q (o.getD []))
  | none, _ => .pure ArgRef.each_nil
  | some args, h => (upholds_resolveArgs forms site args h).map fun _ => id

theorem upholds_resolveArgs (forms : jump.Forms P Q) (site : Site) : (args : List ArgExpr) →
    (∀ a ∈ args, ∀ t ∈ a.types, t.Each P) →
      Upholds (State.Each P Q) (resolveArgs jump site args) (ArgRef.Each Q)
  | [], _ => .pure ArgRef.each_nil
  | a :: rest, h =>
    (upholds_resolveArg forms site a (h a List.mem_cons_self)).bind fun _ first =>
      (upholds_resolveArgs forms site rest fun b hb => h b (List.mem_cons_of_mem _ hb)).map
        fun _ later => ArgRef.each_cons.mpr ⟨first, later⟩

theorem upholds_resolveArg (forms : jump.Forms P Q) (site : Site) : (a : ArgExpr) →
    (∀ t ∈ a.types, t.Each P) →
      Upholds (State.Each P Q) (resolveArg jump site a) (fun b => ∀ t ∈ b.types, t.Each Q)
  | .type t, h =>
    (upholds_resolveType forms site t (h t List.mem_cons_self)).map fun _ =>
      List.forall_mem_singleton.mpr
  | .literal _, _ => .pure (List.forall_mem_nil _)

theorem upholds_resolveSignature (forms : jump.Forms P Q) (site : Site) : (sig : Signature TypeExpr) →
    (∀ t ∈ sig.types, t.Each P) →
      Upholds (State.Each P Q) (resolveSignature jump site sig) (fun sig => ∀ t ∈ sig.types, t.Each Q)
  | ⟨returnTy, params, _⟩, h =>
    (upholds_resolveParameters forms site params fun t ht => h t (List.mem_cons_of_mem _ ht)).bind
      fun _ later => (upholds_resolveType forms site returnTy (h _ List.mem_cons_self)).map
        fun _ first => List.forall_mem_cons.mpr ⟨first, later⟩

theorem upholds_resolveParameters (forms : jump.Forms P Q) (site : Site) :
    (ps : List (Parameter TypeExpr)) → (∀ t ∈ ps.map (·.ty), t.Each P) →
      Upholds (State.Each P Q) (resolveParameters jump site ps)
        (fun ps => ∀ t ∈ ps.map (·.ty), t.Each Q)
  | [], _ => .pure (List.forall_mem_nil _)
  | ⟨_, ty, _⟩ :: rest, h =>
    (upholds_resolveType forms site ty (h ty List.mem_cons_self)).bind fun _ first =>
      (upholds_resolveParameters forms site rest fun t ht => h t (List.mem_cons_of_mem _ ht)).map
        fun _ later => List.forall_mem_cons.mpr ⟨first, later⟩

theorem upholds_resolveTemplateParams (forms : jump.Forms P Q) (site : Site) :
    (ps : List (TemplateParam TypeExpr)) → (∀ t ∈ ps.flatMap (·.types), t.Each P) →
      Upholds (State.Each P Q) (resolveTemplateParams jump site ps)
        (fun ps => ∀ t ∈ ps.flatMap (·.types), t.Each Q)
  | [], _ => .pure (List.forall_mem_nil _)
  | ⟨_, kind, _⟩ :: rest, h =>
    (upholds_resolveParamKind forms site kind fun t ht => h t (List.mem_append_left _ ht)).bind
      fun _ first =>
        (upholds_resolveTemplateParams forms site rest fun t ht => h t (List.mem_append_right _ ht)).map
          fun _ later => List.forall_mem_append.mpr ⟨first, later⟩

theorem upholds_resolveParamKind (forms : jump.Forms P Q) (site : Site) :
    (kind : TemplateParamKind TypeExpr) → (∀ t ∈ kind.types, t.Each P) →
      Upholds (State.Each P Q) (resolveParamKind jump site kind) (fun kind => ∀ t ∈ kind.types, t.Each Q)
  | .type none, _ => .pure (List.forall_mem_nil _)
  | .type (some t), h | .nonType t _, h =>
    (upholds_resolveType forms site t (h t List.mem_cons_self)).map fun _ =>
      List.forall_mem_singleton.mpr
  | .template _, _ => .pure (List.forall_mem_nil _)

theorem upholds_resolveFunction (forms : jump.Forms P Q) (site : Site) : (f : FunctionDecl TypeExpr) →
    (∀ t ∈ f.types, t.Each P) →
      Upholds (State.Each P Q) (resolveFunction jump site f) (fun f => ∀ t ∈ f.types, t.Each Q)
  | ⟨_, _, signature, _, _, params, _⟩, h =>
    (upholds_resolveSignature forms _ signature fun t ht => h t (List.mem_append_left _ ht)).bind
      fun _ first =>
        (upholds_resolveTemplateParams forms _ params fun t ht => h t (List.mem_append_right _ ht)).map
          fun _ later => List.forall_mem_append.mpr ⟨first, later⟩

theorem upholds_resolveMethods (forms : jump.Forms P Q) (site : Site) :
    (fs : List (FunctionDecl TypeExpr)) → (∀ t ∈ fs.flatMap (·.types), t.Each P) →
      Upholds (State.Each P Q) (resolveMethods jump site fs)
        (fun fs => ∀ t ∈ fs.flatMap (·.types), t.Each Q)
  | [], _ => .pure (List.forall_mem_nil _)
  | f :: rest, h =>
    (upholds_resolveFunction forms site f fun t ht => h t (List.mem_append_left _ ht)).bind
      fun _ first =>
        (upholds_resolveMethods forms site rest fun t ht => h t (List.mem_append_right _ ht)).map
          fun _ later => List.forall_mem_append.mpr ⟨first, later⟩

theorem upholds_resolveFields (forms : jump.Forms P Q) (site : Site) :
    (fs : List (Field TypeExpr)) → (∀ t ∈ fs.map (·.ty), t.Each P) →
      Upholds (State.Each P Q) (resolveFields jump site fs) (fun fs => ∀ t ∈ fs.map (·.ty), t.Each Q)
  | [], _ => .pure (List.forall_mem_nil _)
  | ⟨_, ty, _, _, _, _⟩ :: rest, h =>
    (upholds_resolveType forms site ty (h ty List.mem_cons_self)).bind fun _ first =>
      (upholds_resolveFields forms site rest fun t ht => h t (List.mem_cons_of_mem _ ht)).map
        fun _ later => List.forall_mem_cons.mpr ⟨first, later⟩

/-- The types of base classes are resolved for their names alone. -/
theorem upholds_resolveBases (forms : jump.Forms P Q) (site : Site) :
    (bs : List (BaseSpec PathExpr)) → (∀ b ∈ bs, PathExpr.Each P b.name) →
      Upholds (State.Each P Q) (resolveBases jump site bs) (fun _ => True)
  | [], _ => .pure trivial
  | ⟨name, _, _⟩ :: rest, h =>
    (upholds_resolvePath forms site none name (h _ List.mem_cons_self)).bind fun _ _ =>
      (upholds_resolveBases forms site rest fun b hb => h b (List.mem_cons_of_mem _ hb)).map
        fun _ _ => trivial

/-- A record is met where it is resolved, and so are the records within it. -/
theorem upholds_resolveRecord (forms : jump.Forms P Q) (site : Site) : (r : ParsedRecord) →
    (TypeExpr.record r).Each P →
      Upholds (State.Each P Q) (resolveRecord jump site r) (fun r' => Q r' ∧ ∀ t ∈ r'.types, t.Each Q)
  | ⟨name, kind, fields, methods, bases, complete, typedefName⟩, h => by
    obtain ⟨own, named, types⟩ := TypeExpr.each_record.mp h
    refine Upholds.and ?_ (forms.record site _ own)
    unfold resolveRecord
    refine (upholds_resolveFields forms site fields fun t ht =>
      types t (List.mem_append_left _ ht)).bind fun fields' first => ?_
    refine (upholds_resolveMethods forms site methods fun t ht =>
      types t (List.mem_append_right _ ht)).bind fun methods' later => ?_
    refine (upholds_resolveBases forms site bases named).map fun bases' _ => ?_
    exact List.forall_mem_append.mpr ⟨first, later⟩

theorem upholds_resolveEnum (forms : jump.Forms P Q) (site : Site) : (e : EnumDecl TypeExpr) →
    e.underlying.Each P →
      Upholds (State.Each P Q) (resolveEnum jump site e) (fun e => e.underlying.Each Q)
  | ⟨_, _, underlying, _, _, _⟩, h => (upholds_resolveType forms site underlying h).map fun _ => id

end

theorem form_resolveRecord (fuel : Nat) (site : Site) {r : ParsedRecord} (own : P r) :
    Returns (resolveRecord (jumpWithin fuel) site r) (Form P) :=
  fun s _ t run => ⟨r, own, fuel, site, s, t, run⟩

/-- However many types may be under way, records are resolved to their forms. -/
theorem forms_jumpWithin (P : ParsedRecord → Prop) (fuel : Nat) : (jumpWithin fuel).Forms P (Form P) := by
  refine ⟨?_, fun site r own => form_resolveRecord fuel site own⟩
  induction fuel with
  | zero =>
    intro site t _ s a u _ run
    cases run
  | succ fuel ih =>
    have forms : (jumpWithin fuel).Forms P (Form P) :=
      ⟨ih, fun site r own => form_resolveRecord fuel site own⟩
    exact fun site t each => upholds_resolveType forms site t each

end Types

/-! ### Declarations -/

section Declarations

variable {P : ParsedRecord → Prop} {Q : ResolvedRecord → Prop} {jump : Jump}

/-- A declaration is about what the record of the written one is resolved to, if it is about a record. -/
theorem record_resolveDecl (fuel : Nat) (site : Site) (d : ParsedDecl) :
    Returns (resolveDecl (jumpWithin fuel) site d) fun d' =>
      Option.Rel RecordResolvesTo d.record? d'.record? := by
  have record (site : Site) (r : ParsedRecord) :
      Returns (resolveRecord (jumpWithin fuel) site r) (RecordResolvesTo r) :=
    fun s r' t run => ⟨fuel, site, s, t, run⟩
  unfold resolveDecl
  cases d with
  | record r => exact (record _ r).bind fun r' h => .pure (.some h)
  | enum e => exact .after fun e' => .pure .none
  | typedef t => exact .after fun u => .pure .none
  | function f => exact .after fun f' => .pure .none
  | var v => exact .after fun u => .pure .none
  | constant c => exact .pure .none
  | template t => exact .after fun ps => (record _ t.record).bind fun r' h => .pure (.some h)
  | specialization sp =>
    intro s d' t run
    obtain ⟨sp', u, resolved, run⟩ := bind_eq_ok run
    obtain ⟨_, _, v, -, -, last, -⟩ := resolveSpecialization_eq_ok resolved
    cases run
    exact .some (record _ sp.record v _ _ last)

/-- All records in the types of a resolved declaration were met on the way. -/
theorem upholds_resolveDecl (forms : jump.Forms P Q) (site : Site) {d : ParsedDecl} (h : d.Each P) :
    Upholds (State.Each P Q) (resolveDecl jump site d) (fun d' => ∀ t ∈ d'.types, t.Each Q) := by
  obtain ⟨-, types, -⟩ := Decl.each_iff.mp h
  unfold resolveDecl
  cases d with
  | record r => exact (upholds_resolveRecord forms _ r (h.record rfl)).map fun _ found => found.2
  | enum e =>
    exact (upholds_resolveEnum forms site e (types _ List.mem_cons_self)).map fun _ =>
      List.forall_mem_singleton.mpr
  | typedef t =>
    exact (upholds_resolveTypedef forms.carries site _ (types _ List.mem_cons_self)).map fun _ =>
      List.forall_mem_singleton.mpr
  | function f => exact (upholds_resolveFunction forms site f types).map fun _ => id
  | var v =>
    exact (upholds_resolveType forms site v.ty (types _ List.mem_cons_self)).map fun _ =>
      List.forall_mem_singleton.mpr
  | constant c => exact .pure (List.forall_mem_nil _)
  | template t =>
    refine (upholds_resolveTemplateParams forms _ t.params fun u hu =>
      types u (List.mem_append_left _ hu)).bind fun ps first => ?_
    refine (upholds_resolveRecord forms _ t.record (h.record rfl)).map fun r' found => ?_
    exact List.forall_mem_append.mpr ⟨first, found.2⟩
  | specialization sp =>
    refine Upholds.map (Q := fun sp' => ∀ t ∈ (Decl.specialization sp').types, t.Each Q) ?_ fun _ => id
    intro s sp' t hs run
    obtain ⟨diagnostics, u, v, params, args, record, -⟩ := resolveSpecialization_eq_ok run
    -- What is reported of an orphan has no part in what is resolved.
    have reported : State.Each P Q { s with diagnostics } := ⟨hs.texts, hs.terminals, hs.resolved⟩
    have inParams : ∀ t ∈ sp.params.flatMap (·.types), t.Each P := fun t ht =>
      types t (List.mem_append_left _ ht)
    have inArgs : ∀ a ∈ sp.args, ∀ t ∈ a.types, t.Each P := List.forall_mem_flatMap.mp fun t ht =>
      types t (List.mem_append_right _ (List.mem_append_left _ ht))
    obtain ⟨hu, first⟩ := upholds_resolveTemplateParams forms _ sp.params inParams _ _ u reported params
    obtain ⟨hv, second⟩ := upholds_resolveArgs forms _ sp.args inArgs u _ v hu args
    obtain ⟨ht, -, last⟩ := upholds_resolveRecord forms _ sp.record (h.record rfl) v _ t hv record
    exact ⟨ht, List.forall_mem_append.mpr ⟨first, List.forall_mem_append.mpr ⟨second, last⟩⟩⟩

/-- The types that a declaration is resolved with have the records of the declaration. -/
theorem each_parts {d : ParsedDecl} (h : d.Each P) (v : View) : ∀ y ∈ d.parts v, y.2.Each P := by
  obtain ⟨-, types, -⟩ := Decl.each_iff.mp h
  cases d with
  | record r => exact List.forall_mem_singleton.mpr (h.record rfl)
  | enum e => exact List.forall_mem_singleton.mpr (TypeExpr.each_enum.mpr (types _ List.mem_cons_self))
  | typedef t => exact List.forall_mem_singleton.mpr (types _ List.mem_cons_self)
  | function f => exact List.forall_mem_map.mpr types
  | var x => exact List.forall_mem_singleton.mpr (types _ List.mem_cons_self)
  | constant c => exact List.forall_mem_nil _
  | template t =>
    refine List.forall_mem_append.mpr ⟨List.forall_mem_map.mpr fun u hu => ?_, ?_⟩
    · exact types u (List.mem_append_left _ hu)
    · exact List.forall_mem_singleton.mpr (h.record rfl)
  | specialization s =>
    refine List.forall_mem_append.mpr ⟨List.forall_mem_map.mpr fun u hu => types u ?_, ?_⟩
    · rw [Decl.types, ← List.append_assoc]
      exact List.mem_append_left _ hu
    · exact List.forall_mem_singleton.mpr (h.record rfl)

end Declarations

/-! ### Units -/

section Units

variable {items : List Item} {constants : List MacroConstant} {config : Config} {d : ParsedDecl}
  {origin : Origin} {view : View}

/-- The records in a declaration that is visited stand in the unit. -/
theorem each_standsIn (visited : .decl d origin view ∈ visitAll {} items) : d.Each (·.StandsIn items) :=
  fun _ within => contains_of_mem_visitAll within items visited

/-- The records in the types that names lead to stand in the unit, and none is resolved yet. -/
theorem each_start (Q : ResolvedRecord → Prop) : State.Each (·.StandsIn items) Q
    { registry := Registry.ofVisits (visitAll {} items) } := by
  refine ⟨fun name v t text => ?_, nofun, ?_⟩
  · obtain ⟨⟨view, d⟩, hx, part, -⟩ := text.mem_parts
    obtain ⟨origin, visited⟩ := mem_declarations.mp hx
    exact each_parts (each_standsIn visited) view _ part
  · intro template i p found w f resolved
    unfold Registry.pattern? at found
    cases known : (Registry.ofVisits (visitAll {} items)).patterns.get? template with
    | none => simp [known] at found
    | some ps =>
      rw [known] at found
      rw [Registry.fresh_ofVisits template ps known p (List.mem_of_getElem? found)] at resolved
      cases resolved

/-- All records in a declaration are forms of records of the unit, wherever its types lead, and the record
that it is about is resolved from the one that the written declaration is about. -/
theorem ResolvesTo.forms {d' : ResolvedDecl} (h : ResolvesTo items constants config d origin view d') :
    Option.Rel RecordResolvesTo d.record? d'.record? ∧
      ∀ t ∈ d'.types, t.Each (Form (·.StandsIn items)) := by
  obtain ⟨before, behind, s, t, split, run, resolved⟩ := h
  have forms := forms_jumpWithin (·.StandsIn items) (Registry.ofVisits (visitAll {} items)).depthBound
  have upheld {e : ParsedDecl} {o : Origin} {v : View} (he : .decl e o v ∈ visitAll {} items)
      (site : Site) := upholds_resolveDecl forms site (each_standsIn he)
  have hs : State.Each (·.StandsIn items) (Form (·.StandsIn items)) s := by
    refine holds_of_resolveSome (fun s _ _ hs => ⟨hs.texts, hs.terminals, hs.resolved⟩) ?_
      (each_start _) split run
    intro x hx o s a t hs run
    obtain ⟨o', visited⟩ := mem_declarations.mp hx
    exact (upheld visited _ s a t hs run).1
  have visited : .decl d origin view ∈ visitAll {} items := by simp [split]
  exact ⟨record_resolveDecl _ _ d s d' t resolved, (upheld visited _ s d' t hs resolved).2⟩

end Units

end Resolution

end HeaderDecl
