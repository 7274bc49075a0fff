import HeaderDecl.Proofs.ClosedModel
import HeaderDecl.Proofs.ImpliedByTypes

/-!
What the visits of a file insert, one after another: each declaration in its resolved form, behind what
its types declare by the way.
-/

namespace HeaderDecl.Resolution

variable {records : List String} {jump : Jump}

/-! ### Declarations -/

/-- A declaration is resolved to one of the same kind and name. -/
theorem resolveDecl_named (site : Site) (d : ParsedDecl) (inRecord : Bool) :
    Returns (resolveDecl jump site d) (fun d' => d.Named inRecord → d'.Named inRecord) := by
  unfold resolveDecl
  cases d with
  | record r =>
    exact (resolveRecord_name _ r).bind fun r' same =>
      .pure fun named n hn => named n (same ▸ hn)
  | enum e =>
    dsimp only
    unfold resolveEnum
    exact .bind (.after fun t => .pure rfl) fun e' (same : e'.name = e.name) =>
      .pure fun named n hn => named n (same ▸ hn)
  | typedef t => exact .after fun u => .pure fun named => named
  | function f =>
    dsimp only
    unfold resolveFunction
    exact .bind (.after fun sig => .after fun ps => .pure rfl) fun f' (same : f'.name = f.name) =>
      .pure fun named => ⟨named.1, same ▸ named.2⟩
  | var v => exact .after fun u => .pure fun named => named
  | constant c => exact .pure fun named => named
  | template t =>
    exact .after fun ps => (resolveRecord_name _ t.record).bind fun r' same =>
      .pure fun named n hn => named n (same ▸ hn)
  | specialization s =>
    exact (resolveSpecialization_name site _ s).bind fun s' same =>
      .pure fun named n hn => named n (same ▸ hn)

theorem adds_resolveSpecialization (hj : jump.Adds records) (site : Site)
    (hv : site.view.Placed records) (inner : Site) (hi : inner.view.Placed records)
    {s : SpecializationDecl TypeExpr ArgExpr PathExpr} (hs : (Decl.specialization s).Plain) :
    Adds records (resolveSpecialization jump site s inner) := by
  obtain ⟨types, bases⟩ := hs
  simp only [Decl.types, List.mem_append] at types
  unfold resolveSpecialization
  refine .get fun u hu => ?_
  have rest {template : String} {orphaned : Bool} : Adds records (do
      let params ← resolveTemplateParams jump (site.withParams s.params) s.params
      let args ← resolveArgs jump (site.withParams s.params) s.args
      let record ← resolveRecord jump inner s.record
      return (⟨template, params, args, record, orphaned⟩ :
        SpecializationDecl TypeRef ArgRef String)) := by
    have outer : (site.withParams s.params).view.Placed records := hv.withParams s.params
    refine (adds_resolveTemplateParams hj _ outer s.params fun t ht => types t (.inl ht)).after
      fun ps => ?_
    refine (adds_resolveArgs hj _ outer s.args fun t ht => types t (.inr (.inl ht))).after
      fun args => ?_
    exact (adds_resolveRecord hj inner hi s.record ⟨fun t ht => types t (.inr (.inr ht)), bases⟩).done
  dsimp only
  split
  · exact (adds_report (by simp [orphanDiagnostic, Diagnostic.atLocation])).after fun _ => rest
  · exact rest

theorem adds_resolveDecl (hj : jump.Adds records) (site : Site) (hv : site.view.Placed records)
    {d : ParsedDecl} (hd : d.Plain)
    (registered : ∀ inner, memberView site.view d = some inner → inner.scope ∈ records) :
    Adds records (resolveDecl jump site d) := by
  obtain ⟨types, bases⟩ := id hd
  -- The members of a record are looked up from within it.
  have within {v : View} (outer : v.Placed records) :
      ((memberView site.view d).getD v).Placed records := by
    cases member : memberView site.view d with
    | none => exact outer
    | some inner => exact .inl (registered inner member)
  unfold resolveDecl
  cases d with
  | record r => exact (adds_resolveRecord hj _ (within hv) r hd).done
  | enum e => exact (adds_resolveEnum hj site hv e (types _ List.mem_cons_self)).done
  | typedef t => exact (adds_resolveTypedef hj site hv (types _ List.mem_cons_self)).done
  | function f => exact (adds_resolveFunction hj site hv f types).done
  | var v => exact (adds_resolveType hj site hv v.ty (types _ List.mem_cons_self)).done
  | constant c => exact .pure trivial
  | template t =>
    simp only [Decl.types, List.mem_append] at types
    refine (adds_resolveTemplateParams hj (site.withParams t.params) (hv.withParams t.params)
      t.params fun u hu => types u (.inl hu)).after fun ps => ?_
    exact (adds_resolveRecord hj _ (within (hv.withParams t.params)) t.record
      ⟨fun u hu => types u (.inr hu), bases⟩).done
  | specialization s =>
    exact (adds_resolveSpecialization hj site hv _ (within (hv.withParams s.params)) hd).done

/-! ### The registry of a file -/

namespace Registry

variable {ws : List Visit}

theorem recordScopes_addSpecializations (r : Registry) :
    (r.addSpecializations ws).recordScopes = r.recordScopes := by
  fun_induction addSpecializations r ws with
  | case1 => rfl
  | case2 r s o v rest ih =>
    rw [ih]
    unfold addSpecialization
    dsimp only
    split <;> rfl
  | case3 r w rest _ ih => exact ih

/-- The scope within a declaration is registered. -/
theorem mem_recordScopes {d : ParsedDecl} {o : Origin} {v inner : View}
    (hw : .decl d o v ∈ ws) (member : memberView v d = some inner) :
    inner.scope ∈ (ofVisits ws).recordScopes := by
  rw [ofVisits, recordScopes_addSpecializations]
  induction ws with
  | nil => cases hw
  | cons w ws ih =>
    rcases List.mem_cons.mp hw with rfl | later
    · rw [ofNames, precede, member]
      exact List.mem_cons_self
    · cases w with
      | scope path kind => exact ih later
      | decl e o' u =>
        rw [ofNames, precede]
        dsimp only
        split
        · exact List.mem_cons_of_mem _ (ih later)
        · exact ih later

theorem placed_of_meaningOf {v : View} {d : ParsedDecl} (hd : d.Plain) (hv : v.Placed records)
    {name : String} {m : Meaning} (h : meaningOf v d = some (name, m)) : m.Placed records := by
  cases d with
  | record r =>
    obtain ⟨q, -, same⟩ := Option.map_eq_some_iff.mp h
    cases same
    trivial
  | enum e =>
    obtain ⟨q, -, same⟩ := Option.map_eq_some_iff.mp h
    cases same
    trivial
  | template t =>
    obtain ⟨q, -, same⟩ := Option.map_eq_some_iff.mp h
    cases same
    exact ⟨fun t ht => hd.1 t (List.mem_append_left _ ht), hv⟩
  | typedef t =>
    cases h
    exact ⟨hd.1 _ List.mem_cons_self, hv⟩
  | function f => cases h
  | var v => cases h
  | constant c => cases h
  | specialization s => cases h

theorem placed_ofNames (h : ∀ w ∈ ws, w.Placed records) :
    (∀ name ms, (ofNames ws).meanings.get? name = some ms → ∀ m ∈ ms, m.Placed records) ∧
      ∀ name, (ofNames ws).patterns.get? name = none := by
  induction ws with
  | nil => exact ⟨fun name ms hms => (by cases hms), fun name => rfl⟩
  | cons w ws ih =>
    obtain ⟨meanings, patterns⟩ := ih fun w hw => h w (List.mem_cons_of_mem _ hw)
    cases w with
    | scope path kind => exact ⟨meanings, patterns⟩
    | decl d o v =>
      obtain ⟨hd, hv, -⟩ := h _ List.mem_cons_self
      refine ⟨fun name ms hms m hm => ?_, patterns⟩
      rw [ofNames, precede] at hms
      dsimp only at hms
      split at hms
      · rename_i name' m' here
        rw [NameMap.get?_insert] at hms
        split at hms
        · cases hms
          rcases List.mem_cons.mp hm with rfl | hm
          · exact placed_of_meaningOf hd hv here
          · cases old : (ofNames ws).meanings.get? (Name.qualify v.scope name') with
            | none => simp [old] at hm
            | some ms =>
              rw [old] at hm
              exact meanings _ ms old m hm
        · exact meanings name ms hms m hm
      · exact meanings name ms hms m hm

/-- A file whose names are identifiers registers such names only. -/
theorem placed_ofVisits (h : ∀ w ∈ ws, w.Placed (ofVisits ws).recordScopes) :
    (ofVisits ws).Placed (ofVisits ws).recordScopes := by
  have start : (ofNames ws).Placed (ofVisits ws).recordScopes := by
    obtain ⟨meanings, patterns⟩ := placed_ofNames h
    refine ⟨?_, meanings, fun name ps hps => ?_⟩
    · rw [ofVisits, recordScopes_addSpecializations]
    · rw [patterns] at hps
      cases hps
  -- Specializations are added while the record scopes stay as they are.
  generalize (ofVisits ws).recordScopes = records at h start
  unfold ofVisits
  generalize ofNames ws = r at start
  fun_induction addSpecializations r ws with
  | case1 => exact start
  | case2 r s o v rest ih =>
    obtain ⟨hd, hv, -⟩ := h _ List.mem_cons_self
    refine ih (fun w hw => h w (List.mem_cons_of_mem _ hw)) ?_
    have args (t : TypeExpr) (ht : t ∈ s.args.flatMap (·.types)) : t.Plain :=
      hd.1 t (List.mem_append_right _ (List.mem_append_left _ ht))
    have pattern (ps : List String) :
        Pattern.Placed records ⟨ps, s.args, v.withParams s.params, .pending⟩ :=
      ⟨args, hv.withParams s.params⟩
    unfold addSpecialization
    dsimp only
    split
    · exact start.addPattern (pattern _)
    · -- A template that is nowhere declared has no parameters of its own.
      have orphan : Meaning.Placed records (.template s.record.kind [] (v.withParams s.params)) :=
        ⟨by simp, hv.withParams s.params⟩
      have named : (r.addMeaning (Name.qualify v.scope s.template) _).Placed records :=
        start.addMeaning orphan
      refine Placed.addPattern ?_ (pattern _)
      exact ⟨named.scopes, named.meanings, named.patterns⟩
  | case3 r w rest _ ih => exact ih (fun w hw => h w (List.mem_cons_of_mem _ hw)) start

end Registry

end HeaderDecl.Resolution
