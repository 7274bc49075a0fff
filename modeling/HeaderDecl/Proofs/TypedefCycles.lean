import HeaderDecl.Proofs.RequiredTypes
import HeaderDecl.Proofs.TypedefStack

/-!
Typedefs that lead back to themselves. In a unit without templates the end of a typedef is kept only after
the ends of all typedefs that its target names, so that none of them can be on a cycle: a unit with a cycle
of typedefs has no model.
-/

namespace HeaderDecl.Resolution

open Relation

/-! ### Typedefs that name typedefs -/

/-- The meanings that the declarations of a unit give to a qualified name, in their order. -/
def meaningsUnder (items : List Item) (q : String) : List Meaning :=
  (declarations items).filterMap (meaningUnder q)

/-- A qualified name is that of a typedef in a unit. -/
def IsTypedef (items : List Item) (q : String) : Prop :=
  ∃ target view, .typedef target view ∈ meaningsUnder items q

/-- A qualified name is that of something else in a unit: of a record or an enum that is declared, or of one
that stands behind a keyword only, which is declared where it is used. -/
inductive IsRecord (items : List Item) (q : String) : Prop
  | declared {m : Meaning} (mem : m ∈ meaningsUnder items q) (other : m.isTypedef = false)
  | implied {u : NameUse} (written : WrittenIn items u)
      (implies : (Registry.ofVisits (visitAll {} items)).Implies u q)

/-- A name that stands in a type, at any depth, as it is seen from some view. Template arguments are no
part of a type. -/
inductive NameUse.StandsIn (u : NameUse) : View → TypeExpr → Prop
  | name {v : View} {t : TypeExpr} {kind : Option NamedKind} {p : PathExpr}
      (h : (kind, p) ∈ t.lookups) (same : u = ⟨v, kind, p⟩) : StandsIn u v t
  | part {v v' : View} {t t' : TypeExpr} (h : (v', t') ∈ t.parts v) (within : StandsIn u v' t') :
      StandsIn u v t

/-- A name stands for a typedef: of the scopes around it, the innermost one with a type of that name has a
typedef. -/
structure NamesTypedef (items : List Item) (u : NameUse) (q : String) : Prop where
  bare : u.kind = none
  free : ownType? u.view u.path = none
  innermost : ∃ before scope behind, lookupScopes u.view u.path.absolute = before ++ scope :: behind ∧
    q = Name.qualify scope u.path.plainName ∧ IsTypedef items q ∧
      ∀ s ∈ before, ¬IsTypedef items (Name.qualify s u.path.plainName) ∧
        ¬IsRecord items (Name.qualify s u.path.plainName)

/-- The target of a typedef names another typedef, anywhere within it. Where a name is that of several
typedefs, it stands for the first one. -/
def TypedefLeads (items : List Item) (q q' : String) : Prop :=
  ∃ target view rest u, meaningsUnder items q = .typedef target view :: rest ∧
    u.StandsIn view target ∧ NamesTypedef items u q'

/-- A typedef that leads to typedefs without a cycle only. -/
abbrev Grounded (items : List Item) (q : String) : Prop := Acc (fun q' q => TypedefLeads items q q') q

theorem Grounded.of_first {items : List Item} {q : String} {target : TypeExpr} {view : View}
    {rest : List Meaning} (first : meaningsUnder items q = .typedef target view :: rest)
    (named : ∀ u q', u.StandsIn view target → NamesTypedef items u q' → Grounded items q') :
    Grounded items q := by
  refine .intro q ?_
  rintro q' ⟨target', view', rest', u, first', stands, names⟩
  rw [first] at first'
  cases first'
  exact named u q' stands names

theorem Grounded.not_transGen {items : List Item} {q : String} (h : Grounded items q) :
    ¬TransGen (TypedefLeads items) q q := by
  induction h with
  | intro q _ ih =>
    intro cycle
    obtain ⟨n, leads, back⟩ := TransGen.head'_iff.mp cycle
    exact ih n leads (TransGen.tail' back leads)

/-! ### What typedefs are found to be -/

section Found

variable {items : List Item} {r : Registry} {q : String} {resolving : List String}

theorem exists_first (apart : ∀ q, IsTypedef items q → ¬IsRecord items q) (typedef : IsTypedef items q) :
    ∃ target view rest, meaningsUnder items q = .typedef target view :: rest := by
  obtain ⟨m, rest, first⟩ := List.exists_cons_of_ne_nil (List.ne_nil_of_mem typedef.choose_spec.choose_spec)
  have mem : m ∈ meaningsUnder items q := first ▸ List.mem_cons_self
  cases m with
  | typedef target view => exact ⟨target, view, rest, first⟩
  | record _ | enum | template _ _ _ => exact absurd (.declared mem rfl) (apart q typedef)

variable (plain : TemplateFree items)
  (hr : (Registry.ofVisits (visitAll {} items)).GrownBy (IsRecord items) r)

include plain hr

/-- What was not there is no type name of the unit. -/
theorem not_knows (typedef : ¬IsTypedef items q) (record : ¬IsRecord items q) : ¬r.Knows q := by
  intro known
  rcases hr.knows known with known | implied
  · obtain ⟨m, mem⟩ := List.exists_mem_of_ne_nil _ known
    rw [meanings_of_templateFree plain] at mem
    cases m with
    | typedef target view => exact typedef ⟨target, view, mem⟩
    | record _ | enum | template _ _ _ => exact record (.declared mem rfl)
  · exact record implied

/-- A typedef is found under its name, whatever is being resolved. -/
theorem find?_first (apart : ∀ q, IsTypedef items q → ¬IsRecord items q) {target : TypeExpr} {view : View}
    {rest : List Meaning} (first : meaningsUnder items q = .typedef target view :: rest) :
    r.find? resolving none q = some (.typedef target view) := by
  have typedef : IsTypedef items q := ⟨target, view, first ▸ List.mem_cons_self⟩
  obtain ⟨more, same, all⟩ := hr.meanings q
  -- Nothing else has the name, so that there is nothing that it might stand for instead.
  have alone : more = [] := by
    refine List.eq_nil_iff_forall_not_mem.mpr fun m mem => apart q typedef (all m mem).2
  rw [meanings_of_templateFree plain, alone, List.append_nil] at same
  have known : (r.meanings.get? q).getD [] = .typedef target view :: rest := same.trans first
  have typedefs (m : Meaning) (mem : m ∈ (r.meanings.get? q).getD []) : m.isTypedef = true := by
    by_contra other
    exact apart q typedef (.declared (same ▸ mem) (by simpa using other))
  unfold Registry.find?
  dsimp only
  cases under : resolving.contains q with
  | false =>
    rw [known]
    rfl
  | true =>
    rw [List.find?_eq_none.mpr fun m mem => by simp [typedefs m mem], known]
    rfl

/-- A typedef that is found is the first one of its name. -/
theorem first_of_find? (apart : ∀ q, IsTypedef items q → ¬IsRecord items q) {kind : Option NamedKind}
    {target : TypeExpr} {view : View} (found : r.find? resolving kind q = some (.typedef target view)) :
    ∃ rest, meaningsUnder items q = .typedef target view :: rest := by
  have known := hr.of_leadsOn (Registry.mem_of_find? found) rfl
  rw [meanings_of_templateFree plain] at known
  obtain ⟨target', view', rest, first⟩ := exists_first apart ⟨target, view, known⟩
  have none : kind = none := by
    cases kind with
    | none => rfl
    | some k => cases Registry.fits_of_find? found
  rw [none, find?_first plain hr apart first] at found
  cases found
  exact ⟨rest, first⟩

/-- A name that stands for a typedef is found to be one. -/
theorem NamesTypedef.findIn (apart : ∀ q, IsTypedef items q → ¬IsRecord items q) {u : NameUse}
    (names : NamesTypedef items u q) (resolving : List String) :
    ∃ target view, Resolution.findIn r resolving none u.path.plainName
      (lookupScopes u.view u.path.absolute) = some (q, .typedef target view) := by
  obtain ⟨before, scope, behind, scopes, rfl, typedef, others⟩ := names.innermost
  obtain ⟨target, view, rest, first⟩ := exists_first apart typedef
  refine ⟨target, view, ?_⟩
  rw [scopes]
  refine findIn_of_innermost (fun s mem => ?_) (find?_first plain hr apart first)
  exact Registry.find?_of_unknown (not_knows plain hr (others s mem).1 (others s mem).2) _ _

theorem NamesTypedef.looked (apart : ∀ q, IsTypedef items q → ¬IsRecord items q) {site : Site}
    {kind : Option NamedKind} {p : PathExpr} (names : NamesTypedef items ⟨site.view, kind, p⟩ q)
    {s s' : State} {f : Found} (hs : s.registry = r) (looked : Looked site kind p s f s') :
    ∃ target view, f = .meaning q (.typedef target view) := by
  obtain ⟨target, view, found⟩ := names.findIn plain hr apart site.resolving
  have bare : kind = none := names.bare
  have free : ownType? site.view p = none := names.free
  subst hs bare
  cases looked with
  | own own =>
    rw [free] at own
    cases own
  | meaning _ known =>
    rw [found] at known
    cases known
    exact ⟨target, view, rfl⟩
  | library _ unfound | implied _ unfound =>
    rw [found] at unfound
    cases unfound

end Found

/-! ### Typedefs that are resolved -/

/-- A state of a resolution that has kept ends of typedefs without a cycle only. -/
structure GroundedEnds (items : List Item) (s : State) : Prop where
  grown : Grown (IsRecord items) (Registry.ofVisits (visitAll {} items)) s
  ended : ∀ q t, s.terminals.get? q = some t → Grounded items q

/-- A jump to a type does not succeed unless all typedefs in it are without a cycle. -/
def Jump.Grounds (items : List Item) (jump : Jump) : Prop :=
  ∀ site t s a s', LooksUpOnly (WrittenIn items) site.view t → GroundedEnds items s →
    jump site t s = (.ok a, s') → GroundedEnds items s' ∧
      ∀ u q, u.StandsIn site.view t → NamesTypedef items u q → Grounded items q

theorem supplies_isRecord (items : List Item) :
    Supplies (IsRecord items) (Registry.ofVisits (visitAll {} items)) (WrittenIn items) where
  implied _ _ written implies := .implied written implies
  text := (supplies_writtenIn items).text

section Jumps

variable {items : List Item} {jump : Jump} {site : Site} {s s' : State}
  (hj : jump.Grounds items)

include hj

theorem grounded_resolveTypedef {name : String} {target : TypeExpr} {t : TypeRef}
    (names : LooksUpOnly (WrittenIn items) site.view target) (hs : GroundedEnds items s)
    (run : resolveTypedef jump site name target s = (.ok t, s')) :
    GroundedEnds items s' ∧
      ∀ u q, u.StandsIn site.view target → NamesTypedef items u q → Grounded items q := by
  obtain ⟨u, jumped, -, rfl⟩ := resolveTypedef_eq_ok run
  obtain ⟨hu, grounded⟩ :=
    hj { site with resolving := site.resolving ++ [name] } target s t u names hs jumped
  exact ⟨⟨hu.grown, hu.ended⟩, grounded⟩

/-- The end of a typedef is kept only if it leads to typedefs without a cycle, and so it is without one
itself. -/
theorem grounded_terminalOf {q : String} {target : TypeExpr} {rest : List Meaning} {t : TypeRef}
    (first : meaningsUnder items q = .typedef target site.view :: rest)
    (names : LooksUpOnly (WrittenIn items) site.view target) (hs : GroundedEnds items s)
    (run : terminalOf jump site q target s = (.ok t, s')) :
    GroundedEnds items s' ∧ Grounded items q := by
  rcases terminalOf_eq_ok run with ⟨kept, rfl⟩ | ⟨u, v, resolved, -, rfl⟩
  · exact ⟨hs, hs.ended q t kept⟩
  · obtain ⟨hv, named⟩ := grounded_resolveTypedef hj names hs resolved
    have grounded := Grounded.of_first first named
    refine ⟨⟨hv.grown, fun n a kept => ?_⟩, grounded⟩
    dsimp only at kept
    rw [NameMap.get?_insert] at kept
    split at kept
    · rename_i same
      exact same ▸ grounded
    · exact hv.ended n a kept

variable (plain : TemplateFree items)

include plain

theorem grounded_resolveFound {args : Option (List ArgExpr)} {f : Found} {a : TypeRef}
    (known : f.Known (Registered (Registry.ofVisits (visitAll {} items))))
    (first : ∀ q target view, f = .meaning q (.typedef target view) →
      ∃ rest, meaningsUnder items q = .typedef target view :: rest)
    (hs : GroundedEnds items s) (run : resolveFound jump site args f s = (.ok a, s')) :
    GroundedEnds items s' ∧
      ∀ q target view, f = .meaning q (.typedef target view) → Grounded items q := by
  cases f with
  | type t =>
    cases run
    exact ⟨hs, nofun⟩
  | meaning q m =>
    cases m with
    | record kind | enum =>
      cases run
      exact ⟨hs, nofun⟩
    | typedef target view =>
      obtain ⟨rest, first⟩ := first q target view rfl
      obtain ⟨t, u, ended, done⟩ := bind_eq_ok run
      cases done
      have names := (supplies_isRecord items).text q view target (.target (known rfl))
      obtain ⟨hs', grounded⟩ := grounded_terminalOf hj first names hs ended
      exact ⟨hs', fun _ _ _ same => by cases same; exact grounded⟩
    | template kind params view => cases registry_templateFree plain q _ (known rfl)

variable (apart : ∀ q, IsTypedef items q → ¬IsRecord items q)

include apart

/-- A name that stands for a typedef is resolved only if that is without a cycle. -/
theorem grounded_resolvePath {kind : Option NamedKind} {p : PathExpr} {a : TypeRef}
    (names : WrittenIn items ⟨site.view, kind, p⟩) (hs : GroundedEnds items s)
    (run : resolvePath jump site kind p s = (.ok a, s')) :
    GroundedEnds items s' ∧ ∀ q, NamesTypedef items ⟨site.view, kind, p⟩ q → Grounded items q := by
  rw [resolvePath_eq] at run
  obtain ⟨f, u, here, rest⟩ := bind_eq_ok run
  have looked := looked_of_run here
  have hu : GroundedEnds items u := by
    refine ⟨looked.grown (supplies_isRecord items) names hs.grown, fun q t kept => hs.ended q t ?_⟩
    rwa [looked.terminals] at kept
  have first (q : String) (target : TypeExpr) (view : View)
      (same : f = .meaning q (.typedef target view)) :
      ∃ rest, meaningsUnder items q = .typedef target view :: rest := by
    subst same
    cases looked with
    | meaning _ found => exact first_of_find? plain hs.grown apart (find?_of_findIn found)
  obtain ⟨hs', grounded⟩ := grounded_resolveFound hj plain (looked.registered hs.grown) first hu rest
  refine ⟨hs', fun q use => ?_⟩
  obtain ⟨target, view, same⟩ := use.looked plain hs.grown apart rfl looked
  exact grounded q target view same

theorem traversal_grounded :
    Traversal (fun _ x _ => Maintains (GroundedEnds items) x) jump jump Site.Alike (WrittenIn items) where
  toSites := sites_alike
  pure := .pure
  bind := .bind
  path _ _ _ names _ := fun _ _ _ hs run => (grounded_resolvePath hj plain apart names hs run).1

/-- What is resolved by a jump is resolved in a state without cycles. -/
def ResolvesGrounded (items : List Item) (jump : Jump) (y : View × TypeExpr) : Prop :=
  ∃ site s a s', site.view = y.1 ∧ GroundedEnds items s ∧ resolveType jump site y.2 s = (.ok a, s')

theorem resolving_grounded :
    Resolving (GroundedEnds items) jump (WrittenIn items) (ResolvesGrounded items jump) where
  toTraversal := traversal_grounded hj plain apart
  type hs run := ⟨_, _, _, _, rfl, hs, run⟩

/-- A type is resolved only if all typedefs in it are without a cycle. -/
theorem grounded_of_standsIn {v : View} {t : TypeExpr} {u : NameUse} {q : String}
    (stands : u.StandsIn v t) (use : NamesTypedef items u q) (names : LooksUpOnly (WrittenIn items) v t)
    (resolved : ResolvesGrounded items jump (v, t)) : Grounded items q := by
  have known := resolving_grounded hj plain apart
  induction stands with
  | @name v t kind p h same =>
    subst same
    obtain ⟨site, s, a, s', rfl, hs, run⟩ := resolved
    obtain ⟨site', s, a, s', same, hs, run⟩ := (requires_parts known names s a s' hs run).2 _
      (List.mem_append_right _ (List.mem_map_of_mem h))
    rw [resolveType_named] at run
    dsimp only at same
    rw [← same] at use
    refine (grounded_resolvePath hj plain apart ?_ hs run).2 q use
    rw [same]
    exact names.name h
  | part h _ ih =>
    obtain ⟨site, s, a, s', rfl, hs, run⟩ := resolved
    exact ih (names.part h) ((requires_parts known names s a s' hs run).2 _ (List.mem_append_left _ h))

end Jumps

section Units

variable {items : List Item} (plain : TemplateFree items)
  (apart : ∀ q, IsTypedef items q → ¬IsRecord items q)

include plain apart

theorem grounds_jumpWithin (n : Nat) : (jumpWithin n).Grounds items := by
  induction n with
  | zero =>
    intro site t s a s' _ _ run
    cases run
  | succ n ih =>
    intro site t s a s' names hs run
    have alike : Site.Alike site site := rfl
    refine ⟨(traversal_grounded ih plain apart).resolveType alike t names s a s' hs run, ?_⟩
    exact fun u q stands use =>
      grounded_of_standsIn ih plain apart stands use names ⟨site, s, a, s', rfl, hs, run⟩

theorem grounded_resolveDecl (n maxDepth : Nat) (origin : Origin) {x : View × ParsedDecl}
    (mem : x ∈ declarations items) :
    Maintains (GroundedEnds items) (resolveDecl (jumpWithin n) { maxDepth, origin, view := x.1 } x.2) := by
  have hj := grounds_jumpWithin plain apart n
  have alike : Site.Alike { maxDepth, origin, view := x.1 } { maxDepth, origin, view := x.1 } := rfl
  refine (traversal_grounded hj plain apart).resolveDecl alike x.2
    (fun y part => looksUpOnly_writtenIn mem part) (fun t name same => ?_)
    fun s _ _ _ _ same => absurd same ((plain x mem).2 s)
  have part : (x.1, t.ty) ∈ x.2.parts x.1 := by
    rw [same]
    exact List.mem_cons_self
  exact fun s a s' hs run => (grounded_resolveTypedef hj (looksUpOnly_writtenIn mem part) hs run).1

/-- A cycle of typedefs is an error. -/
theorem error_of_cycle (constants : List MacroConstant) (config : Config) {q : String}
    (cycle : TransGen (TypedefLeads items) q q) :
    ∃ e, (resolve items constants config).1 = .error e := by
  cases result : (resolve items constants config).1 with
  | error e => exact ⟨e, rfl⟩
  | ok m =>
    obtain ⟨q', ⟨target, view, rest, u, first, stands, names⟩, -⟩ := TransGen.head'_iff.mp cycle
    -- The first typedef of the name is resolved where no cycle has been kept.
    obtain ⟨x, mem, gives⟩ : ∃ x ∈ declarations items, meaningUnder q x = some (.typedef target view) := by
      have known : .typedef target view ∈ meaningsUnder items q := first ▸ List.mem_cons_self
      exact List.mem_filterMap.mp known
    obtain ⟨v, d⟩ := x
    obtain ⟨name, declares⟩ := meaningOf_of_meaningUnder gives
    obtain ⟨rfl, t, rfl, rfl⟩ := typedef_of_meaningOf declares
    obtain ⟨origin, s, d, s', hs, run⟩ := holds_before (I := GroundedEnds items)
      (fun s _ _ hs => ⟨hs.grown, hs.ended⟩)
      (fun x hx origin => grounded_resolveDecl plain apart _ _ origin hx) ⟨.refl _ _, nofun⟩ ⟨m, result⟩ mem
    obtain ⟨ty, u', resolved, -⟩ := bind_eq_ok run
    obtain ⟨-, named⟩ := grounded_resolveTypedef (grounds_jumpWithin plain apart _)
      (looksUpOnly_writtenIn mem List.mem_cons_self) hs resolved
    exact absurd cycle (Grounded.of_first first named).not_transGen

/-- Typedefs that lead back to themselves are always found out, in a unit without templates in which no name
is that of both a typedef and something else. The types under way at once are never too many, and the
typedefs among them are distinct and within the bound at any time, so that it makes no difference what would
be done otherwise; and a unit in which some typedef leads back to itself is an error. -/
theorem typedef_cycles_found (constants : List MacroConstant) (config : Config) :
    (∀ other : Jump, resolveBy (jumpWatched config.maxTypedefDepth other) items constants config =
      resolve items constants config) ∧
    ((∃ q, TransGen (TypedefLeads items) q q) → ∃ e, (resolve items constants config).1 = .error e) :=
  ⟨fun other => resolveBy_jumpWatched plain other constants config,
    fun ⟨_, cycle⟩ => error_of_cycle plain apart constants config cycle⟩

end Units

/-- A record without a name, with a pointer to another typedef. -/
def listNode : TypedefDecl TypeExpr where
  name := "Node"
  ty := .record ⟨none, .struct, [⟨some "next", .pointer (.path (.simple "Link")), none, .pub, 0, false⟩], [],
    [], true, false⟩

def listLink : TypedefDecl TypeExpr where
  name := "Link"
  ty := .qualified ⟨true, false⟩ (.path (.simple "Node"))

/-- Two typedefs that lead to one another. -/
def linkedNodes : List Item :=
  [.decl (.typedef listNode) [] ⟨"main.h", 1, 1⟩, .decl (.typedef listLink) [] ⟨"main.h", 2, 1⟩]

theorem declarations_linkedNodes {x : View × ParsedDecl} (hx : x ∈ declarations linkedNodes) :
    x = ({}, .typedef listNode) ∨ x = ({}, .typedef listLink) := by
  have all : declarations linkedNodes = [({}, .typedef listNode), ({}, .typedef listLink)] := rfl
  simpa [all] using hx

theorem not_isRecord_linkedNodes (q : String) : ¬IsRecord linkedNodes q := by
  have bare : LooksUpOnly (fun u => u.kind = none) {} listNode.ty ∧
      LooksUpOnly (fun u => u.kind = none) {} listLink.ty := by
    have name (s : String) : LooksUpOnly (fun u => u.kind = none) {} (.path (.simple s)) := by
      rw [looksUpOnly_iff]
      simp [TypeExpr.lookups, TypeExpr.parts, NamePath.simple, NameSegment.types]
    refine ⟨?_, ?_⟩
    · rw [listNode, looksUpOnly_iff]
      simp [TypeExpr.lookups, TypeExpr.parts, RecordDecl.parts]
      rw [looksUpOnly_iff]
      simp [TypeExpr.lookups, TypeExpr.parts, name]
    · rw [listLink, looksUpOnly_iff]
      simp [TypeExpr.lookups, TypeExpr.parts, name]
  rintro (⟨mem, other⟩ | ⟨⟨x, hx, y, part, looked⟩, implies⟩)
  · obtain ⟨x, hx, gives⟩ := List.mem_filterMap.mp mem
    obtain ⟨name, declares⟩ := meaningOf_of_meaningUnder gives
    rcases declarations_linkedNodes hx with rfl | rfl <;> (cases declares; cases other)
  · have behind := implies.behind
    rcases declarations_linkedNodes hx with rfl | rfl <;> obtain rfl := List.mem_singleton.mp part
    · rw [bare.1 _ looked] at behind
      cases behind
    · rw [bare.2 _ looked] at behind
      cases behind

theorem cycle_linkedNodes : TransGen (TypedefLeads linkedNodes) "Node" "Node" := by
  have node : meaningsUnder linkedNodes "Node" = [.typedef listNode.ty {}] := rfl
  have link : meaningsUnder linkedNodes "Link" = [.typedef listLink.ty {}] := rfl
  have toLink : NamesTypedef linkedNodes ⟨{}, none, .simple "Link"⟩ "Link" :=
    ⟨rfl, rfl, [], "", [], by decide +kernel, by decide +kernel, ⟨_, _, link ▸ List.mem_cons_self⟩, nofun⟩
  have toNode : NamesTypedef linkedNodes ⟨{}, none, .simple "Node"⟩ "Node" :=
    ⟨rfl, rfl, [], "", [], by decide +kernel, by decide +kernel, ⟨_, _, node ▸ List.mem_cons_self⟩, nofun⟩
  refine .tail (.single ⟨listNode.ty, {}, [], _, node, ?_, toLink⟩) ⟨listLink.ty, {}, [], _, link, ?_, toNode⟩
  · exact .part List.mem_cons_self (.part List.mem_cons_self (.name List.mem_cons_self rfl))
  · exact .part List.mem_cons_self (.name List.mem_cons_self rfl)

theorem typedef_cycles_found_linkedNodes :
    TemplateFree linkedNodes ∧ (∀ q, IsTypedef linkedNodes q → ¬IsRecord linkedNodes q) ∧
    (∀ other : Jump, resolveBy (jumpWatched 32 other) linkedNodes [] { maxTypedefDepth := 32 } =
      resolve linkedNodes [] { maxTypedefDepth := 32 }) ∧
    ∃ e, (resolve linkedNodes [] { maxTypedefDepth := 32 }).1 = .error e := by
  have plain : TemplateFree linkedNodes := by
    intro x hx
    rcases declarations_linkedNodes hx with rfl | rfl <;> exact ⟨nofun, nofun⟩
  have apart (q : String) (_ : IsTypedef linkedNodes q) : ¬IsRecord linkedNodes q :=
    not_isRecord_linkedNodes q
  obtain ⟨orderly, caught⟩ := typedef_cycles_found plain apart [] { maxTypedefDepth := 32 }
  exact ⟨plain, apart, orderly, caught ⟨"Node", cycle_linkedNodes⟩⟩

end HeaderDecl.Resolution
