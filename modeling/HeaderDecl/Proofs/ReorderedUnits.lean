import HeaderDecl.Proofs.ResolutionReports
import HeaderDecl.Proofs.SettledTerminals

/-!
Files that differ in the order of their declarations. A declaration is resolved alike in both, whatever
comes before it.
-/

namespace HeaderDecl.Resolution

/-! ### Items in another order -/

/-- Items that differ in their order, in their scope or in scopes within. -/
inductive Reordered : List Item → List Item → Prop
  | refl (items : List Item) : Reordered items items
  | swap (i j : Item) (items : List Item) : Reordered (i :: j :: items) (j :: i :: items)
  | cons (i : Item) {items items' : List Item} (rest : Reordered items items') :
      Reordered (i :: items) (i :: items')
  | inNamespace (name : Option String) (origin : Origin) {inner inner' : List Item}
      (items : List Item) (within : Reordered inner inner') :
      Reordered (.namespaceItem name inner origin :: items) (.namespaceItem name inner' origin :: items)
  | inDecl (d : ParsedDecl) (origin : Origin) {nested nested' : List Item} (items : List Item)
      (within : Reordered nested nested') :
      Reordered (.decl d nested origin :: items) (.decl d nested' origin :: items)
  | trans {items items' items'' : List Item} (first : Reordered items items')
      (second : Reordered items' items'') : Reordered items items''

theorem Reordered.isEmpty {items items' : List Item} (h : Reordered items items') :
    items.isEmpty = items'.isEmpty := by
  induction h with
  | trans _ _ ih ih' => exact ih.trans ih'
  | _ => rfl

/-- The visits of reordered items are the same in another order. -/
theorem Reordered.visits {items items' : List Item} (h : Reordered items items') (v : View) :
    (visitAll v items).Perm (visitAll v items') := by
  induction h generalizing v with
  | refl items => exact .refl _
  | swap i j items =>
    change (visit v i ++ (visit v j ++ visitAll v items)).Perm
      (visit v j ++ (visit v i ++ visitAll v items))
    rw [← List.append_assoc, ← List.append_assoc]
    exact List.perm_append_comm.append_right _
  | cons i rest ih => exact (ih v).append_left _
  | inNamespace name origin items within ih =>
    refine List.Perm.append_right _ ?_
    cases name with
    | none => exact ih v
    | some name => exact (ih (v.enter name)).cons _
  | inDecl d origin items within ih =>
    refine List.Perm.append_right _ ?_
    unfold visit
    cases memberView v d with
    | none => exact (ih v).cons _
    | some inner =>
      -- The scope begins if anything stands within, in whatever order.
      dsimp only
      rw [within.isEmpty]
      exact (ih inner).append_left _
  | trans _ _ ih ih' => exact (ih v).trans (ih' v)

theorem Reordered.mem_declarations {items items' : List Item} (h : Reordered items items')
    {x : View × ParsedDecl} : x ∈ declarations items ↔ x ∈ declarations items' :=
  ((h.visits {}).filterMap _).mem_iff

/-! ### Names with one meaning -/

/-- A file without specializations in which all declarations of a type name give it the same meaning. -/
structure Unambiguous (items : List Item) : Prop where
  unspecialized : ∀ v s, (v, .specialization s) ∉ declarations items
  single : ∀ x ∈ declarations items, ∀ y ∈ declarations items, ∀ q m m',
    meaningUnder q x = some m → meaningUnder q y = some m' → m = m'

/-- A file in which every name behind a keyword is that of a declaration. -/
def DeclaresElaborated (items : List Item) : Prop :=
  ∀ x ∈ declarations items, ∀ p ∈ x.2.parts x.1,
    LooksUpOnly (Declared (Registry.ofVisits (visitAll {} items))) p.1 p.2

theorem meaningOf_of_meaningUnder {q : String} {x : View × ParsedDecl} {m : Meaning}
    (h : meaningUnder q x = some m) : ∃ name, Registry.meaningOf x.1 x.2 = some (name, m) := by
  obtain ⟨⟨name, m'⟩, declares, gives⟩ := Option.bind_eq_some_iff.mp h
  obtain ⟨-, same⟩ := Option.ite_none_right_eq_some.mp gives
  cases same
  exact ⟨name, declares⟩

theorem typedef_of_meaningOf {v view : View} {d : ParsedDecl} {name : String} {target : TypeExpr}
    (h : Registry.meaningOf v d = some (name, .typedef target view)) :
    view = v ∧ ∃ t, d = .typedef t ∧ target = t.ty := by
  cases d <;> simp_all [Registry.meaningOf]

theorem template_of_meaningOf {v view : View} {d : ParsedDecl} {name : String} {kind : RecordKind}
    {params : List (TemplateParam TypeExpr)}
    (h : Registry.meaningOf v d = some (name, .template kind params view)) :
    view = v ∧ ∃ t, d = .template t ∧ params = t.params := by
  cases d <;> simp_all [Registry.meaningOf]

namespace Unambiguous

variable {items items' : List Item}

theorem reordered (h : Unambiguous items) (reordered : Reordered items items') :
    Unambiguous items' where
  unspecialized v s mem := h.unspecialized v s (reordered.mem_declarations.mpr mem)
  single x hx y hy := h.single x (reordered.mem_declarations.mpr hx) y
    (reordered.mem_declarations.mpr hy)

theorem registry (h : Unambiguous items) :
    Registry.ofVisits (visitAll {} items) = Registry.ofNames (visitAll {} items) :=
  Registry.ofVisits_of_unspecialized fun s origin v hw =>
    h.unspecialized v s (mem_declarations.mpr ⟨origin, hw⟩)

theorem mem_meanings (h : Unambiguous items) {q : String} {m : Meaning} :
    m ∈ ((Registry.ofVisits (visitAll {} items)).meanings.get? q).getD [] ↔
      ∃ x ∈ declarations items, meaningUnder q x = some m := by
  rw [h.registry, Registry.meanings_ofNames]
  exact List.mem_filterMap

/-- A name has the meaning of a declaration, whatever is being resolved. -/
theorem find?_eq_some (h : Unambiguous items) {resolving : List String} {kind : Option NamedKind}
    {q : String} {m : Meaning} :
    (Registry.ofVisits (visitAll {} items)).find? resolving kind q = some m ↔
      (∃ x ∈ declarations items, meaningUnder q x = some m) ∧ m.fits kind := by
  -- Either all meanings of the name are the same, or there is none.
  by_cases known : (Registry.ofVisits (visitAll {} items)).Knows q
  · obtain ⟨m', hm'⟩ := List.exists_mem_of_ne_nil _ known
    obtain ⟨x, hx, gives⟩ := h.mem_meanings.mp hm'
    have same : ∀ m ∈ ((Registry.ofVisits (visitAll {} items)).meanings.get? q).getD [], m = m' := by
      intro m hm
      obtain ⟨y, hy, also⟩ := h.mem_meanings.mp hm
      exact h.single y hy x hx q m m' also gives
    rw [Registry.find?_of_same known same, Option.ite_none_right_eq_some, Option.some.injEq]
    constructor
    · rintro ⟨fits, rfl⟩
      exact ⟨⟨x, hx, gives⟩, fits⟩
    · rintro ⟨⟨y, hy, also⟩, fits⟩
      obtain rfl := same m (h.mem_meanings.mpr ⟨y, hy, also⟩)
      exact ⟨fits, rfl⟩
  · rw [Registry.find?_of_unknown known]
    constructor
    · exact nofun
    · rintro ⟨declared, -⟩
      exact absurd (List.ne_nil_of_mem (h.mem_meanings.mpr declared)) known

theorem alike (h : Unambiguous items) (reordered : Reordered items items') :
    (Registry.ofVisits (visitAll {} items)).Alike (Registry.ofVisits (visitAll {} items')) := by
  intro kind name
  refine Option.ext fun m => ?_
  rw [h.find?_eq_some, (h.reordered reordered).find?_eq_some]
  simp only [reordered.mem_declarations]

theorem steady (h : Unambiguous items) (elaborated : DeclaresElaborated items) :
    Steady (Registry.ofVisits (visitAll {} items)) where
  find resolving kind name := Option.ext fun m => by rw [h.find?_eq_some, h.find?_eq_some]
  means kind name m found := h.find?_eq_some.mpr ⟨(h.find?_eq_some.mp found).1, rfl⟩
  patterns := by rw [h.registry, Registry.patterns_ofNames]
  targets name target view known := by
    obtain ⟨⟨⟨v, d⟩, hx, gives⟩, -⟩ := h.find?_eq_some.mp known
    obtain ⟨_, declares⟩ := meaningOf_of_meaningUnder gives
    obtain ⟨rfl, t, rfl, rfl⟩ := typedef_of_meaningOf declares
    exact elaborated _ hx _ List.mem_cons_self
  defaults name kind params view known p hp t ht := by
    obtain ⟨⟨⟨v, d⟩, hx, gives⟩, -⟩ := h.find?_eq_some.mp known
    obtain ⟨_, declares⟩ := meaningOf_of_meaningUnder gives
    obtain ⟨rfl, t, rfl, rfl⟩ := template_of_meaningOf declares
    refine elaborated _ hx (_, _) (List.mem_append_left _ (List.mem_map_of_mem ?_))
    exact List.mem_flatMap.mpr ⟨p, hp, ht⟩

end Unambiguous

theorem DeclaresElaborated.reordered {items items' : List Item} (h : DeclaresElaborated items)
    (single : Unambiguous items) (reordered : Reordered items items') : DeclaresElaborated items' := by
  intro x hx p hp u looked behind
  have declared := h x (reordered.mem_declarations.mpr hx) p hp u looked behind
  rwa [← (single.alike reordered).found]

/-! ### Resolved declarations -/

/-- What a declaration of a file is resolved to, behind all that comes before it. -/
def ResolvesTo (items : List Item) (constants : List MacroConstant) (config : Config) (d : ParsedDecl)
    (origin : Origin) (view : View) (d' : ResolvedDecl) : Prop :=
  ∃ before behind s t, visitAll {} items = before ++ .decl d origin view :: behind ∧
    resolveSome items constants config before = (.ok (), s) ∧
    resolveDecl (jumpWithin (Registry.ofVisits (visitAll {} items)).depthBound)
      { maxDepth := config.maxTypedefDepth, origin, view } d s = (.ok d', t)

section Resolved

variable {items items' : List Item} {constants : List MacroConstant} {config : Config}
  {d : ParsedDecl} {origin : Origin} {view : View}

theorem resolveSome_append {first rest : List Visit} {t : State}
    (run : resolveSome items constants config (first ++ rest) = (.ok (), t)) :
    ∃ s, resolveSome items constants config first = (.ok (), s) ∧
      Resolver.each (resolveVisit (jumpWithin (Registry.ofVisits (visitAll {} items)).depthBound)
        config.maxTypedefDepth) rest s = (.ok (), t) := by
  obtain ⟨_, u, added, visited⟩ := bind_eq_ok run
  obtain ⟨s, here, there⟩ := each_append_eq_ok visited
  exact ⟨s, (resolveSome_of_added added config first).trans here, there⟩

/-- What a declaration is resolved to is added to the model. -/
theorem ResolvesTo.inserted {d' : ResolvedDecl}
    (h : ResolvesTo items constants config d origin view d') :
    ∃ before behind t, visitAll {} items = before ++ .decl d origin view :: behind ∧
      resolveSome items constants config (before ++ [.decl d origin view]) =
        (.ok (), State.declare t view.scope .namespaceScope ⟨d', origin⟩) := by
  obtain ⟨before, behind, s, t, split, run, resolved⟩ := h
  refine ⟨before, behind, t, split, ?_⟩
  obtain ⟨_, u, added, visited⟩ := bind_eq_ok run
  rw [resolveSome_of_added added, each_append_of_ok visited, Resolver.each, bind_run, resolveVisit,
    bind_run, resolved]
  dsimp only
  rw [run_declare]
  rfl

/-- In a file that has a model, each declaration is resolved to something. -/
theorem resolvesTo_of_ok (ok : ∃ m, (resolve items constants config).1 = .ok m)
    (hd : .decl d origin view ∈ visitAll {} items) :
    ∃ d', ResolvesTo items constants config d origin view d' := by
  obtain ⟨before, behind, split⟩ := List.append_of_mem hd
  obtain ⟨m, ok⟩ := ok
  rw [resolve_result] at ok
  rcases run : resolveSome items constants config (visitAll {} items) with ⟨e | _, t⟩
  · rw [run] at ok
    cases ok
  · rw [split] at run
    obtain ⟨s, first, rest⟩ := resolveSome_append run
    obtain ⟨_, _, here, _⟩ := bind_eq_ok rest
    obtain ⟨d', u, resolved, _⟩ := bind_eq_ok here
    exact ⟨d', before, behind, s, u, split, first, resolved⟩

theorem settled_resolveSome (single : Unambiguous items) (elaborated : DeclaresElaborated items)
    {before behind : List Visit} (split : visitAll {} items = before ++ behind) {s : State}
    (run : resolveSome items constants config before = (.ok (), s)) :
    Settled (Registry.ofVisits (visitAll {} items)) s := by
  have steady := single.steady elaborated
  have declared {w : Visit} (hw : w ∈ before) {x : View × ParsedDecl} (hx : w.declaration? = some x) :
      x ∈ declarations items := by
    refine List.mem_filterMap.mpr ⟨w, ?_, hx⟩
    rw [split]
    exact List.mem_append_left _ hw
  obtain ⟨_, u, added, visited⟩ := bind_eq_ok run
  -- At the beginning nothing is kept of any chain.
  have start : Settled (Registry.ofVisits (visitAll {} items)) u := by
    refine Settles.each (fun c _ s _ t hs run => ?_) _ _ _ ⟨rfl, by simp⟩ added
    cases run
    exact ⟨hs.registry, hs.kept⟩
  refine Settles.each (fun w hw => ?_) _ _ _ start visited
  refine settles_resolveVisit steady _ (fun v s same => ?_) fun x hx => ?_
  · exact single.unspecialized v s (declared hw same)
  · exact elaborated x (declared hw hx)

/-- A declaration is resolved alike in files that differ in their order. -/
theorem ResolvesTo.unique (single : Unambiguous items) (elaborated : DeclaresElaborated items)
    (reordered : Reordered items items') {d' d'' : ResolvedDecl}
    (first : ResolvesTo items constants config d origin view d')
    (second : ResolvesTo items' constants config d origin view d'') : d' = d'' := by
  obtain ⟨before, behind, s, t, split, run, resolved⟩ := first
  obtain ⟨before', behind', s', t', split', run', resolved'⟩ := second
  have single' := single.reordered reordered
  have elaborated' := elaborated.reordered single reordered
  have steady := single.steady elaborated
  have steady' := single'.steady elaborated'
  have alike := single.alike reordered
  have hd : (view, d) ∈ declarations items :=
    mem_declarations.mpr ⟨origin, by rw [split]; simp⟩
  have plain : ∀ s, d ≠ .specialization s := by
    rintro s rfl
    exact single.unspecialized view s hd
  -- What is kept before the declaration, in either file, is what its chains end in.
  have hs := (settled_resolveSome single elaborated split run).decided steady steady' alike
  have hs' := settled_resolveSome single' elaborated' split' run'
  exact (agree_resolveDecl steady steady' alike rfl plain (elaborated _ hd) s s' d' d'' t t' hs hs'
    resolved resolved').1

end Resolved

/-- The order of declarations makes no difference to what they are resolved to. -/
theorem resolvesTo_reordered {items items' : List Item} (reordered : Reordered items items')
    (single : Unambiguous items) (elaborated : DeclaresElaborated items)
    {constants : List MacroConstant} {config : Config}
    (ok : ∃ m, (resolve items constants config).1 = .ok m)
    (ok' : ∃ m, (resolve items' constants config).1 = .ok m)
    {d : ParsedDecl} {origin : Origin} {view : View} (hd : .decl d origin view ∈ visitAll {} items) :
    ∃ d', (∀ x, ResolvesTo items constants config d origin view x ↔ x = d') ∧
      ∀ x, ResolvesTo items' constants config d origin view x ↔ x = d' := by
  obtain ⟨d', here⟩ := resolvesTo_of_ok ok hd
  obtain ⟨d'', there⟩ := resolvesTo_of_ok ok' ((reordered.visits {}).mem_iff.mp hd)
  obtain rfl : d' = d'' := here.unique single elaborated reordered there
  refine ⟨d', fun x => ⟨fun hx => ?_, ?_⟩, fun x => ⟨fun hx => ?_, ?_⟩⟩
  · exact hx.unique single elaborated reordered there
  · rintro rfl
    exact here
  · exact (here.unique single elaborated reordered hx).symm
  · rintro rfl
    exact there

def linkTypedef : TypedefDecl TypeExpr := ⟨"link", .pointer (.elaborated .struct (.simple "node"))⟩

def nodeRecord : ParsedRecord :=
  ⟨some "node", .struct, [⟨some "next", .path (.simple "link"), none, .pub, 0, false⟩], [], [],
    true, false⟩

/-- A typedef and a record that name each other, in a namespace, and the same the other way round. -/
def linkFirst : List Item :=
  [.namespaceItem (some "list")
    [.decl (.typedef linkTypedef) [] ⟨"main.h", 2, 1⟩, .decl (.record nodeRecord) [] ⟨"main.h", 3, 1⟩]
    ⟨"main.h", 1, 1⟩]

def nodeFirst : List Item :=
  [.namespaceItem (some "list")
    [.decl (.record nodeRecord) [] ⟨"main.h", 3, 1⟩, .decl (.typedef linkTypedef) [] ⟨"main.h", 2, 1⟩]
    ⟨"main.h", 1, 1⟩]

theorem mem_declarations_linkFirst {x : View × ParsedDecl} (hx : x ∈ declarations linkFirst) :
    x = (⟨"list", []⟩, .typedef linkTypedef) ∨ x = (⟨"list", []⟩, .record nodeRecord) := by
  have all : declarations linkFirst =
      [(⟨"list", []⟩, .typedef linkTypedef), (⟨"list", []⟩, .record nodeRecord)] := rfl
  simpa [all] using hx

theorem unambiguous_linkFirst : Unambiguous linkFirst where
  unspecialized v s mem := by
    rcases mem_declarations_linkFirst mem with same | same <;> cases same
  single x hx y hy q m m' gives gives' := by
    have apart : Name.qualify "list" "link" ≠ Name.qualify "list" "node" := by decide
    rcases mem_declarations_linkFirst hx with rfl | rfl <;>
      rcases mem_declarations_linkFirst hy with rfl | rfl <;>
        simp [meaningUnder, linkTypedef, nodeRecord, Registry.meaningOf] at gives gives' <;> grind

theorem declaresElaborated_linkFirst : DeclaresElaborated linkFirst := by
  have struct : Declared (Registry.ofVisits (visitAll {} linkFirst))
      ⟨⟨"list", []⟩, some .struct, .simple "node"⟩ := by
    intro _
    decide +kernel
  intro x hx p hp
  -- Each declaration has one type, and that has one part.
  rcases mem_declarations_linkFirst hx with rfl | rfl
  · obtain rfl := List.mem_singleton.mp hp
    rw [looksUpOnly_iff]
    refine ⟨by simp [linkTypedef, TypeExpr.lookups], fun y hy => ?_⟩
    obtain rfl := List.mem_singleton.mp hy
    rw [looksUpOnly_iff]
    simpa [TypeExpr.lookups, TypeExpr.parts, NamePath.simple, NameSegment.types] using struct
  · obtain rfl := List.mem_singleton.mp hp
    rw [looksUpOnly_iff]
    refine ⟨by simp [nodeRecord, TypeExpr.lookups], fun y hy => ?_⟩
    obtain rfl := List.mem_singleton.mp hy
    rw [looksUpOnly_iff]
    simp [TypeExpr.lookups, TypeExpr.parts, NamePath.simple, NameSegment.types, Declared]

theorem resolvesTo_reordered_link : ∃ d',
    (∀ x, ResolvesTo linkFirst [] {} (.record nodeRecord) ⟨"main.h", 3, 1⟩ ⟨"list", []⟩ x ↔ x = d') ∧
      ∀ x, ResolvesTo nodeFirst [] {} (.record nodeRecord) ⟨"main.h", 3, 1⟩ ⟨"list", []⟩ x ↔
        x = d' := by
  have ok {items : List Item} (h : (resolve items [] {}).1.toOption.isSome) :
      ∃ m, (resolve items [] {}).1 = .ok m := by
    cases run : (resolve items [] {}).1 with
    | error e =>
      rw [run] at h
      cases h
    | ok m => exact ⟨m, rfl⟩
  have ahead : .decl (.record nodeRecord) ⟨"main.h", 3, 1⟩ ⟨"list", []⟩ ∈ visitAll {} linkFirst :=
    List.mem_of_getElem? (i := 2) rfl
  exact resolvesTo_reordered (.inNamespace _ _ _ (.swap _ _ _)) unambiguous_linkFirst
    declaresElaborated_linkFirst (ok (by decide +kernel)) (ok (by decide +kernel)) ahead

end HeaderDecl.Resolution
