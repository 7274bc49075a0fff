import HeaderDecl.Proofs.HarmlessReports
import HeaderDecl.Proofs.ResolutionWalks

/-!
What a resolution reports. Reports only come behind one another, whether the resolution succeeds or not,
and all of them leave the file standing.
-/

namespace HeaderDecl

/-- What is reported of an insertion is a conflict, if anything. -/
theorem Model.kind_insertReporting (m : Model) (scope : Nat) (e : Entry) :
    ∀ d ∈ (m.insertReporting scope e).2, d.kind = .conflictingRedeclaration := by
  unfold insertReporting
  dsimp only
  split
  · simp [conflictDiagnostic, Diagnostic.atLocation]
  · simp

namespace Resolution

variable {α β : Type}

/-- A computation that takes back no report and reports no fatal error, whether it fails or not. -/
def Records (x : Resolver α) : Prop := ∀ s, Recorded s.diagnostics (x s).2.diagnostics

namespace Records

theorem pure (a : α) : Records (pure a) := fun _ => .refl _

theorem bind {x : Resolver α} {f : α → Resolver β} (first : Records x)
    (next : ∀ a, Records (f a)) : Records (x >>= f) := by
  intro s
  have here := first s
  change Recorded s.diagnostics (Resolver.bind x f s).2.diagnostics
  unfold Resolver.bind
  rcases hx : x s with ⟨_ | a, t⟩
  · rw [hx] at here
    exact here
  · rw [hx] at here
    exact here.trans (next a t)

theorem done {x : Resolver α} (first : Records x) (g : α → β) :
    Records (x >>= fun a => Pure.pure (g a)) :=
  first.bind fun a => .pure (g a)

/-- A computation that looks at the state may go on differently from each. -/
theorem get {f : State → Resolver β} (next : ∀ s, Records (f s)) : Records (Resolver.get >>= f) :=
  fun s => next s s

theorem fail (site : Site) (cause : FatalCause) : Records (Resolver.fail (α := α) site cause) :=
  fun _ => .refl _

/-- A change of the state that reports nothing. -/
theorem modify {f : State → State} (quiet : ∀ s, (f s).diagnostics = s.diagnostics)
    {y : Resolver β} (next : Records y) : Records (Resolver.modify f >>= fun _ => y) := by
  apply bind
  · intro s
    change Recorded s.diagnostics (f s).diagnostics
    rw [quiet]
    exact .refl _
  · exact fun _ => next

theorem report {d : Diagnostic} (harmless : d.kind.isFatal = false) : Records (Resolver.report d) :=
  fun _ => .concat _ harmless

theorem scope (path : String) (kind : ScopeKind) : Records (Resolver.scope path kind) :=
  fun _ => .refl _

theorem insert (scope : Nat) (e : Entry) : Records (Resolver.insert scope e) := by
  intro s
  refine .append _ fun d hd => ?_
  rw [Model.kind_insertReporting s.model scope e d hd]
  rfl

theorem each {f : α → Resolver Unit} (each : ∀ a, Records (f a)) (xs : List α) :
    Records (Resolver.each f xs) := by
  induction xs with
  | nil => exact .pure ()
  | cons x xs ih => exact (each x).bind fun _ => ih

/-- Behind the same beginning, one end may record what another one does and more. -/
theorem extend {x : Resolver α} {f g : α → Resolver β}
    (more : ∀ a t, Recorded (f a t).2.diagnostics (g a t).2.diagnostics) (s : State) :
    Recorded ((x >>= f) s).2.diagnostics ((x >>= g) s).2.diagnostics := by
  change Recorded (Resolver.bind x f s).2.diagnostics (Resolver.bind x g s).2.diagnostics
  unfold Resolver.bind
  rcases x s with ⟨_ | a, t⟩
  · exact .refl _
  · exact more a t

theorem each_append {f : α → Resolver Unit} (each : ∀ a, Records (f a)) (xs ys : List α)
    (s : State) :
    Recorded (Resolver.each f xs s).2.diagnostics (Resolver.each f (xs ++ ys) s).2.diagnostics := by
  induction xs generalizing s with
  | nil => exact Records.each each ys s
  | cons x xs ih => exact extend (fun _ => ih) s

end Records

/-! ### Names -/

theorem records_declareImplicitly (site : Site) (kind : NamedKind) (name : String) :
    Records (declareImplicitly site kind name) := by
  unfold declareImplicitly
  apply Records.get
  intro s
  refine (Records.scope _ _).bind fun id => (Records.insert id _).bind fun _ => ?_
  apply Records.modify
  · exact fun _ => rfl
  · exact .pure _

theorem records_look (site : Site) (kind : Option NamedKind) (p : PathExpr) :
    Records (look site kind p) := by
  unfold look
  split
  · exact .pure _
  · apply Records.get
    intro s
    dsimp only
    split
    · exact .pure _
    · split
      · exact .pure _
      · split
        · exact (records_declareImplicitly site _ _).done _
        · exact .fail site _

/-! ### Typedefs and template arguments -/

section Jumps

variable {jump : Jump} (hj : ∀ site ty, Records (jump site ty))

include hj

theorem records_resolveTypedef (site : Site) (name : String) (target : TypeExpr) :
    Records (resolveTypedef jump site name target) := by
  unfold resolveTypedef
  split
  · refine (hj _ target).bind fun t => ?_
    apply Records.get
    intro s
    dsimp only
    split
    · exact .fail site _
    · exact .modify (fun _ => rfl) (.pure t)
  · exact .fail site _

theorem records_terminalOf (site : Site) (name : String) (target : TypeExpr) :
    Records (terminalOf jump site name target) := by
  unfold terminalOf
  apply Records.get
  intro s
  split
  · exact .pure _
  · refine (records_resolveTypedef hj site name target).bind fun t => ?_
    apply Records.modify
    · exact fun _ => rfl
    · exact .pure _

theorem jumps_records : Jumps (fun _ x _ => Records x) jump jump Site.Alike (fun _ => True) where
  toSites := sites_alike
  pure a := .pure a
  bind first next := first.bind next
  target _ _ := hj _ _

/-! ### Instantiations -/

theorem records_resolvePattern (site : Site) (template : String) (i : Nat) (p : Pattern) :
    Records (resolvePattern jump site template i p) := by
  have progress (progress : Progress) : Records (setProgress template i progress) := by
    intro s
    exact .refl _
  unfold resolvePattern
  refine (progress _).bind fun _ => ?_
  have alike {site : Site} : site.Alike site := rfl
  refine ((jumps_records hj).jumpArgs alike p.args fun _ _ _ _ => trivial).bind fun written => ?_
  apply Records.get
  intro s
  dsimp only
  split
  · refine Records.bind ?_ fun filled => (progress _).done _
    exact (jumps_records hj).fillDefaults alike _ _ written fun _ _ _ _ _ _ => trivial
  · exact (Records.pure written).bind fun filled => (progress _).done _

theorem records_patternArgs (site : Site) (template : String) (i : Nat) :
    Records (patternArgs jump site template i) := by
  unfold patternArgs
  apply Records.get
  intro s
  split
  · exact .pure _
  · split
    · exact .pure _
    · exact .pure _
    · exact (records_resolvePattern hj site template i _).done _

theorem records_selectFrom (site : Site) (template : String) (actual : List ArgRef)
    (is : List Nat) (partialMatch : Option (List ArgRef)) :
    Records (selectFrom jump site template actual is partialMatch) := by
  induction is generalizing partialMatch with
  | nil => exact .pure partialMatch
  | cons i rest ih =>
    unfold selectFrom
    refine (records_patternArgs hj site template i).bind fun o => ?_
    split
    · exact ih partialMatch
    · dsimp only
      split
      · split
        · exact .pure _
        · exact ih partialMatch
      · split
        · exact ih _
        · exact ih partialMatch

theorem records_select (site : Site) (template : String) (args : List ArgRef) :
    Records (select jump site template args) := by
  unfold select
  apply Records.get
  intro s
  exact records_selectFrom hj site template _ _ none

/-! ### Types -/

/-- A resolution of a type is looked at beside itself. -/
theorem walk_records :
    Walk (fun _ x _ => Records x) jump jump Site.Alike (fun _ => True) (fun _ _ => True) where
  toJumps := jumps_records hj
  look _ _ next := (records_look _ _ _).bind fun found => next found (by cases found <;> trivial)
  ends _ _ := records_terminalOf hj _ _ _
  defaults _ _ _ _ _ _ _ := trivial
  select _ _ _ _ _ _ args := records_select hj _ _ args

theorem traversal_records :
    Traversal (fun _ x _ => Records x) jump jump Site.Alike (fun _ => True) :=
  (walk_records hj).traversal

end Jumps

/-! ### Declarations -/

section Declarations

variable {jump : Jump} (hj : ∀ site ty, Records (jump site ty))

include hj

theorem records_resolveSpecialization (site inner : Site)
    (s : SpecializationDecl TypeExpr ArgExpr PathExpr) :
    Records (resolveSpecialization jump site s inner) := by
  have h := traversal_records hj
  unfold resolveSpecialization
  apply Records.get
  intro u
  have rest {template : String} {orphaned : Bool} : Records (do
      let params ← resolveTemplateParams jump (site.withParams s.params) s.params
      let args ← resolveArgs jump (site.withParams s.params) s.args
      let record ← resolveRecord jump inner s.record
      return (⟨template, params, args, record, orphaned⟩ :
        SpecializationDecl TypeRef ArgRef String)) := by
    refine (h.resolveTemplateParams rfl s.params fun _ _ _ _ => trivial).bind fun ps => ?_
    refine (h.resolveArgs rfl s.args fun _ _ _ _ => trivial).bind fun args => ?_
    exact (h.resolveRecord rfl s.record fun _ _ => trivial).done _
  dsimp only
  split
  · exact (Records.report rfl).bind fun _ => rest
  · exact rest

theorem records_resolveDecl (site : Site) (d : ParsedDecl) : Records (resolveDecl jump site d) := by
  refine (traversal_records hj).resolveDecl rfl d (fun _ _ _ _ => trivial) ?_ ?_
  · exact fun t name _ => records_resolveTypedef hj site name t.ty
  · exact fun s inner _ _ _ _ => records_resolveSpecialization hj site inner s

theorem records_resolveVisit (maxDepth : Nat) (w : Visit) :
    Records (resolveVisit jump maxDepth w) := by
  cases w with
  | scope path kind => exact (Records.scope path kind).done _
  | decl d origin view =>
    refine (records_resolveDecl hj _ d).bind fun d' => ?_
    exact (Records.scope _ _).bind fun id => .insert id _

end Declarations

theorem records_jumpWithin (bound : Nat) (site : Site) (ty : TypeExpr) :
    Records (jumpWithin bound site ty) := by
  induction bound generalizing site ty with
  | zero => exact .fail site _
  | succ bound ih => exact (traversal_records ih).resolveType rfl ty fun _ _ => trivial

/-! ### Files -/

/-- The resolution of a file that goes only through some of its visits. -/
def resolveSome (items : List Item) (constants : List MacroConstant) (config : Config)
    (visits : List Visit) : Except FatalError Unit × State :=
  let registry := Registry.ofVisits (visitAll {} items)
  let work : Resolver Unit := do
    Resolver.each addConstant constants
    Resolver.each (resolveVisit (jumpWithin registry.depthBound) config.maxTypedefDepth) visits
  work { registry }

section Files

/-- With the constants in the model, the visits are all that is left to do. -/
theorem resolveSome_of_added {items : List Item} {constants : List MacroConstant} {s : State}
    (added : Resolver.each addConstant constants
      { registry := Registry.ofVisits (visitAll {} items) } = (.ok (), s))
    (config : Config) (visits : List Visit) :
    resolveSome items constants config visits =
      Resolver.each (resolveVisit (jumpWithin (Registry.ofVisits (visitAll {} items)).depthBound)
        config.maxTypedefDepth) visits s := by
  change Resolver.bind _ _ _ = _
  unfold Resolver.bind
  rw [added]

variable (items : List Item) (constants : List MacroConstant) (config : Config)

theorem resolve_result : (resolve items constants config).1 =
    (resolveSome items constants config (visitAll {} items)).1.map
      fun _ => (resolveSome items constants config (visitAll {} items)).2.model := rfl

theorem resolve_diagnostics : (resolve items constants config).2 =
    (resolveSome items constants config (visitAll {} items)).2.diagnostics := rfl

/-- What is reported in the first visits stays ahead, whatever comes of the others. -/
theorem reported_resolveSome (first rest : List Visit) :
    Recorded (resolveSome items constants config first).2.diagnostics
      (resolveSome items constants config (first ++ rest)).2.diagnostics :=
  Records.extend (fun _ => Records.each_append (records_resolveVisit (records_jumpWithin _) _)
    first rest) _

theorem harmless_resolve :
    ∀ d ∈ (resolve items constants config).2, d.kind.isFatal = false := by
  rw [resolve_diagnostics]
  refine Recorded.harmless (Records.bind ?_ (fun _ => ?_) _)
  · exact .each (fun c => .insert _ _) constants
  · exact .each (records_resolveVisit (records_jumpWithin _) _) _

end Files

end Resolution

end HeaderDecl
