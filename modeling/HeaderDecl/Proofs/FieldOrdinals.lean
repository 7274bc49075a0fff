import HeaderDecl.Proofs.FatalErrors
import HeaderDecl.Proofs.NumberedUnits
import HeaderDecl.Proofs.PlainText
import HeaderDecl.Proofs.ResolvedLayouts

/-!
Field ordinals. In every record of a unit, and of the models that are extracted, the ordinal of a field is
its place, and a record of a model is laid out as the record it was resolved from.
-/

namespace HeaderDecl

open HeaderDecl.Resolution

/-! ### Entries -/

/-- Whether a declaration of a model came of some items. If it is not implied, it was resolved from a
declaration among them, and all records in it are laid out as the records that they were resolved from. -/
inductive Entry.LaidOutFrom (items : List Item) (e : Entry) : Prop
  | implied (h : Implied e) (fieldless : ∀ r, e.Contains r → r.fields = []) : LaidOutFrom items e
  | declared {d : ParsedDecl} {view : View} (visited : .decl d e.origin view ∈ visitAll {} items)
      (name : e.decl.name = d.name)
      (own : Option.Rel (fun r r' => RecordResolvesTo r r' ∧ r'.LaidOutAs r) d.record? e.decl.record?)
      (within : ∀ t ∈ e.decl.types, t.Each fun r' =>
        ∃ r, r.StandsIn items ∧ RecordResolvesTo r r' ∧ r'.LaidOutAs r) : LaidOutFrom items e

namespace Resolution

theorem fieldless_of_implied {e : Entry} (h : Implied e) {r : ResolvedRecord} (contains : e.Contains r) :
    r.fields = [] := by
  obtain ⟨decl, origin⟩ := e
  rcases h with ⟨c, rfl⟩ | ⟨kind, name, rfl⟩
  · rcases contains with own | ⟨t, ht, -⟩
    · cases own
    · cases ht
  · -- A record that is declared forward has nothing in it, and neither has an enum.
    unfold forwardDecl at contains
    split at contains
    · rcases contains with own | ⟨t, ht, -⟩
      · cases own
        rfl
      · cases ht
    · rcases contains with own | ⟨t, ht, within⟩
      · cases own
      · cases List.mem_singleton.mp ht
        cases TypeRef.each_primitive (Q := fun _ => False) r within

/-- All that a model has is implied, or comes of the items that were resolved. -/
theorem laidOutFrom_resolve {items : List Item} {constants : List MacroConstant} {config : Config}
    {m : Model} {ds : List Diagnostic} (resolved : resolve items constants config = (.ok m, ds))
    {s : Scope} (hs : s ∈ m.scopes) {e : Entry} (he : e ∈ s.entries) : e.LaidOutFrom items := by
  obtain ⟨u, whole, rfl⟩ := exists_whole resolved
  obtain ⟨log, logged⟩ := exists_logged (List.append_nil _).symm whole
  obtain ⟨x, hx, rfl⟩ := logged.sound.history.tracks.mem_of_entry hs he
  rcases logged.forms x hx with implied | ⟨d, origin, view, d', resolves, -, entry⟩
  · exact .implied implied fun r contains => fieldless_of_implied implied contains
  · rw [entry]
    obtain ⟨own, within⟩ := resolves.forms
    obtain ⟨before, behind, _, _, split, -, run⟩ := resolves
    have visited : .decl d origin view ∈ visitAll {} items := by simp [split]
    have both {a : Option ParsedRecord} {b : Option ResolvedRecord} (own : Option.Rel RecordResolvesTo a b) :
        Option.Rel (fun r r' => RecordResolvesTo r r' ∧ r'.LaidOutAs r) a b := by
      cases own with
      | none => exact .none
      | some form => exact .some ⟨form, form.laidOutAs⟩
    refine .declared visited (resolveDecl_name _ d _ d' _ run) (both own) fun t ht r' inside => ?_
    obtain ⟨r, stands, form⟩ := within t ht r' inside
    exact ⟨r, stands, form, form.laidOutAs⟩

end Resolution

section Entries

variable {items : List Item} {e : Entry} {r' : ResolvedRecord}

theorem Entry.LaidOutFrom.record (h : e.LaidOutFrom items) (contains : e.Contains r') :
    r'.fields = [] ∨ ∃ r, r.StandsIn items ∧ RecordResolvesTo r r' ∧ r'.LaidOutAs r := by
  cases h with
  | implied _ fieldless => exact .inl (fieldless r' contains)
  | @declared d view visited name own within =>
    rcases contains with same | ⟨t, ht, inside⟩
    · rw [same] at own
      cases written : d.record? with
      | none =>
        rw [written] at own
        cases own
      | some r =>
        rw [written] at own
        cases own with
        | some form => exact .inr ⟨r, contains_of_mem_visitAll (.inl written) items visited, form⟩
    · exact .inr (within t ht r' inside)

/-- A record that comes of numbered records is numbered. -/
theorem Entry.LaidOutFrom.numbered (h : e.LaidOutFrom items) (all : ∀ i ∈ items, i.Numbered) :
    ∀ r', e.Contains r' → r'.Numbered := by
  intro r' contains
  rcases h.record contains with fieldless | ⟨r, ⟨i, hi, stands⟩, -, laidOut⟩
  · exact RecordDecl.numbered_iff.mpr (fieldless ▸ Field.numberedFrom_nil)
  · exact laidOut.numbered (all i hi r stands)

end Entries

/-! ### Models -/

section Models

variable {sources : SourceMap} {config : Config}

/-- The model of a file comes of the items of the file. -/
theorem exists_unit {path : String} {m : Model}
    (extracted : (extractFile sources path config).model = some m) :
    ∃ p ds, preprocess sources path config = (.ok p, ds) ∧
      ∀ s ∈ m.scopes, ∀ e ∈ s.entries, e.LaidOutFrom (parseUnit p.tokens).1 := by
  rcases before : preprocess sources path config with ⟨e | p, ds⟩
  · rw [extractFile, resolveFile_error before] at extracted
    cases extracted
  · refine ⟨p, ds, rfl, fun s hs e he => ?_⟩
    rw [extractFile, resolveFile_ok before] at extracted
    rcases resolved : resolve (parseUnit p.tokens).1 p.constants config with ⟨_ | m', ds'⟩
    · rw [resolved] at extracted
      cases extracted
    · rw [resolved] at extracted
      cases extracted
      exact laidOutFrom_resolve resolved hs he

theorem hasHistoryOf_add {G : Entry → Prop} {x : Extraction} (before : x.model.HasHistoryOf G)
    {o : FileOutcome} (h : ∀ m, o.model = some m → ∀ s ∈ m.scopes, ∀ e ∈ s.entries, G e) :
    (x.add o).model.HasHistoryOf G := by
  unfold Extraction.add
  split
  · exact before
  · rename_i m extracted
    exact before.merge (h m extracted)

/-- Files that are merged bring what was in their models. -/
theorem hasHistoryOf_ofPaths {G : Entry → Prop} {paths : List String}
    (h : ∀ path ∈ paths, ∀ m, (extractFile sources path config).model = some m →
      ∀ s ∈ m.scopes, ∀ e ∈ s.entries, G e) :
    (Extraction.ofPaths sources config paths).model.HasHistoryOf G := by
  have grows (x : Extraction) (before : x.model.HasHistoryOf G) :
      (paths.foldl (fun x path => x.add (extractFile sources path config)) x).model.HasHistoryOf G := by
    induction paths generalizing x with
    | nil => exact before
    | cons path paths ih =>
      apply ih fun p hp => h p (List.mem_cons_of_mem _ hp)
      exact hasHistoryOf_add before (h path List.mem_cons_self)
  exact grows .empty (Model.hasHistoryOf_empty G)

end Models

/-- Whether a declaration of a model came of the unit of a file, with all its records laid out as there, and
their fields numbered. -/
def Entry.LaidOutIn (sources : SourceMap) (config : Config) (path : String) (e : Entry) : Prop :=
  ∃ p ds, preprocess sources path config = (.ok p, ds) ∧ e.LaidOutFrom (parseUnit p.tokens).1 ∧
    ∀ r', e.Contains r' → r'.Numbered

/-- In any record of a unit, and of a model that is extracted from a file, from all files or from those that
were started, the field at a place has it as its ordinal. A record of a model has the fields of the record
of a unit that it was resolved from, in their order, each under its name and with its bit width, access and
storage; what a declaration is about was resolved from what the written declaration is about. -/
theorem fields_numbered (sources : SourceMap) (config : Config) :
    (∀ tokens (r : ParsedRecord), r.StandsIn (parseUnit tokens).1 → r.Numbered) ∧
    (∀ path m, (extractFile sources path config).model = some m →
      ∀ s ∈ m.scopes, ∀ e ∈ s.entries, e.LaidOutIn sources config path) ∧
    (∀ started, ∀ s ∈ (Extraction.ofPaths sources config started).model.scopes, ∀ e ∈ s.entries,
      ∃ path ∈ started, e.LaidOutIn sources config path) ∧
    ∀ cancelled, ∀ s ∈ (extract sources config cancelled).model.scopes, ∀ e ∈ s.entries,
      ∃ path ∈ sources.paths, e.LaidOutIn sources config path := by
  have units (path : String) (m : Model) (extracted : (extractFile sources path config).model = some m) :
      ∀ s ∈ m.scopes, ∀ e ∈ s.entries, e.LaidOutIn sources config path := by
    obtain ⟨p, ds, before, laidOut⟩ := exists_unit extracted
    intro s hs e he
    have here := laidOut s hs e he
    exact ⟨p, ds, before, here, here.numbered (numbered_of_mem_parseUnit p.tokens)⟩
  have merged (started : List String) :
      ∀ s ∈ (Extraction.ofPaths sources config started).model.scopes, ∀ e ∈ s.entries,
        ∃ path ∈ started, e.LaidOutIn sources config path := by
    apply Model.HasHistoryOf.entries
    apply hasHistoryOf_ofPaths
    exact fun path hpath m extracted s hs e he => ⟨path, hpath, units path m extracted s hs e he⟩
  refine ⟨?_, units, merged, ?_⟩
  · exact fun tokens r ⟨i, hi, stands⟩ => numbered_of_mem_parseUnit tokens i hi r stands
  intro cancelled
  cases cancelled with
  | false => exact merged sources.paths
  | true =>
    -- Where no file was started, there is nothing but the global scope.
    intro s hs e he
    obtain ⟨path, none, -⟩ := merged [] s hs e he
    cases none

/-- A struct with a bit field, a union that bears no name and a static field. -/
def layoutHeader : String :=
  "struct S \x7b int a : 3, b; union \x7b char c, d; \x7d in; static int e; \x7d;"

/-- The union of the struct, whose fields are numbered anew. -/
def layoutUnion : ResolvedRecord :=
  ⟨none, .union, [⟨some "c", .primitive .char, none, .pub, 0, false⟩,
    ⟨some "d", .primitive .char, none, .pub, 1, false⟩], [], [], true, false⟩

def layoutStruct : ResolvedRecord :=
  ⟨some "S", .struct, [⟨some "a", .primitive .int, some (.int 3), .pub, 0, false⟩,
    ⟨some "b", .primitive .int, none, .pub, 1, false⟩,
    ⟨some "in", .anonymousRecord layoutUnion, none, .pub, 2, false⟩,
    ⟨some "e", .primitive .int, none, .pub, 3, true⟩], [], [], true, false⟩

theorem fields_numbered_layout : ∃ m s e,
    (extractFile (headerFile layoutHeader) "a.h" {}).model = some m ∧ s ∈ m.scopes ∧ e ∈ s.entries ∧
    e.decl = .record layoutStruct ∧ e.Contains layoutUnion ∧
    e.LaidOutIn (headerFile layoutHeader) {} "a.h" := by
  have extracted : (extractFile (headerFile layoutHeader) "a.h" {}).model = headerModel layoutHeader :=
    extractFile_header (by decide +kernel) (by decide +kernel) (by decide +kernel) (by decide +kernel)
  have known : ((headerModel layoutHeader).bind fun m => m.entry? ⟨0, 0⟩).map (·.decl) =
      some (.record layoutStruct) := by
    decide +kernel
  obtain ⟨e, found, struct⟩ := Option.map_eq_some_iff.mp known
  obtain ⟨m, model, found⟩ := Option.bind_eq_some_iff.mp found
  obtain ⟨s, hs, he⟩ := Model.entry?_eq_some.mp found
  have scope := List.mem_of_getElem? hs
  have entry := List.mem_of_getElem? he
  have union : e.Contains layoutUnion := by
    refine .inr ⟨.anonymousRecord layoutUnion, ?_, .here⟩
    rw [struct]
    exact List.mem_append_left _ (List.mem_cons_of_mem _ (List.mem_cons_of_mem _ List.mem_cons_self))
  refine ⟨m, s, e, extracted.trans model, scope, entry, struct, union, ?_⟩
  exact (fields_numbered (headerFile layoutHeader) {}).2.1 "a.h" m (extracted.trans model) s scope e entry

end HeaderDecl
