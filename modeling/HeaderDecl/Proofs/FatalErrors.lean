import HeaderDecl.Extraction
import HeaderDecl.Proofs.OpenFiles
import HeaderDecl.Proofs.ResolutionReports

/-!
Fatal errors among the diagnostics. A file is dropped if and only if one of its diagnostics records a
fatal error. There is then one such record, and it stands behind everything that was reported before.
-/

namespace HeaderDecl

namespace Preprocess

/-! ### Preprocessing -/

variable {e : Setting} {m m' : Moment}

/-- A step takes back no report and reports no fatal error. -/
theorem Moment.reported_next (h : m.next e = some m') :
    Recorded m.state.diagnostics.toList m'.state.diagnostics.toList := by
  -- The file ends, or its next line includes a header or is processed by itself.
  obtain ⟨f, around, s, rfl, ⟨-, rfl⟩ | ⟨l, ls, -, ⟨path, text, -, rfl⟩ | ⟨-, rfl⟩⟩⟩ := next_cases h
  · have quiet := (quietly_reportOpen (lex f.path f.text) s).reported
    rw [state_ofOutcome, close, outcome_bind]
    rcases reported : outcome (reportOpen (lex f.path f.text)) s with ⟨_ | _, t⟩
    · rwa [reported] at quiet
    · rwa [reported] at quiet
  · rcases state_call e path text ({ f with rest := ls } :: around) s with same | ⟨-, entered⟩
    · rw [same]
      exact .refl _
    · rw [entered]
      exact .refl _
  · rw [state_ofOutcome]
    exact (advancing_processLine e f.path l s).reported

theorem reported_of_reaches (h : Reaches e m m') :
    Recorded m.state.diagnostics.toList m'.state.diagnostics.toList := by
  induction h with
  | refl => exact .refl _
  | tail _ step ih => exact ih.trans (Moment.reported_next step)

theorem Moment.diagnostics_start (e : Setting) (main : String) :
    (start e main).state.diagnostics = #[] := by
  unfold start
  split
  · rename_i path text _
    rcases state_call e path text [] (.initial e.config) with same | ⟨-, entered⟩
    · rw [same]
      rfl
    · rw [entered]
      rfl
  · rfl

/-- A run gives what has been reported at its last moment. -/
theorem Moment.diagnostics_result {main : String} (h : Reaches e (start e main) m) :
    (m.result e main).2 = m.state.diagnostics.toList := by
  rcases entry : e.sources.entry? main with _ | ⟨path, text⟩
  · -- Nothing happens without a main file.
    have idle : start e main = reading [] (.initial e.config) := by
      unfold start
      rw [entry]
    have same : m = start e main := by
      rw [idle] at h ⊢
      rcases h.cases_head with same | ⟨m', step, -⟩
      · exact same.symm
      · cases step
    rw [same, diagnostics_start]
    unfold result
    rw [entry]
  · unfold result
    rw [entry]
    cases m with
    | reading files s => rfl
    | failed err s => rfl

/-- At every moment of a run, what has been reported is the beginning of what will be. -/
theorem reported_run {main : String} (h : Reaches e (.start e main) m) :
    Recorded m.state.diagnostics.toList (run e main).2 := by
  obtain ⟨last, reached, ended, result⟩ := reaches_result e main
  rw [result, Moment.diagnostics_result reached]
  exact reported_of_reaches (h.last reached ended)

theorem harmless_run (e : Setting) (main : String) :
    ∀ d ∈ (run e main).2, d.kind.isFatal = false := by
  have all : Recorded (Moment.start e main).state.diagnostics.toList (run e main).2 :=
    reported_run .refl
  rw [Moment.diagnostics_start] at all
  exact all.harmless

end Preprocess

/-- No report of the parser drops a file. -/
theorem Grammar.Report.isFatal_toDiagnostic (r : Grammar.Report) :
    r.toDiagnostic.kind.isFatal = false := by
  obtain ⟨_ | _ | _, _, _⟩ := r <;> rfl

/-! ### Files -/

section Files

variable (sources : SourceMap) (path : String) (config : Config)

/-- The error that drops a file, with the diagnostics of the stages up to it. -/
inductive DroppedBy (e : FatalError) : List Diagnostic → Prop
  | preprocessing {ds : List Diagnostic} (h : preprocess sources path config = (.error e, ds)) :
      DroppedBy e ds
  | resolution {p : Preprocessed} {ds ds' : List Diagnostic}
      (before : preprocess sources path config = (.ok p, ds))
      (h : resolve (parseUnit p.tokens).1 p.constants config = (.error e, ds')) :
      DroppedBy e (ds ++ (parseUnit p.tokens).2.map Grammar.Report.toDiagnostic ++ ds')

open Preprocess Resolution in
/-- What has been reported at some point of the work on a file: at a moment of preprocessing, or when
the resolution has come through the first visits. -/
inductive ReportedSoFar : List Diagnostic → Prop
  | preprocessing {m : Moment} (h : Reaches { sources, config } (.start { sources, config } path) m) :
      ReportedSoFar m.state.diagnostics.toList
  | resolution {p : Preprocessed} {ds : List Diagnostic} {first rest : List Visit}
      (before : preprocess sources path config = (.ok p, ds))
      (visits : visitAll {} (parseUnit p.tokens).1 = first ++ rest) :
      ReportedSoFar (ds ++ (parseUnit p.tokens).2.map Grammar.Report.toDiagnostic ++
        (resolveSome (parseUnit p.tokens).1 p.constants config first).2.diagnostics)

variable {sources path config}

theorem resolveFile_error {e : FatalError} {ds : List Diagnostic}
    (before : preprocess sources path config = (.error e, ds)) :
    resolveFile sources path config = (.error e, ds) := by
  unfold resolveFile
  rw [before]

theorem resolveFile_ok {p : Preprocessed} {ds : List Diagnostic}
    (before : preprocess sources path config = (.ok p, ds)) :
    resolveFile sources path config = ((resolve (parseUnit p.tokens).1 p.constants config).1,
      ds ++ (parseUnit p.tokens).2.map Grammar.Report.toDiagnostic ++
        (resolve (parseUnit p.tokens).1 p.constants config).2) := by
  unfold resolveFile
  rw [before]

theorem droppedBy_of_error {e : FatalError} {ds : List Diagnostic}
    (h : resolveFile sources path config = (.error e, ds)) : DroppedBy sources path config e ds := by
  rcases before : preprocess sources path config with ⟨e' | p, ds'⟩
  · rw [resolveFile_error before] at h
    cases h
    exact .preprocessing before
  · rw [resolveFile_ok before] at h
    obtain ⟨failed, rfl⟩ := Prod.mk.injEq .. ▸ h
    exact .resolution before (Prod.ext failed rfl)

/-- None of the stages reports a fatal error. -/
theorem harmless_resolveFile (sources : SourceMap) (path : String) (config : Config) :
    ∀ d ∈ (resolveFile sources path config).2, d.kind.isFatal = false := by
  have preprocessed : ∀ d ∈ (preprocess sources path config).2, d.kind.isFatal = false :=
    Preprocess.harmless_run { sources, config } path
  rcases before : preprocess sources path config with ⟨e | p, ds⟩
  · rw [before] at preprocessed
    rw [resolveFile_error before]
    exact preprocessed
  · rw [before] at preprocessed
    rw [resolveFile_ok before]
    intro d hd
    simp only [List.mem_append, List.mem_map] at hd
    rcases hd with (hd | ⟨r, -, rfl⟩) | hd
    · exact preprocessed d hd
    · exact r.isFatal_toDiagnostic
    · exact Resolution.harmless_resolve _ _ _ d hd

/-- What has been reported is not taken back, and later stages report behind it. -/
theorem ReportedSoFar.isPrefix {ds : List Diagnostic} (h : ReportedSoFar sources path config ds) :
    ds <+: (resolveFile sources path config).2 := by
  cases h with
  | preprocessing h =>
    have begins : _ <+: (preprocess sources path config).2 := (Preprocess.reported_run h).isPrefix
    rcases before : preprocess sources path config with ⟨e | p, ds⟩
    · rw [before] at begins
      rw [resolveFile_error before]
      exact begins
    · -- The parser and the resolver report behind the preprocessor.
      rw [before] at begins
      rw [resolveFile_ok before, List.append_assoc]
      exact begins.trans (List.prefix_append _ _)
  | @resolution p ds first rest before visits =>
    have begins := (Resolution.reported_resolveSome (parseUnit p.tokens).1 p.constants config first
      rest).isPrefix
    rw [← visits, ← Resolution.resolve_diagnostics] at begins
    rw [resolveFile_ok before]
    exact (List.prefix_append_right_inj _).mpr begins

end Files

/-! ### Extractions -/

namespace Extraction

/-- The models of the files that are left, merged in order. -/
def mergedModel (files : List FileOutcome) : Model :=
  (files.filterMap (·.model)).foldl (fun m other => (m.merge other).1) .empty

/-- The conflicts of a file with those before it. -/
def mergeConflicts (before : List FileOutcome) (o : FileOutcome) : List Diagnostic :=
  match o.model with
  | none => []
  | some m => ((mergedModel before).merge m).2

/-- What a file adds behind others. -/
theorem add_merged (before : List FileOutcome) (ds : List Diagnostic) (o : FileOutcome) :
    add ⟨mergedModel before, ds, []⟩ o =
      ⟨mergedModel (before ++ [o]), ds ++ o.diagnostics ++ mergeConflicts before o, []⟩ := by
  unfold add mergeConflicts mergedModel
  rw [List.filterMap_append, List.foldl_append]
  rcases hm : o.model with _ | m
  · simp [hm]
  · simp [hm]

theorem foldl_add (before files : List FileOutcome) (ds : List Diagnostic) :
    files.foldl add ⟨mergedModel before, ds, []⟩ =
      ⟨mergedModel (before ++ files),
        ds ++ ((files.inits.map (before ++ ·)).zip files).flatMap
          fun (earlier, o) => o.diagnostics ++ mergeConflicts earlier o, []⟩ := by
  induction files generalizing before ds with
  | nil => simp
  | cons o files ih =>
    rw [List.foldl_cons, add_merged, ih]
    simp [Function.comp_def]

end Extraction

/-- A header with an error of its own, which includes another one whose comment is never closed. -/
def unclosedHeader : SourceMap :=
  .ofList [("main.h", "#error unsupported\n#include \"b.h\"\n"), ("b.h", "/*")]

end HeaderDecl
