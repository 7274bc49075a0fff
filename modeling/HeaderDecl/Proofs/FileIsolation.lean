import HeaderDecl.Extraction
import HeaderDecl.Proofs.StoredTexts
import HeaderDecl.Proofs.OpenFiles

/-!
The texts that an extraction depends on. What comes of a file is decided by the paths of the sources and
by the texts of the files that are processed for it. No other text makes a difference.
-/

namespace HeaderDecl

/-! ### Sources with the same paths -/

namespace SourceMap

variable {m m' : SourceMap}

theorem isSome_stored_of_paths (paths : m.paths = m'.paths) (path : String) :
    (m.stored? path).isSome = (m'.stored? path).isSome := by
  rw [Bool.eq_iff_iff, isSome_stored, isSome_stored, paths]

/-- Sources with the same paths find the same file, whatever its text is. -/
theorem entry?_path (paths : m.paths = m'.paths) (path : String) :
    (m.entry? path).map (·.1) = (m'.entry? path).map (·.1) := by
  have here := isSome_stored_of_paths paths path
  have normal := isSome_stored_of_paths paths (FilePath.normalize path)
  unfold entry?
  -- A path is looked for as it is first, and then normalized: both find something alike.
  cases hm : m.stored? path with
  | some text =>
    obtain ⟨text', hm'⟩ := Option.isSome_iff_exists.mp (here.symm.trans (congrArg Option.isSome hm))
    rw [hm']
    rfl
  | none =>
    have hm' : m'.stored? path = none := by
      rw [← Option.not_isSome_iff_eq_none, ← here, hm]
      simp
    rw [hm']
    cases hn : m.stored? (FilePath.normalize path) <;>
      cases hn' : m'.stored? (FilePath.normalize path) <;> simp_all

end SourceMap

namespace Preprocess

/-! ### The files of a run -/

namespace Moment

/-- The file that the next line has processed. -/
def processed? (e : Setting) : Moment → Option String
  | reading (f :: _) s =>
    ((f.rest.head?.bind (includedBy e s f.path)).map (·.1)).filter fun path => !s.skips e path
  | _ => none

theorem processes_iff {e : Setting} {m : Moment} {path : String} :
    m.Processes e path ↔ m.processed? e = some path := by
  match m with
  | failed _ _ => simp [Processes, processed?]
  | reading [] _ => simp [Processes, processed?]
  | reading (f :: around) s =>
    constructor
    · rintro ⟨l, ls, text, line, included, fresh⟩
      simp [processed?, line, included, fresh]
    · intro h
      obtain ⟨found, fresh⟩ := Option.filter_eq_some_iff.mp h
      obtain ⟨⟨path', text⟩, included, rfl⟩ := Option.map_eq_some_iff.mp found
      obtain ⟨l, first, included⟩ := Option.bind_eq_some_iff.mp included
      obtain ⟨ls, line⟩ := List.head?_eq_some_iff.mp first
      exact ⟨l, ls, text, line, included, by simpa using fresh⟩

end Moment

/-- Whether a run processes a file: it is the main one, or a line includes it and it is not passed
over. -/
def Processed (e : Setting) (main path : String) : Prop :=
  (∃ text, e.sources.entry? main = some (path, text)) ∨
    ∃ m, Reaches e (.start e main) m ∧ m.Processes e path

/-- The moment that is reached in a number of steps, unless the run is over before. -/
def Moment.after (e : Setting) : Nat → Moment → Option Moment
  | 0, m => some m
  | n + 1, m => (m.next e).bind (after e n)

theorem Moment.after_of_over {e : Setting} {n k : Nat} {m : Moment} (ends : m.after e n = none)
    (le : n ≤ k) : m.after e k = none := by
  induction n generalizing k m with
  | zero => cases ends
  | succ n ih =>
    obtain ⟨k, rfl⟩ : ∃ j, k = j + 1 := Nat.exists_eq_add_one_of_ne_zero (by omega)
    unfold after at ends ⊢
    cases step : m.next e with
    | none => rfl
    | some m' =>
      rw [step] at ends
      exact ih ends (by omega)

/-- All moments of a run are reached before it is over. -/
theorem exists_after {e : Setting} {m m' : Moment} (h : Reaches e m m') {n : Nat}
    (ends : m.after e n = none) : ∃ k < n, m.after e k = some m' := by
  obtain ⟨k, reached⟩ : ∃ k, m.after e k = some m' := by
    clear ends
    induction h using Relation.ReflTransGen.head_induction_on with
    | refl => exact ⟨0, rfl⟩
    | head step _ ih =>
      obtain ⟨k, reached⟩ := ih
      refine ⟨k + 1, ?_⟩
      unfold Moment.after
      rw [step]
      exact reached
  refine ⟨k, Nat.lt_of_not_le fun le => ?_, reached⟩
  rw [Moment.after_of_over ends le] at reached
  cases reached

/-! ### Steps over other texts -/

/-- A setting with other sources. -/
def Setting.over (e : Setting) (sources : SourceMap) : Setting := { e with sources }

section Steps

variable {e : Setting} {sources : SourceMap} (paths : e.sources.paths = sources.paths)

include paths

theorem condition_over (hash : Token) (rest : List Token) :
    condition (e.over sources) hash rest = condition e hash rest := by
  have isHeader : (fun target => (sources.entry? (FilePath.normalize target)).isSome) =
      fun target => (e.sources.entry? (FilePath.normalize target)).isSome := by
    funext target
    have same := congrArg Option.isSome (SourceMap.entry?_path paths (FilePath.normalize target))
    simpa using same.symm
  unfold condition
  simp only [Setting.over, isHeader]
  rfl

/-- A line whose header is not read asks for no text. -/
theorem processLine_over (current : String) (l : Line) :
    processLine (e.over sources) readNothing current l = processLine e readNothing current l := by
  have header (hash : Token) (rest : List Token) :
      includeHeader (e.over sources) readNothing current hash rest =
        includeHeader e readNothing current hash rest := by
    cases rest with
    | nil => rfl
    | cons t ts =>
      unfold includeHeader
      dsimp only
      split
      · refine bind_congr fun s => ?_
        show ite (e.config.maxIncludeDepth ≤ _) _ _ = _
        split
        · rfl
        · -- Whether or not a header is found, nothing is read.
          cases (e.over sources).findInclude current (Literal.string t.text) <;>
            cases e.findInclude current (Literal.string t.text) <;> rfl
      · rfl
  -- No other directive knows of the sources.
  have live (hash name : Token) (rest : List Token) :
      liveDirective (e.over sources) readNothing current hash name rest =
        liveDirective e readNothing current hash name rest := by
    unfold liveDirective
    rw [header]
    rfl
  cases l with
  | text tokens => rfl
  | directive hash line =>
    unfold processLine directive elseIf
    simp only [live, condition_over paths]

theorem findInclude_over (current target : String) :
    ((e.over sources).findInclude current target).map (·.1) =
      (e.findInclude current target).map (·.1) := by
  unfold Setting.findInclude
  rw [Option.map_or, Option.map_or]
  exact (congrArg₂ Option.or (SourceMap.entry?_path paths _) (SourceMap.entry?_path paths _)).symm

/-- A line includes the same file, if it includes one. -/
theorem includedBy_over (s : State) (current : String) (l : Line) :
    (includedBy (e.over sources) s current l).map (·.1) = (includedBy e s current l).map (·.1) := by
  match l with
  | .text _ => rfl
  | .directive _ [] => rfl
  | .directive _ [name] =>
    unfold includedBy targetOf
    rfl
  | .directive _ (name :: target :: _) =>
    have limit : (e.over sources).config = e.config := rfl
    simp only [includedBy, targetOf, limit]
    split
    · split
      · exact findInclude_over paths current _
      · rfl
    · rfl

omit paths in
theorem Moment.call_over {path text text' : String} {around : List OpenFile} {s : State}
    (same : s.skips e path = false → text' = text) :
    call (e.over sources) path text' around s = call e path text around s := by
  have skips : s.skips (e.over sources) path = s.skips e path := rfl
  unfold call
  rw [skips]
  split
  · rfl
  · rename_i fresh
    rw [same (by simpa using fresh)]

/-- If the text of the file that is processed next is the same, then so is the next moment. -/
theorem Moment.next_over {m : Moment}
    (agree : ∀ path, m.Processes e path → sources.stored? path = e.sources.stored? path) :
    m.next (e.over sources) = m.next e := by
  match m with
  | failed _ _ => rfl
  | reading [] _ => rfl
  | reading (f :: around) s =>
    simp only [next]
    split
    · rfl
    · rename_i l ls line
      have file := includedBy_over paths s f.path l
      cases included : includedBy e s f.path l with
      | none =>
        rw [included, Option.map_none, Option.map_eq_none_iff] at file
        simp only [file, processLine_over paths]
      | some found =>
        obtain ⟨path, text⟩ := found
        rw [included] at file
        obtain ⟨⟨path', text'⟩, included', same⟩ := Option.map_eq_some_iff.mp file
        obtain rfl : path' = path := same
        simp only [included']
        refine congrArg some (call_over fun fresh => ?_)
        -- It is read, so its text is one of those that are the same.
        have stored : e.sources.stored? path' = some text := stored_of_includedBy included
        have stored' : sources.stored? path' = some text' := stored_of_includedBy included'
        have equal := agree path' ⟨l, ls, text, line, included, fresh⟩
        rw [stored, stored'] at equal
        exact Option.some.inj equal

end Steps

/-! ### Runs over other texts -/

section Runs

variable {e : Setting} {main : String} {sources : SourceMap} (paths : e.sources.paths = sources.paths)
  (agree : ∀ path, Processed e main path → sources.stored? path = e.sources.stored? path)

include paths agree

theorem entry?_over : sources.entry? main = e.sources.entry? main := by
  have file := SourceMap.entry?_path paths main
  cases found : e.sources.entry? main with
  | none =>
    rw [found] at file
    exact Option.map_eq_none_iff.mp file.symm
  | some entry =>
    obtain ⟨path, text⟩ := entry
    rw [found] at file
    obtain ⟨⟨path', text'⟩, found', same⟩ := Option.map_eq_some_iff.mp file.symm
    obtain rfl : path' = path := same
    have equal := agree path' (.inl ⟨text, found⟩)
    rw [stored_of_entry found, stored_of_entry found'] at equal
    rw [found', Option.some.inj equal]

theorem Moment.start_over : start (e.over sources) main = start e main := by
  have entry := entry?_over paths agree
  unfold start
  simp only [Setting.over, entry]
  split
  · exact call_over fun _ => rfl
  · rfl

/-- Both runs go through the same moments. -/
theorem reaches_over {m : Moment} (h : Reaches e (.start e main) m) :
    Reaches (e.over sources) (.start (e.over sources) main) m := by
  rw [Moment.start_over paths agree]
  -- A file that is processed at the last moment is processed in the run, so its text is the same.
  induction h with
  | refl => exact .refl
  | tail before step ih =>
    refine ih.tail ?_
    rw [Moment.next_over paths fun path processes => agree path (.inr ⟨_, before, processes⟩)]
    exact step

/-- A run depends on the paths of the sources and on the texts of the files that it processes. -/
theorem run_over : run (e.over sources) main = run e main := by
  obtain ⟨last, reached, ended, result⟩ := reaches_result e main
  obtain ⟨last', reached', ended', result'⟩ := reaches_result (e.over sources) main
  have moved : Reaches (e.over sources) (.start (e.over sources) main) last :=
    reaches_over paths agree reached
  have stops : last.next (e.over sources) = none := by
    rw [Moment.next_over paths fun path processes => agree path (.inr ⟨last, reached, processes⟩)]
    exact ended
  -- Both last moments are reached in the other run, and neither has a next one.
  have unique : last' = last := by
    rcases (moved.last reached' ended').cases_head with same | ⟨m, step, -⟩
    · exact same.symm
    · rw [stops] at step
      cases step
  rw [result', result, unique]
  unfold Moment.result
  rw [show (e.over sources).sources.entry? main = e.sources.entry? main from entry?_over paths agree]

end Runs

end Preprocess

open Preprocess in
/-- What comes of a file does not depend on the text of any file that is not processed for it. -/
theorem extractFile_isolated {sources sources' : SourceMap} {path : String} {config : Config}
    (paths : sources.paths = sources'.paths)
    (agree : ∀ file, Processed { sources, config } path file →
      sources.stored? file = sources'.stored? file) :
    extractFile sources path config = extractFile sources' path config := by
  have same : preprocess sources' path config = preprocess sources path config :=
    run_over (e := { sources, config }) paths fun file processed => (agree file processed).symm
  unfold extractFile resolveFile
  rw [same]

open Preprocess

/-- A header that is included, and one that a dead branch would include. -/
def twoHeaders (dead : String) : SourceMap :=
  .ofList [("main.h", "#define A 1\n#ifdef A\n#include \"a.h\"\n#else\n#include \"b.h\"\n#endif\n"),
    ("a.h", "#define SIZE 4\n"), ("b.h", dead)]

/-- Another constant in the dead branch. -/
def deadConstant : Setting := { sources := twoHeaders "#define SIZE 8\n", config := {} }

theorem processed_deadConstant {file : String} (h : Processed deadConstant "main.h" file) :
    file = "main.h" ∨ file = "a.h" := by
  rcases h with ⟨text, entry⟩ | ⟨m, reached, processes⟩
  · have main : (deadConstant.sources.entry? "main.h").map (·.1) = some "main.h" := by
      decide +kernel
    rw [entry] at main
    exact .inl (Option.some.inj main)
  · -- Of the moments of the run, only the one before the first include has a header processed.
    have ends : (Moment.start deadConstant "main.h").after deadConstant 12 = none := by
      rw [← Option.isNone_iff_eq_none]
      decide +kernel
    have each : ∀ k < 12, ((Moment.start deadConstant "main.h").after deadConstant k).bind
        (·.processed? deadConstant) ∈ [none, some "a.h"] := by
      decide +kernel
    obtain ⟨k, lt, here⟩ := exists_after reached ends
    have header := each k lt
    rw [here, Option.bind_some, Moment.processes_iff.mp processes] at header
    exact .inr (by simpa using header)

/-- The dead branch might as well include a header that would drop the file. -/
theorem extractFile_isolated_deadBranch :
    (twoHeaders "#define SIZE 8\n").paths = (twoHeaders "/*").paths ∧
    (∀ file, Processed deadConstant "main.h" file →
      (twoHeaders "#define SIZE 8\n").stored? file = (twoHeaders "/*").stored? file) ∧
    extractFile (twoHeaders "#define SIZE 8\n") "main.h" {} =
      extractFile (twoHeaders "/*") "main.h" {} := by
  have paths : (twoHeaders "#define SIZE 8\n").paths = (twoHeaders "/*").paths := by decide +kernel
  have agree (file : String) (processed : Processed deadConstant "main.h" file) :
      (twoHeaders "#define SIZE 8\n").stored? file = (twoHeaders "/*").stored? file := by
    rcases processed_deadConstant processed with rfl | rfl
    · decide +kernel
    · decide +kernel
  exact ⟨paths, agree, extractFile_isolated paths agree⟩

end HeaderDecl
