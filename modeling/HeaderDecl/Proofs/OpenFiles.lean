import HeaderDecl.Proofs.GuardShortcut
import HeaderDecl.Proofs.IncludingLines
import Mathlib.Data.List.Nodup
import Mathlib.Data.List.Perm.Subperm
import Mathlib.Logic.Relation

/-!
The files that are open while preprocessing goes on. A run is a sequence of moments between lines. It
ends, the open files are few and all different at each of its moments, and a header that is left has
changed neither them nor the conditionals around it.
-/

namespace HeaderDecl.Preprocess

/-! ### Moments -/

/-- A file that is open: the lines that are left of it, and the conditionals of the file around it. -/
structure OpenFile where
  path : String
  text : String
  rest : List Line
  outer : List Conditional

/-- A moment between two lines: the open files, innermost first, and the state. A fatal error is the
last moment. -/
inductive Moment where
  | reading (files : List OpenFile) (s : State)
  | failed (err : FatalError) (s : State)

namespace Moment

def state : Moment → State
  | reading _ s => s
  | failed _ s => s

/-- The moment at which a step has come to an end within some files. -/
def ofOutcome (around : List OpenFile) : Except FatalError Unit × State → Moment
  | (.ok (), s) => reading around s
  | (.error err, s) => failed err s

/-- The moment at which a file is opened, or passed over. -/
def call (e : Setting) (path text : String) (around : List OpenFile) (s : State) : Moment :=
  if s.skips e path then reading around s
  else match unclosedComment? path text with
    | some t => failed (Macro.lexFailure t .unclosedComment) s
    | none =>
      reading (⟨path, text, Line.ofTokens (lex path text), s.conditionals⟩ :: around) (s.enter path)

/-- The end of a file. -/
def close (f : OpenFile) : Step Unit := do
  reportOpen (lex f.path f.text)
  modify (·.leave f.path (lex f.path f.text) f.outer)

/-- The next moment, if there is one: a file is closed when no line of it is left, and a line opens a
file or does all that it does at once. -/
def next (e : Setting) : Moment → Option Moment
  | failed _ _ => none
  | reading [] _ => none
  | reading (f :: around) s =>
    match f.rest with
    | [] => some (ofOutcome around (outcome (close f) s))
    | l :: ls =>
      let files := { f with rest := ls } :: around
      match includedBy e s f.path l with
      | some (path, text) => some (call e path text files s)
      | none => some (ofOutcome files (outcome (processLine e readNothing f.path l) s))

/-- The moment at which a run begins. -/
def start (e : Setting) (main : String) : Moment :=
  match e.sources.entry? main with
  | some (path, text) => call e path text [] (.initial e.config)
  | none => reading [] (.initial e.config)

/-- What a run comes to whose last moment this is. -/
def result (e : Setting) (main : String) (m : Moment) :
    Except FatalError Preprocessed × List Diagnostic :=
  match e.sources.entry? main, m with
  | none, _ => (.ok ⟨[.eofAt .synthetic], []⟩, [])
  | some (path, _), reading _ s =>
    (.ok ⟨s.output.toList ++ [.eofAt (endLocation path s.output)], s.constants⟩,
      s.diagnostics.toList)
  | some _, failed err s => (.error err, s.diagnostics.toList)

end Moment

/-- From one moment a run gets to another one. -/
def Reaches (e : Setting) : Moment → Moment → Prop :=
  Relation.ReflTransGen fun m m' => m.next e = some m'

namespace Moment

/-- The next line has a file processed, which is not passed over. -/
def Processes (e : Setting) (path : String) : Moment → Prop
  | reading (f :: _) s => ∃ l ls text, f.rest = l :: ls ∧
      includedBy e s f.path l = some (path, text) ∧ s.skips e path = false
  | _ => False

/-- A line that asks for its file to be read once. -/
def isOnce : Line → Bool
  | .directive _ (name :: rest) => name.text = "pragma" && rest.head?.any (·.text = "once")
  | _ => false

/-- The next line asks for its file to be read once, and is live. -/
def AsksOnce (path : String) : Moment → Prop
  | reading (f :: _) s => f.path = path ∧ s.isSkipping = false ∧ f.rest.head?.any isOnce = true
  | _ => False

instance (path : String) (m : Moment) : Decidable (m.AsksOnce path) :=
  match m with
  | reading (f :: _) s =>
    inferInstanceAs (Decidable (f.path = path ∧ s.isSkipping = false ∧ f.rest.head?.any isOnce = true))
  | reading [] _ => .isFalse id
  | failed _ _ => .isFalse id

end Moment

/-! ### Headers that are left -/

section Isolation

variable {e : Setting} {processFile : String → String → Step Unit}

/-- Headers that leave the open files and the conditionals as they found them, unless they fail. -/
def Isolated (processFile : String → String → Step Unit) : Prop :=
  ∀ path text s t, outcome (processFile path text) s = (.ok (), t) →
    t.includeStack = s.includeStack ∧ t.conditionals = s.conditionals

theorem stack_of_line (inner : Isolated processFile) {current : String} {l : Line} {s t : State}
    (run : outcome (processLine e processFile current l) s = (.ok (), t)) :
    t.includeStack = s.includeStack := by
  rw [outcome_processLine] at run
  split at run
  · exact (inner _ _ _ _ run).1
  · have quiet := opensNothing_processLine e current l s
    rw [run] at quiet
    exact quiet.stack

theorem stack_of_lines (inner : Isolated processFile) {current : String} {ls : List Line}
    {s t : State} (run : outcome (forM ls (processLine e processFile current)) s = (.ok (), t)) :
    t.includeStack = s.includeStack := by
  induction ls generalizing s with
  | nil =>
    cases run
    rfl
  | cons l ls ih =>
    rw [List.forM_cons, outcome_bind] at run
    rcases first : outcome (processLine e processFile current l) s with ⟨_ | v, u⟩
    · rw [first] at run
      cases run
    · rw [first] at run
      exact (ih run).trans (stack_of_line inner first)

theorem outcome_readLines (path text : String) (s : State) :
    outcome (readLines e processFile path text >>=
        fun _ => modify (·.leave path (lex path text) s.conditionals)) (s.enter path) =
      outcome (forM (Line.ofTokens (lex path text)) (processLine e processFile path) >>=
        fun _ => Moment.close ⟨path, text, [], s.conditionals⟩) (s.enter path) := by
  unfold readLines Moment.close
  rw [bind_assoc]

/-- The end of a file takes it from the open ones and puts back the conditionals around it. -/
theorem exists_close (f : OpenFile) (s : State) :
    ∃ t, outcome (Moment.close f) s = (.ok (), t) ∧ t.includeStack = s.includeStack.drop 1 ∧
      t.conditionals = f.outer ∧ t.onceFiles = s.onceFiles := by
  obtain ⟨u, reported, stack, once⟩ : ∃ u, outcome (reportOpen (lex f.path f.text)) s = (.ok (), u) ∧
      u.includeStack = s.includeStack ∧ u.onceFiles = s.onceFiles := by
    unfold reportOpen
    rw [outcome_bind, outcome_get]
    dsimp only
    split
    · exact ⟨_, rfl, rfl, rfl⟩
    · exact ⟨_, rfl, rfl, rfl⟩
  unfold Moment.close
  rw [outcome_bind, reported]
  exact ⟨_, rfl, congrArg (List.drop 1) stack, rfl, once⟩

theorem isolated_readFile (inner : Isolated processFile) : Isolated (readFile e processFile) := by
  intro path text s t run
  rcases whole : unclosedComment? path text with _ | c
  · rw [outcome_readFile whole, outcome_readLines, outcome_bind] at run
    rcases lines : outcome (forM (Line.ofTokens (lex path text)) (processLine e processFile path))
        (s.enter path) with ⟨_ | v, u⟩
    · rw [lines] at run
      cases run
    · rw [lines] at run
      obtain ⟨t', closed, stack, outer, -⟩ := exists_close ⟨path, text, [], s.conditionals⟩ u
      dsimp only at run
      rw [closed] at run
      cases run
      -- Its own path is the one that is taken off.
      have kept : u.includeStack = path :: s.includeStack := stack_of_lines inner lines
      rw [kept] at stack
      exact ⟨stack, outer⟩
  · rw [outcome_readFile_unclosed whole] at run
    cases run

theorem isolated_includeHeader (inner : Isolated processFile) {current : String} {hash : Token}
    {rest : List Token} {s t : State}
    (run : outcome (includeHeader e processFile current hash rest) s = (.ok (), t)) :
    t.conditionals = s.conditionals ∧ t.includeStack = s.includeStack := by
  rw [outcome_includeHeader] at run
  split at run
  · obtain ⟨stack, outer⟩ := inner _ _ _ _ run
    exact ⟨outer, stack⟩
  · have quiet := opensNothing_includeHeader e current hash rest s
    -- Beside itself it shows that the conditionals stay.
    have mirror : Mirrors [] [] (includeHeader e readNothing current hash rest)
        (includeHeader e readNothing current hash rest) :=
      mirrors_includeHeader (fun _ _ => .pure ()) current hash rest
    obtain ⟨_, _, kept⟩ := mirror s
    rw [run] at quiet kept
    exact ⟨(kept () rfl).2, quiet.stack⟩

end Isolation

theorem isolated_processFile (e : Setting) (depth : Nat) : Isolated (processFile e depth) := by
  induction depth with
  | zero =>
    intro path text s t run
    cases run
    exact ⟨rfl, rfl⟩
  | succ depth ih =>
    intro path text s t run
    rw [outcome_processFile] at run
    split at run
    · cases run
      exact ⟨rfl, rfl⟩
    · exact isolated_readFile ih path text s t run

/-! ### The end of a run -/

section Ending

variable {e : Setting}

/-- The open files are different ones of the sources. -/
structure State.OpensSources (e : Setting) (s : State) : Prop where
  nodup : s.includeStack.Nodup
  stored : s.includeStack ⊆ e.sources.paths

theorem State.OpensSources.length_le {s : State} (h : s.OpensSources e) :
    s.includeStack.length ≤ e.sources.size := by
  have fewer := (List.subperm_of_subset h.nodup h.stored).length_le
  rwa [SourceMap.paths, List.length_map] at fewer

theorem mem_paths_of_stored {sources : SourceMap} {path text : String}
    (h : sources.stored? path = some text) : path ∈ sources.paths :=
  List.mem_map.mpr ⟨(path, text), mem_files_of_stored h, rfl⟩

theorem stored_of_includedBy {s : State} {current path text : String} {l : Line}
    (h : includedBy e s current l = some (path, text)) : e.sources.stored? path = some text := by
  unfold includedBy targetOf at h
  split at h
  · split at h
    · split at h
      · cases h
      · split at h
        · exact stored_of_findInclude h
        · cases h
    · cases h
  · cases h

theorem not_mem_stack_of_skips {s : State} {path : String} (h : s.skips e path = false) :
    path ∉ s.includeStack ∧ path ∉ s.onceFiles := by
  unfold State.skips at h
  simp only [Bool.or_eq_false_iff, List.contains_eq_mem, decide_eq_false_iff_not] at h
  exact ⟨h.2, h.1.1⟩

theorem State.OpensSources.enter {s : State} (h : s.OpensSources e) {path text : String}
    (stored : e.sources.stored? path = some text) (fresh : s.skips e path = false) :
    (s.enter path).OpensSources e :=
  ⟨List.nodup_cons.mpr ⟨(not_mem_stack_of_skips fresh).1, h.nodup⟩,
    List.cons_subset.mpr ⟨mem_paths_of_stored stored, h.stored⟩⟩

/-- The lines that are left of a file are read to its end if the headers that they include are. -/
theorem reaches_lines {processFile : String → String → Step Unit} (isolated : Isolated processFile)
    {around : List OpenFile} {stack : List String}
    (inner : ∀ path text around s, e.sources.stored? path = some text → s.includeStack = stack →
      Reaches e (.call e path text around s) (.ofOutcome around (outcome (processFile path text) s)))
    (f : OpenFile) (ls : List Line) {s : State} (opened : s.includeStack = stack) :
    Reaches e (.reading ({ f with rest := ls } :: around) s)
      (.ofOutcome around (outcome (forM ls (processLine e processFile f.path) >>=
        fun _ => Moment.close f) s)) := by
  induction ls generalizing s with
  | nil => exact .single rfl
  | cons l ls ih =>
    rw [List.forM_cons, bind_assoc, outcome_bind]
    -- The line comes to its own outcome, with the other lines still to be read.
    have line : Reaches e (.reading ({ f with rest := l :: ls } :: around) s)
        (.ofOutcome ({ f with rest := ls } :: around)
          (outcome (processLine e processFile f.path l) s)) := by
      rw [outcome_processLine]
      rcases included : includedBy e s f.path l with _ | ⟨path, text⟩
      · refine .single ?_
        simp only [Moment.next, included]
      · have step : Moment.next e (.reading ({ f with rest := l :: ls } :: around) s) =
            some (.call e path text ({ f with rest := ls } :: around) s) := by
          simp only [Moment.next, included]
        exact .head step (inner _ _ _ _ (stored_of_includedBy included) opened)
    rcases first : outcome (processLine e processFile f.path l) s with ⟨_ | v, t⟩
    · rw [first] at line
      exact line
    · rw [first] at line
      exact line.trans (ih ((stack_of_line isolated first).trans opened))

/-- With the given number of further files around it, a file that is opened is left in the end, in the
state in which processing it ends. -/
theorem reaches_call (e : Setting) (depth : Nat) {path text : String}
    (stored : e.sources.stored? path = some text) (around : List OpenFile) {s : State}
    (opens : s.OpensSources e) (deep : e.sources.size < depth + s.includeStack.length) :
    Reaches e (.call e path text around s)
      (.ofOutcome around (outcome (processFile e depth path text) s)) := by
  induction depth generalizing path text around s with
  | zero =>
    -- There are no more files than sources.
    have := opens.length_le
    omega
  | succ depth ih =>
    rw [outcome_processFile]
    unfold Moment.call
    cases fresh : s.skips e path with
    | true => exact .refl
    | false =>
      simp only [Bool.false_eq_true, if_false]
      rcases whole : unclosedComment? path text with _ | c
      · rw [outcome_readFile whole, outcome_readLines]
        have entered := opens.enter stored fresh
        refine reaches_lines (isolated_processFile e depth) ?_
          ⟨path, text, [], s.conditionals⟩ _ rfl
        intro path' text' around' t stored' same
        refine ih stored' around' ?_ ?_
        · exact ⟨same ▸ entered.nodup, same ▸ entered.stored⟩
        · -- The file that was opened makes up for the level that it took.
          have longer : t.includeStack.length = s.includeStack.length + 1 := congrArg List.length same
          omega
      · rw [outcome_readFile_unclosed whole]
        exact .refl

theorem Moment.result_ofOutcome {main path text : String}
    (entry : e.sources.entry? main = some (path, text)) (o : Except FatalError Unit × State) :
    (ofOutcome [] o).result e main =
      (o.1.map fun _ =>
        ⟨o.2.output.toList ++ [.eofAt (endLocation path o.2.output)], o.2.constants⟩,
        o.2.diagnostics.toList) := by
  unfold result
  rw [entry]
  rcases o with ⟨_ | _, s⟩
  · rfl
  · rfl

theorem Moment.next_ofOutcome (o : Except FatalError Unit × State) :
    (ofOutcome [] o).next e = none := by
  rcases o with ⟨_ | _, s⟩
  · rfl
  · rfl

/-- A run ends, and it comes to what its last moment gives. -/
theorem reaches_result (e : Setting) (main : String) :
    ∃ last, Reaches e (.start e main) last ∧ last.next e = none ∧ run e main = last.result e main := by
  rcases entry : e.sources.entry? main with _ | ⟨path, text⟩
  · refine ⟨.reading [] (.initial e.config), ?_, rfl, ?_⟩
    · unfold Moment.start
      rw [entry]
      exact .refl
    · unfold run Moment.result
      rw [entry]
  · have initial : (State.initial e.config).OpensSources e := ⟨List.nodup_nil, List.nil_subset _⟩
    refine ⟨.ofOutcome [] (outcome (processFile e (e.sources.size + 1) path text)
      (.initial e.config)), ?_, Moment.next_ofOutcome _, ?_⟩
    · unfold Moment.start
      rw [entry]
      exact reaches_call e _ (stored_of_entry entry) [] initial (Nat.lt_succ_self _)
    · rw [Moment.result_ofOutcome entry]
      unfold run
      rw [entry]
      rfl

/-- Each moment has one successor at most, so whatever a run gets to is on the way to its end. -/
theorem Reaches.last {start m last : Moment} (h : Reaches e start m) (h' : Reaches e start last)
    (ended : last.next e = none) : Reaches e m last := by
  have deterministic : Relator.RightUnique fun m m' => Moment.next e m = some m' :=
    fun m a b ha hb => Option.some.inj (ha.symm.trans hb)
  rcases Relation.ReflTransGen.total_of_right_unique deterministic h h' with ahead | behind
  · exact ahead
  · rcases behind.cases_head with rfl | ⟨m', step, -⟩
    · exact .refl
    · rw [ended] at step
      cases step

end Ending

/-! ### What a step does to the open files -/

section Steps

variable {e : Setting} {m m' : Moment}

@[simp] theorem Moment.state_ofOutcome (around : List OpenFile) (o : Except FatalError Unit × State) :
    (ofOutcome around o).state = o.2 := by
  rcases o with ⟨_ | _, s⟩
  · rfl
  · rfl

theorem Moment.state_call (e : Setting) (path text : String) (around : List OpenFile) (s : State) :
    (call e path text around s).state = s ∨
      s.skips e path = false ∧ (call e path text around s).state = s.enter path := by
  unfold call
  split
  · exact .inl rfl
  · split
    · exact .inl rfl
    · exact .inr ⟨by simpa using ‹¬s.skips e path = true›, rfl⟩

/-- What the next step of a run is. -/
theorem Moment.next_cases (h : m.next e = some m') :
    ∃ f around s, m = reading (f :: around) s ∧
      ((f.rest = [] ∧ m' = ofOutcome around (outcome (close f) s)) ∨
       ∃ l ls, f.rest = l :: ls ∧
        ((∃ path text, includedBy e s f.path l = some (path, text) ∧
            m' = call e path text ({ f with rest := ls } :: around) s) ∨
         includedBy e s f.path l = none ∧
            m' = ofOutcome ({ f with rest := ls } :: around)
              (outcome (processLine e readNothing f.path l) s))) := by
  match m with
  | failed _ _ => cases h
  | reading [] _ => cases h
  | reading (f :: around) s =>
    refine ⟨f, around, s, rfl, ?_⟩
    simp only [next] at h
    split at h
    · exact .inl ⟨‹f.rest = []›, (Option.some.inj h).symm⟩
    · refine .inr ⟨_, _, ‹f.rest = _ :: _›, ?_⟩
      split at h
      · exact .inl ⟨_, _, ‹_›, (Option.some.inj h).symm⟩
      · exact .inr ⟨‹_›, (Option.some.inj h).symm⟩

theorem lt_of_includedBy {s : State} {current path text : String} {l : Line}
    (h : includedBy e s current l = some (path, text)) :
    s.includeStack.length < e.config.maxIncludeDepth := by
  unfold includedBy targetOf at h
  grind

/-- A step closes the innermost file, opens one that is not open yet, within the limit, or does neither. -/
theorem Moment.next_stack (h : m.next e = some m') :
    m'.state.includeStack = m.state.includeStack ∨
    m'.state.includeStack = m.state.includeStack.drop 1 ∨
    ∃ path, path ∉ m.state.includeStack ∧ m.state.includeStack.length < e.config.maxIncludeDepth ∧
      m'.state.includeStack = path :: m.state.includeStack := by
  obtain ⟨f, around, s, rfl, ⟨-, rfl⟩ | ⟨l, ls, -, ⟨path, text, included, rfl⟩ | ⟨-, rfl⟩⟩⟩ :=
    next_cases h
  · obtain ⟨t, closed, stack, -⟩ := exists_close f s
    simp only [state_ofOutcome, closed]
    exact .inr (.inl stack)
  · rcases state_call e path text ({ f with rest := ls } :: around) s with same | ⟨fresh, entered⟩
    · exact .inl (congrArg State.includeStack same)
    · exact .inr (.inr ⟨path, (not_mem_stack_of_skips fresh).1, lt_of_includedBy included,
        congrArg State.includeStack entered⟩)
  · simp only [state_ofOutcome]
    exact .inl (opensNothing_processLine e f.path l s).stack

/-- What was to be read once still is after a step. -/
theorem Moment.next_once (h : m.next e = some m') {path : String}
    (once : path ∈ m.state.onceFiles) : path ∈ m'.state.onceFiles := by
  obtain ⟨f, around, s, rfl, ⟨-, rfl⟩ | ⟨l, ls, -, ⟨path', text, -, rfl⟩ | ⟨-, rfl⟩⟩⟩ :=
    next_cases h
  · obtain ⟨t, closed, -, -, same⟩ := exists_close f s
    simp only [state_ofOutcome, closed, same]
    exact once
  · rcases state_call e path' text ({ f with rest := ls } :: around) s with same | ⟨-, entered⟩
    · rw [same]
      exact once
    · rw [entered]
      exact once
  · simp only [state_ofOutcome]
    exact (opensNothing_processLine e f.path l s).once path once

/-- A live line that asks for its file to be read once includes nothing, and is heard. -/
theorem Moment.AsksOnce.heard {path : String} (asks : m.AsksOnce path) :
    (∀ file, ¬m.Processes e file) ∧ ∀ m', m.next e = some m' → path ∈ m'.state.onceFiles := by
  match m with
  | reading (f :: around) s =>
    obtain ⟨rfl, live, once⟩ := asks
    obtain ⟨hash, name, rest, ls, line, pragma, spelled⟩ : ∃ hash name rest ls,
        f.rest = .directive hash (name :: rest) :: ls ∧ name.text = "pragma" ∧
          rest.head?.any (·.text = "once") = true := by
      obtain ⟨l, first, once⟩ := (Option.any_eq_true _ _).mp once
      obtain ⟨ls, line⟩ := List.head?_eq_some_iff.mp first
      match l with
      | .directive hash (name :: rest) =>
        simp only [isOnce, Bool.and_eq_true, decide_eq_true_eq] at once
        exact ⟨hash, name, rest, ls, line, once⟩
    have none : includedBy e s f.path (.directive hash (name :: rest)) = none := by
      simp [includedBy, isInclude, pragma]
    refine ⟨?_, ?_⟩
    · rintro file ⟨l, ls', text, split, included, -⟩
      rw [line] at split
      cases split
      rw [none] at included
      cases included
    · intro m' h
      have free : (Line.directive hash (name :: rest)).isConditional = false := by
        simp [Line.isConditional, Line.conditionalWords, pragma]
      simp only [next, line, none, Option.some.injEq] at h
      subst h
      rw [state_ofOutcome, processLine_directive _ _ _ free, outcome_bind, outcome_get]
      simp only [live, liveDirective, pragma, spelled, if_true, Bool.false_eq_true, if_false]
      exact List.mem_cons_self

theorem Moment.Processes.not_once {path : String} (h : m.Processes e path) :
    path ∉ m.state.onceFiles := by
  match m with
  | reading (f :: _) s =>
    obtain ⟨_, _, _, -, -, fresh⟩ := h
    exact (not_mem_stack_of_skips fresh).2

end Steps

/-! ### Whole runs -/

section Runs

variable {e : Setting} {m m' : Moment}

/-- The open files are all different, and no more than the limit, unless it is the main file alone. -/
structure State.Limited (e : Setting) (s : State) : Prop where
  nodup : s.includeStack.Nodup
  few : s.includeStack.length ≤ max 1 e.config.maxIncludeDepth

theorem Moment.limited_next (limited : m.state.Limited e) (h : m.next e = some m') :
    m'.state.Limited e := by
  obtain ⟨nodup, few⟩ := limited
  obtain same | closed | ⟨path, fresh, below, opened⟩ := next_stack h
  · exact ⟨same ▸ nodup, same ▸ few⟩
  · refine ⟨closed ▸ nodup.drop, ?_⟩
    rw [closed, List.length_drop]
    omega
  · refine ⟨opened ▸ List.nodup_cons.mpr ⟨fresh, nodup⟩, ?_⟩
    rw [opened, List.length_cons]
    omega

theorem Moment.limited_start (e : Setting) (main : String) : (start e main).state.Limited e := by
  have initial : (State.initial e.config).Limited e := ⟨List.nodup_nil, Nat.zero_le _⟩
  unfold start
  split
  · rcases state_call e _ _ [] (.initial e.config) with same | ⟨-, entered⟩
    · rw [same]
      exact initial
    · rw [entered]
      exact ⟨List.nodup_singleton _, Nat.le_max_left _ _⟩
  · exact initial

theorem limited_of_reaches {main : String} (h : Reaches e (.start e main) m) :
    m.state.Limited e := by
  induction h with
  | refl => exact Moment.limited_start e main
  | tail _ step ih => exact Moment.limited_next ih step

theorem once_of_reaches (h : Reaches e m m') {path : String} (once : path ∈ m.state.onceFiles) :
    path ∈ m'.state.onceFiles := by
  induction h with
  | refl => exact once
  | tail _ step ih => exact Moment.next_once step ih

/-- A file that has asked to be read once is not processed again. -/
theorem Moment.AsksOnce.not_processes {path : String} (asks : m.AsksOnce path)
    (h : Reaches e m m') : ¬m'.Processes e path := by
  intro processes
  -- Not at once, and from the next moment on the file is among those to be read once.
  obtain rfl | ⟨first, step, rest⟩ := h.cases_head
  · exact asks.heard.1 path processes
  · exact processes.not_once (once_of_reaches rest (asks.heard.2 first step))

/-- Including terminates, with few files open at any moment and no file open twice. A header that is left
has changed neither the open files nor the conditionals around it, and one that has asked to be read
once is not processed again. -/
theorem includes_isolated (e : Setting) (main : String) :
    (∃ last, Reaches e (.start e main) last ∧ last.next e = none ∧
      run e main = last.result e main) ∧
    (∀ m, Reaches e (.start e main) m → m.state.includeStack.Nodup ∧
      m.state.includeStack.length ≤ max 1 e.config.maxIncludeDepth) ∧
    (∀ depth current hash rest s t,
      outcome (includeHeader e (processFile e depth) current hash rest) s = (.ok (), t) →
        t.conditionals = s.conditionals ∧ t.includeStack = s.includeStack) ∧
    (∀ m, Reaches e (.start e main) m → ∀ file, m.AsksOnce file → ∀ m', Reaches e m m' →
      ¬m'.Processes e file) := by
  refine ⟨reaches_result e main, ?_, ?_, ?_⟩
  · intro m h
    exact ⟨(limited_of_reaches h).nodup, (limited_of_reaches h).few⟩
  · intro depth current hash rest s t ok
    exact isolated_includeHeader (isolated_processFile e depth) ok
  · intro m _ file asks m' h
    exact asks.not_processes h

end Runs

/-- Two headers that include each other. One opens a conditional and the other one closes it. -/
def cyclic : Setting where
  sources := .ofList [
    ("a.h", "#pragma once\n#include \"b.h\"\n#endif\n"), ("b.h", "#ifndef A\n#include \"a.h\"\n")]
  config := {}

theorem includes_isolated_cyclic :
    (Moment.start cyclic "a.h").AsksOnce "a.h" ∧
    (∃ last, Reaches cyclic (.start cyclic "a.h") last ∧ last.next cyclic = none ∧
      run cyclic "a.h" = last.result cyclic "a.h" ∧ last.state.includeStack.length ≤ 64 ∧
      ¬last.Processes cyclic "a.h") ∧
    (run cyclic "a.h").2.map (·.kind) = [.unbalancedConditional, .unbalancedConditional] := by
  obtain ⟨⟨last, reached, ended, result⟩, limited, -, once⟩ := includes_isolated cyclic "a.h"
  have asks : (Moment.start cyclic "a.h").AsksOnce "a.h" := by decide +kernel
  exact ⟨asks, ⟨last, reached, ended, result, (limited last reached).2,
    once _ .refl _ asks last reached⟩, by decide +kernel⟩

end HeaderDecl.Preprocess
