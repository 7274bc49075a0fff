import HeaderDecl.Proofs.DeadText
import HeaderDecl.Proofs.HarmlessReports

/-!
Lines and the headers that they include. A line reads at most one header, and does nothing else then;
any other line leaves the open files as they are.
-/

namespace HeaderDecl.Preprocess

variable {α β : Type}

/-! ### Steps that open no file -/

/-- From one state to another the open files stay the same, and so does what is to be read once. -/
structure Stays (s t : State) : Prop where
  stack : t.includeStack = s.includeStack
  once : ∀ path ∈ s.onceFiles, path ∈ t.onceFiles

theorem Stays.refl (s : State) : Stays s s := ⟨rfl, fun _ h => h⟩

theorem Stays.trans {s t u : State} (h : Stays s t) (h' : Stays t u) : Stays s u :=
  ⟨h'.stack.trans h.stack, fun path hp => h'.once path (h.once path hp)⟩

/-- A step that opens and closes no file, whether it fails or not. -/
def OpensNothing (x : Step α) : Prop := ∀ s, Stays s (outcome x s).2

/-- Besides that, only such reports are added that leave the file standing. -/
structure Advances (s t : State) : Prop extends Stays s t where
  reported : Recorded s.diagnostics.toList t.diagnostics.toList

theorem Advances.refl (s : State) : Advances s s := ⟨.refl s, .refl _⟩

theorem Advances.trans {s t u : State} (h : Advances s t) (h' : Advances t u) : Advances s u :=
  ⟨h.toStays.trans h'.toStays, h.reported.trans h'.reported⟩

/-- A step that opens and closes no file and reports no fatal error, whether it fails or not. -/
def Advancing (x : Step α) : Prop := ∀ s, Advances s (outcome x s).2

/-- Besides that, what has been put out stays as it is, and so do the macros and the constants. -/
structure Quiet (s t : State) : Prop extends Advances s t where
  macros : t.macros = s.macros
  constants : t.constants = s.constants
  output : t.output = s.output

theorem Quiet.refl (s : State) : Quiet s s := ⟨.refl s, rfl, rfl, rfl⟩

theorem Quiet.trans {s t u : State} (h : Quiet s t) (h' : Quiet t u) : Quiet s u :=
  ⟨h.toAdvances.trans h'.toAdvances, h'.macros.trans h.macros, h'.constants.trans h.constants,
    h'.output.trans h.output⟩

/-- A step that changes the conditionals, if anything, besides what it reports and asks to be read
once, whether it fails or not. -/
def Quietly (x : Step α) : Prop := ∀ s, Quiet s (outcome x s).2

namespace Quietly

theorem bind {x : Step α} {f : α → Step β} (first : Quietly x)
    (next : ∀ a, Quietly (f a)) : Quietly (x >>= f) := by
  intro s
  have here := first s
  rw [outcome_bind]
  rcases h : outcome x s with ⟨_ | a, t⟩
  · rw [h] at here
    exact here
  · rw [h] at here
    exact here.trans (next a t)

theorem pure (a : α) : Quietly (pure a : Step α) := Quiet.refl

theorem get {f : State → Step α} (next : ∀ s, Quietly (f s)) : Quietly (get >>= f) :=
  fun s => next s s

/-- A change of the conditionals. -/
theorem modify (f : State → List Conditional) :
    Quietly (modify fun s => { s with conditionals := f s }) :=
  fun _ => ⟨⟨⟨rfl, fun _ h => h⟩, .refl _⟩, rfl, rfl, rfl⟩

theorem lift (x : Except FatalError α) : Quietly (liftM x : Step α) := Quiet.refl

theorem report {kind : DiagnosticKind} (harmless : kind.isFatal = false) (loc : Location)
    (message : String) : Quietly (report kind loc message) := by
  intro s
  refine ⟨⟨⟨rfl, fun _ h => h⟩, ?_⟩, rfl, rfl, rfl⟩
  rw [Preprocess.report, outcome_modify, Array.toList_push]
  exact .concat _ harmless

end Quietly

section Directives

variable (e : Setting)

theorem quietly_condition (hash : Token) (rest : List Token) : Quietly (condition e hash rest) := by
  unfold condition
  apply Quietly.get
  intro s
  dsimp only
  split
  · exact (Quietly.report rfl _ _).bind fun _ => .pure _
  · refine (Quietly.lift _).bind fun expanded => ?_
    split
    · exact .pure _
    · exact (Quietly.report rfl _ _).bind fun _ => .pure _

theorem quietly_openConditional (holds : Bool) : Quietly (openConditional holds) :=
  .modify fun s => Conditional.opened s.conditionals holds

theorem quietly_ifDefined (hash : Token) (rest : List Token) (wanted : Bool) :
    Quietly (ifDefined hash rest wanted) := by
  unfold ifDefined
  apply Quietly.get
  intro s
  split
  · exact quietly_openConditional _
  · split
    · exact (Quietly.report rfl _ _).bind fun _ => quietly_openConditional _
    · exact quietly_openConditional _

theorem quietly_elseIf (hash : Token) (rest : List Token) : Quietly (elseIf e hash rest) := by
  unfold elseIf
  apply Quietly.get
  intro s
  extract_lets rest
  have last (holds : Bool) : Quietly (rest holds) := by
    unfold rest
    split
    · exact .modify fun _ => _
    · exact .report rfl _ _
  split
  · exact (quietly_condition e _ _).bind last
  · exact (Quietly.pure _).bind last

theorem quietly_otherwise (hash : Token) : Quietly (otherwise hash) := by
  unfold otherwise
  apply Quietly.get
  intro s
  split
  · exact .modify fun _ => _
  · exact .report rfl _ _

theorem quietly_endConditional (hash : Token) : Quietly (endConditional hash) := by
  unfold endConditional
  apply Quietly.get
  intro s
  split
  · exact .modify fun _ => _
  · exact .report rfl _ _

theorem quietly_reportOpen (tokens : List Token) : Quietly (reportOpen tokens) := by
  unfold reportOpen
  apply Quietly.get
  intro s
  dsimp only
  split
  · exact .report rfl _ _
  · exact .pure _

/-- No header is read. -/
def readNothing (_path _text : String) : Step Unit := pure ()

theorem quietly_includeHeader (current : String) (hash : Token) (rest : List Token) :
    Quietly (includeHeader e readNothing current hash rest) := by
  unfold includeHeader
  split
  · split
    · apply Quietly.get
      intro s
      split
      · exact .report rfl _ _
      · split
        · exact .pure _
        · exact .pure _
    · split
      · exact .pure _
      · exact .report rfl _ _
  · exact .report rfl _ _

end Directives

/-! ### What a line does -/

/-- The state after an object-like macro has been put into force, with its value if it has one. -/
def State.withObject (e : Setting) (s : State) (name : Token) (body : List Token) : State :=
  (outcome (defineObject e name body) s).2

/-- What a line does to the state that reads no header: it puts out live text, defines a macro or takes
one back, or is quiet. -/
inductive Changes (e : Setting) (s : State) : Line → State → Prop
  | quiet {l : Line} {t : State} (quiet : Quiet s t) : Changes e s l t
  | text {tokens expanded : List Token} (live : s.isSkipping = false)
    (expands : Macro.expand (e.scope s) [] tokens = .ok expanded) :
    Changes e s (.text tokens) { s with output := s.output ++ expanded }
  | object {hash word name : Token} {body : List Token} (live : s.isSkipping = false)
    (defines : word.text = "define") (isWord : name.isWord = true)
    (apart : ∀ t ∈ body.head?, (t.is .lparen && !t.spaced) = false) :
    Changes e s (.directive hash (word :: name :: body)) (s.withObject e name body)
  | function {hash word name paren : Token} {ts body : List Token} {params : List String}
    {variadic : Option String} (live : s.isSkipping = false) (defines : word.text = "define")
    (isWord : name.isWord = true) (attached : (paren.is .lparen && !paren.spaced) = true)
    (reads : MacroDef.readParams [] ts = some (params, variadic, body)) :
    Changes e s (.directive hash (word :: name :: paren :: ts))
      (s.define name.text ⟨some params, variadic, body⟩)
  | undefine {hash word name : Token} {rest : List Token} (live : s.isSkipping = false)
    (undefines : word.text = "undef") (isWord : name.isWord = true) :
    Changes e s (.directive hash (word :: name :: rest)) { s with
      macros := s.macros.erase name.text
      constants := s.constants.filter (·.name ≠ name.text) }

section Lines

variable (e : Setting) {s : State} (current : String) (hash : Token)

theorem changes_define {word : Token} (rest : List Token) (live : s.isSkipping = false)
    (defines : word.text = "define") :
    Changes e s (.directive hash (word :: rest)) (outcome (define e hash rest) s).2 := by
  unfold define
  split
  · exact .quiet (Quietly.report rfl _ _ s)
  · rename_i name body
    split
    · exact .quiet (Quietly.report rfl _ _ s)
    · have isWord : name.isWord = true := by simpa using ‹¬(!name.isWord) = true›
      split
      · rename_i t ts
        split
        · split
          · exact .function live defines isWord ‹_› ‹_›
          · exact .quiet (Quietly.report rfl _ _ s)
        · refine .object live defines isWord ?_
          rintro _ ⟨⟩
          exact Bool.eq_false_iff.mpr ‹_›
      · exact .object live defines isWord fun t first => by cases first

theorem changes_undefine {word : Token} (rest : List Token) (live : s.isSkipping = false)
    (undefines : word.text = "undef") :
    Changes e s (.directive hash (word :: rest)) (outcome (undefine hash rest) s).2 := by
  unfold undefine
  split
  · rename_i t found
    obtain ⟨first, isWord⟩ := Option.filter_eq_some_iff.mp found
    cases rest with
    | nil => cases first
    | cons name rest =>
      cases first
      exact .undefine live undefines isWord
  · exact .quiet (Quietly.report rfl _ _ s)

theorem changes_liveDirective {name : Token} (rest : List Token) (live : s.isSkipping = false) :
    Changes e s (.directive hash (name :: rest))
      (outcome (liveDirective e readNothing current hash name rest) s).2 := by
  unfold liveDirective
  split
  · exact changes_define e hash rest live ‹_›
  · exact changes_undefine e hash rest live ‹_›
  · exact .quiet (quietly_includeHeader e _ _ _ s)
  · exact .quiet (quietly_includeHeader e _ _ _ s)
  -- A pragma may only add to what is to be read once.
  · split
    · exact .quiet ⟨⟨⟨rfl, fun _ h => List.mem_cons_of_mem _ h⟩, .refl _⟩, rfl, rfl, rfl⟩
    · exact .quiet (.refl s)
  · exact .quiet (Quietly.report rfl _ _ s)
  · exact .quiet (Quietly.report rfl _ _ s)
  · exact .quiet (.refl s)
  · exact .quiet (.refl s)
  · exact .quiet (.refl s)
  · split
    · exact .quiet (.refl s)
    · exact .quiet (Quietly.report rfl _ _ s)

/-- What the line of a file does whose header is not read. -/
theorem changes_processLine (l : Line) (s : State) :
    Changes e s l (outcome (processLine e readNothing current l) s).2 := by
  unfold processLine
  split
  · unfold directive
    split
    · exact .quiet (.refl s)
    · split
      · exact .quiet (quietly_ifDefined _ _ _ s)
      · exact .quiet (quietly_ifDefined _ _ _ s)
      · refine .quiet (Quietly.get (fun s => ?_) s)
        dsimp only
        split
        · exact (Quietly.pure _).bind fun _ => quietly_openConditional _
        · exact (quietly_condition e _ _).bind fun _ => quietly_openConditional _
      · exact .quiet (quietly_elseIf e _ _ s)
      · exact .quiet (quietly_otherwise _ s)
      · exact .quiet (quietly_endConditional _ s)
      · rw [outcome_bind, outcome_get]
        dsimp only
        split
        · exact .quiet (.refl s)
        · exact changes_liveDirective e current _ _ (Bool.eq_false_iff.mpr ‹_›)
  · rename_i tokens
    rw [outcome_bind, outcome_get]
    dsimp only
    split
    · rename_i live
      rw [Bool.not_eq_true'] at live
      rw [outcome_bind]
      cases expands : Macro.expand (e.scope s) [] tokens with
      | error err => exact .quiet (.refl s)
      | ok expanded => exact .text live expands
    · exact .quiet (.refl s)

theorem Changes.advances {l : Line} {t : State} (h : Changes e s l t) : Advances s t := by
  cases h with
  | quiet quiet => exact quiet.toAdvances
  | text | object | function | undefine => exact ⟨⟨rfl, fun _ h => h⟩, .refl _⟩

/-- A line whose header is not read opens no file, and reports no fatal error. -/
theorem advancing_processLine (l : Line) : Advancing (processLine e readNothing current l) :=
  fun s => (changes_processLine e current l s).advances

theorem opensNothing_includeHeader (rest : List Token) :
    OpensNothing (includeHeader e readNothing current hash rest) :=
  fun s => (quietly_includeHeader e current hash rest s).toStays

/-- A line whose header is not read opens no file. -/
theorem opensNothing_processLine (l : Line) : OpensNothing (processLine e readNothing current l) :=
  fun s => (advancing_processLine e current l s).toStays

end Lines

/-! ### Lines that include a header -/

/-- Whether a directive includes a header, if it is live. -/
def isInclude (name : Token) : Bool := name.text = "include" || name.text = "include_next"

/-- The header that the tokens of an include find among the sources, unless too many files are open. -/
def targetOf (e : Setting) (s : State) (current : String) : List Token → Option (String × String)
  | [] => none
  | target :: _ =>
    if target.kind == .string && s.includeStack.length < e.config.maxIncludeDepth then
      e.findInclude current (Literal.string target.text)
    else none

/-- The header that a line includes at a state. -/
def includedBy (e : Setting) (s : State) (current : String) : Line → Option (String × String)
  | .directive _ (name :: rest) =>
    if isInclude name && !s.isSkipping then targetOf e s current rest else none
  | _ => none

section Lines

variable {e : Setting} {processFile processFile' : String → String → Step Unit} {current : String}

theorem liveDirective_include {hash name : Token} (rest : List Token)
    (inc : isInclude name = true) :
    liveDirective e processFile current hash name rest =
      includeHeader e processFile current hash rest := by
  simp only [isInclude, Bool.or_eq_true, decide_eq_true_eq] at inc
  unfold liveDirective
  rcases inc with inc | inc
  · simp only [inc]
  · simp only [inc]

theorem liveDirective_other {hash name : Token} (rest : List Token)
    (other : isInclude name = false) :
    liveDirective e processFile current hash name rest =
      liveDirective e processFile' current hash name rest := by
  simp only [isInclude, Bool.or_eq_false_iff, decide_eq_false_iff_not] at other
  unfold liveDirective
  split
  · rfl
  · rfl
  · exact absurd ‹_› other.1
  · exact absurd ‹_› other.2
  all_goals rfl

theorem outcome_includeHeader (hash : Token) (rest : List Token) (s : State) :
    outcome (includeHeader e processFile current hash rest) s =
      match targetOf e s current rest with
      | some (path, text) => outcome (processFile path text) s
      | none => outcome (includeHeader e readNothing current hash rest) s := by
  cases rest with
  | nil => rfl
  | cons t ts =>
    unfold includeHeader targetOf
    cases quoted : t.kind == .string with
    | false => simp [quoted]
    | true =>
      simp only [quoted, if_true, Bool.true_and, decide_eq_true_eq]
      rw [outcome_bind, outcome_bind, outcome_get]
      by_cases deep : e.config.maxIncludeDepth ≤ s.includeStack.length
      · simp only [deep, Nat.not_lt.mpr deep, if_true, if_false]
      · simp only [deep, Nat.not_le.mp deep, if_true, if_false]
        rcases e.findInclude current (Literal.string t.text) with _ | ⟨path, text⟩
        · rfl
        · rfl

/-- A line reads at most one header, and does nothing else then. -/
theorem outcome_processLine (l : Line) (s : State) :
    outcome (processLine e processFile current l) s =
      match includedBy e s current l with
      | some (path, text) => outcome (processFile path text) s
      | none => outcome (processLine e readNothing current l) s := by
  match l with
  | .text _ => rfl
  | .directive _ [] => rfl
  | .directive hash (name :: rest) =>
    cases inc : isInclude name with
    | true =>
      -- It is no conditional, so either it is passed over or it comes to its header.
      have free : (Line.directive hash (name :: rest)).isConditional = false := by
        simp only [isInclude, Bool.or_eq_true, decide_eq_true_eq] at inc
        rcases inc with inc | inc <;> simp [Line.isConditional, Line.conditionalWords, inc]
      rw [processLine_directive _ _ _ free, processLine_directive _ _ _ free, outcome_bind,
        outcome_bind, outcome_get]
      dsimp only
      cases dead : s.isSkipping with
      | true => simp [includedBy, dead]
      | false =>
        have live : includedBy e s current (.directive hash (name :: rest)) =
            targetOf e s current rest := by
          simp [includedBy, inc, dead]
        rw [live, liveDirective_include _ inc, liveDirective_include _ inc]
        exact outcome_includeHeader hash rest s
    | false =>
      have none : includedBy e s current (.directive hash (name :: rest)) = none := by
        simp [includedBy, inc]
      rw [none]
      -- No other directive asks what it means to read a header.
      unfold processLine directive
      dsimp only
      split
      all_goals try rfl
      rw [liveDirective_other _ inc]

end Lines

end HeaderDecl.Preprocess
