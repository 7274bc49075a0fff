import HeaderDecl.Proofs.GroupReading

/-!
Files read by their conditional groups, and so are the headers that they include. Reading a file with
the stack of conditionals comes to the same.
-/

namespace HeaderDecl.Preprocess

variable {α : Type}

/-- Reads a file by its groups. -/
def readGroups (e : Setting) (processFile : String → String → Step Unit) (path text : String)
    (p : Parts) : Step Unit := do
  let tokens := lex path text
  if let some t := tokens.find? (·.kind == .error .unclosedComment) then
    throw (Macro.lexFailure t .unclosedComment)
  modify fun s => { s with includeStack := path :: s.includeStack }
  p.read e processFile path
  modify fun s => { s with
    includeStack := s.includeStack.drop 1
    guards := match Guard.detect tokens with
      | some guard => s.guards.insert path guard
      | none => s.guards }

/-- Processes a file as `processFile` does, but reads by its groups every file that has some. -/
def processNested (e : Setting) : Nat → String → String → Step Unit
  | 0, _, _ => pure ()
  | depth + 1, path, text => do
    if !(← get).skips e path then
      match Parts.ofLines (Line.ofTokens (lex path text)) with
      | some p => readGroups e (processNested e depth) path text p
      | none => readFile e (processNested e depth) path text

/-- Two steps with the same outcome. A fatal error leaves conditionals open, which nothing looks at any
more. -/
def SameReading (x y : Step α) : Prop :=
  ∀ s, (outcome x s).1 = (outcome y s).1 ∧ (outcome x s).2.under [] = (outcome y s).2.under [] ∧
    ∀ a, (outcome x s).1 = .ok a → (outcome x s).2 = (outcome y s).2

theorem SameReading.refl (x : Step α) : SameReading x x := fun _ => ⟨rfl, rfl, fun _ _ => rfl⟩

theorem SameReading.bind {β : Type} {x y : Step α} {f g : α → Step β} (first : SameReading x y)
    (next : ∀ v, SameReading (f v) (g v)) : SameReading (x >>= f) (y >>= g) := by
  intro s
  obtain ⟨result, rest, kept⟩ := first s
  rw [outcome_bind, outcome_bind]
  rcases hx : outcome x s with ⟨_ | v, t⟩
  · -- A failure may leave other conditionals, but the same state without them.
    rw [hx] at result rest
    rcases hy : outcome y s with ⟨r, u⟩
    rw [hy] at result rest
    cases result
    exact ⟨rfl, rest, fun _ h => by cases h⟩
  · rw [hx] at result kept
    have same : outcome y s = (.ok v, t) := Prod.ext result.symm (kept v rfl).symm
    rw [same]
    exact next v t

theorem Mirrors.sameReading {x y : Step α} (h : ∀ stack, Mirrors stack stack x y) :
    SameReading x y := by
  intro s
  obtain ⟨last, same, kept⟩ := h s.conditionals s
  have here : s.under s.conditionals = s := rfl
  rw [here] at same
  rw [same]
  refine ⟨rfl, rfl, fun a ha => ?_⟩
  obtain ⟨rfl, back⟩ := kept a ha
  rw [← back]
  rfl

section Lines

variable {e : Setting} {processFile processFile' : String → String → Step Unit}

theorem sameReading_liveDirective
    (inner : ∀ path text, SameReading (processFile path text) (processFile' path text))
    (current : String) (hash name : Token) (rest : List Token) :
    SameReading (liveDirective e processFile current hash name rest)
      (liveDirective e processFile' current hash name rest) := by
  have included : SameReading (includeHeader e processFile current hash rest)
      (includeHeader e processFile' current hash rest) := by
    unfold includeHeader
    split
    · split
      · refine SameReading.bind (.refl _) fun s => ?_
        split
        · exact .refl _
        · split
          · exact inner _ _
          · exact .refl _
      · exact .refl _
    · exact .refl _
  unfold liveDirective
  split
  · exact .refl _
  · exact .refl _
  · exact included
  · exact included
  all_goals exact .refl _

/-- The reading of a line depends on what its directive includes, and on nothing else of the other
files. -/
theorem sameReading_processLine
    (inner : ∀ path text, SameReading (processFile path text) (processFile' path text))
    (current : String) (l : Line) :
    SameReading (processLine e processFile current l) (processLine e processFile' current l) := by
  obtain ⟨m, rfl⟩ : ∃ m : Mark, m.line = l := ⟨_, Mark.line_ofLine l⟩
  cases m with
  | plain l free =>
    show SameReading (processLine e processFile current l) (processLine e processFile' current l)
    cases l with
    | text tokens => exact .refl _
    | directive hash line =>
      cases line with
      | nil => exact .refl _
      | cons name rest =>
        rw [processLine_directive _ _ _ free, processLine_directive _ _ _ free]
        refine SameReading.bind (.refl _) fun s => ?_
        split
        · exact .refl _
        · exact sameReading_liveDirective inner _ _ _ _
  | opens opening =>
    cases opening with
    | ifTrue d =>
      simp only [Mark.line, Opening.line, processLine_if]
      exact .refl _
    | ifdef d =>
      simp only [Mark.line, Opening.line, processLine_ifdef]
      exact .refl _
    | ifndef d =>
      simp only [Mark.line, Opening.line, processLine_ifndef]
      exact .refl _
  | elseIf d =>
    simp only [Mark.line, processLine_elif]
    exact .refl _
  | otherwise d =>
    simp only [Mark.line, processLine_else]
    exact .refl _
  | close d =>
    simp only [Mark.line, processLine_endif]
    exact .refl _

theorem sameReading_lines
    (inner : ∀ path text, SameReading (processFile path text) (processFile' path text))
    (current : String) (ls : List Line) :
    SameReading (forM ls (processLine e processFile current))
      (forM ls (processLine e processFile' current)) := by
  induction ls with
  | nil => exact .refl _
  | cons l ls ih => exact (sameReading_processLine inner current l).bind fun _ => ih

/-- The state when the lines of a file are read. -/
def State.enter (s : State) (path : String) : State :=
  { s with conditionals := [], includeStack := path :: s.includeStack }

/-- The state after the lines of a file, with the conditionals of the file around it. -/
def State.leave (s : State) (path : String) (tokens : List Token) (outer : List Conditional) :
    State :=
  { s with
    conditionals := outer
    includeStack := s.includeStack.drop 1
    guards := match Guard.detect tokens with
      | some guard => s.guards.insert path guard
      | none => s.guards }

/-- The lines of a file with the stack of conditionals, up to its end. -/
def readLines (e : Setting) (processFile : String → String → Step Unit) (path text : String) :
    Step Unit := do
  forM (Line.ofTokens (lex path text)) (processLine e processFile path)
  reportOpen (lex path text)

def unclosedComment? (path text : String) : Option Token :=
  (lex path text).find? (·.kind == .error .unclosedComment)

theorem outcome_readFile_unclosed {path text : String} {t : Token}
    (h : unclosedComment? path text = some t) (s : State) :
    outcome (readFile e processFile path text) s =
      (.error (Macro.lexFailure t .unclosedComment), s) := by
  unfold unclosedComment? at h
  unfold readFile
  simp only [h]
  rfl

theorem outcome_readFile {path text : String} (h : unclosedComment? path text = none) (s : State) :
    outcome (readFile e processFile path text) s =
      outcome (readLines e processFile path text >>=
        fun _ => modify (·.leave path (lex path text) s.conditionals)) (s.enter path) := by
  unfold unclosedComment? at h
  unfold readFile readLines
  simp only [h]
  rw [bind_assoc]
  rfl

theorem outcome_readGroups_unclosed {path text : String} {t : Token}
    (h : unclosedComment? path text = some t) (p : Parts) (s : State) :
    outcome (readGroups e processFile path text p) s =
      (.error (Macro.lexFailure t .unclosedComment), s) := by
  unfold unclosedComment? at h
  unfold readGroups
  simp only [h]
  rfl

theorem outcome_readGroups {path text : String} (h : unclosedComment? path text = none) (p : Parts)
    (s : State) :
    outcome (readGroups e processFile path text p) s =
      outcome (p.read e processFile path >>=
        fun _ => modify fun t => t.leave path (lex path text) t.conditionals)
        ((s.enter path).under s.conditionals) := by
  unfold unclosedComment? at h
  unfold readGroups
  simp only [h]
  rfl

/-- What a file opens and does not close ends with the file. -/
theorem mirrors_readFile
    (inner : ∀ path text, SameReading (processFile path text) (processFile' path text))
    (stack : List Conditional) (path text : String) :
    Mirrors stack stack (readFile e processFile path text) (readFile e processFile' path text) := by
  intro s
  rcases h : unclosedComment? path text with _ | t
  · have lines : SameReading (readLines e processFile path text)
        (readLines e processFile' path text) :=
      (sameReading_lines inner path _).bind fun _ => .refl _
    obtain ⟨result, rest, kept⟩ := lines (s.enter path)
    -- The conditionals of the file around are put aside, so both read from the same state.
    have start : (s.under stack).enter path = s.enter path := rfl
    rw [outcome_readFile h, outcome_readFile h, start, outcome_bind, outcome_bind]
    rcases hx : outcome (readLines e processFile path text) (s.enter path) with ⟨r, t⟩
    rcases hy : outcome (readLines e processFile' path text) (s.enter path) with ⟨r', t'⟩
    rw [hx, hy] at result rest kept
    cases result
    cases r with
    | error err =>
      have back : t = t'.under t.conditionals := by
        calc t = (t.under []).under t.conditionals := rfl
          _ = (t'.under []).under t.conditionals := by rw [rest]
          _ = t'.under t.conditionals := rfl
      exact ⟨t.conditionals, congrArg _ back, fun _ ha => by cases ha⟩
    | ok v =>
      cases kept v rfl
      exact ⟨stack, rfl, fun _ _ => ⟨rfl, rfl⟩⟩
  · rw [outcome_readFile_unclosed h, outcome_readFile_unclosed h]
    exact ⟨stack, rfl, fun _ ha => by cases ha⟩

theorem mirrors_readGroups (inner : Mirrored processFile processFile') (stack : List Conditional)
    {path text : String} {p : Parts} (nests : p.lines = Line.ofTokens (lex path text)) :
    Mirrors stack stack (readFile e processFile path text)
      (readGroups e processFile' path text p) := by
  intro s
  rcases h : unclosedComment? path text with _ | t
  · have whole : Mirrors [] stack
        (readLines e processFile path text >>=
          fun _ => modify (·.leave path (lex path text) stack))
        (p.read e processFile' path >>=
          fun _ => modify fun t => t.leave path (lex path text) t.conditionals) := by
      unfold readLines
      rw [← nests]
      refine ((mirrors_parts e path inner rfl p).then_silent fun _ => rfl).bind fun _ => ?_
      exact .modify (fun _ => rfl) (fun _ => rfl)
    rw [outcome_readFile h, outcome_readGroups h]
    exact whole ((s.enter path).under s.conditionals)
  · rw [outcome_readFile_unclosed h, outcome_readGroups_unclosed h]
    exact ⟨stack, rfl, fun _ ha => by cases ha⟩

end Lines

/-- At every depth of inclusion the nested reading of a file does what the flat one does. -/
theorem mirrored_processNested (e : Setting) (depth : Nat) :
    Mirrored (processFile e depth) (processNested e depth) := by
  induction depth with
  | zero => exact fun _ _ _ => .pure ()
  | succ depth ih =>
    intro stack path text
    unfold processFile processNested
    apply Mirrors.get
    intro s
    have sees : (s.under stack).skips e path = s.skips e path := rfl
    rw [sees]
    split
    · split
      · rename_i p nests
        exact mirrors_readGroups ih stack (Parts.ofLines_eq_some.mp nests)
      · exact mirrors_readFile (fun _ _ => Mirrors.sameReading fun cs => ih cs _ _) stack _ _
    · exact .pure ()

/-- A file whose conditionals nest, read with the flat stack of conditionals: output, macros, constants,
files read once, include stack, guards, diagnostics and success or fatal error are those of the
recursive reading of its groups. -/
theorem nested_reading (e : Setting) (depth : Nat) (path text : String) (p : Parts)
    (nests : p.lines = Line.ofTokens (lex path text)) :
    SameReading (processFile e (depth + 1) path text) (processNested e (depth + 1) path text) ∧
      processNested e (depth + 1) path text = (do
        if !(← get).skips e path then readGroups e (processNested e depth) path text p) := by
  constructor
  · exact Mirrors.sameReading fun stack => mirrored_processNested e (depth + 1) stack path text
  · rw [processNested, Parts.ofLines_eq_some.mpr nests]

/-- A dead branch with a group inside it, and a live one after it. -/
def deadGroup : String := "#if 0\n#ifdef A\n#else\n#define B\n#endif\n#elif 1\nint\n#endif\n"

theorem nested_reading_deadGroup :
    ∃ p : Parts, p.lines = Line.ofTokens (lex "a.h" deadGroup) ∧
      SameReading (processFile ⟨.ofList [("a.h", deadGroup)], {}, true⟩ 1 "a.h" deadGroup)
        (processNested ⟨.ofList [("a.h", deadGroup)], {}, true⟩ 1 "a.h" deadGroup) ∧
      processNested ⟨.ofList [("a.h", deadGroup)], {}, true⟩ 1 "a.h" deadGroup = (do
        if !(← get).skips ⟨.ofList [("a.h", deadGroup)], {}, true⟩ "a.h" then
          readGroups ⟨.ofList [("a.h", deadGroup)], {}, true⟩
            (processNested ⟨.ofList [("a.h", deadGroup)], {}, true⟩ 0) "a.h" deadGroup p) := by
  have found : (Parts.ofLines (Line.ofTokens (lex "a.h" deadGroup))).isSome = true := by
    decide +kernel
  obtain ⟨p, read⟩ := Option.isSome_iff_exists.mp found
  have nests := Parts.ofLines_eq_some.mp read
  exact ⟨p, nests, nested_reading _ 0 "a.h" deadGroup p nests⟩

end HeaderDecl.Preprocess
