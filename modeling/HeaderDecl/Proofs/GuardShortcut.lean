import HeaderDecl.Proofs.GuardedSteps
import HeaderDecl.Proofs.NestedReading
import Mathlib.Tactic.ByContra

/-!
The include-guard shortcut. A header that its guard wraps, and whose outermost conditional has no
further branch, is silent when it is read again; so skipping it changes nothing but time.
-/

namespace HeaderDecl

namespace Preprocess

/-! ### Headers within one conditional -/

/-- Whether lines inside a conditional, at some depth within it, end with its end: the conditional has
no further branch, and nothing stands behind it. -/
def endsGroup : Nat → List Line → Bool
  | _, [] => false
  | depth, l :: ls =>
    match Mark.ofLine l with
    | .plain _ _ => endsGroup depth ls
    | .opens _ => endsGroup (depth + 1) ls
    | .elseIf _ | .otherwise _ => depth ≠ 0 && endsGroup depth ls
    | .close _ =>
      match depth with
      | 0 => ls.isEmpty
      | depth + 1 => endsGroup depth ls

/-- Whether the lines of a header are one conditional with a single branch. -/
def isSingleBranch (tokens : List Token) : Bool :=
  match Line.ofTokens tokens with
  | [] => false
  | l :: ls =>
    match Mark.ofLine l with
    | .opens _ => endsGroup 0 ls
    | _ => false

/-- A conditional within dead text. -/
def IsDead (c : Conditional) : Prop := c.hadTrue = true ∧ c.state ≠ .active

section Silence

variable (e : Setting) (processFile : String → String → Step Unit) (current : String)

theorem isSkipping_dead {inner : List Conditional} (dead : ∀ c ∈ inner, IsDead c)
    (outer : Conditional) (skipping : outer.state ≠ .active) (rest : List Conditional) :
    Conditional.isSkipping (inner ++ outer :: rest) = true := by
  cases inner with
  | nil => simpa [Conditional.isSkipping] using skipping
  | cons c cs =>
    have hc : c.state ≠ .active := (dead c List.mem_cons_self).2
    simpa [Conditional.isSkipping] using hc

/-- The rest of a conditional whose only branch is dead does nothing but close it. The conditionals
within it are those that dead text has opened. -/
theorem silent_endsGroup (ls : List Line) : ∀ (inner : List Conditional),
    (∀ c ∈ inner, IsDead c) → endsGroup inner.length ls = true →
      Silent (inner ++ [⟨.skipping, false⟩]) [] (forM ls (processLine e processFile current)) := by
  induction ls with
  | nil => exact fun _ _ ends => False.elim (Bool.false_ne_true ends)
  | cons l ls ih =>
    intro inner dead ends
    have skips : Conditional.isSkipping (inner ++ [⟨.skipping, false⟩]) = true :=
      isSkipping_dead dead _ (by decide) []
    obtain ⟨m, rfl⟩ : ∃ m : Mark, m.line = l := ⟨_, Mark.line_ofLine l⟩
    unfold endsGroup at ends
    rw [Mark.ofLine_line] at ends
    cases m with
    | plain l free =>
      exact (silent_plain e processFile current skips free).cons (ih inner dead ends)
    | opens opening =>
      -- A group in dead text is opened as one that had its branch.
      have opened : ∀ c ∈ (⟨.skipping, true⟩ :: inner : List Conditional), IsDead c :=
        List.forall_mem_cons.mpr ⟨⟨rfl, by decide⟩, dead⟩
      exact (silent_opening e processFile current skips opening).cons (ih _ opened ends)
    | elseIf d =>
      simp only [Bool.and_eq_true] at ends
      obtain ⟨nested, ends⟩ := ends
      cases inner with
      | nil => exact False.elim (of_decide_eq_true nested rfl)
      | cons c cs =>
        obtain ⟨top, below⟩ := List.forall_mem_cons.mp dead
        obtain ⟨c', taken, still, entered⟩ := silent_elif e processFile current top.1
          (cs ++ [⟨.skipping, false⟩]) d
        have dead' : ∀ b ∈ c' :: cs, IsDead b := List.forall_mem_cons.mpr ⟨⟨taken, still⟩, below⟩
        exact entered.cons (ih (c' :: cs) dead' ends)
    | otherwise d =>
      simp only [Bool.and_eq_true] at ends
      obtain ⟨nested, ends⟩ := ends
      cases inner with
      | nil => exact False.elim (of_decide_eq_true nested rfl)
      | cons c cs =>
        obtain ⟨top, below⟩ := List.forall_mem_cons.mp dead
        have entered := silent_else e processFile current top.1 (cs ++ [⟨.skipping, false⟩]) d
        have dead' : ∀ b ∈ (⟨.done, true⟩ :: cs : List Conditional), IsDead b :=
          List.forall_mem_cons.mpr ⟨⟨rfl, by decide⟩, below⟩
        exact entered.cons (ih (⟨.done, true⟩ :: cs) dead' ends)
    | close d =>
      cases inner with
      | nil =>
        -- The outermost conditional ends, and the header with it.
        have last : ls = [] := List.isEmpty_iff.mp ends
        subst last
        exact (silent_endif e processFile current ⟨.skipping, false⟩ [] d).cons (.pure [])
      | cons c cs =>
        have closed := silent_endif e processFile current c (cs ++ [⟨.skipping, false⟩]) d
        exact closed.cons (ih cs (List.forall_mem_cons.mp dead).2 ends)

end Silence

end Preprocess

/-! ### Guards -/

namespace Guard

/-- A header that is found guarded begins with the guard's `#ifndef`, and before the definition of the
guard it has no text of its own. -/
theorem detect_eq_some {tokens : List Token} {name : String} (h : detect tokens = some name) :
    ∃ hash ifndef guard more, tokens = hash :: ifndef :: guard :: more ∧ hash.is .hash = true ∧
      ifndef.text = "ifndef" ∧ guard.isWord = true ∧ guard.text = name ∧
        closes name 0 false tokens = true := by
  unfold detect at h
  split at h
  · rename_i hash ifndef guard more
    split at h
    · rename_i found
      cases h
      simp only [Bool.and_eq_true, decide_eq_true_eq] at found
      obtain ⟨⟨⟨isHash, spelled⟩, isWord⟩, closed⟩ := found
      exact ⟨hash, ifndef, guard, more, rfl, isHash, spelled, isWord, rfl, closed⟩
    · cases h
  · cases h

theorem not_beginsDirective_of_word {t : Token} (h : t.isWord = true) :
    t.beginsDirective = false ∧ t.isEof = false := by
  obtain ⟨kind, text, span, loc, lineStart, spaced⟩ := t
  cases kind <;> simp_all [Token.isWord, TokenKind.isWord, Token.beginsDirective, Token.is,
    Token.isEof]

/-- A word in front of the definition of the guard is text that is not guarded. -/
theorem closes_word {t : Token} (h : t.isWord = true) (name : String) (depth : Nat)
    (ts : List Token) : closes name depth false (t :: ts) = false := by
  obtain ⟨noDirective, noEnd⟩ := not_beginsDirective_of_word h
  rw [closes]
  simp [noDirective, noEnd]

end Guard

namespace Preprocess

theorem exists_opening {tokens : List Token} (single : isSingleBranch tokens = true) :
    ∃ (opening : Opening) (ls : List Line),
      Line.ofTokens tokens = opening.line :: ls ∧ endsGroup 0 ls = true := by
  unfold isSingleBranch at single
  split at single
  · cases single
  · rename_i l ls lines
    split at single
    · rename_i opening marked
      have same : opening.line = l := by
        have back := Mark.line_ofLine l
        rwa [marked] at back
      exact ⟨opening, ls, by rw [same, lines], single⟩
    · cases single

/-- A guarded header that is one conditional with a single branch begins with `#ifndef` and the name of
its guard on one line. -/
theorem exists_ifndef {tokens : List Token} {name : String} (found : Guard.detect tokens = some name)
    (single : isSingleBranch tokens = true) :
    ∃ (d : Marker "ifndef") (guard : Token) (ls : List Line),
      Line.ofTokens tokens = d.line :: ls ∧ endsGroup 0 ls = true ∧
        d.rest.head?.filter Token.isWord = some guard ∧ guard.text = name := by
  obtain ⟨hash, ifndef, guard, more, rfl, isHash, spelled, isWord, rfl, closed⟩ :=
    Guard.detect_eq_some found
  obtain ⟨opening, ls, lines, ends⟩ := exists_opening single
  have notEnd : hash.isEof = false := by
    simp only [Token.is, beq_iff_eq] at isHash
    simp [Token.isEof, isHash]
  have begins : hash.beginsDirective = true := by
    by_contra other
    rw [Guard.closes] at closed
    simp [other, notEnd] at closed
  rw [Line.ofTokens] at lines
  simp only [notEnd, begins, Bool.false_eq_true, if_false, if_true, List.cons.injEq] at lines
  obtain ⟨first, rest⟩ := lines
  -- The word behind the hash stands on its line, since the line opens a conditional.
  have inLine : ifndef.beginsLine = false := by
    by_contra other
    have none : List.takeWhile (fun u => !u.beginsLine) (ifndef :: guard :: more) = [] := by
      simp [other]
    rw [none] at first
    cases opening <;> cases first
  -- And so does the guard, which would be text in front of its definition otherwise.
  have guardInLine : guard.beginsLine = false := by
    by_contra other
    have next : List.dropWhile (fun u => !u.beginsLine) (ifndef :: guard :: more) =
        guard :: more := by
      simp [inLine, other]
    rw [Guard.closes] at closed
    simp only [begins, if_true, Guard.headText, List.head?_cons, Option.map_some, Option.getD_some,
      spelled, next] at closed
    simp [Guard.closes_word isWord] at closed
  have words : List.takeWhile (fun u => !u.beginsLine) (ifndef :: guard :: more) =
      ifndef :: guard :: List.takeWhile (fun u => !u.beginsLine) more := by
    simp [inLine, guardInLine]
  rw [words] at first
  have whole : Line.ofTokens (hash :: ifndef :: guard :: more) =
      .directive hash (ifndef :: guard :: List.takeWhile (fun u => !u.beginsLine) more) :: ls := by
    rw [Line.ofTokens]
    simp [notEnd, begins, words, rest]
  refine ⟨⟨hash, ifndef, _, spelled⟩, guard, ls, whole, ends, ?_, rfl⟩
  simp [isWord]

section Rereading

variable {e : Setting} {processFile : String → String → Step Unit} {path text name : String}

theorem outcome_ifndef_defined {d : Marker "ifndef"} {guard : Token} {s : State}
    (guarded : d.rest.head?.filter Token.isWord = some guard)
    (defined : s.macros.contains guard.text = true) (live : s.conditionals = []) :
    outcome (processLine e processFile path d.line) s =
      (.ok (), s.under [⟨.skipping, false⟩]) := by
  rw [processLine_ifndef]
  unfold ifDefined
  rw [outcome_bind, outcome_get, guarded]
  simp only [defined]
  unfold openConditional
  rw [outcome_modify, live]
  rfl

/-- A guarded header in one conditional with a single branch leaves no trace when it is read while its
guard is defined. -/
theorem outcome_rereading (whole : unclosedComment? path text = none)
    (found : Guard.detect (lex path text) = some name) (single : isSingleBranch (lex path text) = true)
    {s : State} (defined : s.macros.contains name = true) :
    outcome (readFile e processFile path text) s =
      (.ok (), s.knowing (s.guards.insert path name)) := by
  obtain ⟨d, guard, ls, lines, ends, guarded, rfl⟩ := exists_ifndef found single
  have first : outcome (processLine e processFile path d.line) (s.enter path) =
      (.ok (), (s.enter path).under [⟨.skipping, false⟩]) :=
    outcome_ifndef_defined guarded defined rfl
  have others : outcome (forM ls (processLine e processFile path))
      ((s.enter path).under [⟨.skipping, false⟩]) = (.ok (), (s.enter path).under []) :=
    silent_endsGroup e processFile path ls [] (by simp) ends (s.enter path)
  have read : outcome (readLines e processFile path text) (s.enter path) =
      (.ok (), (s.enter path).under []) := by
    unfold readLines
    rw [lines, outcome_bind, List.forM_cons, outcome_bind, first]
    simp only [others]
    rfl
  rw [outcome_readFile whole, outcome_bind, read]
  simp only [outcome_modify, State.leave, found]
  rfl

end Rereading

/-! ### Runs -/

/-- Records that say the same of guards, and only what is true of the headers. -/
structure SameGuards (sources : SourceMap) (g g' : NameMap String) : Prop where
  same : ∀ path, g'.get? path = g.get? path
  found : ∀ path name, g.get? path = some name → ∃ text, sources.stored? path = some text ∧
    unclosedComment? path text = none ∧ Guard.detect (lex path text) = some name

section Runs

variable {sources : SourceMap} {config : Config} {path text name : String}

theorem SameGuards.insert {g g' : NameMap String} (h : SameGuards sources g g')
    (stored : sources.stored? path = some text) (whole : unclosedComment? path text = none)
    (found : Guard.detect (lex path text) = some name) :
    SameGuards sources (g.insert path name) (g'.insert path name) := by
  refine ⟨fun p => ?_, fun p n hn => ?_⟩
  · rw [NameMap.get?_insert, NameMap.get?_insert, h.same]
  · rw [NameMap.get?_insert] at hn
    by_cases hp : p = path
    · subst hp
      rw [if_pos rfl] at hn
      cases hn
      exact ⟨text, stored, whole, found⟩
    · rw [if_neg hp] at hn
      exact h.found p n hn

/-- Finding a guard again tells nothing new. -/
theorem SameGuards.again {g g' : NameMap String} (h : SameGuards sources g g')
    (known : g.get? path = some name) : SameGuards sources g (g'.insert path name) := by
  refine ⟨fun p => ?_, h.found⟩
  rw [NameMap.get?_insert, h.same]
  by_cases hp : p = path
  · rw [if_pos hp, hp, known]
  · rw [if_neg hp]

theorem shadows_readFile {e : Setting} {processFile processFile' : String → String → Step Unit}
    (inner : ShadowsFiles (SameGuards e.sources) e.sources processFile processFile')
    (stored : e.sources.stored? path = some text) :
    Shadows (SameGuards e.sources) (readFile e processFile path text)
      (readFile e processFile' path text) := by
  intro s w related
  rcases whole : unclosedComment? path text with _ | t
  · have lines : Shadows (SameGuards e.sources) (readLines e processFile path text)
        (readLines e processFile' path text) :=
      (shadows_lines inner path _).bind fun _ => shadows_reportOpen _
    obtain ⟨w', related', same⟩ := lines (s.enter path) w related
    have start : (s.knowing w).enter path = (s.enter path).knowing w := rfl
    rw [outcome_readFile whole, outcome_readFile whole, start, outcome_bind, outcome_bind, same]
    rcases read : outcome (readLines e processFile path text) (s.enter path) with ⟨_ | v, t⟩
    · rw [read] at related'
      exact ⟨w', related', rfl⟩
    · rw [read] at related'
      -- At its end the header's guard goes into both records, if it has one.
      cases found : Guard.detect (lex path text) with
      | none =>
        refine ⟨w', ?_, ?_⟩
        · simpa only [outcome_modify, State.leave, found] using related'
        · simp only [outcome_modify, State.leave, found]
          rfl
      | some name =>
        refine ⟨w'.insert path name, ?_, ?_⟩
        · simpa only [outcome_modify, State.leave, found] using related'.insert stored whole found
        · simp only [outcome_modify, State.leave, found]
          rfl
  · rw [outcome_readFile_unclosed whole, outcome_readFile_unclosed whole]
    exact ⟨w, related, rfl⟩

theorem outcome_processFile (e : Setting) (depth : Nat) (path text : String) (s : State) :
    outcome (processFile e (depth + 1) path text) s =
      if s.skips e path then (.ok (), s)
      else outcome (readFile e (processFile e depth) path text) s := by
  rw [processFile, outcome_bind, outcome_get]
  dsimp only
  cases s.skips e path with
  | true => rfl
  | false => rfl

/-- Whether a header that is being read, or that asked to be read once, is skipped does not depend on
the shortcut. -/
theorem skips_eq (e : Setting) (s : State) (path : String) :
    s.skips e path = (s.onceFiles.contains path || s.includeStack.contains path ||
      (e.guardShortcut && (s.guards.get? path).any s.macros.contains)) := by
  unfold State.skips
  cases s.onceFiles.contains path <;> cases s.includeStack.contains path <;> simp

/-- Without the shortcut a header that is skipped for its guard is read again, and is silent. -/
theorem shadows_processFile
    (single : ∀ path text, sources.stored? path = some text →
      (Guard.detect (lex path text)).isSome → isSingleBranch (lex path text) = true)
    (depth : Nat) : ShadowsFiles (SameGuards sources) sources
      (processFile ⟨sources, config, true⟩ depth) (processFile ⟨sources, config, false⟩ depth) := by
  induction depth with
  | zero => exact fun _ _ _ => .pure ()
  | succ depth ih =>
    intro path text stored s w related
    rw [outcome_processFile, outcome_processFile, skips_eq, skips_eq]
    have once : (s.knowing w).onceFiles = s.onceFiles := rfl
    have around : (s.knowing w).includeStack = s.includeStack := rfl
    rw [once, around]
    cases skipped : s.onceFiles.contains path || s.includeStack.contains path with
    | true => exact ⟨w, related, rfl⟩
    | false =>
      simp only [Bool.false_or, Bool.true_and, Bool.false_and, Bool.false_eq_true, if_false]
      by_cases guarded : (s.guards.get? path).any s.macros.contains = true
      · rw [if_pos guarded]
        obtain ⟨name, known, defined⟩ : ∃ name, s.guards.get? path = some name ∧
            s.macros.contains name = true := by
          cases known : s.guards.get? path with
          | none =>
            rw [known] at guarded
            cases guarded
          | some name =>
            rw [known] at guarded
            exact ⟨name, rfl, guarded⟩
        obtain ⟨text', stored', whole, found⟩ := related.found path name known
        obtain rfl : text' = text := Option.some.inj (stored'.symm.trans stored)
        have branch := single path text' stored (by rw [found]; rfl)
        refine ⟨w.insert path name, related.again known, ?_⟩
        exact outcome_rereading whole found branch (s := s.knowing w) defined
      · rw [if_neg guarded]
        have same : Shadows (SameGuards sources)
            (readFile ⟨sources, config, true⟩ (processFile ⟨sources, config, true⟩ depth) path text)
            (readFile ⟨sources, config, true⟩ (processFile ⟨sources, config, false⟩ depth) path
              text) := shadows_readFile (e := ⟨sources, config, true⟩) ih stored
        exact same s w related

/-- If each header that is found guarded is one conditional with a single branch, a run gives the same
tokens, constants, diagnostics and success or fatal error without the shortcut, where every repeated
header is read again. -/
theorem run_guardShortcut (sources : SourceMap) (config : Config)
    (single : ∀ path text, sources.stored? path = some text →
      (Guard.detect (lex path text)).isSome → isSingleBranch (lex path text) = true)
    (path : String) : run ⟨sources, config, true⟩ path = run ⟨sources, config, false⟩ path := by
  unfold run
  dsimp only
  cases entry : sources.entry? path with
  | none => rfl
  | some found =>
    obtain ⟨path, text⟩ := found
    have start : SameGuards sources (State.initial config).guards .empty :=
      ⟨fun _ => rfl, fun p n h => by cases h⟩
    have processed : ShadowsFiles (SameGuards sources) sources
        (processFile ⟨sources, config, true⟩ (sources.size + 1))
        (processFile ⟨sources, config, false⟩ (sources.size + 1)) := shadows_processFile single _
    obtain ⟨w, -, same⟩ := processed path text (stored_of_entry entry) (State.initial config) .empty
      start
    have here : (State.initial config).knowing .empty = State.initial config := rfl
    rw [here] at same
    unfold outcome at same
    dsimp only
    rw [same]
    rfl

end Runs

/-- A file that includes a header twice. -/
def twice (header : String) : SourceMap :=
  .ofList [("main.h", "#include \"g.h\"\n#include \"g.h\"\n"), ("g.h", header)]

/-- A guarded header with branches of its own. -/
def guardedHeader : String :=
  "#ifndef G\n#define G\n#if 0\nint a;\n#else\nint b;\n#endif\n#endif\n"

theorem mem_files_of_stored {sources : SourceMap} {path text : String}
    (h : sources.stored? path = some text) : (path, text) ∈ sources.files := by
  obtain ⟨before, after, same, -⟩ := List.lookup_eq_some_iff.mp h
  rw [same]
  simp

theorem run_guardShortcut_twice :
    (∀ path text, (twice guardedHeader).stored? path = some text →
      (Guard.detect (lex path text)).isSome → isSingleBranch (lex path text) = true) ∧
    Guard.detect (lex "g.h" guardedHeader) = some "G" ∧
    run ⟨twice guardedHeader, {}, true⟩ "main.h" = run ⟨twice guardedHeader, {}, false⟩ "main.h" := by
  have single : ∀ f ∈ (twice guardedHeader).files,
      (Guard.detect (lex f.1 f.2)).isSome → isSingleBranch (lex f.1 f.2) = true := by
    decide +kernel
  have single' : ∀ path text, (twice guardedHeader).stored? path = some text →
      (Guard.detect (lex path text)).isSome → isSingleBranch (lex path text) = true :=
    fun path text stored => single (path, text) (mem_files_of_stored stored)
  exact ⟨single', by decide +kernel, run_guardShortcut _ {} single' "main.h"⟩

/-- A header that reports its second inclusion. -/
def outerElse : String := "#ifndef G\n#define G\n#else\n#error included twice\n#endif\n"

/-- A header is found guarded although its guard has a further branch, which is live in a second
reading. -/
theorem run_guardShortcut_else :
    run ⟨twice outerElse, {}, true⟩ "main.h" ≠ run ⟨twice outerElse, {}, false⟩ "main.h" := by
  intro same
  have count := congrArg (fun r => r.2.length) same
  have once : (run ⟨twice outerElse, {}, true⟩ "main.h").2.length = 0 := by decide +kernel
  have again : (run ⟨twice outerElse, {}, false⟩ "main.h").2.length = 1 := by decide +kernel
  rw [once, again] at count
  cases count

end Preprocess

end HeaderDecl
