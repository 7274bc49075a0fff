import HeaderDecl.Extraction
import HeaderDecl.Proofs.ExpansionResults
import HeaderDecl.Proofs.GuardShortcut

/-!
Files of plain text, without directives and without macros, which come out of preprocessing as they
are written.
-/

namespace HeaderDecl

namespace Preprocess

variable {e : Setting} {processFile : String → String → Step Unit} {s : State} {ts out : List Token}

theorem outcome_text (current : String) (live : s.isSkipping = false)
    (expanded : Macro.expand (e.scope s) [] ts = .ok out) :
    outcome (processLine e processFile current (.text ts)) s =
      (.ok (), { s with output := s.output ++ out }) := by
  unfold processLine
  dsimp only
  rw [outcome_bind, outcome_get]
  dsimp only
  rw [live, expanded]
  rfl

theorem outcome_reportOpen (tokens : List Token) (closed : s.conditionals = []) :
    outcome (reportOpen tokens) s = (.ok (), s) := by
  unfold reportOpen
  rw [outcome_bind, outcome_get]
  dsimp only
  rw [closed]
  rfl

/-- A file whose lines are one text without macros comes to the tokens of the text. -/
theorem preprocess_plain {sources : SourceMap} {config : Config} {path stored text : String}
    (entry : sources.entry? path = some (stored, text))
    (whole : unclosedComment? stored text = none)
    (lines : Line.ofTokens (lex stored text) = [.text ts])
    (plain : ∀ t ∈ ts, Macro.IsPlain ⟨(State.initial config).macros, config.strippedMacros⟩ t) :
    preprocess sources path config =
      (.ok ⟨ts ++ [.eofAt (endLocation stored ts.toArray)], []⟩, []) := by
  let e : Setting := { sources, config }
  let start : State := (State.initial config).enter stored
  let read : State := { start with output := start.output ++ ts }
  have unread : (State.initial config).skips e stored = false := by
    simp [State.skips, State.initial, NameMap.get?, NameMap.empty, NameMap.find]
  have expanded : Macro.expand (e.scope start) [] ts = .ok ts := Macro.expand_plain plain
  have closes : outcome (reportOpen (lex stored text)) read = (.ok (), read) :=
    outcome_reportOpen _ rfl
  have reads (inner : String → String → Step Unit) :
      outcome (readLines e inner stored text) start = (.ok (), read) := by
    unfold readLines
    rw [lines, List.forM_cons, List.forM_nil, bind_assoc, outcome_bind,
      outcome_text stored rfl expanded]
    exact closes
  have ran : outcome (Preprocess.processFile e (sources.size + 1) stored text)
      (State.initial config) = (.ok (), read.leave stored (lex stored text) []) := by
    rw [outcome_processFile, unread, if_neg Bool.false_ne_true, outcome_readFile whole,
      outcome_bind, reads]
    rfl
  have output : (read.leave stored (lex stored text) []).output = ts.toArray := by
    simp [read, start, State.leave, State.enter, State.initial]
  unfold outcome at ran
  unfold preprocess run
  rw [entry]
  dsimp only
  rw [ran]
  dsimp only
  rw [output]
  rfl

end Preprocess

/-- The model of a file is that of the declarations in what preprocessing gives. -/
theorem model_extractFile {sources : SourceMap} {config : Config} {path : String}
    {p : Preprocessed} {ds : List Diagnostic}
    (preprocessed : preprocess sources path config = (.ok p, ds)) :
    (extractFile sources path config).model =
      (resolve (parseUnit p.tokens).1 p.constants config).1.toOption := by
  unfold extractFile resolveFile
  rw [preprocessed]
  dsimp only
  rcases resolve (parseUnit p.tokens).1 p.constants config with ⟨_ | m, ds'⟩ <;> rfl

/-! ### Headers -/

/-- A file with one header. -/
def headerFile (text : String) : SourceMap := .ofList [("a.h", text)]

/-- The tokens of a header without their end. -/
def headerTokens (text : String) : List Token := (lex "a.h" text).dropLast

/-- The declarations that a header comes to where it is plain text. -/
def headerModel (text : String) : Option Model :=
  let end' : Token := .eofAt (Preprocess.endLocation "a.h" (headerTokens text).toArray)
  (resolve (parseUnit (headerTokens text ++ [end'])).1 [] {}).1.toOption

theorem extractFile_header {text : String} (whole : Preprocess.unclosedComment? "a.h" text = none)
    (entry : SourceMap.entry? (headerFile text) "a.h" = some ("a.h", text))
    (lines : Line.ofTokens (lex "a.h" text) = [.text (headerTokens text)])
    (wellFormed : ∀ t ∈ headerTokens text, t.kind.isError = false) :
    (extractFile (headerFile text) "a.h" {}).model = headerModel text := by
  have plain : ∀ t ∈ headerTokens text, Macro.IsPlain ⟨(Preprocess.State.initial {}).macros, []⟩ t := by
    intro t ht
    refine ⟨fun e malformed => ?_, rfl, rfl⟩
    have fine := wellFormed t ht
    rw [malformed] at fine
    cases fine
  exact model_extractFile (Preprocess.preprocess_plain entry whole lines plain)

end HeaderDecl
