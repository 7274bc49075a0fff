import HeaderDecl.Condition.Query
import HeaderDecl.Directive.Branch
import HeaderDecl.Directive.Constant
import HeaderDecl.Directive.Guard
import HeaderDecl.Source.SourceMap

/-!
Preprocessing: the directives of a file and of what it includes, and the expansion of the live text
between them.
-/

namespace HeaderDecl

/-- What a file comes to: tokens that end with the end token, and the constants it defines. -/
structure Preprocessed where
  tokens : List Token
  constants : List MacroConstant
deriving DecidableEq, Repr

namespace Preprocess

/-- What preprocessing works with and does not change. Without the shortcut every repeated header is
read again, also one that its guard makes empty. -/
structure Setting where
  sources : SourceMap
  config : Config
  guardShortcut : Bool := true

/-- The state of preprocessing. The conditionals are those of the file at hand; the innermost one and
the innermost include come first. -/
structure State where
  macros : MacroTable
  conditionals : List Conditional := []
  includeStack : List String := []
  onceFiles : List String := []
  guards : NameMap String := .empty
  output : Array Token := #[]
  constants : List MacroConstant := []
  diagnostics : Array Diagnostic := #[]

/-- A step of preprocessing. A fatal error ends it and keeps what has been reported. -/
abbrev Step := ExceptT FatalError (StateM State)

def State.initial (config : Config) : State :=
  { macros := config.enabledFlags.foldl (fun m flag => m.insert flag .enabledFlag) .empty }

def State.isSkipping (s : State) : Bool := Conditional.isSkipping s.conditionals

/-- The macros as expansion sees them. -/
def Setting.scope (e : Setting) (s : State) : Macro.Scope := ⟨s.macros, e.config.strippedMacros⟩

def report (kind : DiagnosticKind) (loc : Location) (message : String) : Step Unit :=
  modify fun s => { s with diagnostics := s.diagnostics.push (.atLocation kind loc message) }

def malformed (hash : Token) (message : String) : Step Unit :=
  report .malformedDirective hash.loc message

def unbalanced (hash : Token) (directive : String) : Step Unit :=
  report .unbalancedConditional hash.loc s!"{directive} without #if"

/-! ### Conditionals -/

/-- Whether a condition holds. A malformed one does not. -/
def condition (e : Setting) (hash : Token) (rest : List Token) : Step Bool := do
  let s ← get
  let isHeader (target : String) : Bool := (e.sources.entry? (FilePath.normalize target)).isSome
  match Condition.resolveQueries s.macros.contains isHeader rest with
  | .error message =>
    malformed hash message
    return false
  | .ok replaced =>
    let expanded ← Macro.expand (e.scope s) [] replaced
    match Condition.evaluate expanded with
    | some value => return value ≠ 0
    | none =>
      malformed hash s!"invalid conditional expression `{spell rest}`"
      return false

def openConditional (holds : Bool) : Step Unit :=
  modify fun s => { s with conditionals := Conditional.opened s.conditionals holds }

/-- Opens a conditional on whether a macro is defined. -/
def ifDefined (hash : Token) (rest : List Token) (wanted : Bool) : Step Unit := do
  let s ← get
  match rest.head?.filter Token.isWord with
  | some t => openConditional (s.macros.contains t.text == wanted)
  | none =>
    if !s.isSkipping then malformed hash "expected a macro name"
    openConditional false

def elseIf (e : Setting) (hash : Token) (rest : List Token) : Step Unit := do
  let s ← get
  let holds ← if Conditional.awaitsCondition s.conditionals then condition e hash rest else pure false
  match s.conditionals with
  | c :: cs => modify fun s => { s with conditionals := c.elseIf holds :: cs }
  | [] => unbalanced hash "#elif"

def otherwise (hash : Token) : Step Unit := do
  match (← get).conditionals with
  | c :: cs => modify fun s => { s with conditionals := c.otherwise :: cs }
  | [] => unbalanced hash "#else"

def endConditional (hash : Token) : Step Unit := do
  match (← get).conditionals with
  | _ :: cs => modify fun s => { s with conditionals := cs }
  | [] => unbalanced hash "#endif"

/-! ### Macros -/

/-- Puts a macro into force. -/
def State.define (s : State) (name : String) (m : MacroDef) : State :=
  { s with macros := s.macros.insert name m }

/-- Defines an object-like macro, and records its value if it has one. -/
def defineObject (e : Setting) (name : Token) (body : List Token) : Step Unit :=
  modify fun s =>
    let constants := match MacroConstant.valueOf (e.scope s) body with
      | some value => MacroConstant.record ⟨name.text, value, name.loc⟩ s.constants
      | none => s.constants
    { s with constants }.define name.text ⟨none, none, body⟩

def define (e : Setting) (hash : Token) (rest : List Token) : Step Unit :=
  match rest with
  | [] => malformed hash "expected a macro name"
  | name :: body =>
    if !name.isWord then malformed hash "macro names must be identifiers"
    else match body with
      | t :: ts =>
        if t.is .lparen && !t.spaced then
          match MacroDef.readParams [] ts with
          | some (params, variadic, body) =>
            modify fun s => s.define name.text ⟨some params, variadic, body⟩
          | none => malformed hash "malformed macro parameter list"
        else defineObject e name body
      | [] => defineObject e name []

def undefine (hash : Token) (rest : List Token) : Step Unit :=
  match rest.head?.filter Token.isWord with
  | some t => modify fun s => { s with
      macros := s.macros.erase t.text
      constants := s.constants.filter (·.name ≠ t.text) }
  | none => malformed hash "expected a macro name"

/-! ### Includes -/

/-- The header that a target names from within a file: next to that file, or by its own path. -/
def Setting.findInclude (e : Setting) (current target : String) : Option (String × String) :=
  (e.sources.entry? (FilePath.relativeTo (FilePath.parent current) target)).or
    (e.sources.entry? (FilePath.normalize target))

/-- Includes a header in quotes. One that is not among the sources is left out, like every header in
angle brackets. -/
def includeHeader (e : Setting) (processFile : String → String → Step Unit) (current : String)
    (hash : Token) (rest : List Token) : Step Unit :=
  match rest with
  | t :: _ =>
    if t.kind == .string then do
      -- The file that includes stands on the stack too.
      if e.config.maxIncludeDepth ≤ (← get).includeStack.length then
        report .includeDepthExceeded hash.loc
          s!"#include nested too deeply (max {e.config.maxIncludeDepth})"
      else match e.findInclude current (Literal.string t.text) with
        | some (path, text) => processFile path text
        | none => pure ()
    else if t.is .less then pure ()
    else malformed hash "expected \"FILENAME\" or <FILENAME>"
  | [] => malformed hash "expected \"FILENAME\" or <FILENAME>"

/-! ### Files -/

/-- A directive that has no effect in dead text. -/
def liveDirective (e : Setting) (processFile : String → String → Step Unit) (current : String)
    (hash name : Token) (rest : List Token) : Step Unit :=
  match name.text with
  | "define" => define e hash rest
  | "undef" => undefine hash rest
  | "include" | "include_next" => includeHeader e processFile current hash rest
  | "pragma" =>
    if rest.head?.any (·.text = "once") then
      modify fun s => { s with onceFiles := current :: s.onceFiles }
    else pure ()
  | "error" => report .errorDirective hash.loc s!"#error {spell rest}"
  | "warning" => report .warningDirective hash.loc s!"#warning {spell rest}"
  | "line" | "ident" | "sccs" => pure ()
  | other =>
    if name.kind == .number then pure () else malformed hash s!"unknown directive #{other}"

def directive (e : Setting) (processFile : String → String → Step Unit) (current : String)
    (hash : Token) (line : List Token) : Step Unit := do
  match line with
  | [] => pure ()
  | name :: rest =>
    match name.text with
    | "ifdef" => ifDefined hash rest true
    | "ifndef" => ifDefined hash rest false
    | "if" =>
      -- In dead text a condition is not evaluated, so that it cannot be malformed.
      let holds ← if (← get).isSkipping then pure false else condition e hash rest
      openConditional holds
    | "elif" => elseIf e hash rest
    | "else" => otherwise hash
    | "endif" => endConditional hash
    | _ => if (← get).isSkipping then pure () else liveDirective e processFile current hash name rest

/-- A line of a file. Dead text is dropped, live text expanded. -/
def processLine (e : Setting) (processFile : String → String → Step Unit) (current : String) :
    Line → Step Unit
  | .directive hash rest => directive e processFile current hash rest
  | .text tokens => do
    let s ← get
    if !s.isSkipping then
      let expanded ← Macro.expand (e.scope s) [] tokens
      modify fun s => { s with output := s.output ++ expanded }

/-- Whether a file needs no reading: it asked to be read once, its guard is defined, or it is being
read already. -/
def State.skips (e : Setting) (s : State) (path : String) : Bool :=
  s.onceFiles.contains path ||
    (e.guardShortcut && (s.guards.get? path).any s.macros.contains) ||
    s.includeStack.contains path

/-- Ends a file whose conditionals may still be open. -/
def reportOpen (tokens : List Token) : Step Unit := do
  let n := (← get).conditionals.length
  if n ≠ 0 then
    report .unbalancedConditional ((tokens.getLast?.map Token.loc).getD .synthetic)
      s!"{n} unterminated conditional directive(s)"

/-- Reads a file within those on the include stack. Comments go before conditionals apply, so one that
is never closed is fatal also in dead text. -/
def readFile (e : Setting) (processFile : String → String → Step Unit) (path text : String) :
    Step Unit := do
  let tokens := lex path text
  if let some t := tokens.find? (·.kind == .error .unclosedComment) then
    throw (Macro.lexFailure t .unclosedComment)
  -- A file neither closes nor continues the conditionals of the one that includes it.
  let outer := (← get).conditionals
  modify fun s => { s with conditionals := [], includeStack := path :: s.includeStack }
  (Line.ofTokens tokens).forM (processLine e processFile path)
  reportOpen tokens
  modify fun s => { s with
    conditionals := outer
    includeStack := s.includeStack.drop 1
    guards := match Guard.detect tokens with
      | some guard => s.guards.insert path guard
      | none => s.guards }

/-- Processes a file with at most `depth` further files around it. No file includes itself, so the
number of sources is depth enough. -/
def processFile (e : Setting) : Nat → String → String → Step Unit
  | 0, _, _ => pure ()
  | depth + 1, path, text => do
    if !(← get).skips e path then readFile e (processFile e depth) path text

/-- Where the end token of a file's output stands: with the last token before it, if there is one. -/
def endLocation (path : String) (output : Array Token) : Location :=
  (output.back?.map Token.loc).getD (.startOf path)

/-- Preprocesses a file, and gives what was reported up to its end or up to a fatal error. -/
def run (e : Setting) (path : String) : Except FatalError Preprocessed × List Diagnostic :=
  match e.sources.entry? path with
  | none => (.ok ⟨[.eofAt .synthetic], []⟩, [])
  | some (path, text) =>
    let (result, s) := (processFile e (e.sources.size + 1) path text).run.run (.initial e.config)
    let tokens := s.output.toList ++ [.eofAt (endLocation path s.output)]
    (result.map fun _ => ⟨tokens, s.constants⟩, s.diagnostics.toList)

end Preprocess

/-- Preprocesses a file of the sources. -/
def preprocess (sources : SourceMap) (path : String) (config : Config) :
    Except FatalError Preprocessed × List Diagnostic :=
  Preprocess.run { sources, config } path

end HeaderDecl
