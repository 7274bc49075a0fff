import HeaderDecl.Source.Location
import HeaderDecl.Token.Kind

/-!
What an extraction reports: diagnostics, which leave the file standing, and fatal errors, which drop
it.
-/

namespace HeaderDecl

inductive Severity where
  | note | warning | error
deriving DecidableEq, Repr

def Severity.name : Severity → String
  | note => "note"
  | warning => "warning"
  | error => "error"

inductive DiagnosticKind where
  /-- A malformed token. -/
  | lexError
  /-- A declaration that could not be recognised. -/
  | skippedDeclaration
  /-- An unknown macro where a declaration stands. -/
  | unsupportedMacro
  | unresolvedType
  | cyclicTypedef
  /-- A second, different definition of a name. -/
  | conflictingRedeclaration
  /-- A specialization of a template that is nowhere declared. -/
  | orphanedSpecialization
  /-- A declaration that the model has no place for. -/
  | unmodeledDeclaration
  | errorDirective
  | warningDirective
  | unbalancedConditional
  | includeDepthExceeded
  | malformedDirective
deriving DecidableEq, Repr

namespace DiagnosticKind

def severity : DiagnosticKind → Severity
  | lexError | unresolvedType | cyclicTypedef | errorDirective => .error
  | skippedDeclaration | unsupportedMacro | conflictingRedeclaration | warningDirective
  | unbalancedConditional | includeDepthExceeded | malformedDirective => .warning
  | orphanedSpecialization | unmodeledDeclaration => .note

def name : DiagnosticKind → String
  | lexError => "LexError"
  | skippedDeclaration => "SkippedDeclaration"
  | unsupportedMacro => "UnsupportedMacro"
  | unresolvedType => "UnresolvedType"
  | cyclicTypedef => "CyclicTypedef"
  | conflictingRedeclaration => "ConflictingRedeclaration"
  | orphanedSpecialization => "OrphanedSpecialization"
  | unmodeledDeclaration => "UnmodeledDeclaration"
  | errorDirective => "ErrorDirective"
  | warningDirective => "WarningDirective"
  | unbalancedConditional => "UnbalancedConditional"
  | includeDepthExceeded => "IncludeDepthExceeded"
  | malformedDirective => "MalformedDirective"

def all : List DiagnosticKind := [lexError, skippedDeclaration, unsupportedMacro, unresolvedType,
  cyclicTypedef, conflictingRedeclaration, orphanedSpecialization, unmodeledDeclaration,
  errorDirective, warningDirective, unbalancedConditional, includeDepthExceeded, malformedDirective]

/-- Whether a diagnostic of this kind records the error that dropped its file. -/
def isFatal : DiagnosticKind → Bool
  | lexError | unresolvedType | cyclicTypedef => true
  | _ => false

end DiagnosticKind

structure Diagnostic where
  kind : DiagnosticKind
  file : String
  position : Position
  message : String
deriving DecidableEq, Repr

namespace Diagnostic

def atLocation (kind : DiagnosticKind) (loc : Location) (message : String) : Diagnostic :=
  ⟨kind, loc.file, loc.position, message⟩

def severity (d : Diagnostic) : Severity := d.kind.severity

def render (d : Diagnostic) : String :=
  s!"{d.file}:{d.position.render}: {d.severity.name}: {d.message} [{d.kind.name}]"

end Diagnostic

/-- Why a file is dropped. -/
inductive FatalCause where
  | lex (e : LexError)
  | unresolvedType (name : String)
  | cyclicTypedef (name : String) (depth : Nat)
deriving DecidableEq, Repr

namespace FatalCause

def kind : FatalCause → DiagnosticKind
  | lex _ => .lexError
  | unresolvedType _ => .unresolvedType
  | cyclicTypedef _ _ => .cyclicTypedef

def message : FatalCause → String
  | lex e => e.message
  | unresolvedType name => s!"unresolved type `{name}`"
  | cyclicTypedef name depth =>
    s!"typedef `{name}` does not reach a terminal type within {depth} steps"

end FatalCause

/-- An error that ends the work on a file. -/
structure FatalError where
  file : String
  position : Position
  cause : FatalCause
deriving DecidableEq, Repr

namespace FatalError

def kind (e : FatalError) : DiagnosticKind := e.cause.kind

def render (e : FatalError) : String := s!"{e.file}:{e.position.render}: {e.cause.message}"

def toDiagnostic (e : FatalError) : Diagnostic := ⟨e.kind, e.file, e.position, e.cause.message⟩

end FatalError

end HeaderDecl
