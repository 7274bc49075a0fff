import HeaderDecl.Grammar.Unit
import HeaderDecl.Preprocess
import HeaderDecl.Resolution.Unit

/-!
Extraction of the declarations of headers. Each file is extracted by itself, and the models of the files
are merged in the order of the sources.
-/

namespace HeaderDecl

/-- What came of a file. A fatal error leaves no model, and is the last diagnostic. -/
structure FileOutcome where
  path : String
  model : Option Model
  diagnostics : List Diagnostic

/-- Preprocesses, parses and resolves a file. -/
def resolveFile (sources : SourceMap) (path : String) (config : Config) :
    Except FatalError Model × List Diagnostic :=
  match preprocess sources path config with
  | (.error e, ds) => (.error e, ds)
  | (.ok p, ds) =>
    let (items, reports) := parseUnit p.tokens
    let (result, ds') := resolve items p.constants config
    (result, ds ++ reports.map Grammar.Report.toDiagnostic ++ ds')

/-- Extracts the declarations of one file and of what it includes. -/
def extractFile (sources : SourceMap) (path : String) (config : Config) : FileOutcome :=
  match resolveFile sources path config with
  | (.ok m, ds) => ⟨path, some m, ds⟩
  | (.error e, ds) => ⟨path, none, ds ++ [e.toDiagnostic]⟩

/-- The declarations of all files, the diagnostics in file order, and the files that were not started. -/
structure Extraction where
  model : Model
  diagnostics : List Diagnostic
  cancelled : List String

namespace Extraction

def empty : Extraction := ⟨.empty, [], []⟩

/-- Adds what came of a file. -/
def add (x : Extraction) (o : FileOutcome) : Extraction :=
  match o.model with
  | none => { x with diagnostics := x.diagnostics ++ o.diagnostics }
  | some m =>
    let (model, ds) := x.model.merge m
    { x with model, diagnostics := x.diagnostics ++ o.diagnostics ++ ds }

/-- Extracts files in turn. -/
def ofPaths (sources : SourceMap) (config : Config) (paths : List String) : Extraction :=
  paths.foldl (fun x path => x.add (extractFile sources path config)) empty

/-- An extraction that was cancelled before any file was started. -/
def ofCancelled (sources : SourceMap) : Extraction := { empty with cancelled := sources.paths }

end Extraction

/-- Extracts every file of the sources, unless the extraction is cancelled beforehand. -/
def extract (sources : SourceMap) (config : Config) (cancelled : Bool) : Extraction :=
  if cancelled then .ofCancelled sources else .ofPaths sources config sources.paths

end HeaderDecl
