import HeaderDecl.Source.FilePath

/-!
The texts that an extraction works on, by normalised path and in the order they were added.
-/

namespace HeaderDecl

/-- Header texts by normalised path, in order of first insertion. -/
structure SourceMap where
  files : List (String × String)
deriving Repr

namespace SourceMap

def empty : SourceMap := ⟨[]⟩

/-- The text stored under exactly this path. -/
def stored? (m : SourceMap) (path : String) : Option String := m.files.lookup path

/-- Adds a file. A path that is already there keeps its place and gets the new text. -/
def insert (m : SourceMap) (path text : String) : SourceMap :=
  let path := FilePath.normalize path
  if (m.stored? path).isSome then
    ⟨m.files.map fun f => if f.1 = path then (path, text) else f⟩
  else ⟨m.files ++ [(path, text)]⟩

def ofList (files : List (String × String)) : SourceMap :=
  files.foldl (fun m f => m.insert f.1 f.2) empty

/-- Looks a path up as it is, then by its normal form. The result has the path it is stored under. -/
def entry? (m : SourceMap) (path : String) : Option (String × String) :=
  match m.stored? path with
  | some text => some (path, text)
  | none => (m.stored? (FilePath.normalize path)).map (FilePath.normalize path, ·)

def get? (m : SourceMap) (path : String) : Option String := (m.entry? path).map (·.2)

def paths (m : SourceMap) : List String := m.files.map (·.1)

def size (m : SourceMap) : Nat := m.files.length

end SourceMap

end HeaderDecl
