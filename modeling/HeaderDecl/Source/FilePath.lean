/-!
Paths of headers. A path is a sequence of segments between slashes; `.` and `..` are resolved in the
text alone, without looking at any directory.
-/

namespace HeaderDecl.FilePath

/-- The segments between the slashes of a path. There is always at least one. -/
def segments : List Char → List (List Char)
  | [] => [[]]
  | c :: cs =>
    if c = '/' then [] :: segments cs
    else match segments cs with
      | s :: r => (c :: s) :: r
      | [] => [[c]]

/-- Puts slashes between segments. -/
def join : List (List Char) → List Char
  | [] => []
  | [s] => s
  | s :: r => s ++ '/' :: join r

/-- Adds a segment to the ones kept so far, the latest of which comes first. An empty segment is kept
only as the root of an absolute path, and `..` cancels a segment that names a directory. -/
def push (absolute : Bool) (kept : List (List Char)) (s : List Char) : List (List Char) :=
  if (s = [] || s = ['.']) && (!kept.isEmpty || !absolute) then kept
  else if s = ['.', '.'] then
    match kept with
    -- Neither the root nor a segment that leads upwards can be left.
    | last :: rest => if last ≠ ['.', '.'] && last ≠ [] then rest else s :: kept
    | [] => [s]
  else s :: kept

def isAbsolute (path : List Char) : Bool := path.head? == some '/'

def normalizeChars (path : List Char) : List Char :=
  join ((segments path).foldl (push (isAbsolute path)) []).reverse

/-- Removes `.` segments and resolves `..` segments where it can. -/
def normalize (path : String) : String :=
  String.ofList (normalizeChars path.toList)

/-- What stands before the last slash. -/
def parent (path : String) : String :=
  String.ofList ((path.toList.reverse.dropWhile (· ≠ '/')).drop 1).reverse

/-- A path as seen from a directory. -/
def relativeTo (dir path : String) : String :=
  if dir.isEmpty || isAbsolute path.toList then normalize path else normalize (dir ++ "/" ++ path)

end HeaderDecl.FilePath
