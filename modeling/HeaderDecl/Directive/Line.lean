import HeaderDecl.Token.Basic

/-!
The logical lines of a file: directives, and the runs of text between them.
-/

namespace HeaderDecl

/-- Whether a token is the `#` of a directive. -/
def Token.beginsDirective (t : Token) : Bool := t.is .hash && t.lineStart

/-- Whether a token begins a line, or ends the file. -/
def Token.beginsLine (t : Token) : Bool := t.lineStart || t.isEof

/-- A directive with its `#`, or text up to the next directive. -/
inductive Line where
  | directive (hash : Token) (rest : List Token)
  | text (tokens : List Token)
deriving DecidableEq, Repr

/-- The lines of a file, which ends at the end token. -/
def Line.ofTokens : List Token → List Line
  | [] => []
  | t :: ts =>
    if t.isEof then []
    else if t.beginsDirective then
      .directive t (ts.takeWhile fun u => !u.beginsLine) ::
        ofTokens (ts.dropWhile fun u => !u.beginsLine)
    else
      .text (t :: ts.takeWhile fun u => !u.isEof && !u.beginsDirective) ::
        ofTokens (ts.dropWhile fun u => !u.isEof && !u.beginsDirective)
termination_by ts => ts.length
decreasing_by
  all_goals exact Nat.lt_succ_of_le (List.dropWhile_sublist _).length_le

end HeaderDecl
