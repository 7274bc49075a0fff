import HeaderDecl.Directive.Line

/-!
Include guards: a header wholly between `#ifndef` and `#endif`, with the definition of the guarding
macro in front.
-/

namespace HeaderDecl.Guard

/-- The text of the first token. -/
def headText (ts : List Token) : String := (ts.head?.map Token.text).getD ""

/-- Goes through the lines of a header at some nesting of conditionals. The flag tells whether the
guard has been defined; it has to be the first thing in the header. -/
def closes (guard : String) (depth : Nat) (defined : Bool) : List Token → Bool
  | [] => false
  | t :: ts =>
    let next := ts.dropWhile fun u => !u.beginsLine
    if t.beginsDirective then
      let name := headText ts
      if name = "if" || name = "ifdef" || name = "ifndef" then closes guard (depth + 1) defined next
      else if name = "endif" then
        -- Nothing may follow the end of the outermost conditional.
        if depth - 1 = 0 then defined && next.all Token.isEof else closes guard (depth - 1) defined next
      else if name = "define" && depth = 1 && !defined then
        headText (ts.drop 1) = guard && closes guard depth true next
      else closes guard depth defined next
    -- Text before the definition is not guarded against a second reading.
    else if !defined && !t.isEof then false
    else closes guard depth defined next
termination_by ts => ts.length
decreasing_by
  all_goals exact Nat.lt_succ_of_le (List.dropWhile_sublist _).length_le

/-- The macro that guards a header, if the whole header is guarded. -/
def detect (tokens : List Token) : Option String :=
  match tokens with
  | hash :: ifndef :: guard :: _ =>
    if hash.is .hash && ifndef.text = "ifndef" && guard.isWord && closes guard.text 0 false tokens
    then some guard.text
    else none
  | _ => none

end HeaderDecl.Guard
