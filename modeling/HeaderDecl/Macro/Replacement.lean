import HeaderDecl.Diagnostic
import HeaderDecl.Macro.Arguments
import HeaderDecl.Token.Lexer

/-!
The replacement of a function-like macro: parameters in its body give way to arguments, `#` makes
text of an argument, and `##` joins the tokens beside it.
-/

namespace HeaderDecl.Macro

/-- Moves tokens to the place where a macro was invoked. -/
def relocate (site : Token) : List Token → List Token
  | [] => []
  | t :: ts =>
    { t with span := site.span, loc := site.loc, lineStart := false, spaced := site.spaced } ::
      ts.map fun t => { t with span := site.span, loc := site.loc, lineStart := false }

/-- A string literal with the text of an argument. -/
def stringify (arg : List Token) : Token :=
  let escaped := (spell arg).toList.flatMap fun c =>
    if c = '"' || c = '\\' then ['\\', c] else [c]
  .synthetic .string (String.ofList ('"' :: escaped ++ ['"']))

/-- The kind of a text that is one token, unknown for any other text. -/
def kindOf (text : String) : TokenKind :=
  match lex "<paste>" text with
  | [t, e] => if e.isEof then t.kind else .unknown
  | _ => .unknown

def paste (left right : Token) : Token :=
  let text := left.text ++ right.text
  { left with kind := kindOf text, text }

/-- Joins what has been produced, latest first, with the tokens to its right. -/
def pasteOnto (produced right : List Token) : List Token :=
  match produced, right with
  | left :: before, first :: more => more.reverse ++ paste left first :: before
  | [], right => right.reverse
  | produced, [] => produced

/-- An argument as written, and fully expanded. It is expanded only where a body asks for it, so that
one that is never used takes no time, however long it would become. -/
structure Arg where
  raw : List Token
  expanded : Thunk (Except FatalError (List Token))

/-- The argument bound to a name, given the macro's parameters and its arguments in their order. A
parameter without an argument stands for nothing. -/
def argOf (params : List String) (variadic : Option String) (args : List Arg) (name : String) :
    Option Arg :=
  let nth (i : Nat) : Arg := args[i]?.getD ⟨[], .pure (.ok [])⟩
  match params.idxOf? name with
  | some i => some (nth i)
  | none => if variadic = some name then some (nth params.length) else none

/-- Replaces the parameters in a body. The tokens produced so far come latest first. -/
def substitute (argOf : String → Option Arg) :
    List Token → List Token → Except FatalError (List Token)
  | produced, [] => .ok produced.reverse
  | produced, t :: body =>
    match t.kind, body with
    | .punct .hash, n :: body' =>
      match argOf n.text with
      | some a => substitute argOf (stringify a.raw :: produced) body'
      | none => substitute argOf (t :: produced) (n :: body')
    | .punct .hash, [] => substitute argOf (t :: produced) []
    | .punct .hashHash, n :: body' =>
      let right := match argOf n.text with
        | some a => a.raw
        | none => [n]
      substitute argOf (pasteOnto produced right) body'
    -- With nothing to its right, `##` joins nothing.
    | .punct .hashHash, [] => substitute argOf produced []
    | kind, body =>
      match if kind.isWord then argOf t.text else none with
      | some a =>
        -- What is to be joined goes in as it was written.
        if body.head?.any (·.is .hashHash) then substitute argOf (a.raw.reverse ++ produced) body
        else do
          let expanded ← a.expanded.get
          substitute argOf (expanded.reverse ++ produced) body
      | none => substitute argOf (t :: produced) body

end HeaderDecl.Macro
