/-!
The kinds of tokens.
-/

namespace HeaderDecl

/-- The keywords. Several spellings may share one, and `attributeSpec` stands for all attribute
specifiers that take arguments in parentheses. -/
inductive Keyword where
  | struct | klass | union | enum | typedef | namespaceKw | template | typename | usingKw | operator
  | externKw | static | inlineKw | virtual | explicit | friend | mutable | constexpr | register
  | const | volatile | restrict | publicKw | protectedKw | privateKw
  | void | bool | char | short | int | long | float | double | signed | unsigned
  | trueKw | falseKw | attributeSpec
deriving DecidableEq, Repr

/-- The punctuators. There is no `>>`: it is always two `greater`, so that nested template argument
lists need no special care. `opAssign` stands for every compound assignment. -/
inductive Punct where
  | lparen | rparen | lbrace | rbrace | lbracket | rbracket
  | semicolon | comma | colon | colonColon | ellipsis | dot | arrow | question
  | star | amp | ampAmp | pipe | pipePipe | caret | tilde | bang
  | eq | eqEq | notEq | less | lessEq | lessLess | greater | greaterEq
  | plus | plusPlus | minus | minusMinus | slash | percent | opAssign | hash | hashHash
deriving DecidableEq, Repr

inductive LexError where
  | unclosedString | unclosedChar | unclosedComment
deriving DecidableEq, Repr

/-- The kind of a token. `unknown` is a character that begins no token of the language. -/
inductive TokenKind where
  | kw (k : Keyword)
  | punct (p : Punct)
  | identifier
  | number
  | string
  | charLiteral
  | unknown
  | eof
  | error (e : LexError)
deriving DecidableEq, Repr

namespace Keyword

def name : Keyword → String
  | struct => "Struct" | klass => "Class" | union => "Union" | enum => "Enum"
  | typedef => "Typedef" | namespaceKw => "Namespace" | template => "Template"
  | typename => "Typename" | usingKw => "Using" | operator => "Operator" | externKw => "Extern"
  | static => "Static" | inlineKw => "Inline" | virtual => "Virtual" | explicit => "Explicit"
  | friend => "Friend" | mutable => "Mutable" | constexpr => "Constexpr" | register => "Register"
  | const => "Const" | volatile => "Volatile" | restrict => "Restrict" | publicKw => "Public"
  | protectedKw => "Protected" | privateKw => "Private" | void => "Void" | bool => "Bool"
  | char => "Char" | short => "Short" | int => "Int" | long => "Long" | float => "Float"
  | double => "Double" | signed => "Signed" | unsigned => "Unsigned" | trueKw => "True"
  | falseKw => "False" | attributeSpec => "AttributeKeyword"

/-- The words that are keywords. -/
def spellings : List (String × Keyword) := [
  ("struct", struct), ("class", klass), ("union", union), ("enum", enum), ("typedef", typedef),
  ("namespace", namespaceKw), ("template", template), ("typename", typename), ("using", usingKw),
  ("operator", operator), ("extern", externKw), ("static", static), ("inline", inlineKw),
  ("__inline", inlineKw), ("__inline__", inlineKw), ("virtual", virtual), ("explicit", explicit),
  ("friend", friend), ("mutable", mutable), ("constexpr", constexpr), ("register", register),
  ("const", const), ("__const", const), ("volatile", volatile), ("restrict", restrict),
  ("__restrict", restrict), ("__restrict__", restrict), ("public", publicKw),
  ("protected", protectedKw), ("private", privateKw), ("void", void), ("bool", bool),
  ("_Bool", bool), ("char", char), ("short", short), ("int", int), ("long", long), ("float", float),
  ("double", double), ("signed", signed), ("__signed__", signed), ("unsigned", unsigned),
  ("true", trueKw), ("false", falseKw), ("__attribute__", attributeSpec), ("__attribute", attributeSpec),
  ("__declspec", attributeSpec), ("alignas", attributeSpec), ("_Alignas", attributeSpec)]

def ofWord? (word : String) : Option Keyword := spellings.lookup word

/-- Whether the keyword names (part of) an arithmetic type, or `void`. -/
def isPrimitive : Keyword → Bool
  | void | bool | char | short | int | long | float | double | signed | unsigned => true
  | _ => false

end Keyword

def Punct.name : Punct → String
  | lparen => "LParen" | rparen => "RParen" | lbrace => "LBrace" | rbrace => "RBrace"
  | lbracket => "LBracket" | rbracket => "RBracket" | semicolon => "Semicolon" | comma => "Comma"
  | colon => "Colon" | colonColon => "ColonColon" | ellipsis => "Ellipsis" | dot => "Dot"
  | arrow => "Arrow" | question => "Question" | star => "Star" | amp => "Amp" | ampAmp => "AmpAmp"
  | pipe => "Pipe" | pipePipe => "PipePipe" | caret => "Caret" | tilde => "Tilde" | bang => "Bang"
  | eq => "Eq" | eqEq => "EqEq" | notEq => "NotEq" | less => "Less" | lessEq => "LessEq"
  | lessLess => "LessLess" | greater => "Greater" | greaterEq => "GreaterEq" | plus => "Plus"
  | plusPlus => "PlusPlus" | minus => "Minus" | minusMinus => "MinusMinus" | slash => "Slash"
  | percent => "Percent" | opAssign => "OpAssign" | hash => "Hash" | hashHash => "HashHash"

namespace LexError

def name : LexError → String
  | unclosedString => "UnclosedString"
  | unclosedChar => "UnclosedChar"
  | unclosedComment => "UnclosedComment"

def message : LexError → String
  | unclosedString => "unterminated string literal"
  | unclosedChar => "unterminated character literal"
  | unclosedComment => "unterminated block comment"

end LexError

namespace TokenKind

def name : TokenKind → String
  | kw k => k.name
  | punct p => p.name
  | identifier => "Identifier"
  | number => "Number"
  | string => "String"
  | charLiteral => "CharLiteral"
  | unknown => "Unknown"
  | eof => "Eof"
  | error e => s!"Error({e.name})"

/-- Whether the token is spelled like an identifier, so that a macro may bear its name. -/
def isWord : TokenKind → Bool
  | identifier | kw _ => true
  | _ => false

def isPrimitive : TokenKind → Bool
  | kw k => k.isPrimitive
  | _ => false

def isError : TokenKind → Bool
  | error _ => true
  | _ => false

end TokenKind

end HeaderDecl
