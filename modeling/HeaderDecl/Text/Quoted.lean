import HeaderDecl.Text.Property

/-!
Quoted text: double quotes around characters that a reader can see, everything else escaped.
-/

namespace HeaderDecl.Text

/-- The digits of a code point in lower case hexadecimal, without leading zeros. -/
def hexDigits (n : Nat) : List Char :=
  Nat.toDigits 16 n

/-- How a character is written between double quotes. A mark that would attach to the character
before it is escaped, although it has a visible form. -/
def escape (c : Char) : List Char :=
  if c = '\x00' then ['\\', '0']
  else if c = '\t' then ['\\', 't']
  else if c = '\r' then ['\\', 'r']
  else if c = '\n' then ['\\', 'n']
  else if c = '\\' then ['\\', '\\']
  else if c = '"' then ['\\', '"']
  else if isGraphemeExtend c || !isPrintable c then
    ['\\', 'u', '\x7b'] ++ hexDigits c.toNat ++ ['\x7d']
  else [c]

def quoteChars (cs : List Char) : List Char :=
  '"' :: cs.flatMap escape ++ ['"']

def quote (s : String) : String :=
  String.ofList (quoteChars s.toList)

end HeaderDecl.Text
