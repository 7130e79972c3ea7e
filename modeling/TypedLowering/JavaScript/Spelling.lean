import TypedLowering.Text.CharacterClass
import TypedLowering.Text.Escape

/-!
# The spelling of strings and keys

Strings are written between double quotes. Characters outside ASCII stand for themselves, except for
the two line separators. `\0` may not stand before a digit, where `\x00` is written.
-/

namespace TypedLowering.JavaScript

/-- One character of a string literal, of which `rest` are the characters that follow. -/
def escapeChar (c : Char) (rest : List Char) : String :=
  if c == '\\' then "\\\\"
  else if c == '"' then "\\\""
  else if c == '\n' then "\\n"
  else if c == '\r' then "\\r"
  else if c == '\t' then "\\t"
  else if c == '\x00' then if rest.head?.any Char.isDigit then "\\x00" else "\\0"
  else if c == '\u2028' then "\\u2028"
  else if c == '\u2029' then "\\u2029"
  else if c.toNat < 0x20 then "\\x" ++ Text.padZeros 2 (Text.hexUpper c.toNat)
  else c.toString

/-- The characters of a string literal between its quotes. -/
def escapeChars : List Char → String
  | [] => ""
  | c :: cs => escapeChar c cs ++ escapeChars cs

/-- The literal of a string. -/
def stringLiteral (s : String) : String :=
  "\"" ++ escapeChars s.toList ++ "\""

/-- Whether `c` may start a name. -/
def isNameStart (c : Char) : Bool :=
  c == '_' || c == '$' || Text.isAlphabetic c

/-- Whether `c` may stand inside a name. -/
def isNameChar (c : Char) : Bool :=
  c == '_' || c == '$' || Text.isAlphanumeric c

/-- Whether the text can stand as a property key without quotes. -/
def isName (s : String) : Bool :=
  match s.toList with
  | [] => false
  | c :: cs => isNameStart c && cs.all isNameChar

/-- A property key, quoted unless it is a name. -/
def propertyKey (key : String) : String :=
  if isName key then key else stringLiteral key

end TypedLowering.JavaScript
