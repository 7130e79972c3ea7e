import TypedLowering.Text.Printable

/-!
# Hexadecimal text

Code points in escapes are written in base sixteen, in either case and padded with zeros to a
least width.
-/

namespace TypedLowering.Text

/-- The digits of `n` in base sixteen, with small letters. -/
def hexLower (n : Nat) : String :=
  String.ofList (Nat.toDigits 16 n)

/-- The digits of `n` in base sixteen, with capital letters. -/
def hexUpper (n : Nat) : String :=
  String.ofList ((Nat.toDigits 16 n).map Char.toUpper)

/-- `s` with zeros in front, up to `width` characters. -/
def padZeros (width : Nat) (s : String) : String :=
  String.ofList (List.replicate (width - s.length) '0') ++ s

end TypedLowering.Text

/-!
## Quoted names in messages

A name that a message quotes stands between double quotes. Quotes and backslashes get a backslash,
the common controls their letter, and whatever else has no glyph of its own is written as its code
point in braces.
-/

namespace TypedLowering.Text

/-- One character of a quoted name. -/
def quotedChar (c : Char) : String :=
  if c == '\x00' then "\\0"
  else if c == '\t' then "\\t"
  else if c == '\n' then "\\n"
  else if c == '\r' then "\\r"
  else if c == '"' then "\\\""
  else if c == '\\' then "\\\\"
  else if isExtender c || !isPrintable c then "\\u\x7b" ++ hexLower c.toNat ++ "\x7d"
  else c.toString

/-- `s` between double quotes, with the escapes of `quotedChar`. -/
def quoted (s : String) : String :=
  "\"" ++ String.join (s.toList.map quotedChar) ++ "\""

end TypedLowering.Text
