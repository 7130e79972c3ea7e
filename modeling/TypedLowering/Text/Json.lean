import TypedLowering.Text.Escape

/-!
# JSON

How strings are written, and a reader for the whole grammar.
-/

/-!
## JSON strings

Characters outside ASCII stand for themselves. Quotes, backslashes and controls are escaped, the
controls without a short form by their code point in four small hexadecimal digits.
-/

namespace TypedLowering.Text

/-- One character of a JSON string. -/
def jsonChar (c : Char) : String :=
  if c == '"' then "\\\""
  else if c == '\\' then "\\\\"
  else if c == '\n' then "\\n"
  else if c == '\r' then "\\r"
  else if c == '\t' then "\\t"
  else if c == '\x08' then "\\b"
  else if c == '\x0c' then "\\f"
  else if c.toNat < 0x20 then "\\u" ++ padZeros 4 (hexLower c.toNat)
  else c.toString

/-- `s` as a JSON string. -/
def jsonString (s : String) : String :=
  "\"" ++ String.join (s.toList.map jsonChar) ++ "\""

/-!
## Reading JSON

A reader for the JSON grammar. Numbers are only checked, not read. A string keeps its characters, or
`none` if its escapes name surrogates that form no pair: such a string is well-formed and has no
text.
-/

/-- The values of JSON, numbers without what they are. -/
inductive Json where
  | null
  | bool (value : Bool)
  | number
  | string (text : Option String)
  | array (items : List Json)
  | object (fields : List (Option String × Json))
  deriving Repr, Inhabited

namespace Json

/-- The blanks between tokens. -/
def isSpace (c : Char) : Bool :=
  c == ' ' || c == '\n' || c == '\t' || c == '\r'

/-- Leave out the space in front. -/
def skip (cs : List Char) : List Char := cs.dropWhile isSpace

/-- The value of a hexadecimal digit. -/
def hexDigit? (c : Char) : Option Nat :=
  if c.isDigit then some (c.toNat - '0'.toNat)
  else if 'a' ≤ c ∧ c ≤ 'f' then some (c.toNat - 'a'.toNat + 10)
  else if 'A' ≤ c ∧ c ≤ 'F' then some (c.toNat - 'A'.toNat + 10)
  else none

/-- The unit that four hexadecimal digits name. -/
def unit? (a b c d : Char) : Option Nat := do
  return 4096 * (← hexDigit? a) + 256 * (← hexDigit? b) + 16 * (← hexDigit? c) + (← hexDigit? d)

/-- What stands in a string: a character, or a UTF-16 unit that an escape names. -/
inductive StringItem where
  | char (c : Char)
  | unit (u : Nat)
  deriving DecidableEq, Repr, Inhabited

/-- The character of a short escape. -/
def shortEscape? (c : Char) : Option Char :=
  if c == '"' || c == '\\' || c == '/' then some c
  else if c == 'b' then some '\x08'
  else if c == 'f' then some '\x0c'
  else if c == 'n' then some '\n'
  else if c == 'r' then some '\r'
  else if c == 't' then some '\t'
  else none

/-- The items of a string up to its closing quote, and what follows. -/
def stringItems : List Char → Option (List StringItem × List Char)
  | [] => none
  | '"' :: rest => some ([], rest)
  | '\\' :: 'u' :: a :: b :: c :: d :: rest => do
    let u ← unit? a b c d
    let (items, rest) ← stringItems rest
    return (.unit u :: items, rest)
  | '\\' :: c :: rest => do
    let c ← shortEscape? c
    let (items, rest) ← stringItems rest
    return (.char c :: items, rest)
  | c :: rest => do
    guard (0x20 ≤ c.toNat ∧ c ≠ '\\')
    let (items, rest) ← stringItems rest
    return (.char c :: items, rest)

/-- The unit is the first half of a pair. -/
def isHighSurrogate (u : Nat) : Bool := 0xD800 ≤ u && u < 0xDC00

/-- The unit is the second half of a pair. -/
def isLowSurrogate (u : Nat) : Bool := 0xDC00 ≤ u && u < 0xE000

/-- The characters of the items, if all surrogates form pairs. -/
def itemChars : List StringItem → Option (List Char)
  | [] => some []
  | .char c :: rest => do return c :: (← itemChars rest)
  | .unit u :: rest =>
    if isHighSurrogate u then
      match rest with
      | .unit v :: rest => do
        guard (isLowSurrogate v)
        return Char.ofNat (0x10000 + (u - 0xD800) * 1024 + (v - 0xDC00)) :: (← itemChars rest)
      | _ => none
    else do
      guard (!isLowSurrogate u)
      return Char.ofNat u :: (← itemChars rest)

/-- A string after its opening quote. -/
def readString (cs : List Char) : Option (Option String × List Char) := do
  let (items, rest) ← stringItems cs
  return ((itemChars items).map String.ofList, rest)

/-- Digits, at least one. -/
def digits (cs : List Char) : Option (List Char) :=
  match cs with
  | c :: rest => if c.isDigit then some (rest.dropWhile Char.isDigit) else none
  | [] => none

/-- The whole part of a number. It has no zeros in front. -/
def whole (cs : List Char) : Option (List Char) :=
  match cs with
  | '0' :: rest => if rest.head?.any Char.isDigit then none else some rest
  | _ => digits cs

/-- The fraction of a number, if there is one. -/
def fraction (cs : List Char) : Option (List Char) :=
  match cs with
  | '.' :: rest => digits rest
  | _ => some cs

/-- The exponent of a number, if there is one. -/
def exponent (cs : List Char) : Option (List Char) :=
  match cs with
  | c :: rest =>
    if c == 'e' || c == 'E' then
      match rest with
      | '+' :: rest | '-' :: rest => digits rest
      | _ => digits rest
    else some cs
  | [] => some []

/-- What follows a number. -/
def readNumber (cs : List Char) : Option (List Char) := do
  let cs ← whole (match cs with | '-' :: rest => rest | _ => cs)
  let cs ← fraction cs
  exponent cs

mutual

/-- A value and what follows it. Each level of nesting uses up two units of fuel, and each further
item one. -/
def readValue : Nat → List Char → Option (Json × List Char)
  | 0, _ => none
  | fuel + 1, cs =>
    match skip cs with
    | 'n' :: 'u' :: 'l' :: 'l' :: rest => some (.null, rest)
    | 't' :: 'r' :: 'u' :: 'e' :: rest => some (.bool true, rest)
    | 'f' :: 'a' :: 'l' :: 's' :: 'e' :: rest => some (.bool false, rest)
    | '"' :: rest => do
      let (text, rest) ← readString rest
      return (.string text, rest)
    | '[' :: rest =>
      match skip rest with
      | ']' :: rest => some (.array [], rest)
      | _ => do
        let (items, rest) ← readItems fuel rest
        return (.array items, rest)
    | '\x7b' :: rest =>
      match skip rest with
      | '\x7d' :: rest => some (.object [], rest)
      | _ => do
        let (fields, rest) ← readFields fuel rest
        return (.object fields, rest)
    | cs => do return (.number, ← readNumber cs)

/-- The items of an array that is not empty, after its opening bracket. -/
def readItems : Nat → List Char → Option (List Json × List Char)
  | 0, _ => none
  | fuel + 1, cs => do
    let (first, rest) ← readValue fuel cs
    match skip rest with
    | ',' :: rest =>
      let (more, rest) ← readItems fuel rest
      return (first :: more, rest)
    | ']' :: rest => return ([first], rest)
    | _ => none

/-- The fields of an object that is not empty, after its opening brace. -/
def readFields : Nat → List Char → Option (List (Option String × Json) × List Char)
  | 0, _ => none
  | fuel + 1, cs => do
    let '"' :: rest := skip cs | none
    let (key, rest) ← readString rest
    let ':' :: rest := skip rest | none
    let (first, rest) ← readValue fuel rest
    match skip rest with
    | ',' :: rest =>
      let (more, rest) ← readFields fuel rest
      return ((key, first) :: more, rest)
    | '\x7d' :: rest => return ([(key, first)], rest)
    | _ => none

end

/-- Reads a text that is one value. -/
def parse (text : String) : Option Json := do
  let cs := text.toList
  let (json, rest) ← readValue (2 * cs.length + 2) cs
  guard (skip rest = [])
  return json

end Json

end TypedLowering.Text
