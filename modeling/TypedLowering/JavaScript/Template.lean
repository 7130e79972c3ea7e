import TypedLowering.JavaScript.Wrapping
import TypedLowering.Text.CharacterClass

/-!
# Templates of foreign code

A template refers to its arguments by position:

* `$n` stands for argument `n`, in parentheses unless it is atomic or the template already writes
  `($n)` around an argument that is a valid list item; it is `undefined` when there is none.
* `$n!` stands for the raw text of a string literal. In `$n!=` the `!` belongs to an operator.
* `$n...` stands for `$n, $n+1, …` up to the last argument.
* `{{$n?A:B}}` is `A` if argument `n` is the literal `true`, else `B`.
* `{{A}}` is `A` if every `$n` in it names an argument, else nothing.

Groups are expanded first, then the lists, then the references. The passes go through the template
once; the number they carry is the count of characters that still belong to the last match.
-/

namespace TypedLowering.JavaScript

namespace Template

/-- A piece of a template in which groups and lists are expanded. -/
inductive Token where
  | char (c : Char)
  /-- A reference, by the digits of its index. -/
  | ref (digits : List Char) (isRaw : Bool)
  deriving DecidableEq, Repr, Inhabited

/-- Whether `c` is a digit of an index. -/
def isIndexDigit (c : Char) : Bool := Text.isDecimalDigit c

/-- The index that digits spell. Digits outside ASCII spell none, nor do numbers of more than 64
bits. -/
def index? (digits : List Char) : Option Nat :=
  if digits.all Char.isDigit then
    let n := digits.foldl (fun n c => 10 * n + (c.toNat - '0'.toNat)) 0
    if n < 0x10000000000000000 then some n else none
  else none

/-- The argument of a reference, with its index. -/
def argument? (args : List Expr) (digits : List Char) : Option (Nat × Expr) := do
  let i ← index? digits
  let arg ← args[i]?
  return (i, arg)

/-- A reference has an argument exactly if its digits are the index of one. -/
theorem argument?_eq_some {args : List Expr} {digits : List Char} {i : Nat} {arg : Expr} :
    argument? args digits = some (i, arg) ↔ index? digits = some i ∧ args[i]? = some arg := by
  constructor
  · intro h
    simp only [argument?, Option.bind_eq_bind, Option.bind_eq_some_iff] at h
    obtain ⟨j, hj, e, he, heq⟩ := h
    cases heq
    exact ⟨hj, he⟩
  · rintro ⟨hi, harg⟩
    simp [argument?, hi, harg]

/-- Whether the `!` in front of `rest` belongs to the reference before it. -/
def isRawMark : List Char → Bool
  | '!' :: '=' :: _ => false
  | '!' :: _ => true
  | _ => false

/-- Splits a template into characters and references. -/
def tokens : Nat → List Char → List Token
  | _, [] => []
  | skip + 1, _ :: cs => tokens skip cs
  | 0, c :: cs =>
    let digits := cs.takeWhile isIndexDigit
    if c = '$' ∧ digits ≠ [] then
      let isRaw := isRawMark (cs.drop digits.length)
      .ref digits isRaw :: tokens (digits.length + if isRaw then 1 else 0) cs
    else .char c :: tokens 0 cs

/-- Whether all references in the text name an argument. -/
def refersToArguments (args : List Expr) (cs : List Char) : Bool :=
  (tokens 0 cs).all fun
    | .char _ => true
    | .ref digits _ => (index? digits).any (· < args.length)

/-- Splits `$n?A:B` into the digits of `n`, `A` and `B`. -/
def choice? (cs : List Char) : Option (List Char × List Char × List Char) :=
  match cs with
  | '$' :: rest =>
    match rest.takeWhile isIndexDigit, rest.dropWhile isIndexDigit with
    | d :: ds, '?' :: rest =>
      match rest.dropWhile (· != ':') with
      | ':' :: no => some (d :: ds, rest.takeWhile (· != ':'), no)
      | _ => none
    | _, _ => none
  | _ => none

/-- Whether an expression is the literal `true`. -/
def isTrue (e : Expr) : Bool :=
  match e.form with
  | .literal (.bool true) => true
  | _ => false

/-- What the text inside a group becomes. -/
def expandGroup (args : List Expr) (inner : List Char) : List Char :=
  match choice? inner with
  | some (digits, yes, no) =>
    if (argument? args digits).any fun (_, arg) => isTrue arg then yes else no
  | none => if refersToArguments args inner then inner else []

/-- The text up to the next closing pair of braces. -/
def untilClose : List Char → Option (List Char)
  | [] => none
  | '\x7d' :: '\x7d' :: _ => some []
  | c :: cs => (untilClose cs).map (c :: ·)

/-- The text inside the group that starts here. -/
def groupAt? : List Char → Option (List Char)
  | '\x7b' :: '\x7b' :: cs => untilClose cs
  | _ => none

/-- Expands the groups. What a group becomes is not searched for groups again. -/
def expandGroups (args : List Expr) : Nat → List Char → List Char
  | _, [] => []
  | skip + 1, _ :: cs => expandGroups args skip cs
  | 0, c :: cs =>
    match groupAt? (c :: cs) with
    | some inner => expandGroup args inner ++ expandGroups args (inner.length + 3) cs
    | none => c :: expandGroups args 0 cs

/-- References to the arguments from `start` on, with commas between them. -/
def listFrom (start count : Nat) : List Char :=
  (", ".intercalate ((List.range' start (count - start)).map fun i => "$" ++ toString i)).toList

/-- Expands the lists `$n...` over `count` arguments. -/
def expandLists (count : Nat) : Nat → List Char → List Char
  | _, [] => []
  | skip + 1, _ :: cs => expandLists count skip cs
  | 0, c :: cs =>
    let digits := cs.takeWhile isIndexDigit
    if c = '$' ∧ digits ≠ [] ∧ ['.', '.', '.'].isPrefixOf (cs.drop digits.length) then
      (match index? digits with
        | some start => listFrom start count
        | none => []) ++ expandLists count (digits.length + 3) cs
    else c :: expandLists count 0 cs

/-- A piece of foreign code: text as it is, or an argument. -/
inductive Segment where
  | text (text : String)
  | arg (index : Nat) (isWrapped : Bool)
  deriving DecidableEq, Repr, Inhabited

/-- What a reference becomes. `opened` and `closed` tell whether the template has parentheses right
before and after it. -/
def resolve (args : List Expr) (opened closed : Bool) (digits : List Char) (isRaw : Bool) :
    Segment :=
  match argument? args digits with
  | none => .text "undefined"
  | some (i, arg) =>
    match isRaw, arg.form with
    | true, .literal (.string value) => .text value
    | _, _ =>
      let isWrapped := opened && closed && !arg.isWrappedItem
      .arg i (!isWrapped && !arg.isAtomic)

/-- The text read so far, which is in reverse order, as a segment unless it is empty. -/
def flush : List Char → List Segment
  | [] => []
  | pending => [.text (String.ofList pending.reverse)]

/-- Whether a template goes on with a closing parenthesis. -/
def isClosing : List Token → Bool
  | .char ')' :: _ => true
  | _ => false

/-- Whether the text read so far, which is in reverse order, ends with an opening parenthesis. -/
def isOpening : List Char → Bool
  | '(' :: _ => true
  | _ => false

/-- The segments of a list of tokens after the text `pending`. -/
def segments (args : List Expr) : List Char → List Token → List Segment
  | pending, [] => flush pending
  | pending, .char c :: rest => segments args (c :: pending) rest
  | pending, .ref digits isRaw :: rest =>
    flush pending ++
      resolve args (isOpening pending) (isClosing rest) digits isRaw :: segments args [] rest

end Template

open Template in
/-- The segments of a template for the arguments. -/
def expandTemplate (template : String) (args : List Expr) : List Segment :=
  segments args []
    (tokens 0 (expandLists args.length 0 (expandGroups args 0 template.toList)))

end TypedLowering.JavaScript
