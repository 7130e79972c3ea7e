import TypedLowering.Text.CharacterClass
import TypedLowering.Text.Escape

/-!
# Names in use

The names of a file are kept at three levels: the root scope, which every closure sees, the union of
the declaration scopes that were closed, and the scope of the declaration being lowered. New names
are allocated against these sets, so that none hides a name of the file or another new name.
-/

/-!
## Identifiers from arbitrary names

* A letter, digit, `_` or `$` stands for itself.
* Any other character becomes `$` and its code point in base sixteen.
* An ASCII digit in front gets a `_` before it, and the empty name becomes `_`.

`a'` becomes `a$27` and `1st` becomes `_1st`.
-/

namespace TypedLowering.Names

/-- Whether `c` may stand in an identifier. -/
def isIdentChar (c : Char) : Bool :=
  c == '_' || c == '$' || Text.isAlphanumeric c

/-- What one character of a name becomes. -/
def sanitizeChar (c : Char) : List Char :=
  if isIdentChar c then [c] else '$' :: (Text.hexUpper c.toNat).toList

/-- `sanitize` on characters. -/
def sanitizeChars (cs : List Char) : List Char :=
  match cs with
  | [] => ['_']
  | c :: _ => (if c.isDigit then ['_'] else []) ++ cs.flatMap sanitizeChar

/-- An identifier for `name`. -/
def sanitize (name : String) : String :=
  String.ofList (sanitizeChars name.toList)

/-- The `n`-th variant of a name. -/
def suffixed (name : String) (n : Nat) : String :=
  name ++ "_" ++ toString n

/-- The first free one of `suffixed name n`, `suffixed name (n + 1)`, …, for so many tries. -/
def firstFree (taken : List String) (name : String) : Nat → Nat → String
  | 0, n => suffixed name n
  | tries + 1, n =>
    if suffixed name n ∈ taken then firstFree taken name tries (n + 1) else suffixed name n

/-- The name itself if it is free, else its first free variant. Of `taken.length + 1` variants one
is free. -/
def preventConflicts (taken : List String) (name : String) : String :=
  if name ∈ taken then firstFree taken name taken.length 1 else name

end TypedLowering.Names

namespace TypedLowering

/-- The names in use. Reserved words count as taken in every scope. -/
structure Scopes where
  root : List String
  closed : List String
  current : List String
  reserved : List String
  deriving Inhabited

namespace Scopes

/-- `names` with `name`, which it may hold already. -/
def insert (name : String) (names : List String) : List String :=
  if name ∈ names then names else name :: names

/-- The union of two sets of names. -/
def union (names more : List String) : List String :=
  more.foldl (fun acc name => insert name acc) names

/-- The scopes of a file whose root scope already uses `root`. -/
def ofRoot (root reserved : List String) : Scopes :=
  { root := union [] root, closed := [], current := [], reserved }

/-- The name is in one of the three scopes. -/
def isUsed (s : Scopes) (name : String) : Bool :=
  name ∈ s.root || name ∈ s.closed || name ∈ s.current

/-- A name that the whole file sees. It is new to every scope, open or closed. -/
def allocateRoot (s : Scopes) (candidate : String) : String × Scopes :=
  let name := Names.preventConflicts (s.reserved ++ s.root ++ s.closed ++ s.current)
    (Names.sanitize candidate)
  (name, { s with root := insert name s.root })

/-- A name local to the current declaration. Declarations side by side may get the same one. -/
def allocateLocal (s : Scopes) (candidate : String) : String × Scopes :=
  let name := Names.preventConflicts (s.reserved ++ s.root ++ s.current) (Names.sanitize candidate)
  (name, { s with current := insert name s.current })

/-- Opens the scope of a declaration that uses `used`. The scope around it is the first result and
is handed back to `leave`. -/
def enter (s : Scopes) (used : List String) : List String × Scopes :=
  (s.current, { s with current := union [] used })

/-- Closes the current scope. Its names stay taken for the root scope and for `parent`. -/
def leave (s : Scopes) (parent : List String) : Scopes :=
  { s with closed := union s.closed s.current, current := union parent s.current }

end Scopes

end TypedLowering
