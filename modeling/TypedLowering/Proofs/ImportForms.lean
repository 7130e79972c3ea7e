import TypedLowering.Printing.Program
import TypedLowering.Proofs.JavaScript.Declaration
import TypedLowering.Proofs.JavaScript.Grammar
import TypedLowering.Proofs.Lowering.InUse
import TypedLowering.Proofs.Printing.Streaming
import TypedLowering.Proofs.ReturnDiscipline

/-!
# The forms of import declarations

What a file imports from one path becomes one declaration, which binds each alias once. It has one
of the forms of the language unless it binds the whole module beside members: no form has a
namespace and a list of names (`lowerFile_importForms`, `mixedImport_hasNoForm`). -/

namespace TypedLowering

/-! ## Aliases as identifiers -/

namespace Names

/-- Whether a text has the characters of an identifier, of which an ASCII digit is not the first. -/
def IsIdentifier (x : String) : Prop :=
  ∃ c cs, x.toList = c :: cs ∧ c.isDigit = false ∧ ∀ d ∈ c :: cs, isIdentChar d = true

/-- A digit may stand in an identifier. -/
theorem isIdentChar_of_isDigit {c : Char} (h : c.isDigit = true) : isIdentChar c = true := by
  simp [isIdentChar, Text.isAlphanumeric, Text.isNumeric, h]

/-- A hexadecimal digit may stand in an identifier. -/
theorem isIdentChar_hexUpper (n : Nat) : ∀ d ∈ (Text.hexUpper n).toList, isIdentChar d = true := by
  have hdigit : ∀ d < 16, isIdentChar d.digitChar.toUpper = true := by decide +kernel
  simp only [Text.hexUpper, String.toList_ofList, List.forall_mem_map]
  induction n using Nat.strongRecOn with
  | ind n ih =>
    by_cases hn : n < 16
    · rw [Nat.toDigits_of_lt_base hn]
      exact List.forall_mem_singleton.2 (hdigit n hn)
    · have hlt : n / 16 < n := Nat.div_lt_self (by omega) (by decide)
      rw [Nat.toDigits_of_base_le (by decide) (Nat.le_of_not_lt hn)]
      exact List.forall_mem_append.2 ⟨ih (n / 16) hlt,
        List.forall_mem_singleton.2 (hdigit (n % 16) (Nat.mod_lt _ (by decide)))⟩

/-- What replaces a character may stand in an identifier. -/
theorem isIdentChar_sanitizeChar (c : Char) : ∀ d ∈ sanitizeChar c, isIdentChar d = true := by
  rw [sanitizeChar]
  split
  · rename_i hc
    simpa using hc
  · exact List.forall_mem_cons.2 ⟨by decide, isIdentChar_hexUpper _⟩

/-- An identifier for a name is one. -/
theorem isIdentifier_sanitize (name : String) : IsIdentifier (sanitize name) := by
  have hall : ∀ cs : List Char, ∀ d ∈ cs.flatMap sanitizeChar, isIdentChar d = true := by
    intro cs d hd
    obtain ⟨c, -, hd⟩ := List.mem_flatMap.1 hd
    exact isIdentChar_sanitizeChar c d hd
  rw [IsIdentifier, sanitize, String.toList_ofList, sanitizeChars.eq_def]
  rcases name.toList with _ | ⟨c, cs⟩
  · exact ⟨'_', [], rfl, rfl, List.forall_mem_singleton.2 rfl⟩
  · cases hc : c.isDigit with
    | true =>
      exact ⟨'_', (c :: cs).flatMap sanitizeChar, by simp [hc], rfl,
        List.forall_mem_cons.2 ⟨by decide, hall (c :: cs)⟩⟩
    | false =>
      by_cases hident : isIdentChar c = true
      · refine ⟨c, cs.flatMap sanitizeChar, by simp [hc, sanitizeChar, hident], hc, ?_⟩
        exact List.forall_mem_cons.2 ⟨hident, hall cs⟩
      · refine ⟨'$', (Text.hexUpper c.toNat).toList ++ cs.flatMap sanitizeChar,
          by simp [hc, sanitizeChar, hident], rfl, ?_⟩
        exact List.forall_mem_cons.2 ⟨by decide,
          List.forall_mem_append.2 ⟨isIdentChar_hexUpper _, hall cs⟩⟩

/-- An identifier with a number behind it is one. -/
theorem IsIdentifier.suffixed {name : String} (h : IsIdentifier name) (n : Nat) :
    IsIdentifier (suffixed name n) := by
  obtain ⟨c, cs, hname, hc, hall⟩ := h
  refine ⟨c, cs ++ '_' :: (toString n).toList, by simp [Names.suffixed, hname], hc, ?_⟩
  have hdigits : ∀ d ∈ (toString n).toList, isIdentChar d = true := by
    intro d hd
    rw [Nat.toString_eq_ofList_toDigits, String.toList_ofList] at hd
    exact isIdentChar_of_isDigit (Nat.isDigit_of_mem_toDigits (by decide) (by decide) hd)
  rw [← List.cons_append]
  exact List.forall_mem_append.2 ⟨hall, List.forall_mem_cons.2 ⟨by decide, hdigits⟩⟩

/-- A variant of an identifier is one. -/
theorem IsIdentifier.preventConflicts {name : String} (h : IsIdentifier name)
    (taken : List String) : IsIdentifier (preventConflicts taken name) := by
  rcases preventConflicts_cases taken name with heq | ⟨n, heq⟩
  · rwa [heq]
  · rw [heq]
    exact h.suffixed n

end Names

namespace Registry

variable {r : Registry}

/-- Whether all aliases are identifiers and none of them is reserved. -/
structure AliasesBindable (r : Registry) : Prop where
  identifier : ∀ x ∈ r.imports.aliases, Names.IsIdentifier x
  free : ∀ x ∈ r.imports.aliases, x ∉ r.names.reserved

/-- A request does not change which names are reserved. -/
theorem serve_reserved (r : Registry) (q : Request) :
    (r.serve q).2.names.reserved = r.names.reserved := by
  cases hq : q.import? with
  | some key =>
    rcases serve_import (r := r) hq with ⟨_, -, hserve⟩ | ⟨-, _, -, hserve⟩ <;> rw [hserve]
  | none =>
    cases q with
    | whole | member => nomatch hq
    | root | own | enter | leave => rfl

/-- Without imports, no alias is there that cannot be bound. -/
theorem AliasesBindable.start (names : Scopes) : AliasesBindable ⟨names, []⟩ :=
  ⟨fun _ hx => absurd hx List.not_mem_nil, fun _ hx => absurd hx List.not_mem_nil⟩

/-- A request adds an alias that can be bound, or none. -/
theorem AliasesBindable.serve (h : r.AliasesBindable) (q : Request) :
    (r.serve q).2.AliasesBindable := by
  cases hq : q.import? with
  | none =>
    obtain ⟨himports, -⟩ := serve_other (r := r) hq
    refine ⟨himports ▸ h.identifier, ?_⟩
    rw [himports, serve_reserved]
    exact h.free
  | some key =>
    rw [serve_eq_member hq, Registry.serve]
    rcases r.imports.importMember_cases r.names key.1 key.2 with
      ⟨name, -, himport⟩ | ⟨-, candidate, himport⟩
    · rw [himport]
      exact h
    · rw [himport]
      have hnew := Names.preventConflicts_not_mem
        (r.names.reserved ++ r.names.root ++ r.names.closed ++ r.names.current)
        (Names.sanitize candidate)
      simp only [List.mem_append, not_or] at hnew
      refine ⟨fun x hx => ?_, fun x hx => ?_⟩ <;>
        rcases ImportTable.mem_aliases_record hx with hx | rfl
      · exact h.identifier x hx
      · exact (Names.isIdentifier_sanitize candidate).preventConflicts _
      · exact h.free x hx
      · exact hnew.1.1.1

/-- Requests, one after the other, only add aliases that can be bound. -/
theorem AliasesBindable.run (h : r.AliasesBindable) (requests : List Request) :
    (r.run requests).AliasesBindable := by
  induction requests generalizing r with
  | nil => exact h
  | cons q requests ih => exact ih (h.serve q)

/-- Requests do not change which names are reserved. -/
theorem run_reserved (r : Registry) (requests : List Request) :
    (r.run requests).names.reserved = r.names.reserved := by
  induction requests generalizing r with
  | nil => rfl
  | cons q requests ih => exact (ih _).trans (r.serve_reserved q)

end Registry

namespace JavaScript

variable {a : Alphabet}

/-- Whether the alphabet has the characters beyond ASCII of a text, where they stand. -/
def Alphabet.Admits (a : Alphabet) (x : String) : Prop :=
  ∀ c cs, x.toList = c :: cs → (128 ≤ c.toNat → a.isStart c = true) ∧
    ∀ d ∈ cs, 128 ≤ d.toNat → a.isPart d = true

/-- Names of plain characters are admitted by every alphabet. -/
theorem Alphabet.admits_ascii {x : String} (h : ∀ c ∈ x.toList, c.toNat < 128) : a.Admits x := by
  intro c cs hchars
  obtain ⟨hc, hcs⟩ := List.forall_mem_cons.1 (hchars ▸ h)
  exact ⟨fun hhigh => absurd hc (Nat.not_lt.2 hhigh),
    fun d hd hhigh => absurd (hcs d hd) (Nat.not_lt.2 hhigh)⟩

/-- Ranges that start behind the ASCII characters hold none of them. -/
theorem covers_ascii {ranges : List (Nat × Nat)} (h : ∀ r ∈ ranges, 128 ≤ r.1) {c : Char}
    (hc : c.toNat < 128) : Text.covers ranges c = false := by
  refine List.any_eq_false.2 fun r hr => ?_
  have hfirst := h r hr
  simp
  omega

/-- A plain character of an identifier is a letter, a digit, a dollar or an underscore. -/
theorem isIdentChar_ascii {c : Char} (h : Names.isIdentChar c = true) (hc : c.toNat < 128) :
    (c.isAlphanum || c == '_' || c == '$') = true := by
  have halphabetic : Text.covers Text.alphabeticRanges c = false :=
    covers_ascii (by decide +kernel) hc
  have hnumeric : Text.covers Text.numericRanges c = false := covers_ascii (by decide +kernel) hc
  rw [Names.isIdentChar, Text.isAlphanumeric, Text.isAlphabetic, Text.isNumeric, halphabetic,
    hnumeric, Bool.or_false, Bool.or_false] at h
  rwa [Char.isAlphanum, Bool.or_assoc, Bool.or_comm]

/-- An identifier is a name of every alphabet that has its characters. -/
theorem isName_of_isIdentifier {x : String} (h : Names.IsIdentifier x) (hx : a.Admits x) :
    a.IsName x := by
  obtain ⟨c, cs, hchars, hc, hall⟩ := h
  obtain ⟨hident, hrest⟩ := List.forall_mem_cons.1 hall
  obtain ⟨hstart, hpart⟩ := hx c cs hchars
  refine ⟨c, cs, hchars, ?_, fun d hd => ?_⟩
  · rcases Nat.lt_or_ge c.toNat 128 with hlow | hhigh
    · have hascii := isIdentChar_ascii hident hlow
      rwa [Char.isAlphanum, hc, Bool.or_false, ← a.start_ascii c hlow] at hascii
    · exact hstart hhigh
  · rcases Nat.lt_or_ge d.toNat 128 with hlow | hhigh
    · rw [a.part_ascii d hlow]
      exact isIdentChar_ascii (hrest d hd) hlow
    · exact hpart d hd hhigh

/-! ## The grammar of import declarations -/

/-- The name of an export, which may be quoted. -/
inductive ExportName : Token → String → Prop
  | name (x : String) : ExportName (.name x) x
  | string (x : String) : ExportName (.string x) x

/-- An import specifier, with the exported name and the local one that it binds. -/
inductive ImportSpecifier : List Token → String × String → Prop
  | same {x : String} (hx : x ∉ strictWords) : ImportSpecifier [.name x] (x, x)
  | renamed {t : Token} {exported x : String} (ht : ExportName t exported) (hx : x ∉ strictWords) :
    ImportSpecifier [t, .name "as", .name x] (exported, x)

/-- Names in a list, with what they bind, separated by commas. -/
inductive ImportsList : List Token → List (String × String) → Prop
  | one {ts : List Token} {b : String × String} (h : ImportSpecifier ts b) : ImportsList ts [b]
  | cons {ts us : List Token} {b : String × String} {bs : List (String × String)}
    (h : ImportSpecifier ts b) (hrest : ImportsList us bs) :
    ImportsList (ts ++ .punctuator "," :: us) (b :: bs)

/-- A list of names in braces, with what it binds. -/
inductive NamedImports : List Token → List (String × String) → Prop
  | empty : NamedImports [.punctuator "\x7b", .punctuator "\x7d"] []
  | list {ts : List Token} {bs : List (String × String)} (h : ImportsList ts bs) :
    NamedImports (.punctuator "\x7b" :: ts ++ [.punctuator "\x7d"]) bs
  | trailing {ts : List Token} {bs : List (String × String)} (h : ImportsList ts bs) :
    NamedImports (.punctuator "\x7b" :: ts ++ [.punctuator ",", .punctuator "\x7d"]) bs

/-- The five forms of what stands between `import` and `from`. The default export has the name
`default`, and a namespace the name `*`. -/
inductive ImportClause : List Token → List (String × String) → Prop
  | default {x : String} (hx : x ∉ strictWords) : ImportClause [.name x] [("default", x)]
  | namespace {x : String} (hx : x ∉ strictWords) :
    ImportClause [.punctuator "*", .name "as", .name x] [("*", x)]
  | named {ts : List Token} {bs : List (String × String)} (h : NamedImports ts bs) :
    ImportClause ts bs
  | defaultNamespace {x y : String} (hx : x ∉ strictWords) (hy : y ∉ strictWords) :
    ImportClause [.name x, .punctuator ",", .punctuator "*", .name "as", .name y]
      [("default", x), ("*", y)]
  | defaultNamed {x : String} {ts : List Token} {bs : List (String × String)}
    (hx : x ∉ strictWords) (h : NamedImports ts bs) :
    ImportClause (.name x :: .punctuator "," :: ts) (("default", x) :: bs)

/-- An import declaration up to its semicolon, with its path and what it binds. -/
inductive ImportDeclaration : List Token → String → List (String × String) → Prop
  | bare (path : String) : ImportDeclaration [.name "import", .string path] path []
  | clause {ts : List Token} {bs : List (String × String)} (path : String)
    (h : ImportClause ts bs) :
    ImportDeclaration (.name "import" :: (ts ++ [.name "from", .string path])) path bs

/-- A list of names begins with a brace. -/
theorem NamedImports.head {ts : List Token} {bs : List (String × String)}
    (h : NamedImports ts bs) : ∃ us, ts = .punctuator "\x7b" :: us := by
  cases h with
  | empty | list | trailing => exact ⟨_, rfl⟩

/-- Nothing goes on with names behind a namespace. -/
theorem ImportClause.not_namespace_names {x : String} {ts : List Token}
    {bs : List (String × String)} :
    ¬ ImportClause (.punctuator "*" :: .name "as" :: .name x :: .punctuator "," :: ts) bs := by
  intro h
  cases h with
  | named h =>
    obtain ⟨us, hus⟩ := h.head
    simp at hus

/-- No form has a default, a namespace and a list of names. -/
theorem ImportClause.not_default_namespace_names {x y : String} {ts : List Token}
    {bs : List (String × String)} :
    ¬ ImportClause (.name x :: .punctuator "," :: .punctuator "*" :: .name "as" :: .name y ::
      .punctuator "," :: ts) bs := by
  intro h
  cases h with
  | named h =>
    obtain ⟨us, hus⟩ := h.head
    simp at hus
  | defaultNamed hx h =>
    obtain ⟨us, hus⟩ := h.head
    simp at hus

/-! ## The tokens of an import declaration -/

/-- The tokens of lists with commas between them. -/
def commaTokens : List (List Token) → List Token
  | [] => []
  | [ts] => ts
  | ts :: us :: rest => ts ++ .punctuator "," :: commaTokens (us :: rest)

/-- The tokens of a name in a list, with `as` if it is bound to another one. -/
def specifierTokens : String × String → List Token
  | (exported, name) =>
    if exported = name then [.name name] else [.name exported, .name "as", .name name]

namespace ImportDecl

/-- The tokens of what an import declaration binds. -/
def bindingTokens (d : ImportDecl) : List (List Token) :=
  d.default.toList.map (fun x => [.name x]) ++
    d.whole.toList.map (fun x => [.punctuator "*", .name "as", .name x]) ++
    if d.names.isEmpty then []
    else [.punctuator "\x7b" :: commaTokens (d.names.map specifierTokens) ++ [.punctuator "\x7d"]]

/-- The tokens of an import declaration that binds something. -/
def tokens (d : ImportDecl) : List Token :=
  .name "import" :: (commaTokens d.bindingTokens ++ [.name "from", .string d.path])

/-- What is bound, by exported name. -/
def bound (d : ImportDecl) : List (String × String) :=
  d.default.toList.map ("default", ·) ++ d.whole.toList.map ("*", ·) ++ d.names

end ImportDecl

/-- Whether a text in front of a comma or a blank has these tokens. -/
def Item (a : Alphabet) (text : String) (ts : List Token) : Prop :=
  ∀ rest : List Char, rest.head? = some ',' ∨ rest.head? = some ' ' → Lexes a text.toList ts rest

/-- A name is one token. -/
theorem Item.name {x : String} (h : a.IsName x) : Item a x [.name x] := by
  intro rest hrest
  refine lexes_name h ?_
  have hstop : a.isPart ',' = false ∧ a.isPart ' ' = false :=
    ⟨a.part_ascii ',' (by decide), a.part_ascii ' ' (by decide)⟩
  rcases hrest with hrest | hrest <;> simp [hrest, hstop]

/-- An item, a blank and what comes next. -/
theorem Item.lexes_append {text : String} {ts us : List Token} {y rest : List Char}
    (h : Item a text ts) (hy : Lexes a y us rest) :
    Lexes a (text.toList ++ ' ' :: y) (ts ++ us) rest :=
  (h _ (.inr rfl)).append ((Lexes.blank _).append hy)

/-- A punctuator is one token. -/
theorem Item.punctuator {p : String} (hp : p.toList ∈ punctuators)
    (hne : p.toList ≠ ['?', '.'] ∧ p.toList ≠ ['.']) : Item a p [.punctuator p] := by
  intro rest hrest
  refine lexes_apart hp hne ?_
  rcases hrest with hrest | hrest <;> rw [hrest] <;> rfl

/-- Texts joined by commas have their tokens joined by commas. -/
theorem Item.commas {texts : List String} {tss : List (List Token)}
    (h : List.Forall₂ (Item a) texts tss) (hne : texts ≠ []) :
    Item a (", ".intercalate texts) (commaTokens tss) := by
  induction h with
  | nil => exact absurd rfl hne
  | @cons text ts texts tss htext hrest ih =>
    cases hrest with
    | nil =>
      intro rest hend
      rw [String.toList_intercalate, List.map_singleton, List.intercalate_singleton]
      exact htext rest hend
    | cons hnext hrest =>
      intro rest hend
      have hlater := ih (List.cons_ne_nil _ _) rest hend
      rw [String.toList_intercalate] at hlater ⊢
      rw [List.map_cons, List.map_cons, List.intercalate_cons_cons, List.append_assoc]
      refine (htext _ (.inl rfl)).append ?_
      have hcomma : Item a "," [.punctuator ","] := .punctuator (by decide) (by decide)
      exact hcomma.lexes_append hlater

/-- A word is one token. -/
theorem Item.word {word : String} (h : isWord word = true) : Item a word [.name word] :=
  .name (isName_word h)

/-- An exported name and its local name, if that is another one. -/
theorem item_specifier {p : String × String} (hexported : a.IsName p.1) (hname : a.IsName p.2) :
    Item a (if p.1 = p.2 then p.2 else p.1 ++ " as " ++ p.2) (specifierTokens p) := by
  obtain ⟨exported, name⟩ := p
  rw [specifierTokens]
  split
  · exact .name hname
  · intro rest hrest
    have hchars : (exported ++ " as " ++ name).toList =
        exported.toList ++ ' ' :: ("as".toList ++ ' ' :: name.toList) := by
      simp [String.toList_append]
    rw [hchars]
    exact (Item.name hexported).lexes_append ((Item.word (by decide)).lexes_append
      (Item.name hname rest hrest))

/-- A namespace is three tokens. -/
theorem item_namespace {x : String} (h : a.IsName x) :
    Item a ("* as " ++ x) [.punctuator "*", .name "as", .name x] := by
  intro rest hrest
  have hchars : ("* as " ++ x).toList = "*".toList ++ ' ' :: ("as".toList ++ ' ' :: x.toList) := by
    simp [String.toList_append]
  rw [hchars]
  exact (Item.punctuator (by decide) (by decide)).lexes_append
    ((Item.word (by decide)).lexes_append (Item.name h rest hrest))

/-- A list of names has the tokens of its content in braces. -/
theorem item_names {text : String} {ts : List Token} (h : Item a text ts) :
    Item a ("\x7b " ++ text ++ " \x7d")
      (.punctuator "\x7b" :: ts ++ [.punctuator "\x7d"]) := by
  intro rest hrest
  have hchars : ("\x7b " ++ text ++ " \x7d").toList =
      "\x7b".toList ++ ' ' :: (text.toList ++ ' ' :: "\x7d".toList) := by
    simp [String.toList_append]
  rw [hchars]
  exact (Item.punctuator (by decide) (by decide)).lexes_append
    (h.lexes_append (Item.punctuator (by decide) (by decide) rest hrest))

/-- Whether the names of an import declaration are names of the alphabet. -/
structure ImportDecl.HasNames (a : Alphabet) (d : ImportDecl) : Prop where
  exported : ∀ p ∈ d.names, a.IsName p.1
  locals : ∀ x ∈ d.locals, a.IsName x

namespace ImportDecl

variable {d : ImportDecl}

/-- Each binding has its tokens. -/
theorem items_bindings (h : d.HasNames a) :
    List.Forall₂ (Item a) d.bindings d.bindingTokens := by
  obtain ⟨path, default, whole, names⟩ := d
  obtain ⟨hexported, hlocals⟩ := h
  simp only [locals, List.forall_mem_append] at hlocals
  obtain ⟨⟨hdefault, hwhole⟩, hnames⟩ := hlocals
  refine List.rel_append (List.rel_append ?_ ?_) ?_
  · cases default with
    | none => exact .nil
    | some x => exact .cons (.name (hdefault x List.mem_cons_self)) .nil
  · cases whole with
    | none => exact .nil
    | some x => exact .cons (item_namespace (hwhole x List.mem_cons_self)) .nil
  · rw [List.isEmpty_map]
    cases hempty : names.isEmpty with
    | true => exact .nil
    | false =>
      refine .cons (item_names (.commas ?_ ?_)) .nil
      · rw [List.forall₂_map_left_iff, List.forall₂_map_right_iff, List.forall₂_same]
        exact fun p hp => item_specifier (hexported p hp) (hnames p.2 (List.mem_map_of_mem hp))
      · simpa using hempty

/-- A declaration without bindings binds nothing. -/
theorem bindings_eq_nil : d.bindings = [] ↔ d.locals = [] := by
  obtain ⟨path, _ | x, _ | y, names⟩ := d <;> cases names <;> simp [bindings, locals]

/-- The text of a declaration that binds something has the tokens of the declaration. -/
theorem lexes_text (h : d.HasNames a) (hne : d.locals ≠ []) (rest : List Char) :
    Lexes a d.text.toList d.tokens rest := by
  have hbindings : d.bindings ≠ [] := mt bindings_eq_nil.1 hne
  have hchars : d.text.toList = "import".toList ++ ' ' :: ((", ".intercalate d.bindings).toList ++
      ' ' :: ("from".toList ++ ' ' :: (stringLiteral d.path).toList)) := by
    simp [text, hbindings, String.toList_append]
  rw [hchars]
  exact (Item.word (by decide)).lexes_append
    ((Item.commas (items_bindings h) hbindings).lexes_append
      ((Item.word (by decide)).lexes_append (lexes_string d.path rest)))

/-- Whether a declaration binds the whole module and exported names beside it. -/
def IsMixed (d : ImportDecl) : Prop := d.whole.isSome ∧ d.names ≠ []

/-- The names of a declaration are derived as a list. -/
theorem importsList (hbind : ∀ p ∈ d.names, p.2 ∉ strictWords) (hne : d.names ≠ []) :
    ImportsList (commaTokens (d.names.map specifierTokens)) d.names := by
  have hspecifier : ∀ p : String × String, p.2 ∉ strictWords →
      ImportSpecifier (specifierTokens p) p := by
    rintro ⟨exported, name⟩ hp
    rw [specifierTokens]
    split
    · rename_i heq
      obtain rfl := heq
      exact .same hp
    · exact .renamed (.name exported) hp
  generalize d.names = names at hbind hne
  induction names with
  | nil => exact absurd rfl hne
  | cons p names ih =>
    obtain ⟨hp, hbind⟩ := List.forall_mem_cons.1 hbind
    cases names with
    | nil => exact .one (hspecifier p hp)
    | cons q names => exact .cons (hspecifier p hp) (ih hbind (List.cons_ne_nil _ _))

/-- A declaration that is not mixed has one of the five forms, and binds what it should. -/
theorem importDeclaration (hbind : ∀ x ∈ d.locals, x ∉ strictWords) (hne : d.locals ≠ [])
    (hmixed : ¬ d.IsMixed) : ImportDeclaration d.tokens d.path d.bound := by
  refine .clause d.path ?_
  have hnames : d.names ≠ [] → NamedImports (.punctuator "\x7b" ::
      commaTokens (d.names.map specifierTokens) ++ [.punctuator "\x7d"]) d.names := fun hne =>
    .list (importsList (fun p hp =>
      hbind p.2 (List.mem_append_right _ (List.mem_map_of_mem hp))) hne)
  obtain ⟨path, _ | x, _ | y, names⟩ := d
  · have hne' : names ≠ [] := by simpa [locals] using hne
    simpa [bindingTokens, bound, commaTokens, hne'] using ImportClause.named (hnames hne')
  · have hnone : names = [] := by simpa [IsMixed] using hmixed
    subst hnone
    exact .namespace (hbind y (by simp [locals]))
  · have hx := hbind x (by simp [locals])
    by_cases hne' : names = []
    · subst hne'
      exact .default hx
    · simpa [bindingTokens, bound, commaTokens, hne'] using
        ImportClause.defaultNamed hx (hnames hne')
  · have hnone : names = [] := by simpa [IsMixed] using hmixed
    subst hnone
    exact .defaultNamespace (hbind x (by simp [locals])) (hbind y (by simp [locals]))

/-- A mixed declaration is none of the language. -/
theorem not_importDeclaration (hmixed : d.IsMixed) (path : String) (bs : List (String × String)) :
    ¬ ImportDeclaration d.tokens path bs := by
  intro h
  obtain ⟨clause, hclause, hparses⟩ : ∃ clause, clause = commaTokens d.bindingTokens ∧
      ImportClause clause bs := by
    rw [tokens] at h
    generalize hts : Token.name "import" ::
      (commaTokens d.bindingTokens ++ [.name "from", .string d.path]) = ts at h
    cases h with
    | bare =>
      have hlength := congrArg List.length hts
      simp at hlength
    | clause path hclause =>
      obtain ⟨hclauses, -⟩ := List.append_inj' (List.cons.inj hts).2 rfl
      exact ⟨_, hclauses.symm, hclause⟩
  subst hclause
  obtain ⟨path, _ | x, whole, names⟩ := d <;> obtain ⟨hwhole, hnames⟩ := hmixed <;>
    obtain ⟨y, rfl⟩ := Option.isSome_iff_exists.1 hwhole <;>
    dsimp only at hnames
  · have hclause : commaTokens (bindingTokens ⟨path, none, some y, names⟩) =
        .punctuator "*" :: .name "as" :: .name y :: .punctuator "," :: .punctuator "\x7b" ::
          (commaTokens (names.map specifierTokens) ++ [.punctuator "\x7d"]) := by
      simp [bindingTokens, commaTokens, hnames]
    exact ImportClause.not_namespace_names (hclause ▸ hparses)
  · have hclause : commaTokens (bindingTokens ⟨path, some x, some y, names⟩) =
        .name x :: .punctuator "," :: .punctuator "*" :: .name "as" :: .name y ::
          .punctuator "," :: .punctuator "\x7b" ::
            (commaTokens (names.map specifierTokens) ++ [.punctuator "\x7d"]) := by
      simp [bindingTokens, commaTokens, hnames]
    exact ImportClause.not_default_namespace_names (hclause ▸ hparses)

end ImportDecl

end JavaScript

/-! ## What an entry of the table binds -/

namespace ModuleImports

variable {m : ModuleImports} {asked : List ImportKey}

/-- The selectors of a module with their aliases. -/
def bound (m : ModuleImports) : List (String × String) :=
  m.whole.toList.map ("*", ·) ++ m.members

/-- The aliases of an entry are the names that it binds. -/
theorem map_bound (m : ModuleImports) : m.bound.map (·.2) = m.aliases := by
  simp [bound, aliases, Function.comp_def]

/-- No member is recorded under the selector of the whole module. -/
theorem Records.ne_whole (h : m.Records asked) {p : String × String} (hp : p ∈ m.members) :
    p.1 ≠ "*" := by
  have hmem : p.1 ∈ m.members.map (·.1) := List.mem_map_of_mem hp
  rw [h.members, List.mem_eraseDups] at hmem
  exact (mem_membersOf.1 hmem).2

/-- Each member is recorded once. -/
theorem Records.members_nodup (h : m.Records asked) : (m.members.map (·.1)).Nodup :=
  h.members ▸ eraseDups_nodup _

/-- A selector has the alias that it is bound with. -/
theorem Records.alias?_of_mem_bound (h : m.Records asked) {p : String × String}
    (hp : p ∈ m.bound) : m.alias? p.1 = some p.2 := by
  rcases List.mem_append.1 hp with hp | hp
  · obtain ⟨name, hname, rfl⟩ := List.mem_map.1 hp
    exact Option.mem_toList.1 hname
  · obtain ⟨q, hq⟩ : ∃ q, m.members.find? (·.1 == p.1) = some q :=
      Option.isSome_iff_exists.1 (List.find?_isSome.2 ⟨p, hp, beq_self_eq_true p.1⟩)
    have hsame : q = p := List.inj_on_of_nodup_map h.members_nodup (List.mem_of_find?_eq_some hq) hp
      (beq_iff_eq.1 (List.find?_some (p := fun q : String × String => q.1 == p.1) hq))
    rw [alias?, if_neg (h.ne_whole hp), hq, hsame]
    rfl

/-- An entry with an alias binds something. -/
theorem bound_ne_nil {selector name : String}
    (hname : m.alias? selector = some name) : m.bound ≠ [] := by
  rw [alias?] at hname
  split at hname
  · simp [bound, hname]
  · obtain ⟨p, hp, -⟩ := Option.map_eq_some_iff.1 hname
    exact List.append_ne_nil_of_right_ne_nil _ (List.ne_nil_of_mem (List.mem_of_find?_eq_some hp))

end ModuleImports

namespace JavaScript

variable {m : ModuleImports} {asked : List ImportKey}

/-- The one member that is a default export, if there is one. -/
theorem filter_default (h : m.Records asked) : m.members.filter (·.1 == "default") =
    (importDecl m).default.toList.map ("default", ·) := by
  have hkeys : ∀ p ∈ m.members.filter (·.1 == "default"), p.1 = "default" := fun p hp =>
    beq_iff_eq.1 (List.mem_filter.1 hp).2
  have hnodup : ((m.members.filter (·.1 == "default")).map (·.1)).Nodup :=
    h.members_nodup.sublist (List.filter_sublist.map _)
  rw [importDecl]
  generalize m.members.filter (·.1 == "default") = defaults at hkeys hnodup
  match defaults with
  | [] => rfl
  | [(key, name)] =>
    obtain rfl : key = "default" := hkeys (key, name) List.mem_cons_self
    rfl
  | p :: q :: rest =>
    have hp := hkeys p List.mem_cons_self
    have hq := hkeys q (List.mem_cons_of_mem _ List.mem_cons_self)
    simp [hp, hq] at hnodup

/-- The declaration binds what the entry does. -/
theorem bound_importDecl (h : m.Records asked) : (importDecl m).bound.Perm m.bound := by
  have hmembers : (m.members.filter (·.1 == "default") ++
      m.members.filter (·.1 != "default")).Perm m.members :=
    List.filter_append_perm (·.1 == "default") m.members
  rw [filter_default h] at hmembers
  refine List.Perm.trans ?_ (hmembers.append_left (m.whole.toList.map ("*", ·)))
  rw [← List.append_assoc]
  exact List.perm_append_comm.append_right _

/-- The local names of a declaration are the names that it binds. -/
theorem map_bound (d : ImportDecl) : d.bound.map (·.2) = d.locals := by
  simp [ImportDecl.bound, ImportDecl.locals, Function.comp_def]

end JavaScript

/-- The entry of a path is found by the path. -/
theorem ImportTable.Records.lookup_of_mem {t : ImportTable} {asked : List ImportKey}
    (h : t.Records asked) {m : ModuleImports} (hm : m ∈ t) : t.lookup m.path = some m := by
  obtain ⟨m', hm'⟩ : ∃ m', t.find? (·.path == m.path) = some m' :=
    Option.isSome_iff_exists.1 (List.find?_isSome.2 ⟨m, hm, beq_self_eq_true m.path⟩)
  have hnodup : (t.map (·.path)).Nodup := h.paths ▸ eraseDups_nodup _
  rw [lookup, hm', List.inj_on_of_nodup_map hnodup (List.mem_of_find?_eq_some hm') hm
    (path_of_lookup hm')]

/-- Each alias of an entry stands for one selector. -/
theorem Registry.Accounts.aliases_nodup {r : Registry} {asked : List ImportKey}
    (h : r.Accounts asked) {m : ModuleImports} (hm : m ∈ r.imports) : m.aliases.Nodup := by
  have hrecords := h.records.entries m hm
  have hselectors : (m.bound.map (·.1)).Nodup := by
    rw [ModuleImports.bound, List.map_append, List.nodup_append']
    refine ⟨?_, hrecords.members_nodup, fun selector hwhole hmember => ?_⟩
    · cases m.whole <;> simp
    · obtain ⟨p, hp, rfl⟩ := List.mem_map.1 hmember
      obtain ⟨q, hq, hsame⟩ := List.mem_map.1 hwhole
      obtain ⟨name, -, rfl⟩ := List.mem_map.1 hq
      exact hrecords.ne_whole hp hsame.symm
  rw [← m.map_bound]
  refine List.Nodup.map_on (fun p hp q hq hname => ?_) (List.Nodup.of_map _ hselectors)
  have halias : ∀ p ∈ m.bound, r.imports.alias? (m.path, p.1) = some p.2 := fun p hp => by
    rw [ImportTable.alias?, h.records.lookup_of_mem hm]
    exact hrecords.alias?_of_mem_bound hp
  have hkey := h.injective _ _ _ (halias p hp) (hname ▸ halias q hq)
  exact Prod.ext (Prod.mk.inj hkey).2 hname

namespace JavaScript

/-! ## The imports of a printed program -/

/-- The line of an import declaration. -/
def ImportDecl.line (sep : Separator) (d : ImportDecl) : String :=
  d.text ++ (match sep with | .semicolons => ";" | .newlines => "") ++ "\n"

/-- An import declaration is printed as one line. -/
theorem run_importPieces (sep : Separator) (d : ImportDecl) {p : Printer} (hp : p.depth = 0) :
    (p.run (d.pieces sep)).out = p.out ++ d.line sep ∧ (p.run (d.pieces sep)).depth = 0 := by
  cases sep <;>
    simp [ImportDecl.pieces, ImportDecl.line, Layout.line, Layout.terminator, Printer.put,
      Printer.print, Printer.printMargin, Printer.marginText, hp, String.append_assoc]

/-- Import declarations are printed line by line. -/
theorem run_importsPieces (sep : Separator) (ds : List ImportDecl) {p : Printer}
    (hp : p.depth = 0) :
    (p.run (importsPieces sep ds)).out = p.out ++ String.join (ds.map (·.line sep)) := by
  induction ds generalizing p with
  | nil => simp [importsPieces]
  | cons d ds ih =>
    obtain ⟨hout, hdepth⟩ := run_importPieces sep d hp
    rw [importsPieces, List.flatMap_cons, Printer.run_append]
    refine (ih hdepth).trans ?_
    rw [hout, List.map_cons, String.join_cons, String.append_assoc]

/-- A program starts with the lines of its import declarations. -/
theorem print_imports (program : Program) (options : PrintOptions) :
    ∃ rest, (program.print options).1 =
      String.join (program.imports.map (·.line options.separator)) ++ rest := by
  have himports : ((Printer.start options).run (importsPieces options.separator
      program.imports)).out = "" ++ _ := run_importsPieces options.separator program.imports rfl
  obtain ⟨hout, -⟩ := Printer.run_clear
    ((Printer.start options).run (importsPieces options.separator program.imports))
    (stmtsPieces options.separator program.body)
  rw [himports, String.empty_append, ← Printer.run_append] at hout
  exact ⟨_, hout⟩

/-! ## Files -/

/-- The words that strict code may not bind are reserved. -/
theorem strictWords_subset : ∀ x ∈ strictWords, x ∈ reservedWords := by
  decide +kernel

/-- Each path that a lowered file imports from has one declaration, which binds every alias of the
path once. If the selectors are names, and the alphabet has the characters of the aliases, the
declaration has one of the five forms of the language, unless the whole module is imported and
members beside it: then it has none. -/
theorem lowerFile_importForms {file : SourceFile} {content : Ir.File} {journal journal' : Journal}
    {program : Program} (h : lowerFile file content journal = (.ok program, journal')) :
    (∀ options, ∃ rest, (program.print options).1 =
      String.join (program.imports.map (·.line options.separator)) ++ rest) ∧
    ∃ t, InTurn (lowerLeaf file) (Ir.Declaration.leavesList content.declarations)
        (.start journal content.used reservedWords) t ∧
      program.imports = importDecls t.imports ∧ (program.imports.map (·.path)).Nodup ∧
      ∀ m ∈ t.imports, m.bound ≠ [] ∧ (m.bound.map (·.2)).Nodup ∧
        ∀ a : Alphabet, (∀ p ∈ (importDecl m).names, a.IsName p.1) →
          (∀ x ∈ (importDecl m).locals, a.Admits x) →
          ∃ ts, (∀ rest, Lexes a (importDecl m).text.toList ts rest) ∧
            (¬ (importDecl m).IsMixed →
              ∃ bs, ImportDeclaration ts m.path bs ∧ bs.Perm m.bound) ∧
            ((importDecl m).IsMixed → ∀ path bs, ¬ ImportDeclaration ts path bs) := by
  refine ⟨print_imports program, ?_⟩
  obtain ⟨body, t, hleaves, rfl⟩ := lowerFile_eq_ok h
  obtain ⟨requests, hrun⟩ := (lowerLeaves_forall₂ hleaves).1.asks
  let start : Registry := (LowerState.start journal content.used reservedWords).registry
  have haccounts : (start.run requests).Accounts _ := (Registry.Accounts.start _).run requests
  have hbindable : (start.run requests).AliasesBindable :=
    (Registry.AliasesBindable.start _).run requests
  have hreserved : t.registry.names.reserved = reservedWords := by
    rw [← hrun]
    exact start.run_reserved requests
  rw [hrun] at haccounts hbindable
  refine ⟨t, lowerLeaves_inTurn hleaves, rfl, ?_, fun m hm => ?_⟩
  · have hpaths : (importDecls t.imports).map (·.path) = t.registry.imports.map (·.path) := by
      simp [importDecls, importDecl, LowerState.registry]
    rw [hpaths, haccounts.records.paths]
    exact eraseDups_nodup _
  have hrecords := haccounts.records.entries m hm
  obtain ⟨selector, name, hname⟩ := haccounts.records.exists_alias hm
  have hbound := bound_importDecl hrecords
  have hlocals : (importDecl m).locals.Perm m.aliases := by
    rw [← map_bound, ← m.map_bound]
    exact hbound.map _
  have hne : (importDecl m).locals ≠ [] := by
    rw [← map_bound, Ne, List.map_eq_nil_iff]
    exact fun hnil => ModuleImports.bound_ne_nil hname (List.nil_perm.1 (hnil ▸ hbound))
  refine ⟨ModuleImports.bound_ne_nil hname, m.map_bound ▸ haccounts.aliases_nodup hm,
    fun a hselectors haliases => ?_⟩
  have halias : ∀ x ∈ (importDecl m).locals, x ∈ t.imports.aliases := fun x hx =>
    List.mem_flatMap.2 ⟨m, hm, hlocals.mem_iff.1 hx⟩
  have hnames : (importDecl m).HasNames a := ⟨hselectors, fun x hx =>
    isName_of_isIdentifier (hbindable.identifier x (halias x hx)) (haliases x hx)⟩
  have hbind : ∀ x ∈ (importDecl m).locals, x ∉ strictWords := fun x hx hmem =>
    hbindable.free x (halias x hx) (hreserved ▸ strictWords_subset x hmem)
  exact ⟨(importDecl m).tokens, ImportDecl.lexes_text hnames hne,
    fun hmixed => ⟨_, ImportDecl.importDeclaration hbind hne hmixed, hbound⟩,
    ImportDecl.not_importDeclaration⟩

/-- Calls of what is imported from one path. -/
def libraryCalls (selectors : List String) : Ir.File :=
  ⟨[.action ⟨.sequence (selectors.map fun selector =>
    .call (.imported ⟨selector, "./lib.js", .user⟩ .any none) none [] false .any none), []⟩], []⟩

/-- The imports of a lowered file are those of its program. -/
theorem exists_imports {content : Ir.File} {imports : List ImportDecl}
    (h : (lowerFile bareFile content .empty).1.toOption.map (·.imports) = some imports) :
    ∃ program journal', lowerFile bareFile content .empty = (.ok program, journal') ∧
      program.imports = imports := by
  rcases hlower : lowerFile bareFile content .empty with ⟨_ | program, journal'⟩
  · rw [hlower] at h
    cases h
  · rw [hlower] at h
    exact ⟨program, journal', rfl, Option.some.inj h⟩

/-- The declaration for a default and a member of one module. -/
def defaultAndMember : ImportDecl := ⟨"./lib.js", some "lib", none, [("a", "a")]⟩

/-- The declaration for a whole module and a member of it. -/
def wholeAndMember : ImportDecl := ⟨"./lib.js", none, some "lib", [("a", "a")]⟩

/-- A default export and a member are imported by one declaration of the language. -/
theorem defaultAndMember_importForm : ∃ program journal',
    lowerFile bareFile (libraryCalls ["default", "a"]) .empty = (.ok program, journal') ∧
      ∃ d, program.imports = [d] ∧ d.text = "import lib, \x7b a \x7d from \"./lib.js\"" ∧
        ∃ ts bs, (∀ rest, Lexes .ascii d.text.toList ts rest) ∧
          ImportDeclaration ts d.path bs ∧ (bs.map (·.2)).Nodup := by
  obtain ⟨program, journal', hlower, himports⟩ : ∃ program journal',
      lowerFile bareFile (libraryCalls ["default", "a"]) .empty = (.ok program, journal') ∧
        program.imports = [defaultAndMember] :=
    exists_imports (by decide +kernel)
  refine ⟨program, journal', hlower, defaultAndMember, himports, by decide, ?_⟩
  obtain ⟨-, t, -, htable, -, hforms⟩ := lowerFile_importForms hlower
  obtain ⟨m, hm, hdecl⟩ : ∃ m ∈ t.imports, importDecl m = defaultAndMember :=
    List.mem_map.1 (show defaultAndMember ∈ importDecls t.imports by
      rw [← htable, himports]
      exact List.mem_singleton_self _)
  obtain ⟨-, hnodup, hforms⟩ := hforms m hm
  rw [hdecl] at hforms
  have hascii : ∀ x ∈ defaultAndMember.locals, ∀ c ∈ x.toList, c.toNat < 128 := by
    simp [ImportDecl.locals, defaultAndMember]
  obtain ⟨ts, hlexes, hform, -⟩ := hforms .ascii
    (List.forall_mem_singleton.2 (isName_word (by decide)))
    fun x hx => Alphabet.admits_ascii (hascii x hx)
  obtain ⟨bs, hbs, hperm⟩ := hform (by simp [ImportDecl.IsMixed, defaultAndMember])
  have hpath : m.path = defaultAndMember.path := congrArg ImportDecl.path hdecl
  exact ⟨ts, bs, hlexes, hpath ▸ hbs, (hperm.map (·.2)).nodup_iff.2 hnodup⟩

/-- The whole module and a member of it are imported by a declaration that the language does not
have. -/
theorem mixedImport_hasNoForm : ∃ program journal',
    lowerFile bareFile (libraryCalls ["a", "*"]) .empty = (.ok program, journal') ∧
      ∃ d, program.imports = [d] ∧ d.text = "import * as lib, \x7b a \x7d from \"./lib.js\"" ∧
        ∃ ts, lex .ascii d.text.toList = some ts ∧ ∀ path bs, ¬ ImportDeclaration ts path bs := by
  obtain ⟨program, journal', hlower, himports⟩ : ∃ program journal',
      lowerFile bareFile (libraryCalls ["a", "*"]) .empty = (.ok program, journal') ∧
        program.imports = [wholeAndMember] :=
    exists_imports (by decide +kernel)
  have hnames : ∀ x ∈ ["a", "lib"], Alphabet.ascii.IsName x := by
    intro x hx
    rcases List.mem_pair.1 hx with rfl | rfl <;> exact isName_word (by decide)
  have hlocals : ∀ x ∈ wholeAndMember.locals, x ∈ ["a", "lib"] := by decide
  have hlexes : Lexes .ascii wholeAndMember.text.toList wholeAndMember.tokens [] := by
    refine ImportDecl.lexes_text ⟨?_, fun x hx => hnames x (hlocals x hx)⟩ (by decide) []
    exact List.forall_mem_singleton.2 (hnames "a" (by decide))
  refine ⟨program, journal', hlower, wholeAndMember, himports, by decide, wholeAndMember.tokens, ?_,
    ImportDecl.not_importDeclaration ⟨rfl, by decide⟩⟩
  rw [Lexes, List.append_nil, lex_nil] at hlexes
  simpa using hlexes

end JavaScript

end TypedLowering
