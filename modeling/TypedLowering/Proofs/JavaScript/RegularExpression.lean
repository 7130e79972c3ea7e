import Mathlib.Data.List.TakeWhile
import TypedLowering.Proofs.JavaScript.Tokens

/-!
# Reading regular expressions

A regular expression is read from the slash in front of it to the next one that neither is escaped
nor stands in a class, and the letters behind that one are its flags (`Regex.read`). Line ends are
refused, and so are the two fronts of comments. The grammar of patterns (`Regex.Pattern`) is another
matter: to a pattern, slashes and line ends are characters like any other, and it may be empty.
-/

namespace TypedLowering.JavaScript

/-- What a regular expression literal denotes. -/
structure Regex where
  pattern : String
  flags : String
  deriving DecidableEq, Repr

namespace Regex

/-! ## The characters between the slashes -/

/-- The characters that end a line. -/
def isLineEnd (c : Char) : Bool :=
  c == '\n' || c == '\r' || c == '\u2028' || c == '\u2029'

/-- Where a reader of the characters between the slashes is. -/
inductive Place where
  | outside
  /-- Behind a backslash. -/
  | escape
  | inClass
  /-- Behind a backslash in a class. -/
  | classEscape
  deriving DecidableEq, Repr

namespace Place

/-- The place behind a character. A bracket in a class opens none: the class ends at the first
bracket that closes one and is not escaped. -/
def next : Place → Char → Place
  | outside, c => if c = '\\' then escape else if c = '[' then inClass else outside
  | escape, _ => outside
  | inClass, c => if c = '\\' then classEscape else if c = ']' then outside else inClass
  | classEscape, _ => inClass

/-- The place behind a text. -/
def after (p : Place) (cs : List Char) : Place := cs.foldl next p

/-- No characters leave the place as it is. -/
@[simp] theorem after_nil (p : Place) : p.after [] = p := rfl

/-- The characters are taken one by one. -/
@[simp] theorem after_cons (p : Place) (c : Char) (cs : List Char) :
    p.after (c :: cs) = (p.next c).after cs := rfl

/-- A text may be taken in two parts. -/
@[simp] theorem after_append (p : Place) (cs ds : List Char) :
    p.after (cs ++ ds) = (p.after cs).after ds :=
  List.foldl_append

end Place

/-- Whether a text at a place may stand between the slashes, up to the second one. -/
structure Body (p : Place) (cs : List Char) : Prop where
  oneLine : ∀ c ∈ cs, isLineEnd c = false
  enclosed : ∀ before behind, cs = before ++ '/' :: behind → p.after before ≠ .outside
  closed : p.after cs = .outside

/-- Nothing is a whole body outside of classes and escapes. -/
theorem body_nil {p : Place} : Body p [] ↔ p = .outside :=
  ⟨fun h => h.closed, fun h => ⟨nofun, fun before behind heq => by simp at heq, h⟩⟩

/-- A body goes on with any character but a line end, and with a slash only in a class or behind a
backslash. -/
theorem body_cons {p : Place} {c : Char} {cs : List Char} :
    Body p (c :: cs) ↔ isLineEnd c = false ∧ (c = '/' → p ≠ .outside) ∧ Body (p.next c) cs := by
  constructor
  · intro h
    obtain ⟨hc, hcs⟩ := List.forall_mem_cons.1 h.oneLine
    refine ⟨hc, fun hslash => h.enclosed [] cs (by rw [hslash, List.nil_append]), hcs, ?_, h.closed⟩
    exact fun before behind heq => h.enclosed (c :: before) behind (by rw [heq, List.cons_append])
  · rintro ⟨hc, hslash, h⟩
    refine ⟨List.forall_mem_cons.2 ⟨hc, h.oneLine⟩, fun before behind heq => ?_, h.closed⟩
    cases before with
    | nil => exact hslash (List.cons.inj heq).1
    | cons d before =>
      obtain ⟨rfl, hcs⟩ := List.cons.inj heq
      exact h.enclosed before behind hcs

/-- The text up to the slash that ends a literal, and the text behind it. -/
def readBody (p : Place) : List Char → Option (List Char × List Char)
  | [] => none
  | c :: cs =>
    if isLineEnd c then none
    else if c = '/' ∧ p = .outside then some ([], cs)
    else (readBody (p.next c) cs).map fun (body, rest) => (c :: body, rest)

/-- The body that is read reaches to the slash that ends it. -/
theorem readBody_eq_some {p : Place} {cs body rest : List Char} :
    readBody p cs = some (body, rest) ↔ cs = body ++ '/' :: rest ∧ Body p body := by
  constructor
  · intro h
    induction cs generalizing p body with
    | nil => cases h
    | cons c cs ih =>
      rw [readBody] at h
      split at h
      · cases h
      · rename_i hline
        split at h
        · rename_i hslash
          cases h
          exact ⟨by rw [hslash.1, List.nil_append], body_nil.2 hslash.2⟩
        · rename_i hslash
          obtain ⟨⟨body, rest⟩, hread, heq⟩ := Option.map_eq_some_iff.1 h
          cases heq
          obtain ⟨hcs, hbody⟩ := ih hread
          rw [hcs]
          exact ⟨rfl, body_cons.2 ⟨by simpa using hline, not_and.1 hslash, hbody⟩⟩
  · rintro ⟨rfl, h⟩
    induction body generalizing p with
    | nil => rw [List.nil_append, readBody, if_neg (by decide), if_pos ⟨rfl, body_nil.1 h⟩]
    | cons c body ih =>
      obtain ⟨hline, hslash, h⟩ := body_cons.1 h
      rw [List.cons_append, readBody, hline, if_neg Bool.false_ne_true, if_neg (not_and.2 hslash),
        ih h]
      rfl

/-! ## Literals -/

variable {a : Alphabet}

/-- The text of a literal, as it is printed. -/
def text (r : Regex) : List Char :=
  '/' :: (r.pattern.toList ++ '/' :: r.flags.toList)

/-- The regular expression at the front of a text, and the text behind it. -/
def read (a : Alphabet) : List Char → Option (Regex × List Char)
  | [] => none
  | c :: cs =>
    if c ≠ '/' ∨ cs.head? = some '/' ∨ cs.head? = some '*' then none
    else (readBody .outside cs).map fun (body, rest) =>
      (⟨String.ofList body, String.ofList (rest.takeWhile a.isPart)⟩, rest.dropWhile a.isPart)

/-- Whether a pattern can be read between slashes. -/
structure Readable (cs : List Char) : Prop where
  body : Body .outside cs
  ne_nil : cs ≠ []
  /-- No comment starts here. -/
  noStar : cs.head? ≠ some '*'

/-- A literal does not start like a comment. -/
theorem Readable.head {cs : List Char} (h : Readable cs) (rest : List Char) :
    (cs ++ rest).head? ≠ some '/' ∧ (cs ++ rest).head? ≠ some '*' := by
  obtain ⟨c, cs, rfl⟩ := List.exists_cons_of_ne_nil h.ne_nil
  refine ⟨fun hslash => ?_, h.noStar⟩
  exact (body_cons.1 h.body).2.1 (Option.some.inj hslash) rfl

/-- The characters that shape a literal are no letters. -/
theorem isPart_plain {c : Char} (h : a.isPart c = true) : c ≠ '/' ∧ c ≠ '\\' ∧ c ≠ '[' := by
  have hother : ∀ d ∈ ['/', '\\', '['],
      d.toNat < 128 ∧ (d.isAlphanum || d == '_' || d == '$') = false :=
    List.forall_iff_forall_mem.mp (by decide)
  have hne : ∀ d ∈ ['/', '\\', '['], c ≠ d := by
    rintro d hd rfl
    obtain ⟨hascii, hletter⟩ := hother c hd
    rw [a.part_ascii c hascii, hletter] at h
    cases h
  exact ⟨hne _ (by decide), hne _ (by decide), hne _ (by decide)⟩

/-- What is read is a readable pattern between slashes and all the letters behind it. -/
theorem read_eq_some {r : Regex} {cs rest : List Char} :
    read a cs = some (r, rest) ↔ cs = r.text ++ rest ∧ Readable r.pattern.toList ∧
      (∀ c ∈ r.flags.toList, a.isPart c = true) ∧ rest.head?.any a.isPart = false := by
  constructor
  · intro h
    cases cs with
    | nil => cases h
    | cons c cs =>
      rw [read] at h
      split at h
      · cases h
      · rename_i hfront
        obtain ⟨hc, hslash, hstar⟩ : c = '/' ∧ cs.head? ≠ some '/' ∧ cs.head? ≠ some '*' := by
          simpa using hfront
        obtain ⟨⟨body, rest⟩, hread, heq⟩ := Option.map_eq_some_iff.1 h
        cases heq
        obtain ⟨hcs, hbody⟩ := readBody_eq_some.1 hread
        rw [hcs] at hslash hstar
        refine ⟨?_, ?_, fun d hd => ?_, ?_⟩
        · rw [text, String.toList_ofList, String.toList_ofList, hc, hcs, List.cons_append,
            List.append_assoc, List.cons_append, List.takeWhile_append_dropWhile]
        · rw [String.toList_ofList]
          refine ⟨hbody, fun hnil => hslash (by rw [hnil]; rfl), fun hhead => hstar ?_⟩
          rw [List.head?_append, hhead]
          rfl
        · rw [String.toList_ofList] at hd
          exact List.mem_takeWhile_imp hd
        · grind [List.head?_dropWhile_not]
  · rintro ⟨rfl, hpattern, hflags, hrest⟩
    obtain ⟨htake, hdrop⟩ := span_stop hflags hrest
    obtain ⟨hslash, hstar⟩ := hpattern.head ('/' :: (r.flags.toList ++ rest))
    have hbody := readBody_eq_some.2
      ⟨(rfl : r.pattern.toList ++ '/' :: (r.flags.toList ++ rest) = _), hpattern.body⟩
    rw [text, List.cons_append, List.append_assoc, List.cons_append, read,
      if_neg (not_or.2 ⟨not_not.2 rfl, not_or.2 ⟨hslash, hstar⟩⟩), hbody, Option.map_some]
    simp only [htake, hdrop, String.ofList_toList]

/-- The last slash of a literal is the one in front of its flags. -/
theorem span_reverse_text {r : Regex} (hflags : ∀ c ∈ r.flags.toList, a.isPart c = true) :
    r.text.reverse.takeWhile (· != '/') = r.flags.toList.reverse ∧
      r.text.reverse.dropWhile (· != '/') = '/' :: (r.pattern.toList.reverse ++ ['/']) := by
  have hslash : ∀ c ∈ r.flags.toList.reverse, (c != '/') = true := fun c hc =>
    bne_iff_ne.2 (isPart_plain (hflags c (List.mem_reverse.1 hc))).1
  have hrest : ('/' :: (r.pattern.toList.reverse ++ ['/'])).head?.any (· != '/') = false := rfl
  have hreverse : r.text.reverse =
      r.flags.toList.reverse ++ '/' :: (r.pattern.toList.reverse ++ ['/']) := by
    simp [text]
  rw [hreverse]
  exact span_stop hslash hrest

/-- Literals whose flags are letters have different texts. -/
theorem eq_of_text_eq {r t : Regex} (hr : ∀ c ∈ r.flags.toList, a.isPart c = true)
    (ht : ∀ c ∈ t.flags.toList, a.isPart c = true) (h : r.text = t.text) : r = t := by
  obtain ⟨hflags, hpattern⟩ := span_reverse_text hr
  rw [h, (span_reverse_text ht).1, List.reverse_inj, String.toList_inj] at hflags
  rw [h, (span_reverse_text ht).2, List.cons_inj_right, List.append_left_inj, List.reverse_inj,
    String.toList_inj] at hpattern
  cases r
  cases t
  exact congrArg₂ _ hpattern.symm hflags.symm

/-! ## Patterns -/

/-- The inside of a class. In some modes classes are nested. -/
inductive ClassContents : List Char → Prop
  | nil : ClassContents []
  | char {c : Char} {cs : List Char} (hc : c ≠ '\\' ∧ c ≠ ']') :
    ClassContents cs → ClassContents (c :: cs)
  | escape (c : Char) {cs : List Char} : ClassContents cs → ClassContents ('\\' :: c :: cs)
  | nested {inner cs : List Char} :
    ClassContents inner → ClassContents cs → ClassContents ('[' :: (inner ++ ']' :: cs))

/-- The name of a group, with escapes. -/
inductive GroupName (a : Alphabet) : List Char → Prop
  | nil : GroupName a []
  | char {c : Char} {cs : List Char} (hc : a.isPart c = true) :
    GroupName a cs → GroupName a (c :: cs)
  | escape {cs : List Char} : GroupName a cs → GroupName a ('\\' :: 'u' :: cs)
  /-- The escape of a code point. -/
  | braced {digits cs : List Char} (hdigits : ∀ c ∈ digits, (hexDigit? c).isSome = true) :
    GroupName a cs → GroupName a ('\\' :: 'u' :: '\x7b' :: (digits ++ '\x7d' :: cs))

/-- What a group begins with: nothing, the kind of an assertion, modifiers, or a name. -/
inductive GroupHead (a : Alphabet) : List Char → Prop
  | capture : GroupHead a []
  | assertion {cs : List Char} (h : cs ∈ [['='], ['!'], ['<', '='], ['<', '!']]) :
    GroupHead a ('?' :: cs)
  | modifiers {cs : List Char} (h : ∀ c ∈ cs, c ∈ ['i', 'm', 's', '-']) :
    GroupHead a ('?' :: (cs ++ [':']))
  | named {name : List Char} : GroupName a name → GroupHead a ('?' :: '<' :: (name ++ ['>']))

/-- How often something is matched. -/
inductive Quantifier : List Char → Prop
  | once : Quantifier []
  | sign {c : Char} (hc : c ∈ ['*', '+', '?']) : Quantifier [c]
  | counted {bounds : List Char} (h : ∀ c ∈ bounds, c.isDigit = true ∨ c = ',') :
    Quantifier ('\x7b' :: (bounds ++ ['\x7d']))
  | lazy {q : List Char} : Quantifier q → Quantifier (q ++ ['?'])

/-- The characters that do not stand for themselves. The dot does not either, but is an atom too. -/
def syntaxCharacters : List Char := ['^', '$', '\\', '*', '+', '?', '(', ')', '[', '|']

/-- The patterns of all modes of the language. Each of the modes refuses some of them, by its own
grammar or for what they say, such as ranges out of order. -/
inductive Pattern (a : Alphabet) : List Char → Prop
  | nil : Pattern a []
  /-- Another alternative. -/
  | bar {cs : List Char} : Pattern a cs → Pattern a ('|' :: cs)
  /-- The assertion of an edge. -/
  | edge {c : Char} {cs : List Char} (hc : c = '^' ∨ c = '$') : Pattern a cs → Pattern a (c :: cs)
  | char {c : Char} {q cs : List Char} (hc : c ∉ syntaxCharacters) :
    Quantifier q → Pattern a cs → Pattern a (c :: (q ++ cs))
  | escape (c : Char) {q cs : List Char} :
    Quantifier q → Pattern a cs → Pattern a ('\\' :: c :: (q ++ cs))
  | cls {inner q cs : List Char} : ClassContents inner → Quantifier q → Pattern a cs →
    Pattern a ('[' :: (inner ++ ']' :: (q ++ cs)))
  | group {head inner q cs : List Char} : GroupHead a head → Pattern a inner → Quantifier q →
    Pattern a cs → Pattern a ('(' :: (head ++ (inner ++ ')' :: (q ++ cs))))

/-- Characters that stand for themselves, one after the other. -/
theorem Pattern.of_chars {cs : List Char} (h : ∀ c ∈ cs, c ∉ syntaxCharacters) : Pattern a cs := by
  induction cs with
  | nil => exact .nil
  | cons c cs ih =>
    obtain ⟨hc, hcs⟩ := List.forall_mem_cons.1 h
    exact .char hc .once (ih hcs)

/-- A pattern with flags, of which `u` and `v` choose different modes. -/
structure Valid (a : Alphabet) (r : Regex) : Prop where
  pattern : Pattern a r.pattern.toList
  known : ∀ c ∈ r.flags.toList, c ∈ ['d', 'g', 'i', 'm', 's', 'u', 'v', 'y']
  nodup : r.flags.toList.Nodup
  mode : ¬('u' ∈ r.flags.toList ∧ 'v' ∈ r.flags.toList)

/-- The flags of a valid expression are letters of identifiers. -/
theorem Valid.letters {r : Regex} (h : r.Valid a) : ∀ c ∈ r.flags.toList, a.isPart c = true := by
  intro c hc
  have hall : ∀ c ∈ ['d', 'g', 'i', 'm', 's', 'u', 'v', 'y'],
      c.toNat < 128 ∧ (c.isAlphanum || c == '_' || c == '$') = true :=
    List.forall_iff_forall_mem.mp (by decide)
  obtain ⟨hascii, hletter⟩ := hall c (h.known c hc)
  rw [a.part_ascii c hascii, hletter]

/-! ### Patterns between slashes -/

/-- Whether a text has nothing that a reader of a literal takes notice of, but for slashes. -/
def Plain (cs : List Char) : Prop := ∀ c ∈ cs, c ≠ '\\' ∧ c ≠ '['

namespace Place

/-- Plain characters leave the place outside. -/
theorem after_plain {cs : List Char} (h : Plain cs) : outside.after cs = outside := by
  induction cs with
  | nil => rfl
  | cons c cs ih =>
    obtain ⟨⟨hslash, hbracket⟩, hcs⟩ := List.forall_mem_cons.1 h
    rw [after_cons, next, if_neg hslash, if_neg hbracket, ih hcs]

/-- Whether no backslash is in front. -/
def IsWhole (p : Place) : Prop := p = outside ∨ p = inClass

/-- Any character but a backslash leaves no backslash in front. -/
theorem IsWhole.next {p : Place} {c : Char} (h : p.IsWhole) (hc : c ≠ '\\') :
    (p.next c).IsWhole := by
  rcases h with rfl | rfl <;> simp only [Place.next, if_neg hc] <;> split <;> simp [IsWhole]

/-- A backslash is used up by the character behind it. -/
theorem IsWhole.escape {p : Place} (h : p.IsWhole) (c : Char) :
    ((p.next '\\').next c).IsWhole := by
  rcases h with rfl | rfl
  · exact .inl rfl
  · exact .inr rfl

/-- A closing bracket leads outside. -/
theorem IsWhole.next_bracket {p : Place} (h : p.IsWhole) : p.next ']' = outside := by
  rcases h with rfl | rfl <;> rfl

end Place

open Regex.Place (after_cons after_append after_plain)

/-- A reader may leave nested classes too early, but never behind a backslash. -/
theorem ClassContents.isWhole {cs : List Char} (h : ClassContents cs) :
    ∀ {p : Place}, p.IsWhole → (p.after cs).IsWhole := by
  induction h with
  | nil => exact id
  | char hc _ ih => exact fun hp => ih (hp.next hc.1)
  | escape c _ ih => exact fun hp => ih (hp.escape c)
  | nested _ _ ihinner ih =>
    intro p hp
    rw [after_cons, after_append, after_cons]
    exact ih ((ihinner (hp.next (by decide))).next (by decide))

/-- A quantifier has neither backslashes nor opening brackets. -/
theorem Quantifier.plain {q : List Char} (h : Quantifier q) : Plain q := by
  have hsigns : ∀ c ∈ ['*', '+', '?'], c ≠ '\\' ∧ c ≠ '[' :=
    List.forall_iff_forall_mem.mp (by decide)
  have hdigit : ∀ {c : Char}, c.isDigit = true ∨ c = ',' → c ≠ '\\' ∧ c ≠ '[' := by
    intro c h
    constructor <;> rintro rfl <;> revert h <;> decide
  induction h with
  | once => exact nofun
  | sign hc => exact List.forall_mem_singleton.2 (hsigns _ hc)
  | counted h =>
    refine List.forall_mem_cons.2 ⟨by decide, List.forall_mem_append.2 ⟨?_, ?_⟩⟩
    · exact fun c hc => hdigit (h c hc)
    · exact List.forall_mem_singleton.2 (by decide)
  | lazy _ ih =>
    exact List.forall_mem_append.2 ⟨ih, List.forall_mem_singleton.2 (by decide)⟩

/-- The name of a group leads to no class. -/
theorem GroupName.outside {cs : List Char} (h : GroupName a cs) :
    Place.outside.after cs = .outside := by
  induction h with
  | nil => rfl
  | @char c cs hc _ ih =>
    have hplain : Plain [c] := List.forall_mem_singleton.2 (isPart_plain hc).2
    rw [← List.singleton_append, after_append, after_plain hplain, ih]
  | escape _ ih => exact ih
  | @braced digits cs hdigits _ ih =>
    have hplain : Plain (digits ++ ['\x7d']) := by
      refine List.forall_mem_append.2 ⟨fun c hc => ?_, List.forall_mem_singleton.2 (by decide)⟩
      have hdigit := hdigits c hc
      constructor <;> rintro rfl <;> revert hdigit <;> decide
    have htext : digits ++ '\x7d' :: cs = (digits ++ ['\x7d']) ++ cs := by simp
    show Place.outside.after (digits ++ '\x7d' :: cs) = .outside
    rw [htext, after_append, after_plain hplain, ih]

/-- The head of a group leads to no class. -/
theorem GroupHead.outside {cs : List Char} (h : GroupHead a cs) :
    Place.outside.after cs = .outside := by
  cases h with
  | capture => rfl
  | assertion h =>
    revert h
    simp only [List.mem_cons, List.not_mem_nil, or_false]
    rintro (rfl | rfl | rfl | rfl) <;> rfl
  | modifiers h =>
    have hall : ∀ c ∈ ['i', 'm', 's', '-'], c ≠ '\\' ∧ c ≠ '[' :=
      List.forall_iff_forall_mem.mp (by decide)
    refine after_plain (List.forall_mem_cons.2 ⟨by decide, List.forall_mem_append.2 ⟨?_, ?_⟩⟩)
    · exact fun c hc => hall c (h c hc)
    · exact List.forall_mem_singleton.2 (by decide)
  | named h =>
    show Place.outside.after (_ ++ ['>']) = .outside
    rw [after_append, h.outside]
    rfl

/-- Classes, groups and escapes of a pattern are complete. -/
theorem Pattern.outside {cs : List Char} (h : Pattern a cs) :
    Place.outside.after cs = .outside := by
  induction h with
  | nil => rfl
  | bar _ ih => exact ih
  | edge hc _ ih => rcases hc with rfl | rfl <;> exact ih
  | @char c q cs hc hq _ ih =>
    have hplain : Plain [c] := by
      refine List.forall_mem_singleton.2 ⟨?_, ?_⟩ <;> rintro rfl <;> exact hc (by decide)
    rw [← List.singleton_append, after_append, after_plain hplain, after_append,
      after_plain hq.plain, ih]
  | escape c hq _ ih =>
    show Place.outside.after (_ ++ _) = .outside
    rw [after_append, after_plain hq.plain, ih]
  | cls hinner hq _ ih =>
    have hclass : (Place.outside.next '[').IsWhole := .inr rfl
    rw [after_cons, after_append, after_cons, (hinner.isWhole hclass).next_bracket,
      after_append, after_plain hq.plain, ih]
  | group hhead _ hq _ ihinner ih =>
    show Place.outside.after (_ ++ (_ ++ ')' :: (_ ++ _))) = .outside
    rw [after_append, hhead.outside, after_append, ihinner]
    show Place.outside.after (_ ++ _) = .outside
    rw [after_append, after_plain hq.plain, ih]

/-- Nothing is repeated at the start of a pattern. -/
theorem Pattern.noStar {cs : List Char} (h : Pattern a cs) : cs.head? ≠ some '*' := by
  cases h with
  | nil | bar | escape | cls | group => simp
  | edge hc => rcases hc with rfl | rfl <;> simp
  | char hc =>
    rintro heq
    obtain rfl := Option.some.inj heq
    exact hc (by decide)

end Regex

end TypedLowering.JavaScript
