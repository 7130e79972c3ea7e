import Mathlib.Data.List.Find
import TypedLowering.Proofs.JavaScript.StringLiteral
import TypedLowering.Proofs.Number.ShortestText

/-!
# Tokens

The lexical grammar, as far as expressions need it: names, decimal literals without an exponent,
string literals and punctuators, of which the longest one is taken. Other numbers, templates and
comments are refused, and a slash is always a division. Which characters beyond ASCII may stand in a
name is left open (`Alphabet`), since it depends on the version of Unicode.
-/

namespace TypedLowering.JavaScript

open Binary64 (numeral)

/-- A token of an expression. -/
inductive Token where
  | name (text : String)
  /-- A decimal literal for the number `digits / 10 ^ places`. -/
  | number (digits places : Nat)
  | string (value : String)
  | punctuator (text : String)
  deriving DecidableEq, Repr

/-- White space and line ends. -/
def isBlank (c : Char) : Bool :=
  c == ' ' || c == '\t' || c == '\x0b' || c == '\x0c' || c == '\n' || c == '\r' || c == '\u00a0' ||
    c == '\ufeff' || c == '\u2028' || c == '\u2029'

/-- The characters of names. -/
structure Alphabet where
  isStart : Char → Bool
  isPart : Char → Bool
  start_ascii : ∀ c : Char, c.toNat < 128 → isStart c = (c.isAlpha || c == '_' || c == '$')
  part_ascii : ∀ c : Char, c.toNat < 128 → isPart c = (c.isAlphanum || c == '_' || c == '$')
  start_not_blank : ∀ c, isStart c = true → isBlank c = false

/-- The names of ASCII characters alone. -/
def Alphabet.ascii : Alphabet where
  isStart c := c.toNat < 128 && (c.isAlpha || c == '_' || c == '$')
  isPart c := c.toNat < 128 && (c.isAlphanum || c == '_' || c == '$')
  start_ascii c h := by simp [h]
  part_ascii c h := by simp [h]
  start_not_blank c h := by
    by_contra hblank
    have hmem : c ∈ [' ', '\t', '\x0b', '\x0c', '\n', '\r', '\u00a0', '\ufeff', '\u2028',
        '\u2029'] := by
      simpa [isBlank, or_iff_not_imp_left] using hblank
    have hall : ∀ c ∈ [' ', '\t', '\x0b', '\x0c', '\n', '\r', '\u00a0', '\ufeff', '\u2028',
        '\u2029'], (c.toNat < 128 && (c.isAlpha || c == '_' || c == '$')) = false :=
      List.forall_iff_forall_mem.mp (by decide)
    rw [hall c hmem] at h
    cases h

/-- The punctuators, longer ones first. -/
def punctuators : List (List Char) := [
  ['>', '>', '>', '='],
  ['.', '.', '.'], ['=', '=', '='], ['!', '=', '='], ['*', '*', '='], ['<', '<', '='],
  ['>', '>', '='], ['>', '>', '>'], ['&', '&', '='], ['|', '|', '='], ['?', '?', '='],
  ['=', '>'], ['=', '='], ['!', '='], ['<', '='], ['>', '='], ['&', '&'], ['|', '|'], ['?', '?'],
  ['?', '.'], ['+', '+'], ['-', '-'], ['+', '='], ['-', '='], ['*', '='], ['/', '='], ['%', '='],
  ['&', '='], ['|', '='], ['^', '='], ['<', '<'], ['>', '>'], ['*', '*'],
  ['\x7b'], ['\x7d'], ['('], [')'], ['['], [']'], ['.'], [';'], [','], ['<'], ['>'], ['+'], ['-'],
  ['*'], ['/'], ['%'], ['&'], ['|'], ['^'], ['!'], ['~'], ['?'], [':'], ['=']]

/-- Whether a text starts with a punctuator. In `a?.5:b` there is no optional chain. -/
def startsWith (cs p : List Char) : Bool :=
  p.isPrefixOf cs && !(p == ['?', '.'] && (cs.drop 2).head?.any Char.isDigit)

/-- Reads the longest punctuator, unless a comment starts here. -/
def readPunctuator (cs : List Char) : Option (Token × List Char) :=
  if ['/', '/'].isPrefixOf cs || ['/', '*'].isPrefixOf cs then none
  else (punctuators.find? (startsWith cs)).map fun p =>
    (.punctuator (String.ofList p), cs.drop p.length)

variable (a : Alphabet)

/-- The end of a decimal literal, which no name may follow directly. -/
def endNumber (digits places : Nat) (rest : List Char) : Option (Token × List Char) :=
  if rest.head?.any a.isStart then none else some (.number digits places, rest)

/-- A decimal literal. A zero before other digits would be an octal literal. -/
def readNumber (cs : List Char) : Option (Token × List Char) :=
  let whole := cs.takeWhile Char.isDigit
  let rest := cs.dropWhile Char.isDigit
  if whole.head? = some '0' ∧ whole ≠ ['0'] then none
  else if rest.head? = some '.' then
    let fraction := rest.tail.takeWhile Char.isDigit
    endNumber a (numeral (whole ++ fraction)) fraction.length (rest.tail.dropWhile Char.isDigit)
  else endNumber a (numeral whole) 0 rest

/-- The first token of a text that does not start with a blank, and the text behind it. -/
def nextToken : List Char → Option (Token × List Char)
  | [] => none
  | c :: cs =>
    if a.isStart c then
      some (.name (String.ofList (c :: cs.takeWhile a.isPart)), cs.dropWhile a.isPart)
    else if c.isDigit || (c == '.' && cs.head?.any Char.isDigit) then readNumber a (c :: cs)
    else if c == '"' || c == '\'' then
      (readString c cs).map fun (value, rest) => (.string (String.ofList value), rest)
    else readPunctuator (c :: cs)

/-- What remains of a list is no longer than the list. -/
theorem length_dropWhile_le {α : Type} (p : α → Bool) (xs : List α) :
    (xs.dropWhile p).length ≤ xs.length :=
  (List.dropWhile_sublist p).length_le

/-- A number takes at least one character. -/
theorem readNumber_length {c : Char} {cs rest : List Char} {t : Token}
    (hc : (c.isDigit || (c == '.' && cs.head?.any Char.isDigit)) = true)
    (h : readNumber a (c :: cs) = some (t, rest)) : rest.length < (c :: cs).length := by
  have hend : ∀ {digits places : Nat} {cs : List Char},
      endNumber a digits places cs = some (t, rest) → rest = cs := by
    intro digits places cs h
    rw [endNumber] at h
    split at h
    · cases h
    · cases h
      rfl
  rw [readNumber] at h
  simp only at h
  split at h
  · cases h
  · cases hdigit : c.isDigit with
    | true =>
      rw [List.dropWhile_cons_of_pos hdigit] at h
      have hle := length_dropWhile_le Char.isDigit cs
      split at h
      · rw [hend h, List.length_cons]
        have hle' := length_dropWhile_le Char.isDigit (cs.dropWhile Char.isDigit).tail
        rw [List.length_tail] at hle'
        omega
      · rw [hend h, List.length_cons]
        omega
    | false =>
      have hdot : c = '.' := by
        rw [hdigit] at hc
        simpa using (Bool.and_eq_true_iff.1 hc).1
      rw [List.dropWhile_cons_of_neg (by simp [hdigit]), hdot] at h
      rw [List.head?_cons, if_pos rfl] at h
      rw [hend h, List.length_cons]
      exact Nat.lt_succ_of_le (length_dropWhile_le Char.isDigit cs)

/-- A punctuator takes at least one character. -/
theorem readPunctuator_length {cs rest : List Char} {t : Token} (hcs : cs ≠ [])
    (h : readPunctuator cs = some (t, rest)) : rest.length < cs.length := by
  rw [readPunctuator] at h
  split at h
  · cases h
  · obtain ⟨p, hp, heq⟩ := Option.map_eq_some_iff.1 h
    cases heq
    have hne : p ≠ [] := (by decide : ∀ p ∈ punctuators, p ≠ []) p (List.mem_of_find?_eq_some hp)
    have := List.length_pos_of_ne_nil hne
    have := List.length_pos_of_ne_nil hcs
    rw [List.length_drop]
    omega

/-- A token takes at least one character. -/
theorem nextToken_length {cs rest : List Char} {t : Token} (h : nextToken a cs = some (t, rest)) :
    rest.length < cs.length := by
  cases cs with
  | nil => cases h
  | cons c cs =>
    rw [nextToken] at h
    split at h
    · cases h
      exact Nat.lt_succ_of_le (length_dropWhile_le a.isPart cs)
    · split at h
      · rename_i hc
        exact readNumber_length a hc h
      · split at h
        · obtain ⟨⟨value, rest⟩, hread, heq⟩ := Option.map_eq_some_iff.1 h
          cases heq
          exact Nat.lt_succ_of_lt (readString_length hread)
        · exact readPunctuator_length (List.cons_ne_nil c cs) h

/-- The tokens of a text. -/
def lex (cs : List Char) : Option (List Token) :=
  match cs with
  | [] => some []
  | c :: rest =>
    if isBlank c then lex rest
    else
      match _h : nextToken a (c :: rest) with
      | none => none
      | some (t, rest) => (lex rest).map (t :: ·)
termination_by cs.length
decreasing_by
  · exact Nat.lt_succ_self _
  · exact nextToken_length a (by assumption)

/-- The empty text has no tokens. -/
theorem lex_nil : lex a [] = some [] := by rw [lex]

/-- A blank is skipped. -/
theorem lex_blank {c : Char} (h : isBlank c = true) (rest : List Char) :
    lex a (c :: rest) = lex a rest := by
  rw [lex, if_pos h]

/-- A token is read before those behind it. -/
theorem lex_token {c : Char} {cs rest : List Char} {t : Token} (hc : isBlank c = false)
    (h : nextToken a (c :: cs) = some (t, rest)) : lex a (c :: cs) = (lex a rest).map (t :: ·) := by
  rw [lex, if_neg (by simp [hc])]
  split
  · rename_i hnone
    rw [h] at hnone
    cases hnone
  · rename_i hsome
    rw [h] at hsome
    cases hsome
    rfl

/-! ## Texts with their tokens -/

/-- Whether a text before `rest` has these tokens. -/
def Lexes (text : List Char) (ts : List Token) (rest : List Char) : Prop :=
  lex a (text ++ rest) = (lex a rest).map (ts ++ ·)

variable {a}

/-- No text has no tokens, whatever follows. -/
theorem Lexes.nil (rest : List Char) : Lexes a [] [] rest := by
  rw [Lexes, List.nil_append]
  cases lex a rest <;> rfl

/-- Two texts have the tokens of each, if the first has them in front of the second. -/
theorem Lexes.append {x y rest : List Char} {ts us : List Token} (hx : Lexes a x ts (y ++ rest))
    (hy : Lexes a y us rest) : Lexes a (x ++ y) (ts ++ us) rest := by
  rw [Lexes] at *
  rw [List.append_assoc, hx, hy, Option.map_map]
  congr 1
  funext vs
  exact (List.append_assoc ts us vs).symm

/-- A blank has no tokens. -/
theorem Lexes.blank (rest : List Char) : Lexes a [' '] [] rest := by
  rw [Lexes, List.singleton_append, lex_blank a rfl]
  cases lex a rest <;> rfl

/-- A text that is read as one token has that token. -/
theorem Lexes.token {c : Char} {cs rest : List Char} {t : Token} (hc : isBlank c = false)
    (h : nextToken a (c :: cs ++ rest) = some (t, rest)) : Lexes a (c :: cs) [t] rest :=
  lex_token a hc h

/-- Whether the text is a name. -/
def Alphabet.IsName (a : Alphabet) (name : String) : Prop :=
  ∃ c cs, name.toList = c :: cs ∧ a.isStart c = true ∧ ∀ d ∈ cs, a.isPart d = true

/-- A text that does not go on with characters of a kind has none of them at its front. -/
theorem span_stop {p : Char → Bool} {cs rest : List Char} (hcs : ∀ c ∈ cs, p c = true)
    (hrest : rest.head?.any p = false) :
    (cs ++ rest).takeWhile p = cs ∧ (cs ++ rest).dropWhile p = rest := by
  rw [List.takeWhile_append_of_pos hcs, List.dropWhile_append_of_pos hcs]
  cases rest with
  | nil => simp
  | cons c rest =>
    have hc : ¬p c = true := by simpa using hrest
    rw [List.takeWhile_cons_of_neg hc, List.dropWhile_cons_of_neg hc]
    exact ⟨List.append_nil cs, rfl⟩

/-- A name is one token where no part of a name follows. -/
theorem lexes_name {name : String} (h : a.IsName name) {rest : List Char}
    (hrest : rest.head?.any a.isPart = false) : Lexes a name.toList [.name name] rest := by
  obtain ⟨c, cs, hname, hstart, hpart⟩ := h
  obtain ⟨htake, hdrop⟩ := span_stop hpart hrest
  rw [hname]
  refine .token (a.start_not_blank c hstart) ?_
  rw [List.cons_append, nextToken, if_pos hstart, htake, hdrop, ← hname, String.ofList_toList]

/-- A string literal is its escaped content in quotes. -/
theorem stringLiteral_toList (s : String) :
    (stringLiteral s).toList = '"' :: ((escapeChars s.toList).toList ++ ['"']) := by
  simp [stringLiteral]

/-- The literal of a string is a token for the string, whatever follows it. -/
theorem nextToken_stringLiteral (s : String) (rest : List Char) :
    nextToken a ((stringLiteral s).toList ++ rest) = some (.string s, rest) := by
  have hstart : a.isStart '"' = false := a.start_ascii '"' (by decide)
  rw [stringLiteral_toList, List.cons_append, nextToken, hstart, List.append_assoc,
    List.singleton_append, readString_escapeChars]
  simp

/-- A string literal is one token, whatever follows. -/
theorem lexes_string (s : String) (rest : List Char) :
    Lexes a (stringLiteral s).toList [.string s] rest := by
  have hnext := nextToken_stringLiteral (a := a) s rest
  rw [stringLiteral_toList] at hnext ⊢
  exact .token rfl hnext

/-- Whether an ASCII character cannot start a name. -/
def isOther (c : Char) : Bool :=
  decide (c.toNat < 128) && !(c.isAlpha || c == '_' || c == '$')

/-- A character that starts something else starts no name. -/
theorem isStart_of_isOther {c : Char} (h : isOther c = true) : a.isStart c = false := by
  rw [isOther, Bool.and_eq_true, decide_eq_true_eq, Bool.not_eq_true'] at h
  rw [a.start_ascii c h.1, h.2]

/-- A digit starts no name and is no blank. -/
theorem isOther_of_isDigit {c : Char} (h : c.isDigit = true) :
    isOther c = true ∧ isBlank c = false := by
  have hlow : 48 ≤ c.toNat ∧ c.toNat ≤ 57 := by
    rw [Char.isDigit, Bool.and_eq_true, decide_eq_true_eq, decide_eq_true_eq] at h
    exact h
  have hall : ∀ n < 58, 48 ≤ n →
      isOther (Char.ofNat n) = true ∧ isBlank (Char.ofNat n) = false := by
    decide
  have h := hall c.toNat (by omega) hlow.1
  rwa [Char.ofNat_toNat] at h

/-- A decimal text is one token where neither digits nor names follow. -/
theorem lexes_number {text whole fraction rest : List Char}
    (h : Binary64.IsDecimal text whole fraction)
    (hrest : rest.head?.any (fun c => c.isDigit || c == '.' || a.isStart c) = false) :
    Lexes a text [.number (numeral (whole ++ fraction)) fraction.length] rest := by
  obtain ⟨hdigits, hdot, hstart⟩ : rest.head?.any Char.isDigit = false ∧ rest.head? ≠ some '.' ∧
      rest.head?.any a.isStart = false := by
    cases rest with
    | nil => exact ⟨rfl, nofun, rfl⟩
    | cons c cs =>
      simp only [List.head?_cons, Option.any_some, Bool.or_eq_false_iff, beq_eq_false_iff_ne]
        at hrest
      exact ⟨hrest.1.1, fun h => hrest.1.2 (Option.some.inj h), hrest.2⟩
  have hwhole : ∀ c ∈ whole, c.isDigit = true := fun c hc => h.digit c (List.mem_append_left _ hc)
  have hfraction : ∀ c ∈ fraction, c.isDigit = true := fun c hc =>
    h.digit c (List.mem_append_right _ hc)
  have hread : readNumber a (text ++ rest) =
      some (.number (numeral (whole ++ fraction)) fraction.length, rest) := by
    have hleading : ¬(whole.head? = some '0' ∧ whole ≠ ['0']) := fun hzero =>
      hzero.2 (h.leading hzero.1)
    rw [h.text_eq]
    by_cases hnil : fraction = []
    · obtain ⟨htake, hdrop⟩ := span_stop hwhole hdigits
      rw [if_pos hnil, List.append_nil, readNumber]
      simp only [htake, hdrop]
      rw [if_neg hleading, if_neg hdot, endNumber, hstart, hnil, List.append_nil]
      rfl
    · obtain ⟨htake, hdrop⟩ := @span_stop Char.isDigit whole ('.' :: (fraction ++ rest)) hwhole rfl
      obtain ⟨htake', hdrop'⟩ := span_stop hfraction hdigits
      rw [if_neg hnil, List.append_assoc, List.cons_append, readNumber]
      simp only [htake, hdrop]
      rw [if_neg hleading, List.head?_cons, if_pos rfl, List.tail_cons, htake', hdrop', endNumber,
        hstart]
      rfl
  obtain ⟨c, cs, hcs⟩ := List.exists_cons_of_ne_nil h.whole_ne_nil
  have hc : c.isDigit = true := hwhole c (hcs ▸ List.mem_cons_self)
  obtain ⟨hother, hblank⟩ := isOther_of_isDigit hc
  obtain ⟨ds, htext⟩ : ∃ ds, text = c :: ds := ⟨_, by rw [h.text_eq, hcs, List.cons_append]⟩
  rw [htext] at hread ⊢
  refine .token hblank ?_
  rw [List.cons_append, nextToken, isStart_of_isOther hother, hc]
  exact hread

/-- Whether no punctuator and no comment goes on behind `p` with the text that follows. -/
def Separate (p rest : List Char) : Prop :=
  ∀ q ∈ ['/', '/'] :: ['/', '*'] :: punctuators, q.isPrefixOf (p ++ rest) = true →
    q.length ≤ p.length

/-- A punctuator is one token where nothing follows that would make it longer. -/
theorem lexes_punctuator {p rest : List Char} (hp : p ∈ punctuators) (hchain : p ≠ ['?', '.'])
    (hdigit : p = ['.'] → rest.head?.any Char.isDigit = false) (hrest : Separate p rest) :
    Lexes a p [.punctuator (String.ofList p)] rest := by
  have hfront : ∀ q ∈ ['/', '/'] :: ['/', '*'] :: punctuators,
      q.isPrefixOf (p ++ rest) = q.isPrefixOf p := by
    intro q hq
    rw [Bool.eq_iff_iff]
    constructor
    · intro h
      have hle := hrest q hq h
      rw [List.isPrefixOf_iff_prefix] at h ⊢
      exact List.prefix_of_prefix_length_le h (List.prefix_append p rest) hle
    · intro h
      rw [List.isPrefixOf_iff_prefix] at h ⊢
      exact h.trans (List.prefix_append p rest)
  have hfind : punctuators.find? (startsWith (p ++ rest)) = some p := by
    have hstarts : ∀ q ∈ punctuators, startsWith (p ++ rest) q = q.isPrefixOf p := by
      intro q hq
      rw [startsWith, hfront q (List.mem_cons_of_mem _ (List.mem_cons_of_mem _ hq))]
      by_cases hq' : q = ['?', '.']
      · have hnone : ∀ p ∈ punctuators, p ≠ ['?', '.'] → ['?', '.'].isPrefixOf p = false := by
          decide
        rw [hq', hnone p hp hchain]
        rfl
      · simp [hq']
    rw [List.find?_congr hstarts]
    exact (by decide : ∀ p ∈ punctuators, punctuators.find? (·.isPrefixOf p) = some p) p hp
  have hcomment : (['/', '/'].isPrefixOf (p ++ rest) || ['/', '*'].isPrefixOf (p ++ rest)) =
      false := by
    rw [hfront _ List.mem_cons_self, hfront _ (List.mem_cons_of_mem _ List.mem_cons_self)]
    exact (by decide : ∀ p ∈ punctuators,
      (['/', '/'].isPrefixOf p || ['/', '*'].isPrefixOf p) = false) p hp
  have hhead : ∀ p ∈ punctuators, p.head?.all (fun c => isOther c && !c.isDigit && !isBlank c &&
      !(c == '"' || c == '\'') && (c != '.' || p == ['.'] || p == ['.', '.', '.'])) = true := by
    decide
  have hp' := hhead p hp
  cases p with
  | nil => exact absurd hp (by decide)
  | cons c cs =>
    simp only [List.head?_cons, Option.all_some, Bool.and_eq_true, Bool.not_eq_true'] at hp'
    obtain ⟨⟨⟨⟨hother, hcdigit⟩, hblank⟩, hquote⟩, hdot⟩ := hp'
    have hnumber : (c == '.' && (cs ++ rest).head?.any Char.isDigit) = false := by
      by_cases hc : c = '.'
      · subst hc
        simp only [bne_self_eq_false, Bool.false_or, Bool.or_eq_true, beq_iff_eq] at hdot
        rcases hdot with hp | hp <;> cases hp
        · simpa using hdigit rfl
        · rfl
      · simp [hc]
    refine .token hblank ?_
    rw [List.cons_append, nextToken, isStart_of_isOther hother, hcdigit, hquote, Bool.false_or,
      hnumber]
    rw [List.cons_append] at hcomment hfind
    simp [readPunctuator, hcomment, hfind]

/-- No punctuator goes on with such a character. -/
def isApart (c : Char) : Bool :=
  (['/', '/'] :: ['/', '*'] :: punctuators).all fun q => !q.tail.contains c

/-- A longer text with the same front starts with the shorter one. -/
theorem prefix_of_longer {p q rest : List Char} (h : q.isPrefixOf (p ++ rest) = true)
    (hlt : ¬q.length ≤ p.length) : p <+: q :=
  List.prefix_of_prefix_length_le (List.prefix_append p rest) (List.isPrefixOf_iff_prefix.1 h)
    (Nat.le_of_not_le hlt)

/-- Nothing that stands apart makes a punctuator longer. -/
theorem separate_of_isApart {p rest : List Char} (hp : p ≠ [])
    (h : rest.head?.all isApart = true) : Separate p rest := by
  intro q hq hfront
  by_contra hlt
  obtain ⟨tail, rfl⟩ := prefix_of_longer hfront hlt
  cases tail with
  | nil => simp at hlt
  | cons c tail =>
    rw [List.isPrefixOf_iff_prefix, List.prefix_append_right_inj] at hfront
    obtain ⟨rest, rfl⟩ := hfront
    have hall := List.all_eq_true.1 h _ hq
    obtain ⟨d, ds, rfl⟩ := List.exists_cons_of_ne_nil hp
    simp at hall

/-- Punctuators that no other one starts with can be followed by anything. -/
theorem separate_of_longest {p : List Char} (rest : List Char)
    (h : ∀ q ∈ ['/', '/'] :: ['/', '*'] :: punctuators, p.isPrefixOf q = true → q = p) :
    Separate p rest := by
  intro q hq hfront
  by_contra hlt
  have hpq := prefix_of_longer hfront hlt
  rw [h q hq (List.isPrefixOf_iff_prefix.2 hpq)] at hlt
  exact hlt (Nat.le_refl _)

/-! ## Words, brackets and accesses -/

/-- Names and numbers go on with no punctuator. -/
theorem isApart_of_isStart {c : Char} (h : a.isStart c = true ∨ c.isDigit = true) :
    isApart c = true := by
  by_contra hc
  have hmem : c ∈ (['/', '/'] :: ['/', '*'] :: punctuators).flatMap List.tail := by
    simpa [isApart, or_iff_not_imp_left] using hc
  have hall : ∀ c ∈ (['/', '/'] :: ['/', '*'] :: punctuators).flatMap List.tail,
      isOther c = true ∧ c.isDigit = false :=
    List.forall_iff_forall_mem.mp (by decide)
  obtain ⟨hother, hdigit⟩ := hall c hmem
  rcases h with h | h
  · rw [isStart_of_isOther hother] at h
    cases h
  · rw [hdigit] at h
    cases h

/-- A name begins apart from punctuators, and with no digit. -/
theorem Alphabet.IsName.head {name : String} (h : a.IsName name) (rest : List Char) :
    (name.toList ++ rest).head?.all isApart = true ∧
      (name.toList ++ rest).head?.any Char.isDigit = false := by
  obtain ⟨c, cs, hname, hstart, -⟩ := h
  have hdigit : c.isDigit = false := by
    by_contra hdigit
    rw [Bool.not_eq_false] at hdigit
    rw [isStart_of_isOther (isOther_of_isDigit hdigit).1] at hstart
    cases hstart
  rw [hname]
  exact ⟨isApart_of_isStart (.inl hstart), hdigit⟩

/-- A punctuator that no other one starts with. -/
theorem lexes_longest {p : String} (hp : p.toList ∈ punctuators)
    (hlongest : ∀ q ∈ ['/', '/'] :: ['/', '*'] :: punctuators,
      p.toList.isPrefixOf q = true → q = p.toList)
    (hne : p.toList ≠ ['?', '.'] ∧ p.toList ≠ ['.']) (rest : List Char) :
    Lexes a p.toList [.punctuator p] rest := by
  have h := lexes_punctuator (a := a) hp hne.1 (fun hdot => absurd hdot hne.2)
    (separate_of_longest rest hlongest)
  rwa [String.ofList_toList] at h

/-- A bracket or a comma, before anything. -/
theorem lexes_bracket {p : String} (hp : p ∈ ["(", ")", "[", "]", ",", "..."]) (rest : List Char) :
    Lexes a p.toList [.punctuator p] rest := by
  have hall : ∀ p ∈ ["(", ")", "[", "]", ",", "..."], p.toList ∈ punctuators ∧
      (p.toList ≠ ['?', '.'] ∧ p.toList ≠ ['.']) ∧
        ∀ q ∈ ['/', '/'] :: ['/', '*'] :: punctuators,
          p.toList.isPrefixOf q = true → q = p.toList := by
    decide
  obtain ⟨hmem, hne, hlongest⟩ := hall p hp
  exact lexes_longest hmem hlongest hne rest

/-- A punctuator before a character that goes on with none. -/
theorem lexes_apart {p : String} (hp : p.toList ∈ punctuators)
    (hne : p.toList ≠ ['?', '.'] ∧ p.toList ≠ ['.']) {rest : List Char}
    (hrest : rest.head?.all isApart = true) : Lexes a p.toList [.punctuator p] rest := by
  have hnil : p.toList ≠ [] := fun hnil => absurd (hnil ▸ hp) (by decide)
  have h := lexes_punctuator (a := a) hp hne.1 (fun hdot => absurd hdot hne.2)
    (separate_of_isApart hnil hrest)
  rwa [String.ofList_toList] at h

/-- The word is one of ASCII letters. -/
def isWord (word : String) : Bool :=
  word.toList != [] && word.toList.all fun c => c.toNat < 128 && c.isAlpha

/-- A word of letters is a name. -/
theorem isName_word {word : String} (h : isWord word = true) : a.IsName word := by
  simp only [isWord, Bool.and_eq_true, bne_iff_ne, List.all_eq_true, decide_eq_true_eq] at h
  obtain ⟨hne, hletters⟩ := h
  obtain ⟨c, cs, hword⟩ := List.exists_cons_of_ne_nil hne
  rw [hword] at hletters
  refine ⟨c, cs, hword, ?_, fun d hd => ?_⟩
  · obtain ⟨hascii, halpha⟩ := hletters c List.mem_cons_self
    rw [a.start_ascii c hascii, halpha]
    rfl
  · obtain ⟨hascii, halpha⟩ := hletters d (List.mem_cons_of_mem c hd)
    rw [a.part_ascii d hascii, Char.isAlphanum, halpha]
    rfl

/-- A blank is no part of a name. -/
theorem isPart_blank : a.isPart ' ' = false := by
  rw [a.part_ascii ' ' (by decide)]
  rfl

/-- A word before a blank. -/
theorem lexes_word {word : String} (h : isWord word = true) (rest : List Char) :
    Lexes a (word.toList ++ [' ']) [.name word] rest :=
  .append (lexes_name (isName_word h) isPart_blank) (.blank rest)

/-- A property behind its object. -/
theorem lexes_property {name : String} (h : a.IsName name) {rest : List Char}
    (hrest : rest.head?.any a.isPart = false) :
    Lexes a ("." ++ name).toList [.punctuator ".", .name name] rest := by
  obtain ⟨hapart, hdigit⟩ := h.head rest
  have hdot : Lexes a ['.'] [.punctuator "."] (name.toList ++ rest) :=
    lexes_punctuator (by decide) (by decide) (fun _ => hdigit)
      (separate_of_isApart (List.cons_ne_nil _ _) hapart)
  rw [String.toList_append]
  exact .append hdot (lexes_name h hrest)

end TypedLowering.JavaScript
