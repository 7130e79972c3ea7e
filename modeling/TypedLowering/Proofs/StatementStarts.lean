import TypedLowering.Proofs.JavaScript.Grouping

/-!
# How expression statements start

At the start of a statement, a brace opens a block, and the words `function` and `class` a
declaration. An object literal or a function may stand at the left edge of an expression, under any
number of calls, accesses, operators, conditionals and commas. The printer looks for it along the
edge, as far as no parentheses are put there anyway, and puts the whole expression into parentheses
if it finds one. So no expression statement starts like a declaration, and no arrow function without
braces has a body that does (`Expr.starts_statement`).
-/

namespace TypedLowering

open Ir (Location)
open Layout (mark token wrap commas terminator)

/-! ## The text of pieces -/

/-- The text that the pieces print at that depth. -/
def written (indent : String) (depth : Nat) (xs : List Piece) : List Char :=
  Ink.text (inkAll indent depth xs).1

section
variable (indent : String) (depth : Nat)

/-- No pieces write nothing. -/
@[simp] theorem written_nil : written indent depth [] = [] := rfl

/-- Two parts write their texts, the second at the depth behind the first. -/
theorem written_append (xs ys : List Piece) : written indent depth (xs ++ ys) =
    written indent depth xs ++ written indent (inkAll indent depth xs).2 ys := by
  rw [written, inkAll_append, Ink.text_append, written, written]

/-- A text is written as it is. -/
@[simp] theorem written_text (t : String) (xs : List Piece) :
    written indent depth (.text t :: xs) = t.toList ++ written indent depth xs := by
  rw [written, inkAll_cons, Ink.text_append, Piece.ink, Ink.text_ofText, written]

/-- A mark writes nothing. -/
@[simp] theorem written_mark (loc : Option Location) (xs : List Piece) :
    written indent depth (mark loc ++ xs) = written indent depth xs := by
  cases loc <;> rfl

/-- A token writes its text before what follows. -/
theorem written_token_append (t : String) (loc : Option Location) (xs : List Piece) :
    written indent depth (token t loc ++ xs) = t.toList ++ written indent depth xs := by
  rw [token, List.append_assoc, written_mark, List.singleton_append, written_text]

/-- A token writes its text. -/
theorem written_token (t : String) (loc : Option Location) :
    written indent depth (token t loc) = t.toList := by
  simpa using written_token_append indent depth t loc []

end

/-- A printer at the start prints what pieces write. -/
theorem Printer.out_run_clear (p : Printer) (xs : List Piece) :
    (p.clear.run xs).out.toList = written p.options.indent p.depth xs := by
  simpa [clear, written] using (run_out p.clear xs).1

/-- The text of a number starts with a digit or a minus sign, or is one of two words. -/
theorem Binary64.text_front (x : Binary64) :
    (∃ c cs, x.text.toList = c :: cs ∧ c.isDigit = true) ∨ (∃ s, x.text = "-" ++ s) ∨
      x.text = "NaN" ∨ x.text = "Infinity" := by
  cases hfinite : x.isFinite with
  | true =>
    cases hsign : x.signBit with
    | true =>
      have hbits : x.exponentBits ≠ 2047 := by simpa [isFinite] using hfinite
      have htext : x.text = x.finiteText := by simp [text, isNaN, isInfinite, hbits]
      rw [htext, finiteText, hsign]
      refine .inr (.inl ?_)
      split <;> exact ⟨_, rfl⟩
    | false =>
      obtain ⟨whole, fraction, hdecimal, -⟩ := text_isDecimal hfinite hsign
      obtain ⟨c, cs, hwhole⟩ := List.exists_cons_of_ne_nil hdecimal.whole_ne_nil
      have hdigit := hdecimal.digit c (by simp [hwhole])
      rw [hdecimal.text_eq, hwhole]
      exact .inl ⟨c, _, rfl, hdigit⟩
  | false =>
    have hbits : x.exponentBits = 2047 := by simpa [isFinite] using hfinite
    have hspecial : x.text = "-" ++ "Infinity" ∨ x.text = "NaN" ∨ x.text = "Infinity" := by
      by_cases hfraction : x.fractionBits = 0 <;> cases hsign : x.signBit <;>
        simp [text, isNaN, isInfinite, hbits, hfraction, hsign]
    exact .inr (hspecial.imp_left fun h => ⟨"Infinity", h⟩)

namespace JavaScript

/-! ## The front of a text -/

section
variable (a : Alphabet)

/-- What a text starts with, after blanks: a word, or else a single character. -/
def leading (cs : List Char) : List Char :=
  match cs.dropWhile isBlank with
  | [] => []
  | c :: cs => if a.isStart c then c :: cs.takeWhile a.isPart else [c]

/-- What a block, a function declaration or a class declaration starts with. -/
def declarationStarts : List (List Char) := [['\x7b'], "function".toList, "class".toList]

/-- Whether a text starts with a comment, after blanks. -/
def startsComment (cs : List Char) : Bool :=
  let front := cs.dropWhile isBlank
  front.head? == some '/' && (front.tail.head? == some '/' || front.tail.head? == some '*')

/-- What starts with a comment instead of a token: a regular expression whose pattern is none, since
it is empty or starts with a slash or a star, or a slash that stands before an operand. -/
def ExprForm.StartsComment : ExprForm → Prop
  | .literal (.regex pattern _) => pattern.toList.head? ∈ [none, some '/', some '*']
  | .unary op _ => op = .division
  | _ => False

/-- A text that starts with the form does not start like a declaration. -/
structure Opens (form : ExprForm) (cs : List Char) : Prop where
  plain : leading a cs ∉ declarationStarts
  comment : startsComment cs = true → form.StartsComment

/-- A text that may follow an expression. -/
structure Ends (rest : List Char) : Prop where
  apart : rest.head?.any a.isPart = false
  opens : ∀ form, Opens a form rest

end

variable {a : Alphabet} {form : ExprForm} {c : Char} {cs rest : List Char}

/-! ### Tokens -/

/-- The tokens that a block, a function declaration or a class declaration starts with. -/
def declarationTokens : List Token := [.punctuator "\x7b", .name "function", .name "class"]

/-- What is read as a number is a number. -/
theorem readNumber_token {t : Token} (h : readNumber a cs = some (t, rest)) :
    ∃ digits places, t = .number digits places := by
  have hend : ∀ {digits places : Nat} {cs : List Char},
      endNumber a digits places cs = some (t, rest) →
      ∃ digits places, t = .number digits places := by
    intro digits places cs h
    rw [endNumber] at h
    split at h
    · cases h
    · cases h
      exact ⟨_, _, rfl⟩
  simp only [readNumber] at h
  split at h
  · cases h
  · split at h <;> exact hend h

/-- The first token is the first one behind blanks. -/
theorem nextToken_of_lex {t : Token} {ts : List Token} (h : lex a cs = some (t :: ts)) :
    ∃ rest, nextToken a (cs.dropWhile isBlank) = some (t, rest) := by
  induction cs with
  | nil =>
    rw [lex_nil] at h
    cases h
  | cons c cs ih =>
    cases hblank : isBlank c with
    | true =>
      rw [lex_blank a hblank] at h
      rw [List.dropWhile_cons_of_pos hblank]
      exact ih h
    | false =>
      rw [List.dropWhile_cons_of_neg (by simp [hblank])]
      rw [lex, if_neg (by simp [hblank])] at h
      split at h
      · cases h
      · rename_i hnext
        obtain ⟨ts, -, heq⟩ := Option.map_eq_some_iff.1 h
        cases heq
        exact ⟨_, hnext⟩

/-- What is read as a punctuator is a prefix of the text. -/
theorem readPunctuator_token {t : Token} (h : readPunctuator cs = some (t, rest)) :
    ∃ p, t = .punctuator (String.ofList p) ∧ p.isPrefixOf cs = true := by
  rw [readPunctuator] at h
  split at h
  · cases h
  · obtain ⟨p, hp, heq⟩ := Option.map_eq_some_iff.1 h
    cases heq
    have hfront := List.find?_some hp
    rw [startsWith, Bool.and_eq_true] at hfront
    exact ⟨p, rfl, hfront.1⟩

/-- What starts with one of these tokens starts with its text. -/
theorem front_of_nextToken {t : Token} (h : nextToken a (c :: cs) = some (t, rest))
    (ht : t ∈ declarationTokens) :
    (if a.isStart c then c :: cs.takeWhile a.isPart else [c]) ∈ declarationStarts := by
  rw [nextToken] at h
  split at h
  · rename_i hstart
    cases h
    rw [if_pos hstart]
    refine List.mem_cons_of_mem _ ?_
    simpa [declarationTokens, ← String.toList_inj] using ht
  · rename_i hstart
    rw [if_neg hstart]
    split at h
    · obtain ⟨digits, places, rfl⟩ := readNumber_token h
      simp [declarationTokens] at ht
    · split at h
      · obtain ⟨value, -, heq⟩ := Option.map_eq_some_iff.1 h
        cases heq
        simp [declarationTokens] at ht
      · obtain ⟨p, rfl, hfront⟩ := readPunctuator_token h
        obtain rfl : p = ['\x7b'] := by
          simpa [declarationTokens, ← String.toList_inj] using ht
        obtain rfl : '\x7b' = c := by simpa using hfront
        exact List.mem_cons_self

/-- So what is read as one of these tokens has its text in front. -/
theorem leading_of_lex {t : Token} {ts : List Token} (h : lex a cs = some (t :: ts))
    (ht : t ∈ declarationTokens) : leading a cs ∈ declarationStarts := by
  obtain ⟨rest, h⟩ := nextToken_of_lex h
  rw [leading]
  split
  · rename_i hnil
    rw [hnil] at h
    cases h
  · rename_i hcons
    rw [hcons] at h
    exact front_of_nextToken h ht

/-! ### Texts that start otherwise -/

/-- ASCII characters that are no part of names, and neither blanks nor braces nor slashes. -/
def isSign (c : Char) : Bool :=
  decide (c.toNat < 128) && !(c.isAlphanum || c == '_' || c == '$') && !isBlank c && c != '\x7b' &&
    c != '/'

namespace Opens

/-- The empty text opens no declaration. -/
theorem nil : Opens a form [] := ⟨by simp [leading, declarationStarts], nofun⟩

/-- A blank in front changes nothing. -/
theorem blank (h : Opens a form cs) : Opens a form (' ' :: cs) := ⟨h.plain, h.comment⟩

/-- A word of its own. -/
theorem word {name : String} (h : a.IsName name) (hname : name ≠ "function" ∧ name ≠ "class")
    (hrest : rest.head?.any a.isPart = false) : Opens a form (name.toList ++ rest) := by
  obtain ⟨c, cs, htext, hstart, hpart⟩ := h
  have hblank := a.start_not_blank c hstart
  have hne : ∀ d : Char, isOther d = true → c ≠ d := by
    rintro d hd rfl
    rw [isStart_of_isOther hd] at hstart
    cases hstart
  have hleading : leading a (name.toList ++ rest) = name.toList := by
    rw [htext, List.cons_append, leading, List.dropWhile_cons_of_neg (by simp [hblank])]
    simp [hstart, (span_stop hpart hrest).1]
  constructor
  · rw [hleading, declarationStarts, List.mem_cons, List.mem_pair, String.toList_inj,
      String.toList_inj, htext]
    simp [hname, hne '\x7b' (by decide)]
  · rw [htext, List.cons_append, startsComment, List.dropWhile_cons_of_neg (by simp [hblank])]
    simp [hne '/' (by decide)]

/-- A character that starts no name and no comment. -/
theorem character (hstart : a.isStart c = false) (hblank : isBlank c = false) (hbrace : c ≠ '\x7b')
    (hslash : c ≠ '/') : Opens a form (c :: cs) := by
  constructor
  · rw [leading, List.dropWhile_cons_of_neg (by simp [hblank])]
    simp [hstart, hbrace, declarationStarts]
  · rw [startsComment, List.dropWhile_cons_of_neg (by simp [hblank])]
    simp [hslash]

/-- A text that begins with a sign opens no declaration. -/
theorem sign (h : isSign c = true) : Opens a form (c :: cs) := by
  simp only [isSign, Bool.and_eq_true, decide_eq_true_eq, Bool.not_eq_true', bne_iff_ne,
    Bool.or_eq_false_iff] at h
  obtain ⟨⟨⟨⟨hascii, ⟨hletter, hline⟩, hdollar⟩, hblank⟩, hbrace⟩, hslash⟩ := h
  refine character ?_ hblank hbrace hslash
  rw [Char.isAlphanum, Bool.or_eq_false_iff] at hletter
  rw [a.start_ascii c hascii, hletter.1, hline, hdollar]
  rfl

/-- A text with a sign in front opens no declaration, whatever follows. -/
theorem signs (h : cs.head?.any isSign = true) : Opens a form (cs ++ rest) := by
  cases cs with
  | nil => cases h
  | cons c cs => exact sign h

/-- A text that begins with a digit opens no declaration. -/
theorem digit (h : c.isDigit = true) : Opens a form (c :: cs) := by
  obtain ⟨hother, hblank⟩ := isOther_of_isDigit h
  refine character (isStart_of_isOther hother) hblank ?_ ?_ <;> rintro rfl <;> cases h

/-- A slash, which starts a comment only with another slash or a star. -/
theorem slash (h : cs.head? ∈ [some '/', some '*'] → form.StartsComment) :
    Opens a form ('/' :: cs) := by
  constructor
  · rw [leading, List.dropWhile_cons_of_neg (by decide)]
    simp [isStart_of_isOther (show isOther '/' = true by decide), declarationStarts]
  · intro hcomment
    apply h
    rw [startsComment, List.dropWhile_cons_of_neg (by decide)] at hcomment
    simpa using hcomment

/-- An operator that is a word, in front of a blank. -/
theorem wordOperator {op : Operator} (h : op.isWord = true) :
    Opens a form (op.token.toList ++ ' ' :: rest) := by
  have hname : op.token ≠ "function" ∧ op.token ≠ "class" := by
    cases op <;> decide
  exact .word (isName_word (isWord_token h)) hname isPart_blank

end Opens

/-- Operators that are no words begin with a sign, but for a division. -/
theorem sign_token {op : Operator} (h : op.isWord = false) :
    op = .division ∨ op.token.toList.head?.any isSign = true := by
  revert h
  cases op <;> decide

namespace Ends

/-- A word ends where the text does. -/
theorem nil : Ends a [] := ⟨rfl, fun _ => .nil⟩

/-- A word ends where a sign follows. -/
theorem sign (h : isSign c = true) : Ends a (c :: cs) := by
  refine ⟨?_, fun _ => .sign h⟩
  simp only [isSign, Bool.and_eq_true, decide_eq_true_eq, Bool.not_eq_true'] at h
  rw [List.head?_cons, Option.any_some, a.part_ascii c h.1.1.1.1]
  exact h.1.1.1.2

/-- An operator between blanks. -/
theorem operator (op : Operator) : Ends a ((" " ++ op.token ++ " ").toList ++ rest) := by
  have htext : (" " ++ op.token ++ " ").toList ++ rest =
      ' ' :: (op.token.toList ++ ' ' :: rest) := by
    simp
  rw [htext]
  refine ⟨isPart_blank, fun form => .blank ?_⟩
  cases hword : op.isWord with
  | true => exact .wordOperator hword
  | false =>
    obtain rfl | hsign := sign_token hword
    · exact .slash (by simp)
    · exact .signs hsign

end Ends

/-- A number opens no declaration. -/
theorem Opens.number (x : Binary64) (hrest : rest.head?.any a.isPart = false) :
    Opens a form (x.text.toList ++ rest) := by
  obtain ⟨c, cs, htext, hdigit⟩ | ⟨s, htext⟩ | htext | htext := x.text_front <;> rw [htext]
  · exact .digit hdigit
  · rw [String.toList_append, List.append_assoc]
    exact .signs (by decide)
  · exact .word (isName_word (by decide)) (by decide) hrest
  · exact .word (isName_word (by decide)) (by decide) hrest

/-! ## The left edge of an expression -/

mutual

/-- What the text of an expression starts with, below calls, accesses, operators, conditionals and
commas. -/
def Expr.leftmost : Expr → Expr
  | ⟨_, .binary _ head _⟩ | ⟨_, .conditional head _ _⟩ | ⟨_, .call head _⟩ | ⟨_, .member head _⟩
  | ⟨_, .index head _⟩ => head.leftmost
  | ⟨loc, .sequence items⟩ => (firstLeftmost items).getD ⟨loc, .sequence items⟩
  | e => e

/-- The left edge of the first of some expressions. -/
def firstLeftmost : List Expr → Option Expr
  | [] => none
  | first :: _ => some first.leftmost

end

/-- The names that the language lets an identifier have. -/
def Alphabet.IsIdentifier (a : Alphabet) (name : String) : Prop :=
  a.IsName name ∧ name ∉ keywords

/-- Whether this is no foreign code, and if it is printed as an identifier then as a valid one. -/
def ExprForm.IsValidStart (a : Alphabet) : ExprForm → Prop
  | .ident name => a.IsIdentifier name
  | .function func => ∀ callee ∈ func.forwardedCallee, a.IsIdentifier callee
  | .emit .. => False
  | _ => True

/-- An identifier opens no declaration. -/
theorem Opens.identifier {name : String} (h : a.IsIdentifier name)
    (hrest : rest.head?.any a.isPart = false) : Opens a form (name.toList ++ rest) := by
  refine .word h.1 ⟨?_, ?_⟩ hrest <;> rintro rfl <;> exact h.2 (by decide)

/-- A constant opens no declaration. -/
theorem Opens.literal (value : Literal) (hrest : Ends a rest) :
    Opens a (.literal value) (value.text.toList ++ rest) := by
  cases value with
  | null | undefined => exact .word (isName_word (by decide)) (by decide) hrest.apart
  | bool value =>
    cases value <;> exact .word (isName_word (by decide)) (by decide) hrest.apart
  | number x => exact .number x hrest.apart
  | string value =>
    show Opens a _ ((stringLiteral value).toList ++ rest)
    rw [stringLiteral_toList]
    exact .sign (by decide)
  | regex pattern flags =>
    have htext : (Literal.regex pattern flags).text.toList ++ rest =
        '/' :: (pattern.toList ++ '/' :: (flags.toList ++ rest)) := by
      simp [Literal.text]
    rw [htext]
    refine .slash fun h => ?_
    rw [ExprForm.StartsComment]
    cases hpattern : pattern.toList with
    | nil => simp
    | cons c cs =>
      rw [hpattern] at h
      simpa using h

section
variable {sep : Separator} {indent : String} {depth : Nat}

/-- What stands at the front of an expression either is in parentheses or starts the expression. -/
theorem Opens.head {isWrapped : Bool} {xs ys : List Piece} (loc : Option Location)
    (h : isWrapped = false → ∀ depth rest, Ends a rest →
      Opens a form (written indent depth xs ++ rest))
    (hys : ∀ depth, Ends a (written indent depth ys ++ rest)) :
    Opens a form (written indent depth (mark loc ++ (wrap isWrapped xs ++ ys)) ++ rest) := by
  rw [written_mark]
  cases isWrapped with
  | true => exact .sign (by decide)
  | false =>
    rw [wrap, if_neg Bool.false_ne_true, written_append, List.append_assoc]
    exact h rfl _ _ (hys _)

/-- The first item of a list with commas, and what follows it. -/
theorem commas_cons (item : List Piece) (items : List (List Piece)) :
    ∃ ys, commas (item :: items) = item ++ ys ∧ (ys = [] ∨ ∃ zs, ys = .text ", " :: zs) := by
  cases items with
  | nil => exact ⟨[], by simp [commas], .inl rfl⟩
  | cons second items => exact ⟨_, rfl, .inr ⟨_, rfl⟩⟩

namespace Expr

mutual

/-- The text of an expression that is not found to start like a declaration does not start like one,
whatever is behind it. The induction is on the left edge: where the search for an object or a
function does not go on, the printer puts parentheses. -/
theorem opens : (e : Expr) → e.startsLikeDeclaration = false →
    e.leftmost.form.IsValidStart a → ∀ depth rest, Ends a rest →
      Opens a e.leftmost.form (written indent depth (e.pieces sep) ++ rest)
  | ⟨loc, .ident name⟩, _, hvalid, depth, rest, hrest => by
    rw [pieces, ExprForm.pieces, written_token]
    exact .identifier hvalid hrest.apart
  | ⟨loc, .this⟩, _, _, depth, rest, hrest => by
    rw [pieces, ExprForm.pieces, written_token]
    exact .word (isName_word (by decide)) (by decide) hrest.apart
  | ⟨loc, .literal value⟩, _, _, depth, rest, hrest => by
    rw [pieces, ExprForm.pieces, written_token]
    exact .literal value hrest
  | ⟨loc, .array items⟩, _, _, depth, rest, _ => by
    rw [pieces, ExprForm.pieces, List.append_assoc, written_token_append]
    exact .sign (by decide)
  | ⟨loc, .object members⟩, h, _, _, _, _ => by cases h
  | ⟨loc, .unary op operand⟩, _, _, depth, rest, _ => by
    rw [pieces, ExprForm.pieces, List.append_assoc, written_token_append, List.append_assoc]
    cases hword : op.isWord with
    | true => exact .wordOperator hword
    | false =>
      obtain rfl | hsign := sign_token hword
      · exact .slash fun _ => rfl
      · exact .signs hsign
  | ⟨loc, .binary op left right⟩, h, hvalid, depth, rest, _ => by
    rw [pieces, ExprForm.pieces, List.append_assoc]
    refine .head loc (fun hbare => left.opens ?_ hvalid) fun _ => ?_
    · simpa [startsLikeDeclaration, hbare] using h
    · rw [written_text, List.append_assoc]
      exact .operator op
  | ⟨loc, .conditional test thenExpr elseExpr⟩, h, hvalid, depth, rest, _ => by
    rw [pieces, ExprForm.pieces, List.append_assoc, List.append_assoc]
    refine .head loc (fun hbare => test.opens ?_ hvalid) fun _ => ?_
    · rw [Bool.not_eq_false'] at hbare
      simpa [startsLikeDeclaration, hbare] using h
    · rw [List.cons_append, written_text, List.append_assoc]
      exact .operator .conditional
  | ⟨loc, .call callee args⟩, h, hvalid, depth, rest, _ => by
    rw [pieces, ExprForm.pieces, List.append_assoc, List.append_assoc]
    refine .head loc (fun hbare => callee.opens ?_ hvalid) fun _ => ?_
    · rw [Bool.not_eq_false'] at hbare
      simpa [startsLikeDeclaration, hbare] using h
    · exact .sign (by decide)
  | ⟨loc, .construct callee args⟩, _, _, depth, rest, _ => by
    have hnew : "new ".toList = "new".toList ++ [' '] := rfl
    rw [pieces, ExprForm.pieces, List.append_assoc, List.append_assoc, written_token_append, hnew,
      List.append_assoc, List.append_assoc]
    exact .word (isName_word (by decide)) (by decide) isPart_blank
  | ⟨loc, .member object property⟩, h, hvalid, depth, rest, _ => by
    rw [pieces, ExprForm.pieces, List.append_assoc]
    refine .head loc (fun hbare => object.opens ?_ hvalid) fun _ => ?_
    · simpa [startsLikeDeclaration, hbare] using h
    · rw [written_text, String.toList_append, List.append_assoc, List.append_assoc]
      exact .sign (by decide)
  | ⟨loc, .index object index⟩, h, hvalid, depth, rest, _ => by
    rw [pieces, ExprForm.pieces, List.append_assoc, List.append_assoc]
    refine .head loc (fun hbare => object.opens ?_ hvalid) fun _ => ?_
    · simpa [startsLikeDeclaration, hbare] using h
    · exact .sign (by decide)
  | ⟨loc, .function ⟨name, isArrow, params, body⟩⟩, h, hvalid, depth, rest, hrest => by
    rw [pieces, ExprForm.pieces]
    cases hforward : Func.forwardedCallee ⟨name, isArrow, params, body⟩ with
    | some callee =>
      -- An elided function is named, and not written out.
      show Opens a _ (written indent depth (token callee loc) ++ rest)
      rw [written_token]
      exact .identifier (hvalid callee hforward) hrest.apart
    | none =>
      have harrow : isArrow = true := by simpa [startsLikeDeclaration] using h
      show Opens a _ (written indent depth (mark loc ++ Func.valuePieces sep _) ++ rest)
      have hparams : ∃ cs, (paramsText params ++ " => ").toList = '(' :: cs :=
        ⟨_, by simp only [paramsText, String.toList_append, List.append_assoc]; rfl⟩
      obtain ⟨cs, hcs⟩ := hparams
      rw [written_mark, Func.valuePieces.eq_def]
      simp only [harrow, if_true, written_text, hcs]
      exact .sign (by decide)
  | ⟨loc, .spread operand⟩, _, _, depth, rest, _ => by
    rw [pieces, ExprForm.pieces, written_token_append, List.append_assoc]
    exact .sign (by decide)
  | ⟨loc, .sequence items⟩, h, hvalid, depth, rest, hrest => by
    rw [pieces, ExprForm.pieces]
    exact items_open items loc h hvalid depth rest hrest
  | ⟨loc, .emit template args⟩, _, hvalid, _, _, _ => hvalid.elim

/-- A sequence starts with its first item. -/
theorem items_open : (items : List Expr) → (loc : Option Location) →
    firstStartsLikeDeclaration items = false →
    ((firstLeftmost items).getD ⟨loc, .sequence items⟩).form.IsValidStart a →
    ∀ depth rest, Ends a rest →
      Opens a ((firstLeftmost items).getD ⟨loc, .sequence items⟩).form
        (written indent depth (mark loc ++ commas (itemPieces sep items)) ++ rest)
  | [], loc, _, _, depth, rest, hrest => by
    rw [written_mark]
    exact hrest.opens _
  | first :: items, loc, h, hvalid, depth, rest, hrest => by
    obtain ⟨ys, hcommas, hys⟩ :=
      commas_cons (wrap first.isWrappedItem (first.pieces sep)) (itemPieces sep items)
    rw [itemPieces, hcommas]
    refine .head loc (fun hbare => first.opens ?_ hvalid) fun _ => ?_
    · simpa [firstStartsLikeDeclaration, hbare] using h
    · obtain rfl | ⟨zs, rfl⟩ := hys
      · exact hrest
      · exact .sign (by decide)

end

end Expr

end

/-- An expression with whatever is behind it, in parentheses if it needs them there. -/
theorem Opens.wrapped {sep : Separator} {e : Expr} {isWrapped : Bool} {ys : List Piece}
    (p : Printer) (hvalid : e.leftmost.form.IsValidStart a)
    (hwrap : isWrapped = false → e.startsLikeDeclaration = false)
    (hys : ∀ depth, Ends a (written p.options.indent depth ys)) :
    Opens a e.leftmost.form (p.clear.run (wrap isWrapped (e.pieces sep) ++ ys)).out.toList := by
  rw [Printer.out_run_clear]
  have h : Opens a e.leftmost.form (written p.options.indent p.depth
      (mark none ++ (wrap isWrapped (e.pieces sep) ++ ys)) ++ []) :=
    .head none (fun hbare => e.opens (hwrap hbare) hvalid) fun depth => by
      rw [List.append_nil]
      exact hys depth
  rwa [List.append_nil, written_mark] at h

/-- An expression statement does not start like a declaration, and neither does the body of an arrow
function without braces, however deep an object literal or a function is at the left edge. No
comment hides the first token either, unless the regular expression at the edge is none. -/
theorem Expr.starts_statement (a : Alphabet) (sep : Separator) (e : Expr)
    (hvalid : e.leftmost.form.IsValidStart a) (loc : Option Location) (p : Printer) :
    ∀ text ∈ [(p.clear.run ((⟨loc, .expr e⟩ : Stmt).pieces sep)).out.toList,
        (p.clear.run ((FuncBody.value e).arrowPieces sep)).out.toList],
      Opens a e.leftmost.form text ∧
        ∀ t ts, lex a text = some (t :: ts) → t ∉ declarationTokens := by
  have hstatement : Opens a e.leftmost.form
      (p.clear.run ((⟨loc, .expr e⟩ : Stmt).pieces sep)).out.toList := by
    refine .wrapped p hvalid (fun hbare => hbare) fun depth => ?_
    cases sep with
    | semicolons => exact .sign (by decide)
    | newlines => exact .nil
  have hbody : Opens a e.leftmost.form
      (p.clear.run ((FuncBody.value e).arrowPieces sep)).out.toList := by
    rw [FuncBody.arrowPieces, ← List.append_nil (wrap _ _)]
    exact .wrapped p hvalid (fun hbare => (Bool.or_eq_false_iff.1 hbare).1) fun _ => .nil
  have htokens : ∀ {text}, Opens a e.leftmost.form text →
      ∀ t ts, lex a text = some (t :: ts) → t ∉ declarationTokens :=
    fun h t ts hlex ht => h.plain (leading_of_lex hlex ht)
  simpa using ⟨⟨hstatement, htokens hstatement⟩, ⟨hbody, htokens hbody⟩⟩

/-- A function that calls `f` and does nothing else, as the first operand of a sum in front of a
comma. It is printed as `f`, and the whole in parentheses, as for any other function. -/
def elidedSum : Expr :=
  .of (.sequence [
    .of (.binary .addition
      (.of (.function ⟨none, false, [], .value (.of (.call (.of (.ident "f")) []))⟩))
      (.of (.ident "x"))),
    .of (.ident "y")])

/-- The first object of a sum is put in parentheses where the sum starts a statement or an arrow
body. -/
theorem elidedSum_starts :
    elidedSum.leftmost.form.IsValidStart .ascii ∧
      ∀ text ∈ [((Printer.start .default).clear.run
            ((⟨none, .expr elidedSum⟩ : Stmt).pieces .semicolons)).out.toList,
          ((Printer.start .default).clear.run
            ((FuncBody.value elidedSum).arrowPieces .semicolons)).out.toList],
        Opens .ascii elidedSum.leftmost.form text ∧
          ∀ t ts, lex .ascii text = some (t :: ts) → t ∉ declarationTokens := by
  have hvalid : elidedSum.leftmost.form.IsValidStart .ascii := by
    intro callee hcallee
    cases hcallee
    exact ⟨isName_word (by decide), by decide⟩
  exact ⟨hvalid, Expr.starts_statement .ascii .semicolons elidedSum hvalid none (.start .default)⟩

end JavaScript

end TypedLowering
