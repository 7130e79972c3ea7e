import Mathlib.Data.List.Forall2
import Mathlib.Data.List.TakeWhile
import TypedLowering.Printing.Program

/-!
# The indentation of templates

Foreign code takes the indentation of the place where it is printed, so the blanks at the starts of
the lines of its template make no difference (`emit_indentation`). They pass through the expansion
of groups and lists as they are: no group, list or reference begins or ends within them, and where a
group is left out, the blanks at the starts of its lines go with their line ends. -/

namespace TypedLowering

/-! ## Texts up to their indentation -/

namespace Text

/-- Whether this is a blank within a line. -/
def isIndent (c : Char) : Bool := isBlank c && c != '\n'

/-- The text without the blanks at the starts of its lines. Whether the text itself starts a line is
told by `atStart`. -/
def unindentFrom (atStart : Bool) : List Char → List Char
  | [] => []
  | c :: cs =>
    if atStart && isIndent c then unindentFrom true cs else c :: unindentFrom (c == '\n') cs

/-- The text without the blanks right behind its line ends. -/
def unindent (text : String) : List Char := unindentFrom false text.toList

/-- At the start of a line, the indentation is left out. -/
theorem unindentFrom_true (cs : List Char) :
    unindentFrom true cs = unindentFrom false (cs.dropWhile isIndent) := by
  induction cs with
  | nil => rfl
  | cons c cs ih =>
    cases hc : isIndent c with
    | true => simpa [unindentFrom, hc] using ih
    | false => simp [unindentFrom, hc]

end Text

open Text (isIndent unindentFrom)

/-- Lists that differ only in blanks right behind line ends. -/
inductive Reindented {α : Type} (lineEnd : α) (isBlank : α → Bool) : List α → List α → Prop
  | nil : Reindented lineEnd isBlank [] []
  | keep {x : α} {xs ys : List α} (hx : x ≠ lineEnd) (h : Reindented lineEnd isBlank xs ys) :
    Reindented lineEnd isBlank (x :: xs) (x :: ys)
  | line {bs cs xs ys : List α} (hbs : ∀ b ∈ bs, isBlank b = true)
    (hcs : ∀ c ∈ cs, isBlank c = true) (h : Reindented lineEnd isBlank xs ys) :
    Reindented lineEnd isBlank (lineEnd :: (bs ++ xs)) (lineEnd :: (cs ++ ys))

namespace Reindented

variable {α : Type} {lineEnd : α} {isBlank : α → Bool} {x : α} {xs ys xs' ys' : List α}

/-- A list is the same as itself up to blanks behind line ends. -/
theorem refl (xs : List α) : Reindented lineEnd isBlank xs xs := by
  induction xs with
  | nil => exact .nil
  | cons x xs ih =>
    by_cases hx : x = lineEnd
    · subst hx
      exact .line (List.forall_mem_nil _) (List.forall_mem_nil _) ih
    · exact .keep hx ih

/-- Two parts that are the same up to blanks behind line ends are so together. -/
theorem append (h : Reindented lineEnd isBlank xs ys) (h' : Reindented lineEnd isBlank xs' ys') :
    Reindented lineEnd isBlank (xs ++ xs') (ys ++ ys') := by
  induction h with
  | nil => exact h'
  | keep hx _ ih => exact .keep hx ih
  | line hbs hcs _ ih =>
    simp only [List.cons_append, List.append_assoc]
    exact .line hbs hcs ih

/-- Both lists end in the same way, unless they end in a line end and blanks. -/
theorem getLast? (h : Reindented lineEnd isBlank xs ys) (hx : x ≠ lineEnd)
    (hblank : isBlank x = false) : xs.getLast? = some x ↔ ys.getLast? = some x := by
  have hbare : ∀ bs : List α, (∀ b ∈ bs, isBlank b = true) →
      (lineEnd :: bs).getLast? ≠ some x := by
    intro bs hbs hlast
    rcases List.mem_cons.1 (List.mem_of_getLast? hlast) with rfl | hmem
    · exact hx rfl
    · rw [hbs x hmem] at hblank
      cases hblank
  induction h with
  | nil => exact Iff.rfl
  | @keep y xs ys _ h ih =>
    cases h with
    | nil => exact Iff.rfl
    | keep | line => simpa [List.getLast?_cons] using ih
  | @line bs cs xs ys hbs hcs h ih =>
    rw [← List.cons_append, ← List.cons_append, List.getLast?_append, List.getLast?_append]
    cases h with
    | nil => exact iff_of_false (hbare bs hbs) (hbare cs hcs)
    | keep | line => simpa [List.getLast?_cons] using ih

end Reindented

/-- Texts that differ only in the indentation of their lines. -/
abbrev SameLines : List Char → List Char → Prop := Reindented '\n' isIndent

namespace SameLines

variable {cs ds : List Char} {p : Char → Bool}

/-- So do texts that are equal without it. -/
theorem of_unindent (h : unindentFrom false cs = unindentFrom false ds) : SameLines cs ds := by
  induction hn : cs.length using Nat.strongRecOn generalizing cs ds with
  | ind n ih =>
    cases cs with
    | nil =>
      cases ds with
      | nil => exact .nil
      | cons d ds => simp [unindentFrom] at h
    | cons c cs =>
      cases ds with
      | nil => simp [unindentFrom] at h
      | cons d ds =>
        simp only [unindentFrom, Bool.false_and, Bool.false_eq_true, if_false,
          List.cons.injEq] at h
        obtain ⟨rfl, h⟩ := h
        by_cases hc : c = '\n'
        · subst hc
          rw [beq_self_eq_true, Text.unindentFrom_true, Text.unindentFrom_true] at h
          have hshort := (List.dropWhile_sublist isIndent (l := cs)).length_le
          rw [List.length_cons] at hn
          have hrest := ih (cs.dropWhile isIndent).length (by omega) h rfl
          rw [← List.takeWhile_append_dropWhile (p := isIndent) (l := cs),
            ← List.takeWhile_append_dropWhile (p := isIndent) (l := ds)]
          exact .line (fun _ => List.mem_takeWhile_imp) (fun _ => List.mem_takeWhile_imp) hrest
        · rw [beq_eq_false_iff_ne.2 hc] at h
          exact .keep hc (ih cs.length (by simp [← hn]) h rfl)

/-- What a line end stops is the same in both texts. -/
theorem span (h : SameLines cs ds) (hp : p '\n' = false) :
    cs.takeWhile p = ds.takeWhile p ∧ SameLines (cs.dropWhile p) (ds.dropWhile p) := by
  induction h with
  | nil => exact ⟨rfl, .nil⟩
  | @keep c cs ds hc h ih =>
    cases hpc : p c with
    | true => simpa [hpc] using ih
    | false => simpa [hpc] using Reindented.keep hc h
  | line hbs hcs h => simpa [hp] using Reindented.line hbs hcs h

/-- What neither line ends nor blanks stop goes on over the same lines. -/
theorem spanThrough (h : SameLines cs ds) (hp : p '\n' = true)
    (hblank : ∀ c, isIndent c = true → p c = true) :
    SameLines (cs.takeWhile p) (ds.takeWhile p) ∧ SameLines (cs.dropWhile p) (ds.dropWhile p) := by
  induction h with
  | nil => exact ⟨.nil, .nil⟩
  | @keep c cs ds hc h ih =>
    cases hpc : p c with
    | true => simpa [hpc] using ⟨Reindented.keep hc ih.1, ih.2⟩
    | false => simpa [hpc] using ⟨Reindented.nil, Reindented.keep hc h⟩
  | @line bs cs xs ys hbs hcs h ih =>
    have hbs' : ∀ b ∈ bs, p b = true := fun b hb => hblank b (hbs b hb)
    have hcs' : ∀ c ∈ cs, p c = true := fun c hc => hblank c (hcs c hc)
    simp only [List.takeWhile_cons_of_pos hp, List.dropWhile_cons_of_pos hp,
      List.takeWhile_append_of_pos hbs', List.takeWhile_append_of_pos hcs',
      List.dropWhile_append_of_pos hbs', List.dropWhile_append_of_pos hcs']
    exact ⟨.line hbs hcs ih.1, ih.2⟩

/-- Both texts start with the same characters of a line. -/
theorem isPrefixOf (h : SameLines cs ds) (front : List Char) (hfront : '\n' ∉ front) :
    front.isPrefixOf cs = front.isPrefixOf ds ∧
      (front.isPrefixOf cs = true → SameLines (cs.drop front.length) (ds.drop front.length)) := by
  induction front generalizing cs ds with
  | nil => exact ⟨rfl, fun _ => h⟩
  | cons f front ih =>
    obtain ⟨hf, hfront⟩ := not_or.1 (mt List.mem_cons.2 hfront)
    cases h with
    | nil => exact ⟨rfl, nofun⟩
    | @keep c cs ds _ h =>
      obtain ⟨heq, hdrop⟩ := ih h hfront
      simp only [List.isPrefixOf, heq, List.length_cons, List.drop_succ_cons, Bool.and_eq_true]
      exact ⟨trivial, fun hpre => hdrop (heq ▸ hpre.2)⟩
    | line =>
      have hne : (f == '\n') = false := beq_eq_false_iff_ne.2 (Ne.symm hf)
      simp [List.isPrefixOf, hne]

end SameLines

/-! ## The expansion of templates -/

/-- A line end and the blanks behind it are blanks. -/
theorem Text.isBlank_line {bs : List Char} (hbs : ∀ b ∈ bs, isIndent b = true) :
    ∀ b ∈ '\n' :: bs, isBlank b = true :=
  List.forall_mem_cons.2 ⟨rfl, fun b hb => (Bool.and_eq_true_iff.1 (hbs b hb)).1⟩

/-- What follows a line end and its blanks is shorter. -/
theorem Text.length_lt_line {bs cs : List Char} : cs.length < ('\n' :: (bs ++ cs)).length := by
  rw [List.length_cons, List.length_append]
  omega

/-- No group, list or reference begins or ends with a blank. -/
theorem Text.ne_of_isBlank {b : Char} (h : isBlank b = true) :
    b ≠ '$' ∧ b ≠ '\x7b' ∧ b ≠ '\x7d' ∧ b ≠ ':' := by
  refine ⟨?_, ?_, ?_, ?_⟩ <;> rintro rfl <;> revert h <;> decide

/-- A function of a text that first skips some of its characters. -/
theorem skip_eq_drop {α β : Type} {f : Nat → List α → β} (hnil : ∀ n, f n [] = f 0 [])
    (hcons : ∀ n x xs, f (n + 1) (x :: xs) = f n xs) (n : Nat) (xs : List α) :
    f n xs = f 0 (xs.drop n) := by
  induction n generalizing xs with
  | zero => rfl
  | succ n ih =>
    cases xs with
    | nil => exact hnil _
    | cons x xs => rw [hcons, ih, List.drop_succ_cons]

/-- What remains behind the first items that pass is what `dropWhile` leaves. -/
theorem drop_length_takeWhile {α : Type} (p : α → Bool) (xs : List α) :
    xs.drop (xs.takeWhile p).length = xs.dropWhile p := by
  induction xs with
  | nil => rfl
  | cons x xs ih => cases hx : p x <;> simp [hx, ih]

namespace JavaScript.Template

variable {args : List Expr} {cs ds bs : List Char}

/-! ### References -/

/-- Whether this is a blank within a line. -/
def Token.isIndent : Token → Bool
  | .char c => Text.isIndent c
  | .ref _ _ => false

/-- Templates that differ only in the indentation of their lines. -/
abbrev SameTokens : List Token → List Token → Prop := Reindented (.char '\n') Token.isIndent

/-- Characters that belong to a reference are skipped. -/
theorem tokens_skip (n : Nat) (cs : List Char) : tokens n cs = tokens 0 (cs.drop n) :=
  skip_eq_drop (fun n => by cases n <;> rfl) (fun _ _ _ => rfl) n cs

/-- The characters behind a reference with these digits. -/
def behindRef (cs : List Char) : List Char :=
  if isRawMark (cs.dropWhile isIndexDigit) then (cs.dropWhile isIndexDigit).tail
  else cs.dropWhile isIndexDigit

/-- The first token is a reference where a dollar and digits stand, else a character. -/
theorem tokens_cons (c : Char) (cs : List Char) : tokens 0 (c :: cs) =
    if c = '$' ∧ cs.takeWhile isIndexDigit ≠ [] then
      .ref (cs.takeWhile isIndexDigit) (isRawMark (cs.dropWhile isIndexDigit)) ::
        tokens 0 (behindRef cs)
    else .char c :: tokens 0 cs := by
  have hbehind : behindRef cs = cs.drop ((cs.takeWhile isIndexDigit).length +
      if isRawMark (cs.dropWhile isIndexDigit) then 1 else 0) := by
    rw [behindRef, ← List.drop_drop, drop_length_takeWhile]
    split
    · rw [List.drop_one]
    · rw [List.drop_zero]
  simp only [tokens, drop_length_takeWhile]
  rw [tokens_skip, hbehind]

/-- Blanks are tokens of their own. -/
theorem tokens_blank (hbs : ∀ b ∈ bs, Text.isBlank b = true) (cs : List Char) :
    tokens 0 (bs ++ cs) = bs.map .char ++ tokens 0 cs := by
  induction bs with
  | nil => rfl
  | cons b bs ih =>
    obtain ⟨hb, hbs⟩ := List.forall_mem_cons.1 hbs
    rw [List.cons_append, tokens_cons, if_neg fun h => (Text.ne_of_isBlank hb).1 h.1, ih hbs]
    rfl

/-- A mark for raw text is an exclamation mark without an equals sign behind it. -/
theorem isRawMark_eq (cs : List Char) :
    isRawMark cs = (['!'].isPrefixOf cs && !(['!', '='].isPrefixOf cs)) := by
  rcases cs with _ | ⟨c, cs⟩
  · rfl
  by_cases hc : c = '!'
  · subst hc
    rcases cs with _ | ⟨d, cs⟩
    · rfl
    by_cases hd : d = '='
    · subst hd
      rfl
    · simp [isRawMark, List.isPrefixOf, hd, Ne.symm hd]
  · simp [isRawMark, List.isPrefixOf, hc, Ne.symm hc]

/-- References have the same digits and marks in both texts. -/
theorem behindRef_sameLines (h : SameLines cs ds) :
    cs.takeWhile isIndexDigit = ds.takeWhile isIndexDigit ∧
      isRawMark (cs.dropWhile isIndexDigit) = isRawMark (ds.dropWhile isIndexDigit) ∧
      SameLines (behindRef cs) (behindRef ds) := by
  obtain ⟨hdigits, hrest⟩ := h.span (p := isIndexDigit) (by decide)
  obtain ⟨hmark, hbehind⟩ := hrest.isPrefixOf ['!'] (by decide)
  have hraw : isRawMark (cs.dropWhile isIndexDigit) = isRawMark (ds.dropWhile isIndexDigit) := by
    rw [isRawMark_eq, isRawMark_eq, hmark, (hrest.isPrefixOf _ (by decide)).1]
  refine ⟨hdigits, hraw, ?_⟩
  rw [behindRef, behindRef, ← hraw]
  split
  · rename_i hset
    rw [isRawMark_eq, Bool.and_eq_true] at hset
    simpa using hbehind hset.1
  · exact hrest

/-- What stands behind a reference is no longer than what stands before it. -/
theorem behindRef_length (cs : List Char) : (behindRef cs).length ≤ cs.length := by
  have hrest := (List.dropWhile_sublist isIndexDigit (l := cs)).length_le
  rw [behindRef]
  split
  · rw [List.length_tail]
    omega
  · exact hrest

/-- Texts with the same lines have the same tokens up to indentation. -/
theorem tokens_sameLines (h : SameLines cs ds) : SameTokens (tokens 0 cs) (tokens 0 ds) := by
  induction hn : cs.length using Nat.strongRecOn generalizing cs ds with
  | ind n ih =>
    cases h with
    | nil => exact .nil
    | @keep c cs ds hc h =>
      rw [List.length_cons] at hn
      obtain ⟨hdigits, hraw, hbehind⟩ := behindRef_sameLines h
      have hshort := behindRef_length cs
      rw [tokens_cons, tokens_cons, ← hdigits, ← hraw]
      split
      · exact .keep nofun (ih _ (by omega) hbehind rfl)
      · exact .keep (by simpa using hc) (ih _ (by omega) h rfl)
    | @line bs es xs ys hbs hes h =>
      have hmap : ∀ bs : List Char, (∀ b ∈ bs, Text.isIndent b = true) →
          ∀ t ∈ bs.map Token.char, t.isIndent = true := by
        simp [Token.isIndent]
      have hxs := ih xs.length (hn ▸ Text.length_lt_line) h rfl
      rw [← List.cons_append, ← List.cons_append, tokens_blank (Text.isBlank_line hbs),
        tokens_blank (Text.isBlank_line hes)]
      exact .line (hmap bs hbs) (hmap es hes) hxs

/-- A test that every character passes does not see the indentation. -/
theorem SameTokens.all {ts us : List Token} (h : SameTokens ts us) {p : Token → Bool}
    (hp : ∀ c, p (.char c) = true) : ts.all p = us.all p := by
  have hblank : ∀ bs : List Token, (∀ b ∈ bs, b.isIndent = true) → bs.all p = true := by
    intro bs hbs
    rw [List.all_eq_true]
    intro b hb
    cases b with
    | char c => exact hp c
    | ref => cases hbs _ hb
  induction h with
  | nil => rfl
  | keep _ _ ih => rw [List.all_cons, List.all_cons, ih]
  | line hbs hcs _ ih =>
    rw [List.all_cons, List.all_cons, List.all_append, List.all_append, ih, hblank _ hbs,
      hblank _ hcs]

/-- Whether a text refers to arguments does not depend on its indentation. -/
theorem refersToArguments_sameLines (h : SameLines cs ds) :
    refersToArguments args cs = refersToArguments args ds :=
  (tokens_sameLines h).all fun _ => rfl

/-! ### Lists -/

/-- Characters that belong to a list are skipped. -/
theorem expandLists_skip (count n : Nat) (cs : List Char) :
    expandLists count n cs = expandLists count 0 (cs.drop n) :=
  skip_eq_drop (fun n => by cases n <;> rfl) (fun _ _ _ => rfl) n cs

/-- A list is expanded where a dollar, digits and dots stand, and other characters are kept. -/
theorem expandLists_cons (count : Nat) (c : Char) (cs : List Char) : expandLists count 0 (c :: cs) =
    if c = '$' ∧ cs.takeWhile isIndexDigit ≠ [] ∧
        ['.', '.', '.'].isPrefixOf (cs.dropWhile isIndexDigit) then
      (match index? (cs.takeWhile isIndexDigit) with
        | some start => listFrom start count
        | none => []) ++ expandLists count 0 ((cs.dropWhile isIndexDigit).drop 3)
    else c :: expandLists count 0 cs := by
  simp only [expandLists, drop_length_takeWhile]
  rewrite [expandLists_skip, ← List.drop_drop, drop_length_takeWhile]
  rfl

/-- Blanks stay as they are when lists are expanded. -/
theorem expandLists_blank (count : Nat) (hbs : ∀ b ∈ bs, Text.isBlank b = true) (cs : List Char) :
    expandLists count 0 (bs ++ cs) = bs ++ expandLists count 0 cs := by
  induction bs with
  | nil => rfl
  | cons b bs ih =>
    obtain ⟨hb, hbs⟩ := List.forall_mem_cons.1 hbs
    rw [List.cons_append, expandLists_cons, if_neg fun h => (Text.ne_of_isBlank hb).1 h.1, ih hbs,
      List.cons_append]

/-- Expanding lists keeps the lines up to their indentation. -/
theorem expandLists_sameLines (count : Nat) (h : SameLines cs ds) :
    SameLines (expandLists count 0 cs) (expandLists count 0 ds) := by
  induction hn : cs.length using Nat.strongRecOn generalizing cs ds with
  | ind n ih =>
    cases h with
    | nil => exact .nil
    | @keep c cs ds hc h =>
      rw [List.length_cons] at hn
      obtain ⟨hdigits, hrest⟩ := SameLines.span h (p := isIndexDigit) (by decide)
      obtain ⟨hdots, hbehind⟩ := hrest.isPrefixOf ['.', '.', '.'] (by decide)
      have hshort := (List.dropWhile_sublist isIndexDigit (l := cs)).length_le
      rw [expandLists_cons, expandLists_cons, ← hdigits, ← hdots]
      split
      · rename_i hlist
        have hlength : ((cs.dropWhile isIndexDigit).drop 3).length < n := by
          rw [List.length_drop]
          omega
        exact .append (.refl _) (ih _ hlength (hbehind hlist.2.2) rfl)
      · exact .keep hc (ih _ (by omega) h rfl)
    | @line bs es xs ys hbs hes h =>
      rw [← List.cons_append, ← List.cons_append, expandLists_blank _ (Text.isBlank_line hbs),
        expandLists_blank _ (Text.isBlank_line hes)]
      exact .line hbs hes (ih xs.length (hn ▸ Text.length_lt_line) h rfl)

/-! ### Groups -/

/-- A group ends at the first two closing braces. -/
theorem untilClose_cons (c : Char) (cs : List Char) : untilClose (c :: cs) =
    if ['\x7d', '\x7d'].isPrefixOf (c :: cs) then some []
    else (untilClose cs).map (c :: ·) := by
  by_cases hc : c = '\x7d'
  · subst hc
    rcases cs with _ | ⟨d, cs⟩
    · rfl
    by_cases hd : d = '\x7d'
    · subst hd
      rfl
    · simp [untilClose, List.isPrefixOf, hd, Ne.symm hd]
  · simp [untilClose, List.isPrefixOf, hc, Ne.symm hc]

/-- Blanks do not end a group. -/
theorem untilClose_blank (hbs : ∀ b ∈ bs, Text.isBlank b = true) (cs : List Char) :
    untilClose (bs ++ cs) = (untilClose cs).map (bs ++ ·) := by
  induction bs with
  | nil => simp
  | cons b bs ih =>
    obtain ⟨hb, hbs⟩ := List.forall_mem_cons.1 hbs
    have hopen : ['\x7d', '\x7d'].isPrefixOf (b :: (bs ++ cs)) = false := by
      simp [List.isPrefixOf, Ne.symm (Text.ne_of_isBlank hb).2.2.1]
    rw [List.cons_append, untilClose_cons, hopen, ih hbs, Option.map_map]
    rfl

/-- How a group that starts in both texts goes on: it is closed in neither, or in both at the same
place. -/
theorem untilClose_sameLines (h : SameLines cs ds) :
    (untilClose cs = none ∧ untilClose ds = none) ∨
      ∃ inner inner', untilClose cs = some inner ∧ untilClose ds = some inner' ∧
        SameLines inner inner' ∧
        SameLines (cs.drop (inner.length + 2)) (ds.drop (inner'.length + 2)) := by
  induction h with
  | nil => exact .inl ⟨rfl, rfl⟩
  | @keep c cs ds hc h ih =>
    obtain ⟨hclose, hbehind⟩ :=
      SameLines.isPrefixOf (.keep hc h) ['\x7d', '\x7d'] (by decide)
    rw [untilClose_cons, untilClose_cons, ← hclose]
    split
    · rename_i hset
      exact .inr ⟨[], [], rfl, rfl, .nil, hbehind hset⟩
    · obtain ⟨hcs, hds⟩ | ⟨inner, inner', hcs, hds, hinner, hrest⟩ := ih
      · exact .inl ⟨by rw [hcs]; rfl, by rw [hds]; rfl⟩
      · exact .inr ⟨c :: inner, c :: inner', by rw [hcs]; rfl, by rw [hds]; rfl,
          .keep hc hinner, hrest⟩
  | @line bs es xs ys hbs hes h ih =>
    rw [← List.cons_append, ← List.cons_append, untilClose_blank (Text.isBlank_line hbs),
      untilClose_blank (Text.isBlank_line hes)]
    obtain ⟨hxs, hys⟩ | ⟨inner, inner', hxs, hys, hinner, hrest⟩ := ih
    · exact .inl ⟨by rw [hxs]; rfl, by rw [hys]; rfl⟩
    · have hdrop : ∀ front inner cs : List Char,
          (front ++ cs).drop ((front ++ inner).length + 2) = cs.drop (inner.length + 2) := by
        intro front inner cs
        rw [List.length_append, Nat.add_assoc, List.drop_append, List.drop_of_length_le (by omega)]
        simp
      refine .inr ⟨_, _, by rw [hxs]; rfl, by rw [hys]; rfl, .line hbs hes hinner, ?_⟩
      rw [← List.cons_append, ← List.cons_append, hdrop, hdrop]
      exact hrest

/-- A choice is a reference with a question mark behind it. -/
theorem choice?_mark {d : Char} {digits rest : List Char}
    (hdigits : cs.takeWhile isIndexDigit = d :: digits)
    (hrest : cs.dropWhile isIndexDigit = '?' :: rest) : choice? ('$' :: cs) =
      match rest.dropWhile (· != ':') with
      | ':' :: no => some (d :: digits, rest.takeWhile (· != ':'), no)
      | _ => none := by
  simp only [choice?]
  rewrite [hdigits, hrest]
  rfl

/-- Both texts are a choice on the same argument, or neither is. -/
theorem choice?_sameLines (h : SameLines cs ds) :
    (choice? cs = none ∧ choice? ds = none) ∨
      ∃ digits yes no yes' no', choice? cs = some (digits, yes, no) ∧
        choice? ds = some (digits, yes', no') ∧ SameLines yes yes' ∧ SameLines no no' := by
  cases h with
  | nil => exact .inl ⟨rfl, rfl⟩
  | line => exact .inl ⟨rfl, rfl⟩
  | @keep c cs ds hc h =>
    by_cases hdollar : c = '$'
    case neg => exact .inl ⟨by simp [choice?, hdollar], by simp [choice?, hdollar]⟩
    subst hdollar
    obtain ⟨hsame, hrest⟩ := SameLines.span h (p := isIndexDigit) (by decide)
    cases hdigits : cs.takeWhile isIndexDigit with
    | nil => exact .inl ⟨by simp [choice?, hdigits], by simp [choice?, ← hsame, hdigits]⟩
    | cons d digits =>
      have hdigits' : ds.takeWhile isIndexDigit = d :: digits := by rw [← hsame, hdigits]
      generalize hcs : cs.dropWhile isIndexDigit = rest at hrest
      generalize hds : ds.dropWhile isIndexDigit = rest' at hrest
      cases hrest with
      | nil => exact .inl ⟨by simp [choice?, hcs], by simp [choice?, hds]⟩
      | line => exact .inl ⟨by simp [choice?, hcs], by simp [choice?, hds]⟩
      | @keep c rest rest' _ hrest =>
        by_cases hmark : c = '?'
        case neg => exact .inl ⟨by simp [choice?, hcs, hmark], by simp [choice?, hds, hmark]⟩
        subst hmark
        rw [choice?_mark hdigits hcs, choice?_mark hdigits' hds]
        have hblank : ∀ c, Text.isIndent c = true → (c != ':') = true := fun c hc =>
          bne_iff_ne.2 (Text.ne_of_isBlank (Bool.and_eq_true_iff.1 hc).1).2.2.2
        obtain ⟨hyes, hno⟩ := SameLines.spanThrough hrest (p := (· != ':')) (by decide) hblank
        generalize rest.dropWhile (· != ':') = no at hno
        generalize rest'.dropWhile (· != ':') = no' at hno
        cases hno with
        | nil => exact .inl ⟨rfl, rfl⟩
        | line => exact .inl ⟨rfl, rfl⟩
        | @keep c no no' _ hno =>
          by_cases hcolon : c = ':'
          · subst hcolon
            exact .inr ⟨d :: digits, _, no, _, no', rfl, rfl, hyes, hno⟩
          · exact .inl ⟨by simp [hcolon], by simp [hcolon]⟩

/-- What a group stands for is the same up to indentation. -/
theorem expandGroup_sameLines (h : SameLines cs ds) :
    SameLines (expandGroup args cs) (expandGroup args ds) := by
  obtain ⟨hcs, hds⟩ | ⟨digits, yes, no, yes', no', hcs, hds, hyes, hno⟩ := choice?_sameLines h
  · simp only [expandGroup, hcs, hds, ← refersToArguments_sameLines h]
    split
    · exact h
    · exact .nil
  · simp only [expandGroup, hcs, hds]
    split
    · exact hyes
    · exact hno

/-- Characters that belong to a group are skipped. -/
theorem expandGroups_skip (n : Nat) (cs : List Char) :
    expandGroups args n cs = expandGroups args 0 (cs.drop n) :=
  skip_eq_drop (fun n => by cases n <;> rfl) (fun _ _ _ => rfl) n cs

/-- A group starts with two opening braces and needs its end. -/
theorem groupAt?_eq (cs : List Char) : groupAt? cs =
    if ['\x7b', '\x7b'].isPrefixOf cs then untilClose (cs.drop 2) else none := by
  rcases cs with _ | ⟨c, cs⟩
  · rfl
  by_cases hc : c = '\x7b'
  · subst hc
    rcases cs with _ | ⟨d, cs⟩
    · rfl
    by_cases hd : d = '\x7b'
    · subst hd
      rfl
    · simp [groupAt?, List.isPrefixOf, hd, Ne.symm hd]
  · simp [groupAt?, List.isPrefixOf, hc, Ne.symm hc]

/-- A group is expanded where one starts, and other characters are kept. -/
theorem expandGroups_cons (c : Char) (cs : List Char) : expandGroups args 0 (c :: cs) =
    match groupAt? (c :: cs) with
    | some inner =>
      expandGroup args inner ++ expandGroups args 0 ((c :: cs).drop (inner.length + 4))
    | none => c :: expandGroups args 0 cs := by
  rw [expandGroups]
  cases groupAt? (c :: cs) with
  | none => rfl
  | some inner =>
    change _ ++ expandGroups args (inner.length + 3) cs = _
    rw [expandGroups_skip (inner.length + 3)]
    rfl

/-- Blanks stay as they are when groups are expanded. -/
theorem expandGroups_blank (hbs : ∀ b ∈ bs, Text.isBlank b = true) (cs : List Char) :
    expandGroups args 0 (bs ++ cs) = bs ++ expandGroups args 0 cs := by
  induction bs with
  | nil => rfl
  | cons b bs ih =>
    obtain ⟨hb, hbs⟩ := List.forall_mem_cons.1 hbs
    have hopen : ['\x7b', '\x7b'].isPrefixOf (b :: (bs ++ cs)) = false := by
      simp [List.isPrefixOf, Ne.symm (Text.ne_of_isBlank hb).2.1]
    rw [List.cons_append, expandGroups_cons, groupAt?_eq, hopen, ih hbs, List.cons_append]
    rfl

/-- Expanding groups keeps the lines up to their indentation. -/
theorem expandGroups_sameLines (h : SameLines cs ds) :
    SameLines (expandGroups args 0 cs) (expandGroups args 0 ds) := by
  induction hn : cs.length using Nat.strongRecOn generalizing cs ds with
  | ind n ih =>
    cases h with
    | nil => exact .nil
    | @keep c cs ds hc h =>
      rw [List.length_cons] at hn
      have hcopy : SameLines (c :: expandGroups args 0 cs) (c :: expandGroups args 0 ds) :=
        .keep hc (ih _ (by omega) h rfl)
      obtain ⟨hopen, hbehind⟩ :=
        SameLines.isPrefixOf (.keep hc h) ['\x7b', '\x7b'] (by decide)
      rw [expandGroups_cons, expandGroups_cons, groupAt?_eq, groupAt?_eq, ← hopen]
      split_ifs with hset
      · have hinside : SameLines ((c :: cs).drop 2) ((c :: ds).drop 2) := hbehind hset
        obtain ⟨hcs, hds⟩ | ⟨inner, inner', hcs, hds, hinner, hrest⟩ :=
          untilClose_sameLines hinside
        · rw [hcs, hds]
          exact hcopy
        · rw [hcs, hds]
          rw [List.drop_drop, List.drop_drop, Nat.add_comm 2, Nat.add_comm 2] at hrest
          refine .append (expandGroup_sameLines hinner) (ih _ ?_ hrest rfl)
          rw [List.length_drop, List.length_cons]
          simp
          omega
      · exact hcopy
    | @line bs es xs ys hbs hes h =>
      rw [← List.cons_append, ← List.cons_append, expandGroups_blank (Text.isBlank_line hbs),
        expandGroups_blank (Text.isBlank_line hes)]
      exact .line hbs hes (ih xs.length (hn ▸ Text.length_lt_line) h rfl)

end JavaScript.Template

/-! ## The lines of foreign code -/

namespace Layout

variable {bs cs ds : List Char}

/-- Lines that differ only in the blanks at their starts. -/
def SameLine (l l' : List Char) : Prop :=
  ∃ bs cs m : List Char, (∀ b ∈ bs, Text.isBlank b = true) ∧ (∀ c ∈ cs, Text.isBlank c = true) ∧
    l = bs ++ m ∧ l' = cs ++ m

/-- Blanks at the start of a text are trimmed with the others. -/
theorem trimStart_blank (hbs : ∀ b ∈ bs, Text.isBlank b = true) (m : List Char) :
    Text.trimStart (String.ofList (bs ++ m)) = Text.trimStart (String.ofList m) := by
  rw [Text.trimStart, Text.trimStart, String.toList_ofList, String.toList_ofList,
    List.dropWhile_append_of_pos hbs]

/-- A line of blanks only loses them all, and any other line keeps those in front until the blanks
at its end are gone. -/
theorem trim_blank (hbs : ∀ b ∈ bs, Text.isBlank b = true) (m : List Char) :
    Text.trimStart (Text.trimEnd (String.ofList (bs ++ m))) =
      Text.trimStart (Text.trimEnd (String.ofList m)) := by
  have hrev : ∀ b ∈ bs.reverse, Text.isBlank b = true := fun b hb => hbs b (List.mem_reverse.1 hb)
  rw [Text.trimEnd, Text.trimEnd, String.toList_ofList, String.toList_ofList, List.reverse_append,
    List.dropWhile_append]
  split
  · rename_i hempty
    rw [List.isEmpty_iff.1 hempty, List.dropWhile_eq_nil_iff.2 hrev]
  · rw [List.reverse_append, List.reverse_reverse, trimStart_blank hbs]

/-- Lines that differ in the blanks at their starts are the same trimmed. -/
theorem SameLine.trimStart {l l' : List Char} (h : SameLine l l') :
    Text.trimStart (String.ofList l) = Text.trimStart (String.ofList l') := by
  obtain ⟨bs, cs, m, hbs, hcs, rfl, rfl⟩ := h
  rw [trimStart_blank hbs, trimStart_blank hcs]

/-- Lines that differ in the blanks at their starts are the same trimmed at both ends. -/
theorem SameLine.trim {l l' : List Char} (h : SameLine l l') :
    Text.trimStart (Text.trimEnd (String.ofList l)) =
      Text.trimStart (Text.trimEnd (String.ofList l')) := by
  obtain ⟨bs, cs, m, hbs, hcs, rfl, rfl⟩ := h
  rw [trim_blank hbs, trim_blank hcs]

/-- A character in a line belongs to the first line. -/
theorem splitLines_cons {c : Char} (hc : c ≠ '\n') {l : List Char} {ls : List (List Char)}
    (h : splitLines cs = l :: ls) : splitLines (c :: cs) = (c :: l) :: ls := by
  rw [splitLines, if_neg hc, h]

/-- Indentation belongs to the first line. -/
theorem splitLines_indent (hbs : ∀ b ∈ bs, isIndent b = true) {l : List Char}
    {ls : List (List Char)} (h : splitLines cs = l :: ls) :
    splitLines (bs ++ cs) = (bs ++ l) :: ls := by
  induction bs with
  | nil => exact h
  | cons b bs ih =>
    obtain ⟨hb, hbs⟩ := List.forall_mem_cons.1 hbs
    exact splitLines_cons (bne_iff_ne.1 (Bool.and_eq_true_iff.1 hb).2) (ih hbs)

/-- Texts with the same lines have the same first line, and then lines that differ in blanks. -/
theorem splitLines_sameLines (h : SameLines cs ds) :
    ∃ l ls ls', splitLines cs = l :: ls ∧ splitLines ds = l :: ls' ∧
      List.Forall₂ SameLine ls ls' := by
  induction h with
  | nil => exact ⟨[], [], [], rfl, rfl, .nil⟩
  | keep hc _ ih =>
    obtain ⟨l, ls, ls', hcs, hds, hrest⟩ := ih
    exact ⟨_, ls, ls', splitLines_cons hc hcs, splitLines_cons hc hds, hrest⟩
  | @line bs es xs ys hbs hes _ ih =>
    obtain ⟨l, ls, ls', hxs, hys, hrest⟩ := ih
    have hblank : ∀ bs : List Char, (∀ b ∈ bs, isIndent b = true) →
        ∀ b ∈ bs, Text.isBlank b = true :=
      fun bs hbs b hb => (Bool.and_eq_true_iff.1 (hbs b hb)).1
    refine ⟨[], (bs ++ l) :: ls, (es ++ l) :: ls', ?_, ?_,
      .cons ⟨bs, es, l, hblank bs hbs, hblank es hes, rfl, rfl⟩ hrest⟩
    · rw [splitLines, if_pos rfl, splitLines_indent hbs hxs]
    · rw [splitLines, if_pos rfl, splitLines_indent hes hys]

/-- A line in front of another one loses the blanks at both of its ends. -/
def innerLine (l : List Char) : List Piece :=
  let text := Text.trimStart (Text.trimEnd (String.ofList l))
  .text "\n" :: if text.isEmpty then [] else [.margin, .text text]

/-- All lines but the last are inner lines. -/
theorem foreignLines_cons_cons (l k : List Char) (ls : List (List Char)) :
    foreignLines (l :: k :: ls) = innerLine l ++ foreignLines (k :: ls) := rfl

/-- Lines that differ in the blanks at their starts are printed alike. -/
theorem foreignLines_sameLines {ls ls' : List (List Char)} (h : List.Forall₂ SameLine ls ls') :
    foreignLines ls = foreignLines ls' := by
  induction h with
  | nil => rfl
  | cons hl hrest ih =>
    cases hrest with
    | nil => rw [foreignLines, foreignLines, hl.trimStart]
    | cons => rw [foreignLines_cons_cons, foreignLines_cons_cons, innerLine, hl.trim, ih, innerLine]

/-- Foreign code is laid out in the same way whatever the indentation of its lines is. -/
theorem foreign_sameLines (h : SameLines cs ds) :
    foreign (String.ofList cs) = foreign (String.ofList ds) := by
  obtain ⟨l, ls, ls', hcs, hds, hrest⟩ := splitLines_sameLines h
  simp only [foreign, String.toList_ofList, hcs, hds]
  cases hrest with
  | nil => rfl
  | cons hl hrest => exact congrArg _ (foreignLines_sameLines (.cons hl hrest))

end Layout

namespace JavaScript

open Ir (Location)

namespace Template

variable {args : List Expr} {pieces : List (List Piece)} {pending pending' : List Char}
  {ts us : List Token}

/-- An argument is opened where the text before it ends in a parenthesis. -/
theorem isOpening_eq (pending : List Char) :
    isOpening pending = (pending.reverse.getLast? == some '(') := by
  rw [List.getLast?_reverse]
  rcases pending with _ | ⟨c, pending⟩
  · rfl
  · by_cases hc : c = '('
    · subst hc
      rfl
    · simp [isOpening, hc]

/-- Whether an argument is closed does not depend on indentation. -/
theorem isClosing_sameTokens (h : SameTokens ts us) : isClosing ts = isClosing us := by
  cases h with
  | nil | line => rfl
  | @keep t =>
    cases t with
    | char c => by_cases hc : c = ')' <;> simp [isClosing, hc]
    | ref => rfl

/-- The pieces of two parts of a template are those of each. -/
theorem segmentPieces_append (pieces : List (List Piece)) (xs ys : List Segment) :
    segmentPieces pieces (xs ++ ys) = segmentPieces pieces xs ++ segmentPieces pieces ys := by
  induction xs with
  | nil => rfl
  | cons x xs ih => cases x <;> simp [segmentPieces, ih]

/-- Text with the same lines is printed alike. -/
theorem flush_sameLines (h : SameLines pending.reverse pending'.reverse) :
    segmentPieces pieces (flush pending) = segmentPieces pieces (flush pending') := by
  have hforeign : ∀ pending, segmentPieces pieces (flush pending) =
      if pending = [] then [] else Layout.foreign (String.ofList pending.reverse) := by
    intro pending
    cases pending <;> simp [flush, segmentPieces]
  have hempty : pending = [] ↔ pending' = [] := by
    rw [← List.reverse_eq_nil_iff, ← @List.reverse_eq_nil_iff _ pending']
    generalize pending.reverse = cs at h
    generalize pending'.reverse = ds at h
    cases h <;> simp
  rw [hforeign, hforeign, Layout.foreign_sameLines h, if_congr hempty rfl rfl]

/-- Characters are gathered until a reference comes. -/
theorem segments_chars (args : List Expr) (pending bs : List Char) (ts : List Token) :
    segments args pending (bs.map .char ++ ts) = segments args (bs.reverse ++ pending) ts := by
  induction bs generalizing pending with
  | nil => rfl
  | cons b bs ih => simp [segments, ih]

/-- Tokens that are all indentation are the characters of it. -/
theorem eq_map_of_isIndent (h : ∀ t ∈ ts, t.isIndent = true) :
    ∃ bs : List Char, ts = bs.map .char ∧ ∀ b ∈ bs, Text.isIndent b = true := by
  induction ts with
  | nil => exact ⟨[], rfl, nofun⟩
  | cons t ts ih =>
    obtain ⟨ht, hts⟩ := List.forall_mem_cons.1 h
    obtain ⟨bs, rfl, hbs⟩ := ih hts
    cases t with
    | char c => exact ⟨c :: bs, rfl, List.forall_mem_cons.2 ⟨ht, hbs⟩⟩
    | ref => cases ht

/-- The text in front of a reference is laid out in the same way, and so is the reference, since no
parenthesis next to it is part of the indentation. -/
theorem segments_sameTokens (h : SameTokens ts us)
    (hpending : SameLines pending.reverse pending'.reverse) :
    segmentPieces pieces (segments args pending ts) =
      segmentPieces pieces (segments args pending' us) := by
  induction h generalizing pending pending' with
  | nil => exact flush_sameLines hpending
  | @keep t ts us ht h ih =>
    cases t with
    | char c =>
      have hc : c ≠ '\n' := fun hc => ht (congrArg Token.char hc)
      refine ih ?_
      rw [List.reverse_cons, List.reverse_cons]
      exact hpending.append (.keep hc .nil)
    | ref digits isRaw =>
      have hopening : isOpening pending = isOpening pending' := by
        rw [isOpening_eq, isOpening_eq, Bool.eq_iff_iff, beq_iff_eq, beq_iff_eq]
        exact hpending.getLast? (by decide) (by decide)
      rw [segments, segments, segmentPieces_append, segmentPieces_append, flush_sameLines hpending,
        hopening, isClosing_sameTokens h]
      have hrest := @ih [] [] .nil
      cases resolve args (isOpening pending') (isClosing us) digits isRaw <;>
        rw [segmentPieces, segmentPieces, hrest]
  | @line bs es xs ys hbs hes h ih =>
    obtain ⟨bs, rfl, hfront⟩ := eq_map_of_isIndent hbs
    obtain ⟨es, rfl, hfront'⟩ := eq_map_of_isIndent hes
    rw [segments, segments, segments_chars, segments_chars]
    refine ih ?_
    simp only [List.reverse_append, List.reverse_reverse, List.reverse_cons, List.append_assoc]
    simpa using hpending.append (.line hfront hfront' .nil)

end Template

open Template in
/-- A template expands to the same pieces whatever the indentation of its lines is. -/
theorem expandTemplate_indentation {template template' : String}
    (h : Text.unindent template = Text.unindent template') (args : List Expr)
    (pieces : List (List Piece)) :
    segmentPieces pieces (expandTemplate template args) =
      segmentPieces pieces (expandTemplate template' args) :=
  segments_sameTokens
    (tokens_sameLines
      (expandLists_sameLines _ (expandGroups_sameLines (SameLines.of_unindent h)))) .nil

/-- Foreign code whose templates differ only in blanks right behind their line ends takes every
printer to the same state: it prints the same text and records the same mappings, at every depth and
with every option. -/
theorem emit_indentation {template template' : String}
    (h : Text.unindent template = Text.unindent template') (args : List Expr)
    (loc : Option Location) (sep : Separator) (p : Printer) :
    p.run (Expr.pieces sep ⟨loc, .emit template args⟩) =
      p.run (Expr.pieces sep ⟨loc, .emit template' args⟩) := by
  have hpieces := expandTemplate_indentation h args (argPieces sep args)
  simp only [Expr.pieces, ExprForm.pieces, hpieces]

/-- A call over several lines: a reference starts a line, two groups go over lines, of which one is
left out, and a list follows an empty line. -/
def callTemplate (indentation : String) : String :=
  ("\n" ++ indentation).intercalate
    ["f(", "$0,", "\x7b\x7b$1?", "a:", "b\x7d\x7d,", "\x7b\x7b", "$7!\x7d\x7d", "", "$0...", ")"]

/-- A call over two lines is printed alike with blanks and with a tab. -/
theorem callTemplate_indentation :
    Text.unindent (callTemplate "    ") = Text.unindent (callTemplate "\t") ∧
      (Printer.start .default).indent.run (Expr.pieces .semicolons
          ⟨none, .emit (callTemplate "    ") [⟨none, .ident "x"⟩, ⟨none, .literal (.bool true)⟩]⟩) =
        (Printer.start .default).indent.run (Expr.pieces .semicolons
          ⟨none, .emit (callTemplate "\t") [⟨none, .ident "x"⟩, ⟨none, .literal (.bool true)⟩]⟩) :=
  ⟨by decide, emit_indentation (by decide) _ _ _ _⟩

end JavaScript

end TypedLowering
