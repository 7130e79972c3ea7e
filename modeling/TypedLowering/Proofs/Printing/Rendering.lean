import Mathlib.Data.List.Induction
import Mathlib.Data.List.TakeWhile
import TypedLowering.Printing.Printer

/-!
# What pieces print

Pieces come down to characters with marks between them. They depend on the indentation alone, not on
where the printer is or what it has printed (`Piece.ink`), and a printer that runs pieces prints the
characters of these (`Printer.run_out`). It maps the marks as they stand between the characters,
too, if there are not so many line ends that the lines are counted all around (`Printer.run_eq`). So
a semicolon that is put in after its statement was printed is as good as one that is printed before
it. -/

/-!
## Positions behind a text

A position can be read off the text before it: its line is one more than there are line ends, and
its column is the width of the last line. Words hold it up to multiples of their size
(`after_start`). Text that is put in before a position moves it if it is on the same line, and stays
out of the way of everything that follows (`after_shift`).
-/

namespace TypedLowering.Ir.Position

open Text (width16 units16)

/-- What follows the last line end of a text. -/
def lastLine (cs : List Char) : List Char :=
  (cs.reverse.takeWhile (· != '\n')).reverse

/-- The position behind a text that starts a file: one line more than there are line ends, and the
width of the last line in UTF-16 units. -/
def behind (cs : List Char) : Position :=
  ⟨1 + cs.count '\n', width16 (lastLine cs)⟩

/-- What words hold of a position. -/
def word (p : Position) : Position := ⟨p.line % wordSize, p.column % wordSize⟩

/-- Whether words can hold the lines and columns of all places of a text. -/
def Fits (cs : List Char) : Prop :=
  ∀ pre, pre <+: cs → (behind pre).line < wordSize ∧ (behind pre).column < wordSize

/-- A line end starts a new last line, and any other character goes on with it. -/
theorem lastLine_concat (cs : List Char) (c : Char) :
    lastLine (cs ++ [c]) = if c = '\n' then [] else lastLine cs ++ [c] := by
  rw [lastLine, List.reverse_concat, List.takeWhile_cons]
  by_cases hc : c = '\n'
  · rw [hc]
    rfl
  · simp only [bne_iff_ne, ne_eq, hc, not_false_eq_true, if_true, if_false, List.reverse_cons]
    rfl

/-- One more character moves the position behind a text as it moves the one that words hold. -/
theorem word_behind_concat (cs : List Char) (c : Char) :
    (behind (cs ++ [c])).word = (behind cs).word.next c := by
  simp only [behind, word, lastLine_concat, next, List.count_append]
  by_cases hc : c = '\n'
  · subst hc
    simp [Nat.add_assoc]
  · simp [hc]

/-- More text moves the position that words hold for the place behind a text to the one behind
both. -/
theorem after_word_behind (cs ds : List Char) :
    (behind cs).word.after ds = (behind (cs ++ ds)).word := by
  induction ds using List.reverseRecOn with
  | nil => rw [after_nil, List.append_nil]
  | append_singleton ds d ih =>
    rw [after_append, ih, after_cons, after_nil, ← word_behind_concat, List.append_assoc]

/-- The position that is kept character by character is what words hold of the one that the text
has. -/
theorem after_start (cs : List Char) : start.after cs = (behind cs).word :=
  after_word_behind [] cs

/-- Words hold the position behind a text that fits them. -/
theorem Fits.word_eq {cs : List Char} (h : Fits cs) : (behind cs).word = behind cs := by
  obtain ⟨hline, hcolumn⟩ := h cs (List.prefix_refl cs)
  rw [word, Nat.mod_eq_of_lt hline, Nat.mod_eq_of_lt hcolumn]

/-- A prefix of a text that fits words fits them. -/
theorem Fits.of_prefix {cs ds : List Char} (h : Fits ds) (hcs : cs <+: ds) : Fits cs :=
  fun pre hpre => h pre (hpre.trans hcs)

/-- Words count the line ends of a text that fits. -/
theorem Fits.count_lt {cs : List Char} (h : Fits cs) : cs.count '\n' < wordSize :=
  Nat.lt_of_le_of_lt (Nat.le_add_left _ 1) (h cs (List.prefix_refl cs)).1

/-- A character is at most two units wide. -/
theorem width16_le (cs : List Char) : width16 cs ≤ 2 * cs.length := by
  induction cs with
  | nil => exact Nat.le_refl 0
  | cons c cs ih =>
    have hc : units16 c ≤ 2 := by
      rw [units16]
      split <;> decide
    rw [Text.width16_cons, List.length_cons]
    omega

/-- The last line is no longer than the text. -/
theorem length_lastLine_le (cs : List Char) : (lastLine cs).length ≤ cs.length := by
  rw [lastLine, List.length_reverse]
  exact (List.takeWhile_prefix _).length_le.trans_eq List.length_reverse

/-- A text of less than half as many characters fits. -/
theorem Fits.of_length {cs : List Char} (h : 2 * cs.length + 1 < wordSize) : Fits cs := by
  intro pre hpre
  have hlength := hpre.length_le
  have hcount : pre.count '\n' ≤ pre.length := List.count_le_length
  have hwidth := width16_le (lastLine pre)
  have hlast := length_lastLine_le pre
  simp only [behind]
  omega

/-- A character is at least one unit wide. -/
theorem length_le_width16 (cs : List Char) : cs.length ≤ width16 cs := by
  induction cs with
  | nil => exact Nat.le_refl 0
  | cons c cs ih =>
    have hc : 1 ≤ units16 c := by
      rw [units16]
      split <;> decide
    rw [Text.width16_cons, List.length_cons]
    omega

/-- Behind a text on one line the column is at least its length. -/
theorem length_le_column {cs : List Char} (h : '\n' ∉ cs) : cs.length ≤ (behind cs).column := by
  have hline : lastLine cs = cs := by
    have hall : ∀ c ∈ cs.reverse, (c != '\n') = true := fun c hc =>
      bne_iff_ne.2 fun heq => h (heq ▸ List.mem_reverse.1 hc)
    rw [lastLine, List.takeWhile_eq_self_iff.2 hall, List.reverse_reverse]
  rw [behind, hline]
  exact length_le_width16 cs

/-! ## Order -/

/-- Positions are ordered by their lines, and on one line by their columns. -/
theorem le_iff {p q : Position} :
    p.le q = true ↔ p.line < q.line ∨ p.line = q.line ∧ p.column ≤ q.column := by
  simp [le]

/-- A position is not before itself. -/
theorem le_refl (p : Position) : p.le p = true :=
  le_iff.2 (.inr ⟨rfl, Nat.le_refl _⟩)

/-- The order of positions is transitive. -/
theorem le_trans {p q r : Position} (hpq : p.le q = true) (hqr : q.le r = true) :
    p.le r = true := by
  rw [le_iff] at *
  omega

/-- A later position is on no earlier line. -/
theorem line_le_of_le {p q : Position} (h : p.le q = true) : p.line ≤ q.line := by
  rw [le_iff] at h
  omega

/-- The position behind a text does not come before the one behind a part of it. -/
theorem behind_le_append (cs ds : List Char) : (behind cs).le (behind (cs ++ ds)) = true := by
  induction ds using List.reverseRecOn with
  | nil => rw [List.append_nil]; exact le_refl _
  | append_singleton ds d ih =>
    refine le_trans ih (le_iff.2 ?_)
    rw [← List.append_assoc]
    generalize cs ++ ds = front
    simp only [behind, lastLine_concat, List.count_append]
    by_cases hd : d = '\n'
    · simp [hd]
    · simp [hd]

/-! ## Text that is put in -/

variable {p : Position} {line width n : Nat}

/-- Whether a position is on no line that is counted like `line`, nor are the `n` lines after it. -/
def Left (line n : Nat) (p : Position) : Prop :=
  p.line < wordSize ∧ ∀ k ≤ n, (p.line + k) % wordSize ≠ line

/-- Whether a position is on the line `line`, or behind it and does not come around to it again
within `n` line ends. -/
def StaysBehind (line n : Nat) (p : Position) : Prop :=
  p.line = line ∨ p.Left line n

/-- A position that has left a line is on another one. -/
theorem Left.line_ne (h : p.Left line n) : p.line ≠ line := by
  have hne := h.2 0 (Nat.zero_le n)
  rwa [Nat.add_zero, Nat.mod_eq_of_lt h.1] at hne

/-- A line end brings a position one line further from the line it left. -/
theorem Left.newline (h : p.Left line (n + 1)) : (p.next '\n').Left line n := by
  rw [Position.next, if_pos rfl]
  refine ⟨Nat.mod_lt _ (by decide), fun k hk => ?_⟩
  rw [Nat.mod_add_mod, Nat.add_assoc]
  exact h.2 (1 + k) (by omega)

/-- Fewer line ends than lines can be counted do not lead back to a line. -/
theorem left_of_newline (hline : p.line = line) (hn : n + 1 < wordSize) :
    (p.next '\n').Left line n := by
  rw [Position.next, if_pos rfl]
  refine ⟨Nat.mod_lt _ (by decide), fun k hk => ?_⟩
  simp only [wordSize] at hn ⊢
  omega

/-- A line end leaves the line behind which a position was. -/
theorem StaysBehind.newline (h : p.StaysBehind line (n + 1)) (hn : n + 1 < wordSize) :
    (p.next '\n').Left line n :=
  h.elim (fun hline => left_of_newline hline hn) Left.newline

/-- Any other character keeps a position behind. -/
theorem StaysBehind.next_of_ne {c : Char} (h : p.StaysBehind line n) (hc : c ≠ '\n') :
    (p.next c).StaysBehind line n := by
  rw [Position.next, if_neg hc]
  exact h

/-- Moving a position commutes with a character on the same line. -/
theorem next_shift_of_ne {c : Char} (hc : c ≠ '\n') :
    (p.shift line width).next c = (p.next c).shift line width := by
  simp only [shift, next, hc, if_false]
  split <;> simp [Nat.add_right_comm]

/-- A position on another line is not moved. -/
theorem Left.shift_eq (h : p.Left line n) : p.shift line width = p :=
  if_neg h.line_ne

/-- A line end undoes that a position was moved. -/
theorem newline_shift (h : (p.next '\n').Left line n) :
    (p.shift line width).next '\n' = (p.next '\n').shift line width := by
  rw [h.shift_eq, shift]
  split <;> rfl

/-- A text behind a position that was moved ends in the moved position, if it is on the line. -/
theorem after_shift {cs : List Char} (h : p.StaysBehind line (cs.count '\n'))
    (hcs : cs.count '\n' < wordSize) :
    (p.shift line width).after cs = (p.after cs).shift line width := by
  induction cs generalizing p with
  | nil => rfl
  | cons c cs ih =>
    rw [after_cons, after_cons]
    by_cases hc : c = '\n'
    · subst hc
      rw [List.count_cons_self] at h hcs
      have hleft := h.newline hcs
      rw [newline_shift hleft, ih (.inr hleft) (by omega)]
    · rw [List.count_cons_of_ne hc] at h hcs
      rw [next_shift_of_ne hc, ih (h.next_of_ne hc) hcs]

end TypedLowering.Ir.Position

namespace TypedLowering

open Ir (Location Position)
open Ir.Position (wordSize)

/-- A character, or a mark between characters. -/
inductive Ink where
  | char (c : Char)
  | mark (loc : Location)
  deriving DecidableEq, Repr

namespace Ink

/-- The character of a piece of ink, if it is one. -/
def char? : Ink → Option Char
  | .char c => some c
  | .mark _ => none

/-- The text without the marks. -/
def text (ink : List Ink) : List Char := ink.filterMap char?

/-- A text without marks. -/
def ofText (cs : List Char) : List Ink := cs.map .char

/-- The mappings of the marks, when the text begins at `p`. -/
def mappings (p : Position) : List Ink → List Mapping
  | [] => []
  | .char c :: ink => mappings (p.next c) ink
  | .mark loc :: ink => ⟨p, loc.start, loc.identifier⟩ :: mappings p ink

/-- A statement with a semicolon in front, if it would go on with the line before it. -/
def guard (stmt : List Ink) : List Ink :=
  if (text stmt).head?.any continuesLine then .char ';' :: stmt else stmt

/-- No ink has no text. -/
@[simp] theorem text_nil : text [] = [] := rfl

/-- A character is in the text. -/
@[simp] theorem text_char (c : Char) (ink : List Ink) : text (.char c :: ink) = c :: text ink := rfl

/-- A mark is not in the text. -/
@[simp] theorem text_mark (loc : Location) (ink : List Ink) :
    text (.mark loc :: ink) = text ink := rfl

/-- The text of two parts is that of each. -/
@[simp] theorem text_append (a b : List Ink) : text (a ++ b) = text a ++ text b :=
  List.filterMap_append

/-- The text of characters is these characters. -/
@[simp] theorem text_ofText (cs : List Char) : text (ofText cs) = cs := by
  induction cs with
  | nil => rfl
  | cons c cs ih => exact congrArg (c :: ·) ih

/-- Characters map nothing. -/
@[simp] theorem mappings_ofText (p : Position) (cs : List Char) : mappings p (ofText cs) = [] := by
  induction cs generalizing p with
  | nil => rfl
  | cons c cs ih => exact ih (p.next c)

/-- What follows a text begins behind it. -/
theorem mappings_append (p : Position) (a b : List Ink) :
    mappings p (a ++ b) = mappings p a ++ mappings (p.after (text a)) b := by
  induction a generalizing p with
  | nil => rfl
  | cons x a ih =>
    cases x with
    | char c => exact ih (p.next c)
    | mark loc => exact congrArg (_ :: ·) (ih p)

/-- Text that is put in before a text moves the mappings on its line. -/
theorem mappings_shift {p : Position} {line width : Nat} {ink : List Ink}
    (h : p.StaysBehind line ((text ink).count '\n')) (hink : (text ink).count '\n' < wordSize) :
    mappings (p.shift line width) ink =
      (mappings p ink).map fun m => { m with generated := m.generated.shift line width } := by
  induction ink generalizing p with
  | nil => rfl
  | cons x ink ih =>
    cases x with
    | char c =>
      rw [text_char] at h hink
      rw [mappings, mappings]
      by_cases hc : c = '\n'
      · subst hc
        rw [List.count_cons_self] at h hink
        have hleft := h.newline hink
        rw [Position.newline_shift hleft, ih (.inr hleft) (by omega)]
      · rw [List.count_cons_of_ne hc] at h hink
        rw [Position.next_shift_of_ne hc, ih (h.next_of_ne hc) hink]
    | mark loc => rw [mappings, mappings, ih h hink, List.map_cons]

end Ink

/-- The indentation of a line at that depth. -/
def marginAt (indent : String) (depth : Nat) : List Char :=
  (String.join (List.replicate depth indent)).toList

mutual

/-- What a piece prints at that depth, and the depth after it. -/
def Piece.ink (indent : String) (depth : Nat) : Piece → List Ink × Nat
  | .text text => (Ink.ofText text.toList, depth)
  | .mark loc => ([.mark loc], depth)
  | .indent => ([], depth + 1)
  | .dedent => ([], depth - 1)
  | .margin => (Ink.ofText (marginAt indent depth), depth)
  | .guarded stmt =>
    let (printed, depth) := inkAll indent depth stmt
    (Ink.guard printed, depth)

/-- The ink of pieces, one after the other, and the depth behind them. -/
def inkAll (indent : String) (depth : Nat) : List Piece → List Ink × Nat
  | [] => ([], depth)
  | x :: xs =>
    let (first, depth) := x.ink indent depth
    let (rest, depth) := inkAll indent depth xs
    (first ++ rest, depth)

end

/-- A guarded statement has the ink of its pieces, with the guard in front. -/
theorem Piece.ink_guarded (indent : String) (depth : Nat) (stmt : List Piece) :
    (Piece.guarded stmt).ink indent depth =
      (Ink.guard (inkAll indent depth stmt).1, (inkAll indent depth stmt).2) := rfl

/-- A piece has its ink in front of that of the pieces behind it. -/
theorem inkAll_cons (indent : String) (depth : Nat) (x : Piece) (xs : List Piece) :
    inkAll indent depth (x :: xs) =
      ((x.ink indent depth).1 ++ (inkAll indent (x.ink indent depth).2 xs).1,
        (inkAll indent (x.ink indent depth).2 xs).2) := rfl

/-- Two parts have their ink one behind the other. -/
theorem inkAll_append (indent : String) (depth : Nat) (xs ys : List Piece) :
    inkAll indent depth (xs ++ ys) = ((inkAll indent depth xs).1 ++
      (inkAll indent (inkAll indent depth xs).2 ys).1,
      (inkAll indent (inkAll indent depth xs).2 ys).2) := by
  induction xs generalizing depth with
  | nil => rfl
  | cons x xs ih => rw [List.cons_append, inkAll_cons, ih, inkAll_cons, List.append_assoc]

namespace Printer

/-- The printer after `ink` was printed, at that depth. -/
def append (p : Printer) (ink : List Ink) (depth : Nat) : Printer :=
  { p with
    out := String.ofList (p.out.toList ++ Ink.text ink)
    position := p.position.after (Ink.text ink)
    depth
    mappings := p.mappings ++ Ink.mappings p.position ink }

/-- Without ink, the printer stays as it is. -/
theorem append_nil (p : Printer) : p.append [] p.depth = p := by
  simp [append, Ink.mappings]

/-- Ink of two parts is printed one behind the other. -/
theorem append_append (p : Printer) (a b : List Ink) (m n : Nat) :
    (p.append a m).append b n = p.append (a ++ b) n := by
  simp [append, Position.after_append, Ink.mappings_append]

/-- The characters of a text are printed as the text. -/
theorem append_ofText (p : Printer) (text : String) :
    p.append (Ink.ofText text.toList) p.depth = p.print text := by
  simp [append, print]

/-- A semicolon that is put in before what was printed since is as if it was printed first. -/
theorem insertAt_append (p : Printer) {ink : List Ink} (depth : Nat)
    (hink : (Ink.text ink).count '\n' < wordSize) :
    (p.append ink depth).insertAt p.place ";" = p.append (.char ';' :: ink) depth := by
  have hnext : p.position.next ';' = p.position.shift p.position.line 1 := by
    rw [Position.shift, if_pos rfl]
    rfl
  simp [append, insertAt, since, place, Ink.mappings, hnext, Position.after_shift (.inl rfl) hink,
    Ink.mappings_shift (.inl rfl) hink, Text.units16]

/-- What was printed since a place is the text of the ink. -/
theorem since_append (p : Printer) (ink : List Ink) (depth : Nat) :
    (p.append ink depth).since p.place = Ink.text ink := by
  simp [append, since, place]

/-- A guard adds no line end. -/
theorem text_guard_count (stmt : List Ink) :
    (Ink.text (Ink.guard stmt)).count '\n' = (Ink.text stmt).count '\n' := by
  rw [Ink.guard.eq_def]
  split
  · rfl
  · rfl

mutual

/-- A piece is printed as what it comes down to, if its line ends can be counted. -/
theorem put_eq (p : Printer) : (x : Piece) →
    (Ink.text (x.ink p.options.indent p.depth).1).count '\n' < wordSize →
    p.put x = p.append (x.ink p.options.indent p.depth).1 (x.ink p.options.indent p.depth).2
  | .text text, _ => (p.append_ofText text).symm
  | .mark loc, _ => by simp [put, map, append, Piece.ink, Ink.mappings]
  | .indent, _ | .dedent, _ => by simp [put, indent, dedent, append, Piece.ink, Ink.mappings]
  | .margin, _ => (p.append_ofText p.marginText).symm
  | .guarded stmt, h => by
    rw [Piece.ink_guarded, text_guard_count] at h
    rw [put, run_eq p stmt h, since_append, insertAt_append _ _ h, Piece.ink_guarded,
      Ink.guard.eq_def]
    split <;> rfl

/-- A printer prints what the pieces come down to, wherever it is, if their line ends can be
counted. -/
theorem run_eq (p : Printer) : (xs : List Piece) →
    (Ink.text (inkAll p.options.indent p.depth xs).1).count '\n' < wordSize →
    p.run xs =
      p.append (inkAll p.options.indent p.depth xs).1 (inkAll p.options.indent p.depth xs).2
  | [], _ => p.append_nil.symm
  | x :: xs, h => by
    rw [inkAll_cons, Ink.text_append, List.count_append] at h
    rw [run_cons, put_eq p x (by omega), run_eq _ xs (by simpa [append] using by omega),
      append_append]
    rfl

end

/-! ## The text alone -/

/-- The text of a printer after a text was put in where it was before `stmt` was printed. -/
theorem out_insertAt (p q : Printer) {stmt : List Char} (text : String)
    (h : q.out.toList = p.out.toList ++ stmt) :
    (q.insertAt p.place text).out.toList = p.out.toList ++ text.toList ++ stmt := by
  simp [insertAt, since, place, h]

/-- What was printed since a place is what follows the text there. -/
theorem since_place (p q : Printer) {stmt : List Char} (h : q.out.toList = p.out.toList ++ stmt) :
    q.since p.place = stmt := by
  simp [since, place, h]

mutual

/-- A printer prints the characters that a piece comes down to, wherever it is. -/
theorem put_out (p : Printer) : (x : Piece) →
    (p.put x).out.toList = p.out.toList ++ Ink.text (x.ink p.options.indent p.depth).1 ∧
      (p.put x).depth = (x.ink p.options.indent p.depth).2 ∧ (p.put x).options = p.options
  | .text text => by simp [put, print, Piece.ink]
  | .mark loc => by simp [put, map, Piece.ink]
  | .indent | .dedent => by simp [put, indent, dedent, Piece.ink]
  | .margin => by simp [put, printMargin, marginText, print, Piece.ink, marginAt]
  | .guarded stmt => by
    obtain ⟨hout, hdepth, hoptions⟩ := run_out p stmt
    rw [put, since_place p _ hout, Piece.ink_guarded, Ink.guard.eq_def]
    split
    · exact ⟨by rw [out_insertAt p _ _ hout]; simp, hdepth, hoptions⟩
    · exact ⟨hout, hdepth, hoptions⟩

/-- Pieces print the text of their ink and leave its depth. -/
theorem run_out (p : Printer) : (xs : List Piece) →
    (p.run xs).out.toList = p.out.toList ++ Ink.text (inkAll p.options.indent p.depth xs).1 ∧
      (p.run xs).depth = (inkAll p.options.indent p.depth xs).2 ∧ (p.run xs).options = p.options
  | [] => by simp [inkAll]
  | x :: xs => by
    obtain ⟨hout, hdepth, hoptions⟩ := put_out p x
    obtain ⟨hrest, hrestDepth, hrestOptions⟩ := run_out (p.put x) xs
    rw [hdepth, hoptions] at hrest hrestDepth
    rw [run_cons, inkAll_cons, hrest, hout, hrestDepth, hrestOptions, hoptions]
    simp

end

end Printer

end TypedLowering
