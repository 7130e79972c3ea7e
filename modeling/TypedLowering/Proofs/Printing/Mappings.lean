import Mathlib.Algebra.Group.Nat.Defs
import TypedLowering.Printing.Program
import TypedLowering.Proofs.Printing.Occurrences
import TypedLowering.Proofs.Printing.Rendering

/-!
# Generated positions

A printer knows where it is: its position is that behind all text that it has printed, whether or
not the text was taken away (`Printer.Moment.position_eq`). So mappings point at places of the text,
in order, and the one of an identifier points at its name (`JavaScript.Program.print_positions`). A
semicolon that is put in front of a statement afterwards changes none of this, however many lines
the statement takes and whatever it has inside.

Lines and columns are words of 32 bits, so all this needs a text whose lines and columns they can
count. Behind that many characters on one line a name is mapped to the start of the line
(`JavaScript.wideCall_isMisplaced`).
-/

namespace TypedLowering

open Ir (Location Position)
open Ir.Position (behind wordSize Fits)

namespace Ink

/-- The number of marks. -/
def marks (ink : List Ink) : Nat := ink.countP fun x => x.char?.isNone

/-- Two parts have the marks of each. -/
@[simp] theorem marks_append (a b : List Ink) : marks (a ++ b) = marks a + marks b :=
  List.countP_append

/-- Characters have no marks. -/
@[simp] theorem marks_ofText (cs : List Char) : marks (ofText cs) = 0 := by
  simp [marks, ofText, char?]

/-- A guard puts text in front of the whole statement, or none. -/
theorem guard_eq (stmt : List Ink) : ∃ semicolon, guard stmt = ofText semicolon ++ stmt := by
  rw [guard.eq_def]
  split
  · exact ⟨[';'], rfl⟩
  · exact ⟨[], rfl⟩

/-- A guard has no marks. -/
@[simp] theorem marks_guard (stmt : List Ink) : marks (guard stmt) = marks stmt := by
  obtain ⟨semicolon, hguard⟩ := guard_eq stmt
  rw [hguard, marks_append, marks_ofText, Nat.zero_add]

/-- There is a mapping for each mark. -/
theorem mappings_length (p : Position) (ink : List Ink) : (mappings p ink).length = marks ink := by
  induction ink generalizing p with
  | nil => rfl
  | cons x ink ih =>
    cases x with
    | char c => simpa [mappings, marks, char?] using ih (p.next c)
    | mark loc => simpa [mappings, marks, char?] using ih p

/-- Every mapping points at a place of the text, and none at one before its start. -/
theorem mappings_at {p : Position} {ink : List Ink} {m : Mapping} (hm : m ∈ mappings p ink) :
    ∃ offset ≤ (text ink).length, m.generated = p.after ((text ink).take offset) := by
  induction ink generalizing p with
  | nil => cases hm
  | cons x ink ih =>
    cases x with
    | char c =>
      obtain ⟨offset, hle, hgen⟩ := ih hm
      exact ⟨offset + 1, Nat.succ_le_succ hle, hgen⟩
    | mark loc =>
      rcases List.mem_cons.1 hm with rfl | hm
      · exact ⟨0, Nat.zero_le _, rfl⟩
      · exact ih hm

/-- Mappings come in the order of a text that fits, behind what was printed before. -/
theorem mappings_ordered {before : List Char} {ink : List Ink} (h : Fits (before ++ text ink)) :
    (mappings (behind before).word ink).Pairwise
      fun m n => m.generated.le n.generated = true := by
  induction ink generalizing before with
  | nil => exact .nil
  | cons x ink ih =>
    cases x with
    | char c =>
      rw [mappings, ← Position.word_behind_concat]
      exact ih (by rwa [text_char, List.append_cons] at h)
    | mark loc =>
      refine .cons (fun n hn => ?_) (ih h)
      obtain ⟨offset, -, hgen⟩ := mappings_at hn
      have hplace : before ++ (text ink).take offset <+: before ++ text ink :=
        (List.prefix_append_right_inj _).2 (List.take_prefix _ _)
      rw [hgen, Position.after_word_behind, (h.of_prefix hplace).word_eq,
        (h.of_prefix (List.prefix_append _ _)).word_eq]
      exact Position.behind_le_append before _

/-- The mapping of a mark points at what follows the mark. -/
theorem mappings_get (p : Position) (before after : List Ink) (loc : Location) :
    (mappings p (before ++ .mark loc :: after))[marks before]? =
      some ⟨p.after (text before), loc.start, loc.identifier⟩ := by
  rw [mappings_append, ← mappings_length p before, List.getElem?_append_right (Nat.le_refl _),
    Nat.sub_self]
  rfl

end Ink

section
variable (indent : String)

mutual

/-- The ink of a piece has its marks. -/
theorem Piece.marks_ink (depth : Nat) : (x : Piece) →
    Ink.marks (x.ink indent depth).1 = x.marks
  | .text _ | .margin => by simp [Piece.ink, Piece.marks]
  | .mark _ | .indent | .dedent => by simp [Piece.ink, Piece.marks, Ink.marks, Ink.char?]
  | .guarded stmt => by
    rw [Piece.ink, Piece.marks]
    exact (Ink.marks_guard _).trans (marks_inkAll depth stmt)

/-- The ink of pieces has their marks. -/
theorem marks_inkAll (depth : Nat) : (xs : List Piece) →
    Ink.marks (inkAll indent depth xs).1 = marksOf xs
  | [] => rfl
  | x :: xs => by
    rw [inkAll_cons, Ink.marks_append, x.marks_ink depth, marks_inkAll, marksOf]

end

/-- What is inside of other pieces is printed inside of them, behind as many marks. -/
theorem Inside.ink {inner pieces : List Piece} {k : Nat} (h : Inside inner k pieces) (depth : Nat) :
    ∃ before inside after, (inkAll indent depth pieces).1 =
        before ++ (inkAll indent inside inner).1 ++ after ∧ Ink.marks before = k := by
  induction h generalizing depth with
  | here before after =>
    exact ⟨(inkAll indent depth before).1, _, _, by
      rw [inkAll_append, inkAll_append, List.append_assoc], marks_inkAll indent depth before⟩
  | @guarded before after stmt k h ih =>
    obtain ⟨front, inside, back, hink, hmarks⟩ := ih (inkAll indent depth before).2
    obtain ⟨semicolon, hguard⟩ := Ink.guard_eq (inkAll indent (inkAll indent depth before).2 stmt).1
    refine ⟨(inkAll indent depth before).1 ++ Ink.ofText semicolon ++ front, inside, ?_⟩
    refine ⟨back ++ (inkAll indent (inkAll indent (inkAll indent depth before).2 stmt).2 after).1,
      ?_, ?_⟩
    · rw [inkAll_append, inkAll_cons, Piece.ink]
      simp only [hguard]
      simp only [hink, List.append_assoc]
    · rw [Ink.marks_append, Ink.marks_append, Ink.marks_ofText, marks_inkAll, hmarks, Nat.add_zero]

end

namespace Printer

/-- The printers on the way of printing, with the text that was taken away from them. Pieces of any
kind are printed in any order, and the text may be taken away between any two of them. -/
inductive Moment (options : PrintOptions) : List Char → Printer → Prop
  | start : Moment options [] (.start options)
  | put {taken : List Char} {p : Printer} (h : Moment options taken p) (x : Piece) :
    Moment options taken (p.put x)
  | clear {taken : List Char} {p : Printer} (h : Moment options taken p) :
    Moment options (taken ++ p.out.toList) p.clear

variable {options : PrintOptions} {taken : List Char} {p : Printer}

/-- A printer keeps its position true to what it has printed. -/
theorem Moment.run (h : Moment options taken p) (xs : List Piece) :
    Moment options taken (p.run xs) := by
  induction xs generalizing p with
  | nil => exact h
  | cons x xs ih => exact ih (h.put x)

/-- The position of a printer is that behind all that was printed. -/
theorem Moment.position_eq (h : Moment options taken p) (hfits : Fits (taken ++ p.out.toList)) :
    p.position = behind (taken ++ p.out.toList) := by
  induction h with
  | start => rfl
  | @put taken p _ x ih =>
    rw [(p.put_out x).1, ← List.append_assoc] at hfits ⊢
    have hcount := hfits.count_lt
    rw [List.count_append] at hcount
    have hbefore := hfits.of_prefix (List.prefix_append _ _)
    rw [put_eq p x (by omega), append, ih hbefore, ← hbefore.word_eq, Position.after_word_behind,
      hfits.word_eq]
  | @clear taken p _ ih =>
    have htext : taken ++ p.out.toList ++ p.clear.out.toList = taken ++ p.out.toList := by
      simp [Printer.clear]
    rw [htext] at hfits ⊢
    exact ih hfits

/-- Writing text out keeps the position of a printer. -/
theorem Moment.flush {σ : Type} (writer : Writer σ) (h : Moment options taken p) (s : σ) :
    ∃ taken, Moment options taken (p.flush writer s).2.1 := by
  rw [Printer.flush]
  split
  · exact ⟨_, h⟩
  · split
    · exact ⟨_, h⟩
    · exact ⟨_, h.clear⟩

end Printer

namespace JavaScript

open Printer (Moment)

/-- An expression that is an identifier maps to its name. -/
theorem ident_ink (sep : Separator) (indent : String) (depth : Nat) (loc : Location)
    (name : String) :
    (inkAll indent depth ((⟨some loc, .ident name⟩ : Expr).pieces sep)).1 =
      .mark loc :: Ink.ofText name.toList := by
  simp [Expr.pieces, ExprForm.pieces, Layout.token, Layout.mark, inkAll, Piece.ink]

section
variable {σ : Type} (writer : Writer σ) {options : PrintOptions}

/-- Statements that are written out one by one keep the position of the printer. -/
theorem emitStmts_moment (sep : Separator) (follows : Bool) (stmts : List (List Piece)) (s : σ)
    {taken : List Char} {p : Printer} (h : Moment options taken p) :
    ∃ taken, Moment options taken (emitStmts writer sep follows stmts p s).2.1 := by
  induction stmts generalizing follows taken p s with
  | nil => exact ⟨_, h⟩
  | cons stmt stmts ih =>
    obtain ⟨taken, hline⟩ := (h.run (Layout.stmtLine sep follows stmt)).flush writer s
    rw [emitStmts, emitPieces]
    split
    · rename_i p s hflush
      rw [hflush] at hline
      exact ih true s hline
    · exact ⟨_, hline⟩

/-- A program is emitted by a printer that is at some moment of printing, also when the output
fails. -/
theorem Program.emit_moment (program : Program) (s : σ) :
    ∃ taken, Moment options taken (program.emit writer options s).2.1 := by
  obtain ⟨taken, himports⟩ := (Moment.start.run
    (importsPieces options.separator program.imports)).flush writer s
  rw [Program.emit, emitPieces]
  split
  · rename_i p s hflush
    rw [hflush] at himports
    exact emitStmts_moment writer _ _ _ s himports
  · exact ⟨_, himports⟩

end

/-- The generated positions of a printed program. -/
structure Positioned (program : Program) (options : PrintOptions) : Prop where
  /-- The printer is always behind the text that was printed. -/
  moment : ∀ taken p, Moment options taken p → Fits (taken ++ p.out.toList) →
    p.position = behind (taken ++ p.out.toList)
  /-- In memory nothing is taken away. -/
  printed : Moment options [] (program.printed options)
  /-- Through a writer the printer goes through the same moments. -/
  emitted : ∀ {σ : Type} (writer : Writer σ) (s : σ),
    ∃ taken, Moment options taken (program.emit writer options s).2.1
  ordered : (program.print options).2.Pairwise fun m n => m.generated.le n.generated = true
  /-- Every mapping points at a place of the text. -/
  placed : ∀ m ∈ (program.print options).2,
    ∃ offset ≤ (program.print options).1.toList.length,
      m.generated = behind ((program.print options).1.toList.take offset)
  /-- Every expression that is printed is found in the program. -/
  found : ∀ e ∈ program.printedExprs,
    ∃ k, Inside (e.pieces options.separator) k (program.pieces options.separator)
  /-- The mapping of an identifier, which is the one that is recorded where the identifier is
  printed, points at its name. -/
  named : ∀ loc name k,
    Inside ((⟨some loc, .ident name⟩ : Expr).pieces options.separator) k
        (program.pieces options.separator) →
      ∃ offset, (program.print options).2[k]? =
          some ⟨behind ((program.print options).1.toList.take offset), loc.start,
            loc.identifier⟩ ∧
        name.toList <+: (program.print options).1.toList.drop offset

/-- The text of a program is what its pieces come down to. -/
theorem Program.print_text (program : Program) (options : PrintOptions) :
    (program.print options).1.toList =
      Ink.text (inkAll options.indent 0 (program.pieces options.separator)).1 :=
  (Printer.run_out _ _).1

/-- The mappings of a program are those of the marks between its text, if its lines can be
counted. -/
theorem Program.print_mappings (program : Program) (options : PrintOptions)
    (h : (program.print options).1.toList.count '\n' < wordSize) :
    (program.print options).2 =
      Ink.mappings .start (inkAll options.indent 0 (program.pieces options.separator)).1 := by
  rw [print_text] at h
  rw [print, printed, Printer.run_eq _ _ h]
  simp [Printer.append, Printer.start]

/-- Generated positions are exact, whatever the options are, in a text whose lines and columns words
can hold. -/
theorem Program.print_positions (program : Program) (options : PrintOptions)
    (hfits : Fits (program.print options).1.toList) : Positioned program options := by
  have htext := program.print_text options
  have hmappings := program.print_mappings options hfits.count_lt
  constructor
  case moment => exact fun taken p h => h.position_eq
  case printed => exact Moment.start.run _
  case emitted => exact fun writer s => program.emit_moment writer s
  case ordered =>
    rw [htext] at hfits
    rw [hmappings]
    have hordered : ((Ink.mappings (Ir.Position.behind []).word
        (inkAll options.indent 0 (program.pieces options.separator)).1)).Pairwise
          fun m n => m.generated.le n.generated = true := Ink.mappings_ordered hfits
    exact hordered
  case placed =>
    intro m hm
    rw [hmappings] at hm
    obtain ⟨offset, hle, hgen⟩ := Ink.mappings_at hm
    rw [← htext] at hle hgen
    rw [Position.after_start, (hfits.of_prefix (List.take_prefix _ _)).word_eq] at hgen
    exact ⟨offset, hle, hgen⟩
  case found => exact program.parts_of_pieces options.separator
  case named =>
    intro loc name k hinside
    obtain ⟨before, depth, after, hink, hmarks⟩ := hinside.ink options.indent 0
    rw [ident_ink] at hink
    have hsplit : (program.print options).1.toList =
        Ink.text before ++ (name.toList ++ Ink.text after) := by
      rw [htext, hink]
      simp
    refine ⟨(Ink.text before).length, ?_, ?_⟩
    · rw [hmappings, hink, ← hmarks, List.append_assoc, List.cons_append, Ink.mappings_get,
        Position.after_start, hsplit, List.take_left]
      rw [hsplit] at hfits
      rw [(hfits.of_prefix (List.prefix_append _ _)).word_eq]
    · rw [hsplit, List.drop_left]
      exact List.prefix_append _ _

/-- A program whose second statement gets a semicolon in front, after it was printed. -/
def guardedProgram : Program :=
  ⟨[], [.of (.expr (.of (.call (.of (.ident "f")) []))),
    .of (.expr (.of (.array [⟨some ⟨⟨1, 4⟩, ⟨1, 5⟩, none⟩, .ident "x"⟩])))]⟩

/-- A program with a guard in front of a statement fits words, and its positions are right. -/
theorem guardedProgram_positions :
    Fits (guardedProgram.print ⟨"  ", .newlines⟩).1.toList ∧
    Positioned guardedProgram ⟨"  ", .newlines⟩ := by
  have hfits : Fits (guardedProgram.print ⟨"  ", .newlines⟩).1.toList :=
    .of_length (by decide +kernel)
  exact ⟨hfits, guardedProgram.print_positions _ hfits⟩

/-! ## A line that is too wide -/

/-- Foreign code that is twice as wide with each level. -/
def wide : Nat → Expr
  | 0 => .of (.ident "a")
  | n + 1 => .of (.emit "$0$0" [wide n])

/-- The identifier `x` with a location. -/
def locatedName : Expr := ⟨some ⟨⟨1, 0⟩, ⟨1, 1⟩, none⟩, .ident "x"⟩

/-- The call `f(aa…, x)`. -/
def wideCall (n : Nat) : Program :=
  ⟨[], [.of (.expr (.of (.call (.of (.ident "f")) [wide n, locatedName])))]⟩

/-- Whether pieces print a text of that length at the start of a line, without line ends and without
the letter `x`. -/
def PrintsWide (length : Nat) (pieces : List Piece) : Prop :=
  ∀ indent, ∃ cs, inkAll indent 0 pieces = (Ink.ofText cs, 0) ∧
    length ≤ cs.length ∧ 'x' ∉ cs ∧ '\n' ∉ cs

/-- Two parts are as wide as both together. -/
theorem PrintsWide.append {m n : Nat} {xs ys : List Piece} (hx : PrintsWide m xs)
    (hy : PrintsWide n ys) : PrintsWide (m + n) (xs ++ ys) := by
  intro indent
  obtain ⟨cs, hcs, hm, hxcs, hncs⟩ := hx indent
  obtain ⟨ds, hds, hn, hxds, hnds⟩ := hy indent
  refine ⟨cs ++ ds, ?_, ?_, ?_, ?_⟩
  · rw [inkAll_append, hcs, hds, Ink.ofText, Ink.ofText, Ink.ofText, List.map_append]
  · rw [List.length_append]
    omega
  · simp [hxcs, hxds]
  · simp [hncs, hnds]

/-- A margin has no width that counts. -/
theorem printsWide_margin : PrintsWide 0 [.margin] :=
  fun _ => ⟨[], rfl, Nat.le_refl 0, List.not_mem_nil, List.not_mem_nil⟩

/-- A text without the letter and without line ends has no width that counts. -/
theorem printsWide_text {text : String} (hx : 'x' ∉ text.toList) (hn : '\n' ∉ text.toList) :
    PrintsWide 0 [.text text] :=
  fun _ => ⟨text.toList, by simp [inkAll, Piece.ink], Nat.zero_le _, hx, hn⟩

/-- Parentheses have no width that counts. -/
theorem PrintsWide.wrap {n : Nat} {pieces : List Piece} (h : PrintsWide n pieces)
    (isWrapped : Bool) : PrintsWide n (Layout.wrap isWrapped pieces) := by
  cases isWrapped with
  | false => exact h
  | true =>
    have hopen : PrintsWide 0 [.text "("] := printsWide_text (by decide) (by decide)
    have hclose : PrintsWide 0 [.text ")"] := printsWide_text (by decide) (by decide)
    have hwrapped := (hopen.append h).append hclose
    rwa [Nat.zero_add] at hwrapped

/-- A sum of doubled sums has twice the width with each doubling. -/
theorem wide_printsWide (sep : Separator) (n : Nat) : PrintsWide (2 ^ n) ((wide n).pieces sep) := by
  induction n with
  | zero => exact fun _ => ⟨['a'], rfl, Nat.le_refl 1, by decide, by decide⟩
  | succ n ih =>
    have hpieces : (wide (n + 1)).pieces sep =
        Layout.wrap (!(wide n).isAtomic) ((wide n).pieces sep) ++
          (Layout.wrap (!(wide n).isAtomic) ((wide n).pieces sep) ++ []) := rfl
    rw [hpieces, List.append_nil, Nat.pow_succ, Nat.mul_two]
    exact (ih.wrap _).append (ih.wrap _)

/-- The text of the call, with the mark of its second argument. -/
theorem wideCall_ink (n : Nat) : ∃ cs, 2 ^ n ≤ cs.length ∧ 'x' ∉ cs ∧ '\n' ∉ cs ∧
    (inkAll "  " 0 ((wideCall n).pieces .semicolons)).1 =
      Ink.ofText cs ++ .mark ⟨⟨1, 0⟩, ⟨1, 1⟩, none⟩ :: Ink.ofText "x);\n".toList := by
  have hf : PrintsWide 0 [.text "f"] := printsWide_text (by decide) (by decide)
  have hopen : PrintsWide 0 [.text "("] := printsWide_text (by decide) (by decide)
  have hcomma : PrintsWide 0 [.text ", "] := printsWide_text (by decide) (by decide)
  have hwide := (((printsWide_margin.append hf).append hopen).append
    ((wide_printsWide .semicolons n).wrap (wide n).isWrappedItem)).append hcomma
  obtain ⟨cs, hcs, hlength, hx, hnewline⟩ := hwide "  "
  refine ⟨cs, by omega, hx, hnewline, ?_⟩
  have hpieces : (wideCall n).pieces .semicolons = [.margin] ++ [.text "f"] ++ [.text "("] ++
      Layout.wrap (wide n).isWrappedItem ((wide n).pieces .semicolons) ++ [.text ", "] ++
      [.mark ⟨⟨1, 0⟩, ⟨1, 1⟩, none⟩, .text "x", .text ")", .text ";", .text "\n"] := by
    have hname : locatedName.isWrappedItem = false := by decide
    have hident : locatedName.pieces .semicolons =
        [.mark ⟨⟨1, 0⟩, ⟨1, 1⟩, none⟩, .text "x"] := rfl
    simp [wideCall, Program.pieces, importsPieces, stmtsPieces, livePieces, Stmt.of, Expr.of,
      Stmt.isDead, Expr.isDead, Layout.stmtLines, Layout.stmtLine, Layout.line, Stmt.pieces,
      StmtForm.ownMark, StmtForm.pieces, Expr.startsLikeDeclaration, Expr.pieces,
      ExprForm.pieces, itemPieces, Layout.commas, Layout.token, Layout.mark, Layout.terminator,
      Expr.isAtomic, Layout.wrap, hname, hident]
  rw [hpieces, inkAll_append, hcs]
  rfl

/-- The only place of the letter `x` in the text of the call. -/
theorem offset_of_name {cs : List Char} (hx : 'x' ∉ cs) {offset : Nat}
    (h : "x".toList <+: (cs ++ "x);\n".toList).drop offset) : offset = cs.length := by
  have hmem : (cs ++ "x);\n".toList)[offset]? = some 'x' := by
    obtain ⟨rest, hrest⟩ := h
    rw [← List.head?_drop, ← hrest]
    rfl
  rcases Nat.lt_trichotomy offset cs.length with hlt | heq | hgt
  · rw [List.getElem?_append_left hlt] at hmem
    exact absurd (List.mem_of_getElem? hmem) hx
  · exact heq
  · rw [List.getElem?_append_right (Nat.le_of_lt hgt)] at hmem
    obtain ⟨k, hk⟩ := Nat.exists_eq_add_of_lt hgt
    have hoffset : offset - cs.length = k + 1 := by omega
    rw [hoffset] at hmem
    have hrest : 'x' ∈ ");\n".toList := List.mem_of_getElem? hmem
    exact absurd hrest (by decide)

/-- Behind more characters than words can count, the name `x` is not where its mapping points: the
mapping has a column that words can hold, and there is no such place before the name. -/
theorem wideCall_isMisplaced : ¬ Positioned (wideCall 32) .default := by
  intro h
  obtain ⟨cs, hlength, hx, hnewline, hink⟩ := wideCall_ink 32
  have htext : ((wideCall 32).print .default).1.toList = cs ++ "x);\n".toList := by
    rw [Program.print_text]
    exact (congrArg Ink.text hink).trans (by simp)
  have hcount : ((wideCall 32).print .default).1.toList.count '\n' < wordSize := by
    rw [htext, List.count_append, List.count_eq_zero.2 hnewline]
    decide
  have hmappings : ((wideCall 32).print .default).2 =
      [⟨(behind cs).word, ⟨1, 0⟩, none⟩] := by
    rw [Program.print_mappings _ _ hcount]
    refine (congrArg (Ink.mappings .start) hink).trans ?_
    rw [Ink.mappings_append, Ink.mappings_ofText, Ink.text_ofText, Position.after_start]
    rfl
  obtain ⟨k, hinside⟩ := h.found locatedName (by
    simp [Program.printedExprs, wideCall, stmtsPrinted, Stmt.printed, StmtForm.printed, Stmt.of,
      Expr.of, Stmt.isDead, Expr.isDead, Expr.printed, ExprForm.printed, itemsPrinted,
      locatedName])
  obtain ⟨offset, hmapping, hname⟩ := h.named _ _ _ hinside
  rw [htext, hmappings] at hmapping
  rw [htext] at hname
  obtain rfl := offset_of_name hx hname
  rw [List.take_left] at hmapping
  have hword : (behind cs).word = behind cs :=
    congrArg Mapping.generated (List.mem_singleton.1 (List.mem_of_getElem? hmapping)).symm
  have hcolumn : (behind cs).column < wordSize := by
    rw [← hword]
    exact Nat.mod_lt _ (by decide)
  have hwide := Position.length_le_column hnewline
  exact absurd (Nat.lt_of_le_of_lt (Nat.le_trans hlength hwide) hcolumn) (Nat.lt_irrefl _)

end JavaScript

end TypedLowering
