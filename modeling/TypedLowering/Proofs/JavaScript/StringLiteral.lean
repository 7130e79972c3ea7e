import Mathlib.Tactic.IntervalCases
import Mathlib.Tactic.SplitIfs
import TypedLowering.JavaScript.Spelling

/-!
# Reading string literals

A string literal is read character by character, with the escapes of the language (`readString`).
What is written for a string reads back as the string (`readString_escapeChars`).
-/

namespace TypedLowering.JavaScript

/-- The value of a hexadecimal digit. -/
def hexDigit? (c : Char) : Option Nat :=
  if '0' ≤ c ∧ c ≤ '9' then some (c.toNat - '0'.toNat)
  else if 'a' ≤ c ∧ c ≤ 'f' then some (c.toNat - 'a'.toNat + 10)
  else if 'A' ≤ c ∧ c ≤ 'F' then some (c.toNat - 'A'.toNat + 10)
  else none

/-- The number that hexadecimal digits spell. -/
def hexNumeral? (cs : List Char) : Option Nat :=
  cs.foldlM (fun n c => (hexDigit? c).map (16 * n + ·)) 0

/-- The character with a code point. A surrogate is none. -/
def codePoint? (n : Nat) : Option Char :=
  if n.isValidChar then some (Char.ofNat n) else none

/-- What is read of a literal: a value and the text behind it. -/
abbrev Read := Option (List Char × List Char)

/-- A code point that is spelled with that many digits. -/
def hexEscape (width : Nat) (cs : List Char) : Read :=
  if cs.length < width then none
  else ((hexNumeral? (cs.take width)).bind codePoint?).map fun c => ([c], cs.drop width)

/-- A code point that is spelled between braces, of which the first one was read. -/
def bracedEscape (cs : List Char) : Read :=
  let digits := cs.takeWhile (· != '\x7d')
  if digits.isEmpty ∨ digits.length = cs.length then none
  else ((hexNumeral? digits).bind codePoint?).map fun c => ([c], cs.drop (digits.length + 1))

/-- The characters that letters stand for behind a backslash. Every other character stands for
itself. -/
def letterEscape (c : Char) : Char :=
  match c with
  | 'b' => '\x08'
  | 't' => '\t'
  | 'n' => '\n'
  | 'v' => '\x0b'
  | 'f' => '\x0c'
  | 'r' => '\r'
  | _ => c

/-- What stands behind a backslash. Octal escapes are refused, and so is a zero before a digit. -/
def readEscape : List Char → Read
  | [] => none
  | c :: cs =>
    if c = 'x' then hexEscape 2 cs
    else if c = 'u' then
      if cs.head? = some '\x7b' then bracedEscape cs.tail else hexEscape 4 cs
    else if c = '0' then if cs.head?.any Char.isDigit then none else some (['\x00'], cs)
    else if c.isDigit then none
    else if c = '\r' then some ([], if cs.head? = some '\n' then cs.tail else cs)
    else if c = '\n' ∨ c = '\u2028' ∨ c = '\u2029' then some ([], cs)
    else some ([letterEscape c], cs)

/-- One character of a literal, or an escape. A line end is neither. -/
def readUnit : List Char → Read
  | [] => none
  | c :: cs =>
    if c = '\\' then readEscape cs
    else if c = '\n' ∨ c = '\r' then none
    else some ([c], cs)

theorem hexEscape_length {width : Nat} {cs value rest : List Char}
    (h : hexEscape width cs = some (value, rest)) : rest.length ≤ cs.length := by
  rw [hexEscape] at h
  split at h
  · cases h
  · obtain ⟨c, -, heq⟩ := Option.map_eq_some_iff.1 h
    cases heq
    simp

theorem bracedEscape_length {cs value rest : List Char}
    (h : bracedEscape cs = some (value, rest)) : rest.length ≤ cs.length := by
  rw [bracedEscape] at h
  split at h
  · cases h
  · obtain ⟨c, -, heq⟩ := Option.map_eq_some_iff.1 h
    cases heq
    simp

theorem readEscape_length {cs value rest : List Char} (h : readEscape cs = some (value, rest)) :
    rest.length < cs.length := by
  cases cs with
  | nil => cases h
  | cons c cs =>
    suffices rest.length ≤ cs.length from Nat.lt_succ_of_le this
    rw [readEscape] at h
    split at h
    · exact hexEscape_length h
    · split at h
      · split at h
        · exact (bracedEscape_length h).trans (by simp)
        · exact hexEscape_length h
      · split_ifs at h <;> cases h <;> simp

theorem readUnit_length {cs value rest : List Char} (h : readUnit cs = some (value, rest)) :
    rest.length < cs.length := by
  cases cs with
  | nil => cases h
  | cons c cs =>
    rw [readUnit] at h
    split at h
    · have := readEscape_length h
      rw [List.length_cons]
      omega
    · split at h
      · cases h
      · cases h
        simp

/-- A literal up to the quote that ends it. -/
def readString (quote : Char) (cs : List Char) : Read :=
  match cs with
  | [] => none
  | c :: rest =>
    if c = quote then some ([], rest)
    else
      match _h : readUnit (c :: rest) with
      | none => none
      | some (value, rest) =>
        (readString quote rest).map fun (values, rest) => (value ++ values, rest)
termination_by cs.length
decreasing_by exact readUnit_length (by assumption)

theorem readString_length {quote : Char} {cs value rest : List Char}
    (h : readString quote cs = some (value, rest)) : rest.length < cs.length := by
  induction hn : cs.length using Nat.strongRecOn generalizing cs value rest with
  | ind n ih =>
    cases cs with
    | nil =>
      rw [readString] at h
      cases h
    | cons c cs =>
      rw [readString] at h
      split at h
      · cases h
        simp [← hn]
      · split at h
        · cases h
        · rename_i value' rest' hunit
          obtain ⟨⟨values, rest⟩, hread, heq⟩ := Option.map_eq_some_iff.1 h
          cases heq
          have hlt := readUnit_length hunit
          rw [hn] at hlt
          exact (ih rest'.length hlt hread rfl).trans hlt

theorem readString_unit {quote c : Char} {cs value rest : List Char} (hc : c ≠ quote)
    (h : readUnit (c :: cs) = some (value, rest)) :
    readString quote (c :: cs) =
      (readString quote rest).map fun (values, rest) => (value ++ values, rest) := by
  rw [readString, if_neg hc]
  split
  · rename_i hnone
    rw [h] at hnone
    cases hnone
  · rename_i hsome
    rw [h] at hsome
    cases hsome
    rfl

/-! ## What is written for a string -/

/-- The two digits of a control character. -/
theorem hexEscape_control {n : Nat} (h : n < 32) (rest : List Char) :
    hexEscape 2 ((Text.padZeros 2 (Text.hexUpper n)).toList ++ rest) =
      some ([Char.ofNat n], rest) := by
  have hdigits : ∀ n < 32, ∃ a b, List.replicate (2 - (Nat.toDigits 16 n).length) '0' ++
      (Nat.toDigits 16 n).map Char.toUpper = [a, b] ∧ hexNumeral? [a, b] = some n := by
    intro n hn
    interval_cases n <;> exact ⟨_, _, rfl, by decide⟩
  obtain ⟨a, b, htext, hvalue⟩ := hdigits n h
  have hvalid : n.isValidChar := .inl (by omega)
  have hchars : (Text.padZeros 2 (Text.hexUpper n)).toList = [a, b] := by
    simpa [Text.padZeros, Text.hexUpper] using htext
  simp [hexEscape, hchars, hvalue, codePoint?, hvalid]

/-- What is written for one character reads back as the character, if no digit follows where none
followed in the string. -/
theorem readUnit_escapeChar (c : Char) (next rest : List Char)
    (hrest : next.head?.any Char.isDigit = false → rest.head?.any Char.isDigit = false) :
    ∃ d ds, (escapeChar c next).toList ++ rest = d :: ds ∧ d ≠ '"' ∧
      readUnit (d :: ds) = some ([c], rest) := by
  rw [escapeChar]
  simp only [beq_iff_eq]
  split_ifs with hslash hquote hnewline hreturn htab hnull hdigit hline hpara hcontrol
  · exact ⟨'\\', '\\' :: rest, by simp, by decide, by rw [hslash]; rfl⟩
  · exact ⟨'\\', '"' :: rest, by simp, by decide, by rw [hquote]; rfl⟩
  · exact ⟨'\\', 'n' :: rest, by simp, by decide, by rw [hnewline]; rfl⟩
  · exact ⟨'\\', 'r' :: rest, by simp, by decide, by rw [hreturn]; rfl⟩
  · exact ⟨'\\', 't' :: rest, by simp, by decide, by rw [htab]; rfl⟩
  · exact ⟨'\\', 'x' :: '0' :: '0' :: rest, by simp, by decide, by rw [hnull]; rfl⟩
  · refine ⟨'\\', '0' :: rest, by simp, by decide, ?_⟩
    have hrest := hrest (by simpa using hdigit)
    rw [hnull, readUnit, if_pos rfl, readEscape]
    simp [hrest]
  · exact ⟨'\\', 'u' :: '2' :: '0' :: '2' :: '8' :: rest, by simp, by decide, by rw [hline]; rfl⟩
  · exact ⟨'\\', 'u' :: '2' :: '0' :: '2' :: '9' :: rest, by simp, by decide, by rw [hpara]; rfl⟩
  · refine ⟨'\\', 'x' :: ((Text.padZeros 2 (Text.hexUpper c.toNat)).toList ++ rest), by simp,
      by decide, ?_⟩
    rw [readUnit, if_pos rfl, readEscape, if_pos rfl, hexEscape_control (by simpa using hcontrol),
      Char.ofNat_toNat]
  · refine ⟨c, rest, by simp, hquote, ?_⟩
    rw [readUnit, if_neg hslash, if_neg (by simp [hnewline, hreturn])]

/-- A character is written behind a backslash, or as it is. -/
theorem escapeChar_head (c : Char) (next : List Char) :
    (escapeChar c next).toList.head? = some '\\' ∨ (escapeChar c next).toList = [c] := by
  rw [escapeChar]
  split_ifs <;> simp

/-- A digit follows in what is written only where one follows in the string. -/
theorem escapeChars_head (cs rest : List Char) (hcs : cs.head?.any Char.isDigit = false) :
    ((escapeChars cs).toList ++ '"' :: rest).head?.any Char.isDigit = false := by
  cases cs with
  | nil => simp [escapeChars]
  | cons c cs =>
    rw [escapeChars, String.toList_append, List.append_assoc]
    rcases escapeChar_head c cs with hhead | hchar
    · rw [List.head?_append, hhead]
      rfl
    · rw [hchar]
      exact hcs

/-- What is written for a string reads back as the string. -/
theorem readString_escapeChars (cs rest : List Char) :
    readString '"' ((escapeChars cs).toList ++ '"' :: rest) = some (cs, rest) := by
  induction cs with
  | nil =>
    rw [escapeChars, String.toList_empty, List.nil_append, readString, if_pos rfl]
  | cons c cs ih =>
    obtain ⟨d, ds, htext, hd, hunit⟩ :=
      readUnit_escapeChar c cs ((escapeChars cs).toList ++ '"' :: rest) (escapeChars_head cs rest)
    rw [escapeChars, String.toList_append, List.append_assoc, htext, readString_unit hd hunit, ih]
    rfl

end TypedLowering.JavaScript
