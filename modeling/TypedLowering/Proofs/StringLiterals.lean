import TypedLowering.Proofs.JavaScript.Tokens

/-!
# String literals read back

The literal of a string is one token, whatever follows it, and its value is the string
(`stringLiteral_readsBack`). Between its quotes every quote is escaped, which is to say that an odd
number of backslashes stands in front of it (`endsInEscape`).
-/

namespace TypedLowering.JavaScript

/-! ## Escaped characters -/

/-- Whether the text ends inside an escape: an odd number of backslashes stands at its end. -/
def endsInEscape (cs : List Char) : Bool :=
  (cs.reverse.takeWhile (· == '\\')).length % 2 == 1

theorem endsInEscape_concat (cs : List Char) (c : Char) :
    endsInEscape (cs ++ [c]) = (c == '\\' && !endsInEscape cs) := by
  rw [endsInEscape, endsInEscape, List.reverse_concat, List.takeWhile_cons]
  by_cases hc : c = '\\'
  · subst hc
    have := Nat.mod_two_eq_zero_or_one (cs.reverse.takeWhile (· == '\\')).length
    simp only [beq_self_eq_true, if_true, List.length_cons, Bool.true_and]
    rcases this with h | h <;> simp [Nat.add_mod, h]
  · simp [hc]

/-- Characters other than backslashes escape nothing. -/
theorem endsInEscape_append {cs ds : List Char} (hcs : endsInEscape cs = false)
    (hds : '\\' ∉ ds) : endsInEscape (cs ++ ds) = false := by
  induction ds generalizing cs with
  | nil => rwa [List.append_nil]
  | cons d ds ih =>
    rw [List.mem_cons, not_or] at hds
    rw [List.append_cons]
    exact ih (by simp [endsInEscape_concat, Ne.symm hds.1]) hds.2

/-! ## What is written for a string -/

/-- Whether this is one of the digits that escapes have. -/
def isHexDigit (c : Char) : Bool := "0123456789ABCDEF".toList.contains c

/-- The digits of a control character are capital letters and decimal digits. -/
theorem hexDigits_control {n : Nat} (h : n < 32) :
    (Text.padZeros 2 (Text.hexUpper n)).toList.all isHexDigit = true := by
  have hdigits : ∀ n < 32, (List.replicate (2 - (Nat.toDigits 16 n).length) '0' ++
      (Nat.toDigits 16 n).map Char.toUpper).all isHexDigit = true := by
    decide
  have hn := hdigits n h
  simpa [Text.padZeros, Text.hexUpper] using hn

/-- Whether the character may stand in a literal as it is. -/
def IsPlain (c : Char) : Prop := 0x20 ≤ c.toNat ∧ c ≠ '\u2028' ∧ c ≠ '\u2029'

/-- A character is written as it is, or with one backslash in front. -/
inductive Written : List Char → Prop
  | asItIs {c : Char} (hslash : c ≠ '\\') (hquote : c ≠ '"') (hplain : IsPlain c) : Written [c]
  | escaped {d : Char} {ds : List Char} (hd : IsPlain d)
    (hds : ∀ c ∈ ds, IsPlain c ∧ c ≠ '\\' ∧ c ≠ '"') : Written ('\\' :: d :: ds)

/-- Digits need no escape of their own. -/
theorem plain_of_isHexDigit {c : Char} (h : isHexDigit c = true) :
    IsPlain c ∧ c ≠ '\\' ∧ c ≠ '"' := by
  have hdigits : ∀ c ∈ "0123456789ABCDEF".toList,
      (0x20 ≤ c.toNat ∧ c ≠ '\u2028' ∧ c ≠ '\u2029') ∧ c ≠ '\\' ∧ c ≠ '"' :=
    List.forall_iff_forall_mem.mp (by decide)
  exact hdigits c (List.contains_iff_mem.1 h)

theorem escapeChar_written (c : Char) (next : List Char) :
    Written (escapeChar c next).toList := by
  have hdigits : ∀ ds : List Char, ds.all isHexDigit = true →
      ∀ c ∈ ds, IsPlain c ∧ c ≠ '\\' ∧ c ≠ '"' := fun ds hds c hc =>
    plain_of_isHexDigit (List.all_eq_true.1 hds c hc)
  have hletter : ∀ d ∈ ['\\', '"', 'n', 'r', 't', '0', 'x', 'u'], IsPlain d := by
    simp [IsPlain]
  rw [escapeChar]
  simp only [beq_iff_eq]
  split_ifs with hslash hquote hnewline hreturn htab hnull hzero hline hpara hcontrol
  · exact .escaped (hletter '\\' (by decide)) (List.forall_mem_nil _)
  · exact .escaped (hletter '"' (by decide)) (List.forall_mem_nil _)
  · exact .escaped (hletter 'n' (by decide)) (List.forall_mem_nil _)
  · exact .escaped (hletter 'r' (by decide)) (List.forall_mem_nil _)
  · exact .escaped (hletter 't' (by decide)) (List.forall_mem_nil _)
  · exact .escaped (hletter 'x' (by decide)) (hdigits ['0', '0'] (by decide))
  · exact .escaped (hletter '0' (by decide)) (List.forall_mem_nil _)
  · exact .escaped (hletter 'u' (by decide)) (hdigits ['2', '0', '2', '8'] (by decide))
  · exact .escaped (hletter 'u' (by decide)) (hdigits ['2', '0', '2', '9'] (by decide))
  · rw [String.toList_append]
    exact .escaped (hletter 'x' (by decide))
      (hdigits _ (hexDigits_control (by simpa using hcontrol)))
  · rw [Char.toString_eq_singleton, String.toList_singleton]
    exact .asItIs hslash hquote ⟨Nat.le_of_not_lt hcontrol, hline, hpara⟩

namespace Written

variable {text : List Char} (h : Written text)
include h

theorem plain {c : Char} (hc : c ∈ text) : IsPlain c := by
  cases h with
  | asItIs _ _ hplain => exact List.mem_singleton.1 hc ▸ hplain
  | escaped hd hds =>
    rcases List.mem_cons.1 hc with rfl | hc
    · simp [IsPlain]
    · rcases List.mem_cons.1 hc with rfl | hc
      · exact hd
      · exact (hds c hc).1

/-- No escape is left open. -/
theorem closed {before : List Char} (hbefore : endsInEscape before = false) :
    endsInEscape (before ++ text) = false := by
  cases h with
  | asItIs hslash => simp [endsInEscape_concat, hslash]
  | @escaped d ds _ hds =>
    have hescape : endsInEscape (before ++ ['\\']) = true := by simp [endsInEscape_concat, hbefore]
    have hclosed : endsInEscape (before ++ ['\\'] ++ [d]) = false := by
      rw [endsInEscape_concat, hescape, Bool.not_true, Bool.and_false]
    rw [List.append_cons, List.append_cons]
    exact endsInEscape_append hclosed fun hmem => (hds _ hmem).2.1 rfl

/-- A quote is escaped. -/
theorem quote_escaped {before front back : List Char} (hbefore : endsInEscape before = false)
    (htext : text = front ++ '"' :: back) : endsInEscape (before ++ front) = true := by
  have hquote : '"' ∈ text := htext ▸ List.mem_append_right front List.mem_cons_self
  cases h with
  | asItIs _ hne => exact absurd (List.mem_singleton.1 hquote).symm hne
  | @escaped d ds _ hds =>
    match front, htext with
    | [], htext => simp at htext
    | [_], htext =>
      obtain ⟨rfl, -⟩ := List.cons.inj htext
      simp [endsInEscape_concat, hbefore]
    | _ :: _ :: front, htext =>
      have hmem : '"' ∈ ds := by
        obtain ⟨-, -, rfl⟩ : _ ∧ _ ∧ ds = front ++ '"' :: back := by simpa using htext
        exact List.mem_append_right front List.mem_cons_self
      exact absurd rfl (hds _ hmem).2.2

end Written

theorem escapeChars_plain {cs : List Char} {c : Char} (hc : c ∈ (escapeChars cs).toList) :
    IsPlain c := by
  induction cs with
  | nil => simp [escapeChars] at hc
  | cons d cs ih =>
    rw [escapeChars, String.toList_append] at hc
    exact (List.mem_append.1 hc).elim (escapeChar_written d cs).plain ih

/-- The literal ends at its second quote that is not escaped: the last one. -/
theorem escapeChars_quotes (cs : List Char) {before : List Char}
    (hbefore : endsInEscape before = false) :
    endsInEscape (before ++ (escapeChars cs).toList) = false ∧
      ∀ front back, (escapeChars cs).toList = front ++ '"' :: back →
        endsInEscape (before ++ front) = true := by
  induction cs generalizing before with
  | nil => exact ⟨by simpa [escapeChars] using hbefore, by simp [escapeChars]⟩
  | cons c cs ih =>
    have hchar := escapeChar_written c cs
    obtain ⟨hclosed, hquotes⟩ := ih (hchar.closed hbefore)
    rw [escapeChars, String.toList_append, ← List.append_assoc]
    refine ⟨hclosed, fun front back htext => ?_⟩
    rcases List.append_eq_append_iff.1 htext with ⟨more, rfl, hrest⟩ | ⟨more, htext, hrest⟩
    · rw [← List.append_assoc]
      exact hquotes more back hrest
    · cases more with
      | nil =>
        rw [List.append_nil] at htext
        rw [← htext]
        simpa using hquotes [] back hrest.symm
      | cons d more =>
        obtain ⟨rfl, -⟩ := List.cons.inj hrest
        exact hchar.quote_escaped hbefore htext

/-! ## Literals -/

/-- Whether a text is a string literal for the value, in front of any other text. -/
structure IsStringLiteral (text : List Char) (value : String) : Prop where
  /-- Between its quotes all quotes are escaped, and the one at the end is not. -/
  quoted : ∃ body, text = '"' :: body ++ ['"'] ∧ endsInEscape body = false ∧
    ∀ before after, body = before ++ '"' :: after → endsInEscape before = true
  plain : ∀ c ∈ text, 0x20 ≤ c.toNat ∧ c ≠ '\u2028' ∧ c ≠ '\u2029'
  token : ∀ (a : Alphabet) (rest : List Char),
    nextToken a (text ++ rest) = some (.string value, rest)

/-- The literal of every string reads back as the string. -/
theorem stringLiteral_readsBack :
    (∀ s : String, IsStringLiteral (stringLiteral s).toList s) ∧
      Function.Injective stringLiteral := by
  have hliteral : ∀ s : String, IsStringLiteral (stringLiteral s).toList s := by
    intro s
    have hquotes := escapeChars_quotes s.toList (rfl : endsInEscape [] = false)
    refine ⟨⟨_, stringLiteral_toList s, hquotes.1, hquotes.2⟩, fun c hc => ?_, fun a rest => ?_⟩
    · have hquote : IsPlain '"' := by simp [IsPlain]
      simp only [stringLiteral_toList, List.mem_cons, List.mem_append, List.not_mem_nil,
        or_false] at hc
      rcases hc with rfl | hc | rfl
      · exact hquote
      · exact escapeChars_plain hc
      · exact hquote
    · exact nextToken_stringLiteral s rest
  refine ⟨hliteral, fun s t hst => ?_⟩
  have hs := (hliteral s).token .ascii []
  rw [hst, (hliteral t).token] at hs
  simpa using hs.symm

end TypedLowering.JavaScript
