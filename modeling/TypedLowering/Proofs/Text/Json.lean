import Mathlib.Tactic.IntervalCases
import Mathlib.Tactic.SplitIfs
import TypedLowering.Text.Json

/-!
# Reading JSON that was written

A string that is written as JSON reads back as the string, whatever follows it
(`readString_jsonString`), and so does an array of strings (`readValue_strings`).
-/

namespace TypedLowering.Text

namespace Json

/-- The four digits of a control character. -/
theorem unit?_control {n : Nat} (h : n < 32) :
    ∃ a b c d, (padZeros 4 (hexLower n)).toList = [a, b, c, d] ∧ unit? a b c d = some n := by
  have hdigits : ∀ n < 32, ∃ a b c d, List.replicate (4 - (Nat.toDigits 16 n).length) '0' ++
      Nat.toDigits 16 n = [a, b, c, d] ∧ unit? a b c d = some n := by
    intro n hn
    interval_cases n <;> exact ⟨_, _, _, _, rfl, by decide⟩
  obtain ⟨a, b, c, d, htext, hvalue⟩ := hdigits n h
  exact ⟨a, b, c, d, by simpa [padZeros, hexLower] using htext, hvalue⟩

/-- What is written for a character is one item, and the item stands for the character. -/
theorem stringItems_jsonChar (c : Char) (rest : List Char) :
    ∃ item, stringItems ((jsonChar c).toList ++ rest) =
        (stringItems rest).map (fun r => (item :: r.1, r.2)) ∧
      ∀ items, itemChars (item :: items) = (itemChars items).map (c :: ·) := by
  have hmap : ∀ item : StringItem, ((stringItems rest).bind fun r => some (item :: r.1, r.2)) =
      (stringItems rest).map fun r => (item :: r.1, r.2) := by
    intro item
    cases stringItems rest <;> rfl
  have hchar : ∀ items, itemChars (.char c :: items) = (itemChars items).map (c :: ·) := by
    intro items
    rw [itemChars]
    cases itemChars items <;> rfl
  rw [jsonChar]
  simp only [beq_iff_eq]
  split_ifs with hquote hslash hnewline hreturn htab hback hfeed hcontrol
  · exact ⟨.char c, by rw [hquote]; exact hmap _, hchar⟩
  · exact ⟨.char c, by rw [hslash]; exact hmap _, hchar⟩
  · exact ⟨.char c, by rw [hnewline]; exact hmap _, hchar⟩
  · exact ⟨.char c, by rw [hreturn]; exact hmap _, hchar⟩
  · exact ⟨.char c, by rw [htab]; exact hmap _, hchar⟩
  · exact ⟨.char c, by rw [hback]; exact hmap _, hchar⟩
  · exact ⟨.char c, by rw [hfeed]; exact hmap _, hchar⟩
  · obtain ⟨a, b, d, e, htext, hunit⟩ := unit?_control (by simpa using hcontrol : c.toNat < 32)
    refine ⟨.unit c.toNat, ?_, fun items => ?_⟩
    · rw [String.toList_append, htext]
      show stringItems ('\\' :: 'u' :: a :: b :: d :: e :: rest) = _
      rw [stringItems, hunit]
      exact hmap _
    · have hsmall : c.toNat < 0xD800 := Nat.lt_trans hcontrol (by decide)
      have hlow : isLowSurrogate c.toNat = false := by simp [isLowSurrogate]; omega
      have hhigh : isHighSurrogate c.toNat = false := by simp [isHighSurrogate]; omega
      rw [itemChars.eq_def]
      dsimp only
      rw [if_neg (by rw [hhigh]; decide), guard, if_pos (by rw [hlow]; rfl), Char.ofNat_toNat]
      cases itemChars items <;> rfl
  · refine ⟨.char c, ?_, hchar⟩
    have hprintable : 0x20 ≤ c.toNat ∧ c ≠ '\\' := ⟨by simpa using hcontrol, hslash⟩
    show stringItems (c.toString.toList ++ rest) = _
    rw [Char.toString, String.toList_singleton, List.singleton_append,
      stringItems.eq_5 _ _ (fun h => hquote h) (fun _ _ _ _ _ h _ => hslash h)
        (fun _ _ h _ => hslash h), guard, if_pos hprintable]
    exact hmap _

/-- What is written for characters reads back as the characters. -/
theorem stringItems_jsonChars (cs rest : List Char) :
    ∃ items, stringItems (cs.flatMap (fun c => (jsonChar c).toList) ++ '"' :: rest) =
      some (items, rest) ∧ itemChars items = some cs := by
  induction cs with
  | nil => exact ⟨[], rfl, rfl⟩
  | cons c cs ih =>
    obtain ⟨items, hitems, hchars⟩ := ih
    obtain ⟨item, hitem, hcons⟩ :=
      stringItems_jsonChar c (cs.flatMap (fun c => (jsonChar c).toList) ++ '"' :: rest)
    refine ⟨item :: items, ?_, by rw [hcons, hchars]; rfl⟩
    rw [List.flatMap_cons, List.append_assoc, hitem, hitems]
    rfl

/-- The text of a string: its characters, escaped, between quotes. -/
theorem jsonString_toList (s : String) : (jsonString s).toList =
    '"' :: (s.toList.flatMap (fun c => (jsonChar c).toList) ++ ['"']) := by
  simp [jsonString, List.flatMap_map]

/-- A string that is written reads back as the string. -/
theorem readString_jsonString (s : String) (rest : List Char) :
    readString ((jsonString s).toList ++ rest).tail = some (some s, rest) := by
  obtain ⟨items, hitems, hchars⟩ := stringItems_jsonChars s.toList rest
  rw [jsonString_toList, List.cons_append, List.tail_cons, List.append_assoc,
    List.singleton_append, readString, hitems]
  simp [hchars]

/-- Nothing is skipped before a token. -/
theorem skip_cons {c : Char} (h : isSpace c = false) (rest : List Char) :
    skip (c :: rest) = c :: rest :=
  List.dropWhile_cons_of_neg (by simp [h])

/-- A string has no space in front. -/
theorem skip_jsonString (s : String) (rest : List Char) :
    skip ((jsonString s).toList ++ rest) = (jsonString s).toList ++ rest := by
  rw [jsonString_toList, List.cons_append, skip_cons rfl]

/-- A string is read back as a value, whatever follows it. -/
theorem readValue_jsonString (fuel : Nat) (s : String) (rest : List Char) :
    readValue (fuel + 1) ((jsonString s).toList ++ rest) = some (.string (some s), rest) := by
  have hread := readString_jsonString s rest
  rw [jsonString_toList, List.cons_append, List.tail_cons] at hread
  rw [readValue, skip_jsonString, jsonString_toList, List.cons_append]
  simp only [hread]
  rfl

/-! ## Arrays of strings -/

/-- The text between the brackets of an array of strings. -/
def stringsText (ss : List String) : List Char :=
  (",".intercalate (ss.map jsonString)).toList

/-- A single string needs no comma. -/
theorem stringsText_singleton (s : String) : stringsText [s] = (jsonString s).toList := rfl

/-- Strings are separated by commas. -/
theorem stringsText_cons_cons (s t : String) (ss : List String) :
    stringsText (s :: t :: ss) = (jsonString s).toList ++ ',' :: stringsText (t :: ss) := by
  simp [stringsText, String.toList_intercalate]

/-- Strings take at least a character each. -/
theorem length_le_stringsText (ss : List String) : ss.length ≤ (stringsText ss).length := by
  induction ss with
  | nil => exact Nat.zero_le _
  | cons s ss ih =>
    cases ss with
    | nil => simp [stringsText_singleton, jsonString_toList]
    | cons t ss =>
      simp only [stringsText_cons_cons, List.length_append, List.length_cons] at ih ⊢
      omega

/-- Strings begin with a quote. -/
theorem stringsText_head (s : String) (ss : List String) (rest : List Char) :
    ∃ cs, stringsText (s :: ss) ++ rest = '"' :: cs := by
  cases ss with
  | nil => exact ⟨_, by rw [stringsText_singleton, jsonString_toList]; rfl⟩
  | cons t ss => exact ⟨_, by rw [stringsText_cons_cons, jsonString_toList]; rfl⟩

/-- The items of an array of strings are read back. -/
theorem readItems_strings (s : String) (ss : List String) (rest : List Char) (fuel : Nat)
    (h : ss.length + 2 ≤ fuel) : readItems fuel (stringsText (s :: ss) ++ ']' :: rest) =
      some ((s :: ss).map fun s => .string (some s), rest) := by
  induction ss generalizing s fuel with
  | nil =>
    obtain ⟨fuel, rfl⟩ : ∃ n, fuel = n + 2 := ⟨fuel - 2, by simp at h; omega⟩
    rw [stringsText_singleton, readItems, readValue_jsonString]
    simp [skip_cons (c := ']') rfl]
  | cons t ss ih =>
    obtain ⟨fuel, rfl⟩ : ∃ n, fuel = n + 2 := ⟨fuel - 2, by simp at h; omega⟩
    have hrest := ih t (fuel + 1) (by simp at h ⊢; omega)
    rw [stringsText_cons_cons, List.append_assoc, List.cons_append, readItems,
      readValue_jsonString]
    simp [skip_cons (c := ',') rfl, hrest]

/-- An array of strings is read back, whatever follows it. -/
theorem readValue_strings (ss : List String) (rest : List Char) {fuel : Nat}
    (h : ss.length + 2 ≤ fuel) : readValue fuel ('[' :: stringsText ss ++ ']' :: rest) =
      some (.array (ss.map fun s => .string (some s)), rest) := by
  obtain ⟨fuel, rfl⟩ : ∃ n, fuel = n + 1 := ⟨fuel - 1, by omega⟩
  cases ss with
  | nil => rfl
  | cons s ss =>
    have hitems := readItems_strings s ss rest fuel (by simpa using h)
    obtain ⟨cs, hcs⟩ := stringsText_head s ss (']' :: rest)
    rw [hcs] at hitems
    rw [List.cons_append, hcs, readValue, skip_cons rfl]
    simp [skip_cons (c := '"') rfl, hitems]

/-! ## Objects -/

/-- Whether a text reads as a value with that fuel, as long as the value ends with it. -/
def Reads (least : Nat) (text : List Char) (value : Json) : Prop :=
  ∀ fuel, least ≤ fuel → ∀ c rest, c = ',' ∨ c = '\x7d' →
    readValue fuel (text ++ c :: rest) = some (value, c :: rest)

/-- More fuel reads what less fuel reads. -/
theorem Reads.mono {least more : Nat} {text : List Char} {value : Json} (h : Reads least text value)
    (hle : least ≤ more) : Reads more text value :=
  fun fuel hfuel => h fuel (Nat.le_trans hle hfuel)

/-- A string is read with any fuel. -/
theorem reads_jsonString (s : String) : Reads 1 (jsonString s).toList (.string (some s)) := by
  intro fuel h c rest _
  obtain ⟨fuel, rfl⟩ : ∃ n, fuel = n + 1 := ⟨fuel - 1, by omega⟩
  exact readValue_jsonString fuel s _

/-- An array of strings is read with fuel for each of them. -/
theorem reads_strings (ss : List String) :
    Reads (ss.length + 2) ('[' :: stringsText ss ++ [']'])
      (.array (ss.map fun s => .string (some s))) := by
  intro fuel h c rest _
  have hread := readValue_strings ss (c :: rest) h
  simpa using hread

/-- The fields of an object, and the brace behind them. -/
def fieldsText : List (String × List Char × Json) → List Char
  | [] => ['\x7d']
  | [(key, text, _)] => (jsonString key).toList ++ ':' :: (text ++ ['\x7d'])
  | (key, text, _) :: rest => (jsonString key).toList ++ ':' :: (text ++ ',' :: fieldsText rest)

/-- Fields that are written read back as the fields. -/
theorem readFields_fieldsText {least : Nat} {fields : List (String × List Char × Json)} (fuel : Nat)
    (hne : fields ≠ []) (h : ∀ f ∈ fields, Reads least f.2.1 f.2.2)
    (hfuel : fields.length + least ≤ fuel) (rest : List Char) :
    readFields fuel (fieldsText fields ++ rest) =
      some (fields.map fun f => (some f.1, f.2.2), rest) := by
  induction fields generalizing fuel with
  | nil => exact absurd rfl hne
  | cons f fields ih =>
    obtain ⟨key, text, value⟩ := f
    obtain ⟨hvalue, hrest⟩ := List.forall_mem_cons.1 h
    obtain ⟨fuel, rfl⟩ : ∃ n, fuel = n + 1 := ⟨fuel - 1, by simp at hfuel; omega⟩
    have hleast : least ≤ fuel := by simp at hfuel; omega
    have hread := fun cs => readString_jsonString key (':' :: cs)
    simp only [jsonString_toList, List.cons_append, List.tail_cons] at hread
    cases fields with
    | nil =>
      have hvalue := hvalue fuel hleast '\x7d' rest (.inr rfl)
      rw [fieldsText, List.append_assoc, List.cons_append, List.append_assoc,
        List.singleton_append, readFields, skip_jsonString, jsonString_toList, List.cons_append]
      simp only [hread, skip_cons (c := ':') rfl, Option.bind_eq_bind, Option.bind_some, hvalue,
        skip_cons (c := '\x7d') rfl]
      rfl
    | cons f' fields =>
      have hvalue := hvalue fuel hleast ',' (fieldsText (f' :: fields) ++ rest) (.inl rfl)
      have hmore := ih fuel (List.cons_ne_nil _ _) hrest (by simp at hfuel ⊢; omega)
      rw [fieldsText, List.append_assoc, List.cons_append, List.append_assoc, List.cons_append,
        readFields, skip_jsonString, jsonString_toList, List.cons_append]
      · simp only [hread, skip_cons (c := ':') rfl, Option.bind_eq_bind, Option.bind_some, hvalue,
          skip_cons (c := ',') rfl, hmore]
        rfl
      · exact fun h => List.cons_ne_nil _ _ h

/-- The text of an object reads back as the object, if its fields read with less fuel than there
is. -/
theorem parse_object (least : Nat) {fields : List (String × List Char × Json)} {text : String}
    (htext : text.toList = '\x7b' :: fieldsText fields) (hne : fields ≠ [])
    (h : ∀ f ∈ fields, Reads least f.2.1 f.2.2)
    (hleast : fields.length + least ≤ 2 * text.length) :
    parse text = some (.object (fields.map fun f => (some f.1, f.2.2))) := by
  have hread := readFields_fieldsText (2 * text.length + 1) hne h (by omega) []
  rw [List.append_nil] at hread
  obtain ⟨cs, hcs⟩ : ∃ cs, fieldsText fields = '"' :: cs := by
    match fields, hne with
    | [_], _ => exact ⟨_, by rw [fieldsText, jsonString_toList]; rfl⟩
    | _ :: _ :: _, _ => exact ⟨_, by rw [fieldsText, jsonString_toList]; rfl; nofun⟩
  rw [parse, String.length_toList, htext, readValue, skip_cons rfl]
  rw [hcs] at hread ⊢
  simp only [skip_cons (c := '"') rfl, hread]
  rfl

end Json

end TypedLowering.Text
