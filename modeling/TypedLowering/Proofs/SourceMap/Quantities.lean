import Mathlib.Data.List.Perm.Subperm
import TypedLowering.Proofs.SourceMap.RoundTrip

/-!
# Where a quantity ends

The text of a quantity tells where it ends: its last digit is the only one below 32, so it reads
back in front of any other text (`encodeVlq_selfDelimiting`). Its digits are those that a loop
writes which takes five bits at a time from a word of 64 bits (`wordDigits_vlqDigits`). This loop
needs room for the sign bit and for the sign that the lowest bit stands for. The quantities of a
source map leave it, if its positions have 32 bits (`inRange_of_mem_fields`).
-/

namespace TypedLowering.SourceMap

/-! ## Digits of words -/

/-- The word of an integer, shifted by one bit to make room for the sign. -/
def signedWord (v : Int64) : Int64 :=
  if v < 0 then (-v) <<< 1 ||| 1 else v <<< 1

/-- The lowest five bits of a word, with a sixth one if there are others above them. -/
def lowDigit (rest : Int64) : Int64 :=
  if rest >>> 5 > 0 then rest &&& 0b11111 ||| 0b100000 else rest &&& 0b11111

/-- The digits of a word: the lowest one, and those of what is above it until that is zero. The
shift keeps the sign, so a negative word has no last digit. -/
inductive WordDigits : Int64 → List Nat → Prop
  | last {rest : Int64} (hlast : rest >>> 5 = 0) :
    WordDigits rest [(lowDigit rest).toNatClampNeg]
  | next {rest : Int64} {digits : List Nat} (hmore : rest >>> 5 ≠ 0)
    (h : WordDigits (rest >>> 5) digits) :
    WordDigits rest ((lowDigit rest).toNatClampNeg :: digits)

/-- A number of 63 bits is held by a word. -/
theorem toNat_ofNat {n : Nat} (h : n < 0x8000000000000000) :
    (Int64.ofNat n).toBitVec.toNat = n := by
  have hword : (Int64.ofNat n).toBitVec.toNat = n % 0x10000000000000000 := rfl
  rw [hword]
  omega

/-- A word is made of the number that it holds. -/
theorem eq_ofNat_of_toNat {w : Int64} {n : Nat} (h : w.toBitVec.toNat = n) :
    w = Int64.ofNat n := by
  have hword : (Int64.ofNat n).toBitVec.toNat = n % 0x10000000000000000 := rfl
  have hlt : w.toBitVec.toNat < 0x10000000000000000 := w.toBitVec.isLt
  refine Int64.toBitVec_inj.1 (BitVec.eq_of_toNat_eq ?_)
  rw [hword]
  omega

/-- A shift by five bits divides by 32. -/
theorem ofNat_shiftRight {n : Nat} (h : n < 0x8000000000000000) :
    Int64.ofNat n >>> 5 = Int64.ofNat (n / 32) := by
  have hmsb : (Int64.ofNat n).toBitVec.msb = false := by
    rw [BitVec.msb_eq_false_iff_two_mul_lt, toNat_ofNat h]
    omega
  have hshift : (Int64.ofNat n >>> 5).toBitVec = (Int64.ofNat n).toBitVec.sshiftRight 5 := rfl
  apply eq_ofNat_of_toNat
  rw [hshift, BitVec.toNat_sshiftRight_of_msb_false hmsb, toNat_ofNat h, Nat.shiftRight_eq_div_pow]

/-- The low five bits are the remainder by 32. -/
theorem ofNat_low {n : Nat} (h : n < 0x8000000000000000) :
    Int64.ofNat n &&& 0b11111 = Int64.ofNat (n % 32) := by
  apply eq_ofNat_of_toNat
  rw [Int64.toBitVec_and, BitVec.toNat_and, toNat_ofNat h]
  exact Nat.and_two_pow_sub_one_eq_mod n 5

/-- The continuation bit adds 32. -/
theorem ofNat_continued {d : Nat} (h : d < 32) :
    Int64.ofNat d ||| 0b100000 = Int64.ofNat (d + 32) := by
  apply eq_ofNat_of_toNat
  rw [Int64.toBitVec_or, BitVec.toNat_or, toNat_ofNat (by omega), Nat.or_comm, Nat.add_comm]
  exact (Nat.two_pow_add_eq_or_of_lt (i := 5) h 1).symm

/-- A shift to the left doubles. -/
theorem ofNat_double (n : Nat) : Int64.ofNat n <<< 1 = Int64.ofNat (2 * n) := by
  have hshift : (Int64.ofNat n <<< 1).toBitVec = (BitVec.ofNat 64 n) <<< 1 := rfl
  apply Int64.toBitVec_inj.1
  rw [hshift, BitVec.shiftLeft_eq_mul_twoPow, Nat.mul_comm, Int64.ofNat_mul]
  rfl

/-- The sign bit adds one. -/
theorem ofNat_signed {n : Nat} (h : n < 0x4000000000000000) :
    Int64.ofNat (2 * n) ||| 1 = Int64.ofNat (2 * n + 1) := by
  apply eq_ofNat_of_toNat
  rw [Int64.toBitVec_or, BitVec.toNat_or, toNat_ofNat (by omega)]
  exact (Nat.two_pow_add_eq_or_of_lt (i := 1) Nat.one_lt_two n).symm

/-- Whether a quantity leaves a bit for its sign besides the sign bit of its word. -/
def InRange (v : Int) : Prop := v.natAbs < 0x4000000000000000

/-- The word with the sign in its last bit holds the number with the sign. -/
theorem signedWord_ofInt {v : Int} (h : InRange v) :
    signedWord (.ofInt v) = .ofNat (zigzag v) := by
  have hbound : v.natAbs < 0x4000000000000000 := h
  have hint : (Int64.ofInt v).toInt = v := Int64.toInt_ofInt_of_le (by omega) (by omega)
  have hneg : Int64.ofInt v < 0 ↔ v < 0 := by
    rw [Int64.lt_iff_toInt_lt, hint]
    rfl
  rw [signedWord, zigzag]
  by_cases hv : v < 0
  · have habs : -Int64.ofInt v = Int64.ofNat v.natAbs := by
      rw [← Int64.ofInt_neg, ← Int64.ofInt_eq_ofNat, Int.ofNat_natAbs_of_nonpos (Int.le_of_lt hv)]
    rw [if_pos (hneg.2 hv), if_pos hv, habs, ofNat_double, ofNat_signed hbound]
  · have habs : Int64.ofInt v = Int64.ofNat v.natAbs := by
      rw [← Int64.ofInt_eq_ofNat, Int.natAbs_of_nonneg (Int.not_lt.1 hv)]
    rw [if_neg (mt hneg.1 hv), if_neg hv, habs, ofNat_double, Nat.add_zero]

/-- The digit that is written for a word that is not negative. -/
theorem lowDigit_ofNat {n : Nat} (h : n < 0x8000000000000000) :
    (lowDigit (.ofNat n)).toNatClampNeg = if n < 32 then n else n % 32 + 32 := by
  have hint : (Int64.ofNat (n / 32)).toInt = (n / 32 : Nat) := Int64.toInt_ofNat_of_lt (by omega)
  have hmore : Int64.ofNat (n / 32) > 0 ↔ ¬ n < 32 := by
    rw [gt_iff_lt, Int64.lt_iff_toInt_lt, hint]
    change (0 : Int) < (n / 32 : Nat) ↔ _
    omega
  rw [lowDigit, ofNat_shiftRight h, ofNat_low h]
  by_cases hn : n < 32
  · rw [if_neg (fun hgt => hmore.1 hgt hn), if_pos hn, Nat.mod_eq_of_lt hn]
    exact Int64.toNatClampNeg_ofNat_of_lt (by omega)
  · rw [if_pos (hmore.2 hn), if_neg hn, ofNat_continued (by omega)]
    exact Int64.toNatClampNeg_ofNat_of_lt (by omega)

/-- The loop over a word that is not negative ends, and writes the digits of its number. -/
theorem wordDigits_vlqDigits {n : Nat} (h : n < 0x8000000000000000) :
    WordDigits (.ofNat n) (vlqDigits n) := by
  fun_induction vlqDigits n with
  | case1 n hn =>
    have hlast : Int64.ofNat n >>> 5 = 0 := by
      rw [ofNat_shiftRight h, Nat.div_eq_of_lt hn]
      rfl
    have hdigits := WordDigits.last hlast
    rwa [lowDigit_ofNat h, if_pos hn] at hdigits
  | case2 n hn ih =>
    have hrest : WordDigits (Int64.ofNat n >>> 5) (vlqDigits (n / 32)) := by
      rw [ofNat_shiftRight h]
      exact ih (by omega)
    have hmore : Int64.ofNat n >>> 5 ≠ 0 := by
      intro hzero
      have hnat : (0 : Int64).toBitVec.toNat = 0 := rfl
      rw [← hzero, ofNat_shiftRight h, toNat_ofNat (by omega)] at hnat
      omega
    have hdigits := WordDigits.next hmore hrest
    rwa [lowDigit_ofNat h, if_neg hn] at hdigits

/-! ## Reading one quantity -/

/-- The number at the front of a text, and the text behind it. A digit below 32 ends it. -/
def readNumber? : List Char → Option (Nat × List Char)
  | [] => none
  | c :: cs => do
    let d ← digitValue? c
    if d < 32 then return (d, cs)
    let (n, rest) ← readNumber? cs
    return (d - 32 + 32 * n, rest)

/-- The quantity at the front of a text, and the text behind it. -/
def readQuantity? (cs : List Char) : Option (Int × List Char) :=
  (readNumber? cs).map fun (n, rest) => (unzigzag n, rest)

/-- Whether the last digit is the only one below 32. -/
def Delimited (digits : List Nat) : Prop :=
  ∃ front last, digits = front ++ [last] ∧ (∀ d ∈ front, 32 ≤ d ∧ d < 64) ∧ last < 32

/-- The last digit of a quantity is the only one below 32. -/
theorem vlqDigits_delimited (n : Nat) : Delimited (vlqDigits n) := by
  fun_induction vlqDigits n with
  | case1 n hn => exact ⟨[], n, rfl, List.forall_mem_nil _, hn⟩
  | case2 n hn ih =>
    obtain ⟨front, last, hdigits, hfront, hlast⟩ := ih
    refine ⟨(n % 32 + 32) :: front, last, by rw [hdigits]; rfl, ?_, hlast⟩
    exact List.forall_mem_cons.2 ⟨by omega, hfront⟩

/-- The digits of a number are read in front of any text. -/
theorem readNumber?_vlqDigits (n : Nat) (rest : List Char) :
    readNumber? ((vlqDigits n).map digitChar ++ rest) = some (n, rest) := by
  fun_induction vlqDigits n with
  | case1 n hn =>
    rw [List.map_singleton, List.singleton_append, readNumber?, digitValue?_digitChar (by omega)]
    simp [hn]
  | case2 n hn ih =>
    have hvalue : n % 32 + 32 * (n / 32) = n := by omega
    rw [List.map_cons, List.cons_append, readNumber?, digitValue?_digitChar (by omega)]
    simp [ih, hvalue]

/-- A quantity is read in front of any text. -/
theorem readQuantity?_encodeVlq (v : Int) (rest : List Char) :
    readQuantity? ((encodeVlq v).toList ++ rest) = some (v, rest) := by
  rw [readQuantity?, encodeVlq_toList, readNumber?_vlqDigits, Option.map_some]
  exact congrArg (fun v => some (v, rest)) (unzigzag_zigzag v)

/-! ## The quantities of a source map -/

/-- The quantities of the mappings of one line. -/
def lineFields (names : List String) : Cursor → List Mapping → List Int
  | _, [] => []
  | c, m :: ms => segmentFields names c m ++ lineFields names (segment names c m).2 ms

/-- The quantities of the lines of groups. -/
def groupFields (names : List String) : Cursor → List (List Mapping) → List Int
  | _, [] => []
  | c, group :: groups =>
    lineFields names { c with column := 0 } group ++
      groupFields names (segments names { c with column := 0 } group).2 groups

/-- The quantities of sorted mappings, in the order in which they are written. -/
def mappingsFields (names : List String) (ms : List Mapping) : List Int :=
  groupFields names .start (byLine ms)

/-- Whether a character belongs to a quantity, and not between quantities. -/
def isDigit (c : Char) : Bool := c != ',' && c != ';'

/-- A filter that drops the separators keeps what is in the parts. -/
theorem filter_intercalate {α : Type} {p : α → Bool} {sep : α} (hsep : p sep = false)
    (ls : List (List α)) : ([sep].intercalate ls).filter p = ls.flatMap (·.filter p) := by
  induction ls with
  | nil => rfl
  | cons l ls ih =>
    cases ls with
    | nil => simp
    | cons l' ls =>
      rw [List.intercalate_cons_cons, List.filter_append, List.filter_append, ih,
        List.filter_cons_of_neg (by simp [hsep]), List.filter_nil, List.append_nil]
      rfl

/-- The text of fields consists of digits. -/
theorem filter_fieldsText (fields : List Int) :
    (fieldsText fields).filter isDigit = fieldsText fields := by
  have hdigit : ∀ c ∈ alphabet, isDigit c = true :=
    List.forall_iff_forall_mem.mp (by decide)
  exact List.filter_eq_self.2 fun c hc => hdigit c (mem_alphabet_of_mem_fieldsText hc)

/-- The text of two lists of fields is that of each. -/
theorem fieldsText_append (xs ys : List Int) :
    fieldsText (xs ++ ys) = fieldsText xs ++ fieldsText ys :=
  List.flatMap_append

/-- The digits of the segments of a line are those of its fields. -/
theorem filter_segments (names : List String) (c : Cursor) (ms : List Mapping) :
    (segments names c ms).1.flatMap (·.toList.filter isDigit) =
      fieldsText (lineFields names c ms) := by
  induction ms generalizing c with
  | nil => rfl
  | cons m ms ih =>
    rw [segments_cons_fst, List.flatMap_cons, ih, segment_text, filter_fieldsText, lineFields,
      fieldsText_append]

/-- The digits of lines are those of their fields. -/
theorem filter_lines (names : List String) (count : Nat) (c : Cursor)
    (groups : List (List Mapping)) :
    (lines names count c groups).flatMap (·.toList.filter isDigit) =
      fieldsText (groupFields names c groups) := by
  induction groups generalizing count c with
  | nil => rfl
  | cons group groups ih =>
    have hblank (n : Nat) :
        (List.replicate n "").flatMap (·.toList.filter isDigit) = [] := by simp
    have hline : ((",".intercalate (segments names { c with column := 0 } group).1).toList.filter
        isDigit) = fieldsText (lineFields names { c with column := 0 } group) := by
      rw [← filter_segments, String.toList_intercalate]
      exact (filter_intercalate rfl _).trans (List.flatMap_map _ _ _)
    rw [lines, List.flatMap_append, hblank, List.nil_append, List.flatMap_cons, hline, ih,
      groupFields, fieldsText_append]

/-- Between its commas and semicolons the text of mappings holds their quantities. -/
theorem filter_mappingsText (names : List String) (ms : List Mapping) :
    (mappingsText names ms).toList.filter isDigit = fieldsText (mappingsFields names ms) := by
  have htext : (mappingsText names ms).toList =
      [';'].intercalate ((lines names 0 .start (byLine ms)).map String.toList) :=
    String.toList_intercalate
  rw [htext, filter_intercalate rfl, List.flatMap_map, filter_lines, mappingsFields]

/-! ## Positions of 32 bits -/

/-- Whether the places of a mapping have 32 bits. -/
structure Short (m : Mapping) : Prop where
  generatedColumn : m.generated.column < 0x100000000
  sourceLine : m.source.line < 0x100000000
  sourceColumn : m.source.column < 0x100000000

/-- Whether a cursor is at places of 32 bits, and at a name of that many. -/
structure Cursor.Short (count : Nat) (c : Cursor) : Prop where
  column : c.column < 0x100000000
  sourceLine : c.sourceLine < 0x100000000
  sourceColumn : c.sourceColumn < 0x100000000
  name : c.name ≤ count

section
variable {names : List String} {c : Cursor} (hnames : names.length < 0x4000000000000000)
include hnames

/-- A segment keeps the cursor short, and the quantities are differences of short fields. -/
theorem Cursor.Short.segment {m : Mapping} (hc : c.Short names.length) (hm : SourceMap.Short m) :
    (segment names c m).2.Short names.length ∧ ∀ v ∈ segmentFields names c m, InRange v := by
  obtain ⟨hcolumn, hline, hsource⟩ := hm
  obtain ⟨hcolumn', hline', hsource', hname'⟩ := hc
  have hindex : ∀ name, names.idxOf name ≤ names.length := fun _ => List.idxOf_le_length
  rw [SourceMap.segment, segmentFields]
  cases m.name with
  | none =>
    refine ⟨⟨hcolumn, Nat.lt_of_le_of_lt (Nat.sub_le _ _) hline, hsource, hname'⟩, ?_⟩
    simp only [List.forall_mem_cons, InRange]
    exact ⟨by omega, by omega, by omega, by omega, List.forall_mem_nil _⟩
  | some name =>
    have hindex := hindex name
    refine ⟨⟨hcolumn, Nat.lt_of_le_of_lt (Nat.sub_le _ _) hline, hsource, hindex⟩, ?_⟩
    simp only [List.forall_mem_cons, InRange]
    exact ⟨by omega, by omega, by omega, by omega, by omega, List.forall_mem_nil _⟩

/-- The fields of a line are in range, and so is the place behind it. -/
theorem Cursor.Short.segments {ms : List Mapping} (hc : c.Short names.length)
    (hms : ∀ m ∈ ms, SourceMap.Short m) :
    (segments names c ms).2.Short names.length ∧ ∀ v ∈ lineFields names c ms, InRange v := by
  induction ms generalizing c with
  | nil => exact ⟨hc, List.forall_mem_nil _⟩
  | cons m ms ih =>
    obtain ⟨hm, hms⟩ := List.forall_mem_cons.1 hms
    obtain ⟨hnext, hfields⟩ := hc.segment hnames hm
    obtain ⟨hlast, hrest⟩ := ih hnext hms
    exact ⟨hlast, List.forall_mem_append.2 ⟨hfields, hrest⟩⟩

/-- The fields of lines are in range. -/
theorem Cursor.Short.groups {groups : List (List Mapping)} (hc : c.Short names.length)
    (hgroups : ∀ m ∈ groups.flatten, SourceMap.Short m) :
    ∀ v ∈ groupFields names c groups, InRange v := by
  induction groups generalizing c with
  | nil => exact List.forall_mem_nil _
  | cons group groups ih =>
    rw [List.flatten_cons, List.forall_mem_append] at hgroups
    have hstart : Cursor.Short names.length { c with column := 0 } :=
      ⟨(by decide : 0 < 0x100000000), hc.sourceLine, hc.sourceColumn, hc.name⟩
    obtain ⟨hnext, hline⟩ := hstart.segments hnames hgroups.1
    exact List.forall_mem_append.2 ⟨hline, ih hnext hgroups.2⟩

/-- All fields of mappings at positions of 32 bits are in range. -/
theorem inRange_of_mem_fields {ms : List Mapping} (hms : ∀ m ∈ ms, Short m) :
    ∀ v ∈ mappingsFields names ms, InRange v := by
  have hflatten : (byLine ms).flatten = ms := List.flatten_splitBy _ _
  exact Cursor.Short.groups hnames ⟨by decide, by decide, by decide, Nat.zero_le _⟩
    (hflatten.symm ▸ hms)

end

/-- There are at most as many names as mappings. -/
theorem length_nameTable_le (ms : List Mapping) : (nameTable ms).length ≤ ms.length := by
  have hsub : nameTable ms ⊆ ms.filterMap (·.name) := fun name hname =>
    List.mem_filterMap.2 (mem_nameTable.1 hname)
  exact (List.subperm_of_subset (nameTable_nodup ms) hsub).length_le.trans
    (List.length_filterMap_le _ _)

/-- The loop over the word of a quantity in range ends. It writes the text of the quantity, whose
digits from 32 on are followed by another one, and whose last digit is below 32. In front of any
other text the text reads back as the quantity, and exactly the other text is left. All quantities
that are written for mappings with positions of 32 bits are in range. -/
theorem encodeVlq_selfDelimiting :
    (∀ v : Int, InRange v →
      (∃ digits, WordDigits (signedWord (.ofInt v)) digits ∧ Delimited digits ∧
        (encodeVlq v).toList = digits.map digitChar) ∧
      ∀ rest : List Char, readQuantity? ((encodeVlq v).toList ++ rest) = some (v, rest)) ∧
    ∀ map : SourceMap, map.mappings.length < 0x4000000000000000 →
      (∀ m ∈ map.mappings, Short m) →
      ∃ fields : List Int, (∀ v ∈ fields, InRange v) ∧
        (mappingsText (nameTable (sorted map.mappings)) (sorted map.mappings)).toList.filter
            isDigit =
          fields.flatMap fun v => (encodeVlq v).toList := by
  constructor
  · intro v hv
    have hsmall : zigzag v < 0x8000000000000000 := by
      have hbound : v.natAbs < 0x4000000000000000 := hv
      rw [zigzag]
      split <;> omega
    have hword := wordDigits_vlqDigits hsmall
    rw [← signedWord_ofInt hv] at hword
    exact ⟨⟨_, hword, vlqDigits_delimited _, encodeVlq_toList v⟩, readQuantity?_encodeVlq v⟩
  · intro map hcount hshort
    have hperm := (sorted_stablySorted map.mappings).perm
    have hnames : (nameTable (sorted map.mappings)).length < 0x4000000000000000 := by
      have hle := length_nameTable_le (sorted map.mappings)
      rw [hperm.length_eq] at hle
      omega
    exact ⟨_, inRange_of_mem_fields hnames fun m hm => hshort m (hperm.mem_iff.1 hm),
      filter_mappingsText _ _⟩

/-- The text of the least quantity in range takes thirteen digits. The positions of `recurring` are
short. -/
theorem leastQuantity_delimited :
    let v : Int := -0x3fffffffffffffff
    let mappings := sorted recurring.mappings
    InRange v ∧ recurring.mappings.length < 0x4000000000000000 ∧
      (∀ m ∈ recurring.mappings, Short m) ∧
      (∃ digits, WordDigits (signedWord (.ofInt v)) digits ∧ Delimited digits ∧
        "////////////H".toList = digits.map digitChar) ∧
      readQuantity? "////////////H,hB".toList = some (v, ",hB".toList) ∧
      ∃ fields : List Int, (∀ v ∈ fields, InRange v) ∧
        (mappingsText (nameTable mappings) mappings).toList.filter isDigit =
          fields.flatMap fun v => (encodeVlq v).toList := by
  intro v mappings
  have hrange : InRange v := by
    rw [InRange]
    decide
  have hshort : ∀ m ∈ recurring.mappings, Short m := by
    simp only [recurring, List.forall_mem_cons]
    refine ⟨?_, ?_, ?_, ?_, ?_, ?_, List.forall_mem_nil _⟩ <;>
      exact ⟨by decide, by decide, by decide⟩
  have htext : encodeVlq v = "////////////H" := by
    have hdigits : vlqDigits (zigzag v) = List.replicate 12 63 ++ [7] := by
      have hword : zigzag v = 0x7fffffffffffffff := by decide
      simp [hword, vlqDigits]
    rw [encodeVlq, hdigits]
    rfl
  obtain ⟨hquantities, hmaps⟩ := encodeVlq_selfDelimiting
  obtain ⟨hwritten, hread⟩ := hquantities v hrange
  rw [htext] at hwritten hread
  exact ⟨hrange, by decide, hshort, hwritten, hread ",hB".toList,
    hmaps recurring (by decide) hshort⟩

end TypedLowering.SourceMap
