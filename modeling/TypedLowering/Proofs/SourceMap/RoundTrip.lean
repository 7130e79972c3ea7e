import Mathlib.Data.List.SplitBy
import TypedLowering.Proofs.Printing.Rendering
import TypedLowering.Proofs.SourceMap.Reader
import TypedLowering.Proofs.Text.Json

/-!
# Source maps are read back

What is written for mappings reads back as the mappings, sorted stably by their generated positions
(`json_round_trip`): quantities read back as the integers they encode (`quantities_fieldsText`), a
segment as its mapping (`readSegment_fields`), and lines as the mappings of each line, blank lines
skipped (`readLines_lines`).
-/

namespace TypedLowering.SourceMap

open Ir (Position)
open Text (Json)

/-! ## Quantities -/

/-- The number behind a quantity is the one it was made of. -/
theorem unzigzag_zigzag (v : Int) : unzigzag (zigzag v) = v := by
  rw [unzigzag, zigzag]
  split <;> split at * <;> omega

/-- A digit has six bits. -/
theorem lt_of_mem_vlqDigits {n d : Nat} (h : d ∈ vlqDigits n) : d < 64 := by
  fun_induction vlqDigits n with
  | case1 n hn =>
    have := List.mem_singleton.1 h
    omega
  | case2 n hn ih =>
    rcases List.mem_cons.1 h with rfl | h
    · omega
    · exact ih h

/-- Every quantity has a digit. -/
theorem vlqDigits_ne_nil (n : Nat) : vlqDigits n ≠ [] := by
  rw [vlqDigits]
  split <;> simp

/-- The digits of a number spell the number, whatever digits follow. -/
theorem numbers_vlqDigits (n : Nat) (ds : List Nat) :
    numbers (vlqDigits n ++ ds) = (numbers ds).map (n :: ·) := by
  fun_induction vlqDigits n with
  | case1 n hn => simp [numbers, hn]
  | case2 n hn ih =>
    rw [List.cons_append, numbers, if_neg (by omega), ih]
    cases numbers ds with
    | none => rfl
    | some ns =>
      have : n % 32 + 32 - 32 + 32 * (n / 32) = n := by omega
      simp only [Option.map_some, this]

/-- The character of a digit is read as the digit. -/
theorem digitValue?_digitChar {d : Nat} (h : d < 64) : digitValue? (digitChar d) = some d := by
  have hall : ∀ d < 64, digitValue? (digitChar d) = some d := by decide
  exact hall d h

/-- The characters of digits are read as the digits. -/
theorem mapM_digitValue? {ds : List Nat} (h : ∀ d ∈ ds, d < 64) :
    (ds.map digitChar).mapM digitValue? = some ds := by
  induction ds with
  | nil => rfl
  | cons d ds ih =>
    obtain ⟨hd, hds⟩ := List.forall_mem_cons.1 h
    rw [List.map_cons, List.mapM_cons, digitValue?_digitChar hd, ih hds]
    rfl

/-- Quantities, one after the other. -/
def fieldsText (fields : List Int) : List Char :=
  fields.flatMap fun v => (encodeVlq v).toList

/-- A quantity is written as the characters of its digits. -/
theorem encodeVlq_toList (v : Int) :
    (encodeVlq v).toList = (vlqDigits (zigzag v)).map digitChar := by
  simp [encodeVlq]

/-- Fields are written as the characters of their digits. -/
theorem fieldsText_eq (fields : List Int) :
    fieldsText fields = (fields.flatMap fun v => vlqDigits (zigzag v)).map digitChar := by
  simp only [fieldsText, encodeVlq_toList, List.map_flatMap]

/-- The digits of fields are read as the numbers that were written. -/
theorem numbers_fields (fields : List Int) :
    numbers (fields.flatMap fun v => vlqDigits (zigzag v)) = some (fields.map zigzag) := by
  induction fields with
  | nil => rfl
  | cons v fields ih =>
    rw [List.flatMap_cons, numbers_vlqDigits, ih, List.map_cons, Option.map_some]

/-- The text of fields is read as the fields. -/
theorem quantities_fieldsText (fields : List Int) :
    quantities (fieldsText fields) = some fields := by
  have hdigits : ∀ d ∈ fields.flatMap fun v => vlqDigits (zigzag v), d < 64 := by
    intro d hd
    obtain ⟨v, -, hd⟩ := List.mem_flatMap.1 hd
    exact lt_of_mem_vlqDigits hd
  have hvalues : (fields.map zigzag).map unzigzag = fields := by
    simp [Function.comp_def, unzigzag_zigzag]
  rw [quantities, fieldsText_eq, mapM_digitValue? hdigits]
  simp only [Option.bind_eq_bind, Option.bind_some, numbers_fields, hvalues, Option.pure_def]

/-- Digits are written in the alphabet. -/
theorem digitChar_mem_alphabet {d : Nat} (h : d < 64) : digitChar d ∈ alphabet := by
  have hlength : alphabet.length = 64 := rfl
  have hget : alphabet[d]? = some alphabet[d] := List.getElem?_eq_getElem (hlength ▸ h)
  rw [digitChar, List.getD_eq_getElem?_getD, hget]
  exact List.getElem_mem _

/-- Quantities are written with the digits of base 64. -/
theorem mem_alphabet_of_mem_fieldsText {c : Char} {fields : List Int} (h : c ∈ fieldsText fields) :
    c ∈ alphabet := by
  rw [fieldsText_eq] at h
  obtain ⟨d, hd, rfl⟩ := List.mem_map.1 h
  obtain ⟨v, -, hd⟩ := List.mem_flatMap.1 hd
  exact digitChar_mem_alphabet (lt_of_mem_vlqDigits hd)

/-- A field has some text. -/
theorem fieldsText_cons_ne_nil (v : Int) (fields : List Int) : fieldsText (v :: fields) ≠ [] := by
  intro h
  rw [fieldsText_eq, List.map_eq_nil_iff, List.flatMap_cons, List.append_eq_nil_iff] at h
  exact vlqDigits_ne_nil _ h.1

/-! ## Segments -/

namespace Cursor

/-- What a reader has reached. -/
def reached (c : Cursor) : Reached := ⟨c.column, 0, c.sourceLine, c.sourceColumn, c.name⟩

end Cursor

/-- The quantities of the segment of a mapping. -/
def segmentFields (names : List String) (c : Cursor) (m : Mapping) : List Int :=
  (m.generated.column - c.column : Int) :: 0 :: ((m.source.line - 1 : Nat) - c.sourceLine : Int) ::
    (m.source.column - c.sourceColumn : Int) ::
    match m.name with
    | none => []
    | some name => [(names.idxOf name - c.name : Int)]

/-- The text of a segment is that of its fields. -/
theorem segment_text (names : List String) (c : Cursor) (m : Mapping) :
    (segment names c m).1.toList = fieldsText (segmentFields names c m) := by
  rw [segment, segmentFields, fieldsText]
  cases m.name <;> simp [delta]

/-- A segment reads back as its mapping, and the reader goes on where the writer does. -/
theorem readSegment_fields {names : List String} {m : Mapping} (source : String) (c : Cursor)
    (hline : 1 ≤ m.source.line) (hname : ∀ name, m.name = some name → name ∈ names) :
    readSegment [source] names m.generated.line c.reached (segmentFields names c m) =
      some (some (source, m), (segment names c m).2.reached) := by
  obtain ⟨⟨line, column⟩, ⟨sourceLine, sourceColumn⟩, name⟩ := m
  have hback : sourceLine - 1 + 1 = sourceLine := Nat.sub_add_cancel hline
  have hadd : ∀ old new : Int, old + (new - old) = new := by omega
  have hnat : ∀ n : Nat, (n : Int).toNat? = some n := fun _ => rfl
  have hzero : Int.toNat? 0 = some 0 := rfl
  cases name with
  | none =>
    simp only [segmentFields, readSegment, readName, Cursor.reached, segment, hadd]
    simp [hback, hnat, hzero]
  | some name =>
    have hget : names[names.idxOf name]? = some name :=
      List.getElem?_idxOf (hname name rfl)
    simp only [segmentFields, readSegment, readName, Cursor.reached, segment, hadd]
    simp [hback, hget, hnat, hzero]

/-- What a segment needs so that it can be read: the line that it is on, a place of the source, and
a number for its name. -/
structure Segmented (names : List String) (line : Nat) (m : Mapping) : Prop where
  line : m.generated.line = line
  source : 1 ≤ m.source.line
  name : ∀ name, m.name = some name → name ∈ names

/-- The segments of a line are read as the mappings of the line. -/
theorem readSegments_segments {names : List String} {line : Nat} (source : String)
    {ms : List Mapping} (hms : ∀ m ∈ ms, Segmented names line m) (c : Cursor) :
    readSegments [source] names line c.reached ((segments names c ms).1.map String.toList) =
      some (ms.map (source, ·), (segments names c ms).2.reached) := by
  induction ms generalizing c with
  | nil => rfl
  | cons m ms ih =>
    obtain ⟨⟨rfl, hsource, hname⟩, hms⟩ := List.forall_mem_cons.1 hms
    simp only [segments, List.map_cons, readSegments, segment_text, quantities_fieldsText,
      Option.bind_eq_bind, Option.bind_some, readSegment_fields source c hsource hname, ih hms]
    rfl

/-! ## Lines -/

/-- What stands in joined parts is a separator or in a part. -/
theorem mem_intercalate {α : Type} {sep : α} {x : α} {ls : List (List α)}
    (h : x ∈ [sep].intercalate ls) : x = sep ∨ ∃ l ∈ ls, x ∈ l := by
  induction ls with
  | nil => cases h
  | cons l ls ih =>
    cases ls with
    | nil =>
      rw [List.intercalate_singleton] at h
      exact .inr ⟨l, List.mem_cons_self, h⟩
    | cons l' ls =>
      rw [List.intercalate_cons_cons, List.mem_append, List.mem_append] at h
      rcases h with (h | h) | h
      · exact .inr ⟨l, List.mem_cons_self, h⟩
      · exact .inl (List.mem_singleton.1 h)
      · obtain hsep | ⟨k, hk, hx⟩ := ih h
        · exact .inl hsep
        · exact .inr ⟨k, List.mem_cons_of_mem _ hk, hx⟩

/-- The first segment of a line is that of its first mapping. -/
theorem segments_cons_fst (names : List String) (c : Cursor) (m : Mapping) (ms : List Mapping) :
    (segments names c (m :: ms)).1 =
      (segment names c m).1 :: (segments names (segment names c m).2 ms).1 := rfl

/-- The text of a segment is not empty, and its characters are digits of base 64. -/
theorem mem_segments {names : List String} {c : Cursor} {ms : List Mapping} {text : String}
    (h : text ∈ (segments names c ms).1) :
    text.toList ≠ [] ∧ ∀ x ∈ text.toList, x ∈ alphabet := by
  induction ms generalizing c with
  | nil => cases h
  | cons m ms ih =>
    rw [segments_cons_fst] at h
    rcases List.mem_cons.1 h with rfl | h
    · rw [segment_text]
      exact ⟨fieldsText_cons_ne_nil _ _, fun x => mem_alphabet_of_mem_fieldsText⟩
    · exact ih h

/-- A line with mappings has segments. -/
theorem segments_ne_nil {names : List String} {c : Cursor} {ms : List Mapping} (h : ms ≠ []) :
    (segments names c ms).1 ≠ [] := by
  obtain ⟨m, ms, rfl⟩ := List.exists_cons_of_ne_nil h
  exact List.cons_ne_nil _ _

/-- The text of the segments of a line. -/
def lineText (names : List String) (c : Cursor) (ms : List Mapping) : String :=
  ",".intercalate (segments names c ms).1

/-- The text of a line is its segments, joined by commas. -/
theorem lineText_toList (names : List String) (c : Cursor) (ms : List Mapping) :
    (lineText names c ms).toList =
      [','].intercalate ((segments names c ms).1.map String.toList) :=
  String.toList_intercalate

/-- A line is cut into its segments. -/
theorem segmentTexts_lineText {names : List String} {c : Cursor} {ms : List Mapping}
    (h : ms ≠ []) :
    segmentTexts (lineText names c ms).toList = (segments names c ms).1.map String.toList := by
  have hcomma : ∀ l ∈ (segments names c ms).1.map String.toList, ',' ∉ l := by
    intro l hl hmem
    obtain ⟨text, htext, rfl⟩ := List.mem_map.1 hl
    exact absurd ((mem_segments htext).2 _ hmem) (by decide)
  have hsome : (segments names c ms).1.map String.toList ≠ [] :=
    fun hmap => segments_ne_nil h (List.map_eq_nil_iff.1 hmap)
  have hfilled : (lineText names c ms).toList.isEmpty = false := by
    obtain ⟨text, texts, hcons⟩ := List.exists_cons_of_ne_nil (segments_ne_nil (c := c) h)
    have htext := (mem_segments (hcons ▸ List.mem_cons_self : text ∈ (segments names c ms).1)).1
    rw [lineText_toList, hcons, List.isEmpty_eq_false_iff]
    cases texts with
    | nil => simpa using htext
    | cons text' texts => simp
  rw [segmentTexts, hfilled, lineText_toList]
  simpa using List.splitOn_intercalate ',' hcomma hsome

/-- Groups of mappings, each with a line of its own, in the order of the lines. All lines come after
the first `count`. -/
inductive Grouped (names : List String) : Nat → List (List Mapping) → Prop
  | nil {count : Nat} : Grouped names count []
  | cons {count line : Nat} {group : List Mapping} {groups : List (List Mapping)} :
    group ≠ [] → (∀ m ∈ group, Segmented names line m) → count < line →
      Grouped names line groups → Grouped names count (group :: groups)

/-- The text of the lines of groups: blank lines up to that of the first one, the line of the first
one, and the other lines. -/
theorem lines_cons {names : List String} {count line : Nat} {group : List Mapping}
    {groups : List (List Mapping)} (c : Cursor) (hgroup : group ≠ [])
    (hline : ∀ m ∈ group, Segmented names line m) (hcount : count < line) :
    lines names count c (group :: groups) = List.replicate (line - 1 - count) "" ++
      lineText names { c with column := 0 } group ::
        lines names line (segments names { c with column := 0 } group).2 groups := by
  obtain ⟨m, ms, rfl⟩ := List.exists_cons_of_ne_nil hgroup
  have hhead : m.generated.line = line := (hline m List.mem_cons_self).line
  have hnext : count + (line - 1 - count) + 1 = line := by omega
  rw [lines]
  simp only [List.head?_cons, Option.map_some, Option.getD_some, hhead, hnext]
  rfl

/-- Where a reader is in the last line does not matter for the next one. -/
theorem readLines_column (sources names : List String) (line : Nat) (r : Reached)
    (ls : List (List Char)) :
    readLines sources names line { r with column := 0 } ls = readLines sources names line r ls := by
  cases ls <;> rfl

/-- Blank lines are only counted. -/
theorem readLines_blank (sources names : List String) (line : Nat) (r : Reached) (blank : Nat)
    (ls : List (List Char)) :
    readLines sources names line r (List.replicate blank [] ++ ls) =
      readLines sources names (line + blank) r ls := by
  induction blank generalizing line with
  | zero => rfl
  | succ blank ih =>
    rw [List.replicate_succ, List.cons_append, readLines, ← Nat.add_assoc, Nat.add_right_comm,
      ← ih (line + 1), ← readLines_column sources names (line + 1) r]
    simp only [segmentTexts, List.isEmpty_nil, if_true, readSegments, Option.bind_eq_bind,
      Option.bind_some, List.nil_append]
    exact Option.bind_fun_some _

/-- The lines of groups read back as the mappings of the groups. -/
theorem readLines_lines {names : List String} {count : Nat} {groups : List (List Mapping)}
    (source : String) (h : Grouped names count groups) (c : Cursor) :
    readLines [source] names (count + 1) c.reached
        ((lines names count c groups).map String.toList) =
      some (groups.flatten.map (source, ·)) := by
  induction h generalizing c with
  | nil => rfl
  | @cons count line group groups hgroup hline hcount _ ih =>
    have hnumber : count + 1 + (line - 1 - count) = line := by omega
    have hread := readSegments_segments source hline { c with column := 0 }
    rw [lines_cons c hgroup hline hcount, List.map_append, List.map_replicate, List.map_cons,
      String.toList_empty, readLines_blank, hnumber, readLines, segmentTexts_lineText hgroup]
    simp only [Cursor.reached, Nat.cast_zero] at hread ⊢
    rw [hread]
    simp only [Option.bind_eq_bind, Option.bind_some]
    rw [← Cursor.reached, ih]
    simp

/-- The characters of the lines are those of segments and the commas between them. -/
theorem not_mem_lines {names : List String} {count : Nat} {c : Cursor}
    {groups : List (List Mapping)} {l : String} (h : l ∈ lines names count c groups) :
    ';' ∉ l.toList := by
  induction groups generalizing count c with
  | nil => cases h
  | cons group groups ih =>
    rw [lines] at h
    rcases List.mem_append.1 h with h | h
    · obtain ⟨-, rfl⟩ := List.mem_replicate.1 h
      simp
    · rcases List.mem_cons.1 h with rfl | h
      · intro hmem
        rw [String.toList_intercalate] at hmem
        obtain hsep | ⟨l, hl, hx⟩ := mem_intercalate hmem
        · exact absurd hsep (by decide)
        · obtain ⟨text, htext, rfl⟩ := List.mem_map.1 hl
          exact absurd ((mem_segments htext).2 _ hx) (by decide)
      · exact ih h

/-- The groups of a list by lines. -/
theorem Grouped.of_groups {names : List String} {groups : List (List Mapping)} {count : Nat}
    (hnil : [] ∉ groups)
    (hsame : ∀ g ∈ groups, g.IsChain fun a b => a.generated.line = b.generated.line)
    (hother : groups.IsChain fun a b =>
      ∃ ha hb, (a.getLast ha).generated.line ≠ (b.head hb).generated.line)
    (hsorted : groups.flatten.Pairwise fun a b => a.generated.line ≤ b.generated.line)
    (hline : ∀ m ∈ groups.flatten, count < m.generated.line)
    (hsource : ∀ m ∈ groups.flatten, Segmented names m.generated.line m) :
    Grouped names count groups := by
  induction groups generalizing count with
  | nil => exact .nil
  | cons g groups ih =>
    obtain ⟨m, ms, rfl⟩ := List.exists_cons_of_ne_nil fun h => hnil (h ▸ List.mem_cons_self)
    have hgroup : ∀ m' ∈ m :: ms, m'.generated.line = m.generated.line := by
      have hpair := (List.isChain_iff_pairwise.1 (hsame _ List.mem_cons_self))
      intro m' hm'
      rcases List.mem_cons.1 hm' with rfl | hm'
      · rfl
      · exact ((List.pairwise_cons.1 hpair).1 m' hm').symm
    rw [List.flatten_cons] at hsorted hline hsource
    obtain ⟨-, hrest, hacross⟩ := List.pairwise_append.1 hsorted
    refine .cons (List.cons_ne_nil _ _)
      (fun m' hm' => hgroup m' hm' ▸ hsource m' (List.mem_append_left _ hm'))
      (hline m (List.mem_append_left _ List.mem_cons_self))
      (ih (fun h => hnil (List.mem_cons_of_mem _ h))
        (fun g hg => hsame g (List.mem_cons_of_mem _ hg)) hother.tail hrest (fun m' hm' => ?_)
        fun m' hm' => hsource m' (List.mem_append_right _ hm'))
    cases groups with
    | nil => cases hm'
    | cons g' groups =>
      obtain ⟨hne, hne', hlast⟩ := (List.isChain_cons_cons.1 hother).1
      have hlastMem := List.getLast_mem hne
      have hle : m.generated.line ≤ (g'.head hne').generated.line := by
        rw [← hgroup _ hlastMem]
        exact hacross _ hlastMem _ (List.mem_append_left _ (List.head_mem hne'))
      have hlt : m.generated.line < (g'.head hne').generated.line :=
        Nat.lt_of_le_of_ne hle (hgroup _ hlastMem ▸ hlast)
      obtain ⟨h', t', rfl⟩ := List.exists_cons_of_ne_nil hne'
      rw [List.flatten_cons, List.cons_append] at hm' hrest
      rcases List.mem_cons.1 hm' with rfl | hm'
      · exact hlt
      · exact Nat.lt_of_lt_of_le hlt ((List.pairwise_cons.1 hrest).1 m' hm')

/-! ## Order and names -/

/-- The mappings `ordered` are `ms` in the order of their generated positions; mappings of one
position are in the order of `ms`. -/
structure StablySorted (ms ordered : List Mapping) : Prop where
  perm : ordered.Perm ms
  pairwise : ordered.Pairwise fun a b => a.generated.le b.generated
  stable : ∀ p, ordered.filter (·.generated = p) = ms.filter (·.generated = p)

/-- The sorted mappings are sorted stably. -/
theorem sorted_stablySorted (ms : List Mapping) : StablySorted ms (sorted ms) := by
  have htrans : ∀ a b c : Mapping, a.generated.le b.generated = true →
      b.generated.le c.generated = true → a.generated.le c.generated = true :=
    fun _ _ _ => Position.le_trans
  have htotal (a b : Mapping) :
      (a.generated.le b.generated || b.generated.le a.generated) = true := by
    rw [Bool.or_eq_true, Position.le_iff, Position.le_iff]
    omega
  have hperm : (sorted ms).Perm ms := List.mergeSort_perm ms _
  refine ⟨hperm, List.pairwise_mergeSort htrans htotal ms, fun p => ?_⟩
  -- the mappings of one position are in order, so sorting keeps them as they are
  have hsame : (ms.filter (·.generated = p)).Pairwise
      fun a b => a.generated.le b.generated = true := by
    refine List.pairwise_of_forall_mem_list fun a ha b hb => ?_
    have ha := (List.mem_filter.1 ha).2
    have hb := (List.mem_filter.1 hb).2
    rw [of_decide_eq_true ha, of_decide_eq_true hb]
    exact Position.le_refl p
  have hsub : (ms.filter (·.generated = p)).Sublist ((sorted ms).filter (·.generated = p)) := by
    have hfilter := (List.sublist_mergeSort htrans htotal hsame List.filter_sublist).filter
      (·.generated = p)
    simpa only [sorted, List.filter_filter, Bool.and_self] using hfilter
  exact (hsub.eq_of_length (hperm.filter _).length_eq.symm).symm

/-- The names with that of one more mapping. -/
def noteName (names : List String) (m : Mapping) : List String :=
  match m.name with
  | some name => if name ∈ names then names else names ++ [name]
  | none => names

/-- The table of names notes one mapping after the other. -/
theorem nameTable_eq_foldl (ms : List Mapping) : nameTable ms = ms.foldl noteName [] := rfl

/-- A noted name is one that was there, or that of the mapping. -/
theorem mem_noteName {names : List String} {m : Mapping} {name : String} :
    name ∈ noteName names m ↔ name ∈ names ∨ m.name = some name := by
  rw [noteName]
  cases hm : m.name with
  | none => simp
  | some own =>
    by_cases hown : own ∈ names
    · have : own = name → name ∈ names := fun h => h ▸ hown
      simpa [hown] using this
    · simp [hown, eq_comm (a := name)]

/-- No name is noted twice. -/
theorem noteName_nodup {names : List String} (h : names.Nodup) (m : Mapping) :
    (noteName names m).Nodup := by
  rw [noteName]
  split
  · split
    · exact h
    · rename_i name _ hnew
      exact List.nodup_append.2 ⟨h, List.nodup_cons.2 ⟨List.not_mem_nil, List.nodup_nil⟩,
        fun a ha b hb => List.mem_singleton.1 hb ▸ fun heq => hnew (heq ▸ ha)⟩
  · exact h

/-- The noted names are those that were there and those of the mappings. -/
theorem mem_foldl_noteName {ms : List Mapping} {names : List String} {name : String} :
    name ∈ ms.foldl noteName names ↔ name ∈ names ∨ ∃ m ∈ ms, m.name = some name := by
  induction ms generalizing names with
  | nil => simp
  | cons m ms ih => rw [List.foldl_cons, ih, mem_noteName, or_assoc, List.exists_mem_cons_iff]

/-- The table holds the names of the mappings. -/
theorem mem_nameTable {ms : List Mapping} {name : String} :
    name ∈ nameTable ms ↔ ∃ m ∈ ms, m.name = some name := by
  rw [nameTable_eq_foldl, mem_foldl_noteName, or_iff_right List.not_mem_nil]

/-- No name is twice in the table. -/
theorem nameTable_nodup (ms : List Mapping) : (nameTable ms).Nodup := by
  rw [nameTable_eq_foldl]
  exact List.foldlRecOn ms noteName List.nodup_nil fun _ h m _ => noteName_nodup h m

/-! ## The whole map -/

/-- The mappings of the lines by line. -/
def byLine (ms : List Mapping) : List (List Mapping) :=
  ms.splitBy fun a b => a.generated.line == b.generated.line

/-- Mappings that are sorted are grouped by their lines. -/
theorem grouped_byLine (names : List String) {ms : List Mapping}
    (hordered : ms.Pairwise fun a b => a.generated.le b.generated)
    (hline : ∀ m ∈ ms, 1 ≤ m.generated.line)
    (hms : ∀ m ∈ ms, Segmented names m.generated.line m) : Grouped names 0 (byLine ms) := by
  have hflatten : (byLine ms).flatten = ms := List.flatten_splitBy _ _
  refine .of_groups (List.nil_notMem_splitBy _ _) (fun g hg => ?_) ?_ ?_ ?_ ?_
  · exact (List.isChain_of_mem_splitBy hg).imp fun a b h => beq_iff_eq.1 h
  · refine (List.isChain_getLast_head_splitBy _ _).imp fun a b => ?_
    rintro ⟨ha, hb, h⟩
    exact ⟨ha, hb, by simpa using h⟩
  · rw [hflatten]
    exact hordered.imp fun h => Position.line_le_of_le h
  · rwa [hflatten]
  · rwa [hflatten]

/-- The field `mappings` reads back as the mappings. -/
theorem readMappings_mappingsText {names : List String} {ms : List Mapping} (source : String)
    (h : Grouped names 0 (byLine ms)) :
    readMappings [source] names (mappingsText names ms) = some (ms.map (source, ·)) := by
  have hread := readLines_lines source h .start
  have hflatten : (byLine ms).flatten = ms := List.flatten_splitBy _ _
  rw [hflatten] at hread
  have htext : (mappingsText names ms).toList =
      [';'].intercalate ((lines names 0 .start (byLine ms)).map String.toList) :=
    String.toList_intercalate
  rw [readMappings, htext]
  by_cases hnone : lines names 0 .start (byLine ms) = []
  · rw [hnone] at hread ⊢
    exact hread
  · have hsep : ∀ l ∈ (lines names 0 .start (byLine ms)).map String.toList, ';' ∉ l := by
      intro l hl
      obtain ⟨text, htext, rfl⟩ := List.mem_map.1 hl
      exact not_mem_lines htext
    rw [List.splitOn_intercalate ';' hsep fun hmap => hnone (List.map_eq_nil_iff.1 hmap)]
    exact hread

/-- An array of strings is read as the strings. -/
theorem stringsOf?_strings (ss : List String) :
    stringsOf? (.array (ss.map fun s => .string (some s))) = some ss := by
  rw [stringsOf?]
  induction ss with
  | nil => rfl
  | cons s ss ih =>
    rw [List.map_cons, List.mapM_cons, ih]
    rfl

/-- The version is read as a number. -/
theorem reads_version : Json.Reads 1 ['3'] .number := by
  intro fuel h c rest hc
  obtain ⟨fuel, rfl⟩ : ∃ n, fuel = n + 1 := ⟨fuel - 1, by omega⟩
  rcases hc with rfl | rfl <;> rfl

/-- The fields of the map, with their texts and values. -/
def entries (map : SourceMap) (file : String) : List (String × List Char × Json) :=
  let ms := sorted map.mappings
  let names := nameTable ms
  let text := mappingsText names ms
  [("version", ['3'], .number),
    ("file", (Text.jsonString file).toList, .string (some file)),
    ("sources", '[' :: Json.stringsText [map.source] ++ [']'],
      .array ([map.source].map fun s => .string (some s))),
    ("names", '[' :: Json.stringsText names ++ [']'], .array (names.map fun s => .string (some s))),
    ("mappings", (Text.jsonString text).toList, .string (some text))]

/-- The text of a map is an object with its entries. -/
theorem json_toList (map : SourceMap) (file : String) :
    (map.json file).toList = '\x7b' :: Json.fieldsText (entries map file) := by
  have hversion : Text.jsonString "version" = "\"version\"" := by decide +kernel
  have hfile : Text.jsonString "file" = "\"file\"" := by decide +kernel
  have hsources : Text.jsonString "sources" = "\"sources\"" := by decide +kernel
  have hnames : Text.jsonString "names" = "\"names\"" := by decide +kernel
  have hmappings : Text.jsonString "mappings" = "\"mappings\"" := by decide +kernel
  unfold json
  simp [entries, Json.fieldsText, Json.stringsText, hversion, hfile, hsources, hnames, hmappings]

/-- The text of a map reads as the object of its fields. -/
theorem parse_json (map : SourceMap) (file : String) : Json.parse (map.json file) =
    some (.object ((entries map file).map fun f => (some f.1, f.2.2))) := by
  have hlength : (nameTable (sorted map.mappings)).length + 8 ≤ (map.json file).length := by
    have hnames := Json.length_le_stringsText (nameTable (sorted map.mappings))
    rw [← String.length_toList, json_toList]
    simp only [entries, Json.fieldsText, List.length_cons, List.length_append,
      Json.jsonString_toList, List.length_nil]
    omega
  refine Json.parse_object ((nameTable (sorted map.mappings)).length + 3)
    (json_toList map file) (List.cons_ne_nil _ _) ?_ ?_
  · simp only [entries, List.forall_mem_cons]
    exact ⟨reads_version.mono (by omega), (Json.reads_jsonString _).mono (by omega),
      (Json.reads_strings _).mono (by simp), (Json.reads_strings _).mono (by omega),
      (Json.reads_jsonString _).mono (by omega), List.forall_mem_nil _⟩
  · simp only [entries, List.length_cons, List.length_nil]
    omega

/-- What is written for a map is read as its mappings, sorted. -/
theorem read_json (map : SourceMap) (file : String)
    (h : ∀ m ∈ map.mappings, 1 ≤ m.generated.line ∧ 1 ≤ m.source.line) :
    read (map.json file) = some ⟨file, [map.source], nameTable (sorted map.mappings),
      (sorted map.mappings).map (map.source, ·)⟩ := by
  have hsorted := sorted_stablySorted map.mappings
  have hlines : ∀ m ∈ sorted map.mappings, 1 ≤ m.generated.line ∧ 1 ≤ m.source.line :=
    fun m hm => h m (hsorted.perm.mem_iff.1 hm)
  have hgrouped := grouped_byLine (nameTable (sorted map.mappings)) hsorted.pairwise
    (fun m hm => (hlines m hm).1)
    fun m hm => ⟨rfl, (hlines m hm).2, fun name hname => mem_nameTable.2 ⟨m, hm, hname⟩⟩
  have hsource := stringsOf?_strings [map.source]
  rw [List.map_singleton] at hsource
  rw [read, parse_json]
  simp [entries, field?, stringOf?, stringsOf?_strings, hsource,
    readMappings_mappingsText _ hgrouped]

/-- What is written for mappings reads back as the mappings, sorted stably by their generated
positions. Each name stands once and belongs to a mapping. -/
theorem json_round_trip (map : SourceMap) (file : String)
    (h : ∀ m ∈ map.mappings, 1 ≤ m.generated.line ∧ 1 ≤ m.source.line) :
    ∃ contents ms, read (map.json file) = some contents ∧ contents.file = file ∧
      contents.sources = [map.source] ∧ contents.mappings = ms.map (map.source, ·) ∧
      StablySorted map.mappings ms ∧ contents.names.Nodup ∧
      ∀ name ∈ contents.names, ∃ m ∈ ms, m.name = some name :=
  ⟨_, _, read_json map file h, rfl, rfl, rfl, sorted_stablySorted _, nameTable_nodup _,
    fun _ => mem_nameTable.1⟩

/-- Mappings out of order, with skipped lines, names that recur, and two of one position. -/
def recurring : SourceMap :=
  ⟨"a.ts", [⟨⟨5, 7⟩, ⟨1, 2⟩, some "x"⟩, ⟨⟨2, 4⟩, ⟨9, 40⟩, some "y"⟩, ⟨⟨5, 1⟩, ⟨3, 0⟩, none⟩,
    ⟨⟨2, 4⟩, ⟨1, 0⟩, some "x"⟩, ⟨⟨5, 7⟩, ⟨1, 2⟩, none⟩, ⟨⟨5, 9⟩, ⟨7, 3⟩, some "y"⟩]⟩

/-- A map in which a source position and a name recur is read back with both. -/
theorem recurring_round_trip :
    (∀ m ∈ recurring.mappings, 1 ≤ m.generated.line ∧ 1 ≤ m.source.line) ∧
      ∃ contents ms, read (recurring.json "a.js") = some contents ∧ contents.file = "a.js" ∧
        contents.sources = ["a.ts"] ∧ contents.mappings = ms.map ("a.ts", ·) ∧
        StablySorted recurring.mappings ms ∧ contents.names.Nodup ∧
        ∀ name ∈ contents.names, ∃ m ∈ ms, m.name = some name :=
  ⟨by decide, json_round_trip recurring "a.js" (by decide)⟩

end TypedLowering.SourceMap
