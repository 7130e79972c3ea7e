import TypedLowering.Proofs.TemplateIndentation

/-!
# The segments of a template tile it

A template without groups and lists is the concatenation of one part for each of its segments
(`expandTemplate_tiles`). A part is a text, which is its segment, or a reference with the `!` that
belongs to it, which becomes its argument, the text of its argument, or `undefined`. Parts are as
long as they can be: no reference starts within a text, all digits at a place belong to one
reference, and so does a `!` behind them unless `=` follows it.
-/

namespace TypedLowering.JavaScript.Template

/-- A part of a template. -/
inductive Part where
  | text (cs : List Char)
  /-- A reference, by the digits of its index. It is raw if the `!` behind it belongs to it. -/
  | reference (digits : List Char) (isRaw : Bool)
  deriving DecidableEq, Repr

/-- Whether a text starts with a reference. -/
def StartsReference (cs : List Char) : Prop :=
  ∃ d rest, cs = '$' :: d :: rest ∧ isIndexDigit d = true

/-- Whether no reference starts within a text in front of `rest`. -/
def NoReference (cs rest : List Char) : Prop :=
  ∀ front back, cs = front ++ back → back ≠ [] → ¬ StartsReference (back ++ rest)

namespace Part

/-- The characters of a part. -/
def chars : Part → List Char
  | text cs => cs
  | reference digits isRaw => '$' :: (digits ++ if isRaw then ['!'] else [])

/-- Whether the part has everything that belongs to it where `rest` follows. A text goes up to the
next reference. -/
def Fits (rest : List Char) : Part → Prop
  | text cs => cs ≠ [] ∧ NoReference cs rest ∧ (rest = [] ∨ StartsReference rest)
  | reference digits isRaw =>
    digits ≠ [] ∧ (∀ d ∈ digits, isIndexDigit d = true) ∧
      if isRaw then rest.head? ≠ some '='
      else
        rest.head?.any isIndexDigit = false ∧
          (rest.head? = some '!' → rest.tail.head? = some '=')

end Part

/-- Parts that make up a template, one behind the other. -/
inductive Tiles : List Part → List Char → Prop
  | nil : Tiles [] []
  | cons {p : Part} {ps : List Part} {rest : List Char} (hfits : p.Fits rest)
    (h : Tiles ps rest) : Tiles (p :: ps) (p.chars ++ rest)

theorem Tiles.eq_flatMap {ps : List Part} {cs : List Char} (h : Tiles ps cs) :
    cs = ps.flatMap Part.chars := by
  induction h with
  | nil => rfl
  | cons _ _ ih => rw [List.flatMap_cons, ← ih]

/-- Whether digits spell an index, which has at most 64 bits. -/
def Spells (digits : List Char) (i : Nat) : Prop :=
  (∀ d ∈ digits, d.isDigit = true) ∧ Nat.ofDigitChars 10 digits 0 = i ∧ i < 0x10000000000000000

/-- What a part becomes. -/
inductive Renders (args : List Expr) : Part → Segment → Prop
  | text (cs : List Char) : Renders args (.text cs) (.text (String.ofList cs))
  | missing {digits : List Char} {isRaw : Bool}
    (hmissing : ∀ i, Spells digits i → args.length ≤ i) :
    Renders args (.reference digits isRaw) (.text "undefined")
  | inlined {digits : List Char} {i : Nat} {arg : Expr} {value : String}
    (hindex : Spells digits i) (harg : args[i]? = some arg)
    (hform : arg.form = .literal (.string value)) :
    Renders args (.reference digits true) (.text value)
  | argument {digits : List Char} {isRaw : Bool} {i : Nat} {arg : Expr} (isWrapped : Bool)
    (hindex : Spells digits i) (harg : args[i]? = some arg)
    (hform : isRaw = true → ∀ value, arg.form ≠ .literal (.string value)) :
    Renders args (.reference digits isRaw) (.arg i isWrapped)

variable {args : List Expr} {cs : List Char}

/-! ## References -/

theorem startsReference_cons (c : Char) (cs : List Char) :
    StartsReference (c :: cs) ↔ c = '$' ∧ cs.takeWhile isIndexDigit ≠ [] := by
  constructor
  · rintro ⟨d, rest, heq, hd⟩
    obtain ⟨rfl, rfl⟩ := List.cons.inj heq
    exact ⟨rfl, by simp [hd]⟩
  · rintro ⟨rfl, hdigits⟩
    cases cs with
    | nil => exact absurd rfl hdigits
    | cons d rest =>
      refine ⟨d, rest, rfl, ?_⟩
      by_contra hd
      exact hdigits (List.takeWhile_cons_of_neg hd)

theorem noReference_nil (rest : List Char) : NoReference [] rest := fun _ _ hnil hback =>
  absurd (List.append_eq_nil_iff.1 hnil.symm).2 hback

/-- Whether a mark is set, by the characters that follow. -/
theorem isRawMark_iff (cs : List Char) :
    isRawMark cs = true ↔ ∃ rest, cs = '!' :: rest ∧ rest.head? ≠ some '=' := by
  cases cs with
  | nil => simp [isRawMark]
  | cons c cs =>
    by_cases hc : c = '!'
    · subst hc
      cases cs with
      | nil => simp [isRawMark]
      | cons d cs => by_cases hd : d = '=' <;> simp [isRawMark, hd]
    · simp [isRawMark, hc]

theorem equals_of_not_isRawMark (h : isRawMark cs = false) (hmark : cs.head? = some '!') :
    cs.tail.head? = some '=' := by
  obtain ⟨rest, rfl⟩ := List.head?_eq_some_iff.1 hmark
  by_contra hne
  rw [(isRawMark_iff _).2 ⟨rest, rfl, hne⟩] at h
  cases h

/-- A reference has all digits at its place, and the mark behind them if it is set. -/
theorem reference_fits (hdigits : cs.takeWhile isIndexDigit ≠ []) :
    let p := Part.reference (cs.takeWhile isIndexDigit) (isRawMark (cs.dropWhile isIndexDigit))
    '$' :: cs = p.chars ++ behindRef cs ∧ p.Fits (behindRef cs) := by
  have hsplit := List.takeWhile_append_dropWhile (p := isIndexDigit) (l := cs)
  have hall : ∀ d ∈ cs.takeWhile isIndexDigit, isIndexDigit d = true :=
    fun d => List.mem_takeWhile_imp
  cases hraw : isRawMark (cs.dropWhile isIndexDigit) with
  | true =>
    obtain ⟨rest, hrest, hequals⟩ := (isRawMark_iff _).1 hraw
    have hbehind : behindRef cs = rest := by
      rw [behindRef, hraw, hrest]
      rfl
    refine ⟨?_, hdigits, hall, by rwa [if_pos rfl, hbehind]⟩
    rw [hbehind, Part.chars, if_pos rfl, List.cons_append, List.append_assoc,
      List.singleton_append, ← hrest, hsplit]
  | false =>
    have hbehind : behindRef cs = cs.dropWhile isIndexDigit := by
      rw [behindRef, hraw]
      rfl
    have hdigit : (cs.dropWhile isIndexDigit).head?.any isIndexDigit = false := by
      grind [List.head?_dropWhile_not]
    refine ⟨?_, hdigits, hall, ?_⟩
    · rw [hbehind, Part.chars, if_neg Bool.false_ne_true, List.append_nil, List.cons_append, hsplit]
    · rw [if_neg Bool.false_ne_true, hbehind]
      exact ⟨hdigit, equals_of_not_isRawMark hraw⟩

theorem index?_eq_some {digits : List Char} {i : Nat} :
    index? digits = some i ↔ Spells digits i := by
  rw [index?, ← Nat.ofDigitChars_eq_foldl, Spells, ← List.all_eq_true]
  dsimp only
  constructor
  · intro h
    split_ifs at h with hdigits hbound
    obtain rfl := Option.some.inj h
    exact ⟨hdigits, rfl, hbound⟩
  · rintro ⟨hdigits, rfl, hbound⟩
    rw [if_pos hdigits, if_pos hbound]

theorem resolve_renders (opened closed : Bool) (digits : List Char) (isRaw : Bool) :
    Renders args (.reference digits isRaw) (resolve args opened closed digits isRaw) := by
  rw [resolve]
  split
  · rename_i hnone
    refine .missing fun i hi => ?_
    by_contra hlt
    have harg := List.getElem?_eq_getElem (Nat.lt_of_not_le hlt)
    rw [argument?_eq_some.2 ⟨index?_eq_some.2 hi, harg⟩] at hnone
    cases hnone
  · rename_i i arg hsome
    obtain ⟨hindex, harg⟩ := argument?_eq_some.1 hsome
    rw [index?_eq_some] at hindex
    split
    · rename_i value hform
      exact .inlined hindex harg hform
    · rename_i hform
      refine .argument _ hindex harg fun hraw value hvalue => ?_
      exact hform value hraw hvalue

/-! ## Templates without groups and lists -/

theorem expandGroups_eq_self (h : ¬ ['\x7b', '\x7b'] <:+: cs) : expandGroups args 0 cs = cs := by
  induction cs with
  | nil => rfl
  | cons c cs ih =>
    have hopen : ¬ ['\x7b', '\x7b'].isPrefixOf (c :: cs) := fun hprefix =>
      h (List.isPrefixOf_iff_prefix.1 hprefix).isInfix
    rw [expandGroups_cons, groupAt?_eq, if_neg hopen]
    exact congrArg (c :: ·) (ih fun hpart => h (hpart.trans (List.suffix_cons c cs).isInfix))

/-- Whether a text is a list: a reference and three dots. -/
def IsList (cs : List Char) : Prop :=
  ∃ digits, digits ≠ [] ∧ (∀ d ∈ digits, isIndexDigit d = true) ∧
    cs = '$' :: (digits ++ ['.', '.', '.'])

theorem expandLists_eq_self (count : Nat) (h : ∀ list, IsList list → ¬ list <:+: cs) :
    expandLists count 0 cs = cs := by
  induction cs with
  | nil => rfl
  | cons c cs ih =>
    have hlist : ¬ (c = '$' ∧ cs.takeWhile isIndexDigit ≠ [] ∧
        ['.', '.', '.'].isPrefixOf (cs.dropWhile isIndexDigit)) := by
      rintro ⟨rfl, hdigits, hdots⟩
      have hprefix := (List.prefix_append_right_inj (cs.takeWhile isIndexDigit)).2
        (List.isPrefixOf_iff_prefix.1 hdots)
      rw [List.takeWhile_append_dropWhile] at hprefix
      exact h _ ⟨_, hdigits, fun d => List.mem_takeWhile_imp, rfl⟩
        (List.cons_prefix_cons.2 ⟨rfl, hprefix⟩).isInfix
    rw [expandLists_cons, if_neg hlist]
    exact congrArg (c :: ·) (ih fun list hlist hpart =>
      h list hlist (hpart.trans (List.suffix_cons c cs).isInfix))

/-! ## Segments -/

/-- The text that was read since the last reference is a part of its own, unless it is empty. -/
theorem flush_tiles {pending rest : List Char} {ps : List Part} {segs : List Segment}
    (hplain : NoReference pending.reverse rest) (hrest : rest = [] ∨ StartsReference rest)
    (htiles : Tiles ps rest) (hrenders : List.Forall₂ (Renders args) ps segs) :
    ∃ qs, Tiles qs (pending.reverse ++ rest) ∧
      List.Forall₂ (Renders args) qs (flush pending ++ segs) := by
  cases pending with
  | nil => exact ⟨ps, htiles, hrenders⟩
  | cons c pending =>
    have hne : (c :: pending).reverse ≠ [] := by simp
    exact ⟨.text (c :: pending).reverse :: ps, .cons ⟨hne, hplain, hrest⟩ htiles,
      .cons (.text _) hrenders⟩

/-- The segments of a template tile it, behind the text that was read since the last reference. -/
theorem segments_tile {pending : List Char} (hplain : NoReference pending.reverse cs) :
    ∃ ps, Tiles ps (pending.reverse ++ cs) ∧
      List.Forall₂ (Renders args) ps (segments args pending (tokens 0 cs)) := by
  induction hn : cs.length using Nat.strongRecOn generalizing cs pending with
  | ind n ih =>
    cases cs with
    | nil =>
      have hflush := flush_tiles hplain (.inl rfl) .nil (@List.Forall₂.nil _ _ (Renders args))
      simpa [tokens, segments] using hflush
    | cons c cs =>
      rw [List.length_cons] at hn
      by_cases hreference : StartsReference (c :: cs)
      · obtain ⟨rfl, hdigits⟩ := (startsReference_cons c cs).1 hreference
        have hshort := behindRef_length cs
        obtain ⟨hsplit, hfits⟩ := reference_fits hdigits
        obtain ⟨ps, htiles, hrenders⟩ := @ih (behindRef cs).length (by omega) _ []
          (noReference_nil _) rfl
        rw [tokens_cons, if_pos ⟨rfl, hdigits⟩, segments]
        refine flush_tiles hplain (.inr hreference) ?_ (.cons (resolve_renders _ _ _ _) hrenders)
        rw [hsplit]
        exact .cons hfits htiles
      · have hchar := mt (startsReference_cons c cs).2 hreference
        rw [tokens_cons, if_neg hchar, segments, List.append_cons, ← List.reverse_cons]
        refine ih cs.length (by omega) (fun front back hsplit hback => ?_) rfl
        obtain ⟨back, d, rfl⟩ := (List.eq_nil_or_concat' back).resolve_left hback
        rw [List.reverse_cons, ← List.append_assoc] at hsplit
        obtain ⟨hpending, hd⟩ := List.append_inj' hsplit rfl
        obtain rfl : c = d := List.singleton_inj.1 hd
        rw [List.append_assoc, List.singleton_append]
        cases back with
        | nil => exact hreference
        | cons b back => exact hplain front (b :: back) hpending (List.cons_ne_nil _ _)

theorem index_lt_of_renders {ps : List Part} {segs : List Segment}
    (h : List.Forall₂ (Renders args) ps segs) {i : Nat} {isWrapped : Bool}
    (hmem : .arg i isWrapped ∈ segs) : i < args.length := by
  induction h with
  | nil => cases hmem
  | cons hrenders _ ih =>
    rcases List.mem_cons.1 hmem with rfl | hmem
    · cases hrenders with
      | argument _ _ harg => exact (List.getElem?_eq_some_iff.1 harg).1
    · exact ih hmem

/-- A template without groups and lists is the concatenation of one part for each of its segments. A
part is a text, which is its segment, or a reference with the `!` that belongs to it, which becomes
its argument, the text of its argument, or `undefined`. All parts are as long as they can be, and a
`!` in front of `=` belongs to no reference. The indices of arguments are below their number. -/
theorem expandTemplate_tiles {template : String} (args : List Expr)
    (hgroups : ¬ ['\x7b', '\x7b'] <:+: template.toList)
    (hlists : ∀ list, IsList list → ¬ list <:+: template.toList) :
    ∃ ps, template.toList = ps.flatMap Part.chars ∧ Tiles ps template.toList ∧
      List.Forall₂ (Renders args) ps (expandTemplate template args) ∧
      ∀ i isWrapped, .arg i isWrapped ∈ expandTemplate template args → i < args.length := by
  obtain ⟨ps, htiles, hrenders⟩ :=
    @segments_tile args template.toList [] (noReference_nil template.toList)
  rw [List.reverse_nil, List.nil_append] at htiles
  have hexpand : expandTemplate template args = segments args [] (tokens 0 template.toList) := by
    rw [expandTemplate, expandGroups_eq_self hgroups, expandLists_eq_self _ hlists]
  rw [hexpand]
  exact ⟨ps, htiles.eq_flatMap, htiles, hrenders, fun _ _ => index_lt_of_renders hrenders⟩

/-- References side by side, with marks, a mark in front of `=`, and an index without argument. -/
theorem markedTemplate_tiles :
    let template := "$0!($1$2!=$9!)"
    let args : List Expr := [.string "g", .ident "x", .number 1]
    ¬ ['\x7b', '\x7b'] <:+: template.toList ∧
      (∀ list, IsList list → ¬ list <:+: template.toList) ∧
      expandTemplate template args = [.text "g", .text "(", .arg 1 false, .arg 2 false,
        .text "!=", .text "undefined", .text ")"] ∧
      ∃ ps, template.toList = ps.flatMap Part.chars ∧ Tiles ps template.toList ∧
        List.Forall₂ (Renders args) ps (expandTemplate template args) ∧
        ∀ i isWrapped, .arg i isWrapped ∈ expandTemplate template args → i < 3 := by
  intro template args
  have hgroups : ¬ ['\x7b', '\x7b'] <:+: template.toList := fun h =>
    absurd (h.subset List.mem_cons_self) (by decide)
  have hlists : ∀ list, IsList list → ¬ list <:+: template.toList := by
    rintro _ ⟨digits, -, -, rfl⟩ h
    have hdot : '.' ∈ '$' :: (digits ++ ['.', '.', '.']) := by simp
    exact absurd (h.subset hdot) (by decide)
  exact ⟨hgroups, hlists, by decide +kernel, expandTemplate_tiles args hgroups hlists⟩

end TypedLowering.JavaScript.Template
