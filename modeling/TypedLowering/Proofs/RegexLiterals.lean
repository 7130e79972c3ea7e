import TypedLowering.Printing.Program
import TypedLowering.Proofs.JavaScript.Function
import TypedLowering.Proofs.JavaScript.RegularExpression
import TypedLowering.Proofs.ReturnDiscipline

/-!
# Regular expression literals read back

The pattern of a regular expression constant comes to the code as it is, between two slashes. So it
reads back exactly if the slashes of the code can be told from those of the pattern: if it is not
empty, has no line end, and each slash in it is escaped or stands in a class
(`regexConstant_readsBack`). Any other pattern, such as `a/b`, comes to a text that is no literal at
all (`bareSlash_isNoLiteral`).
-/

namespace TypedLowering.JavaScript

open Lower

variable {a : Alphabet} {n : Nat} {ctx : Context}

/-! ## Lowering and printing -/

/-- The constant of the intermediate language. -/
def Regex.constant (r : Regex) (loc : Option Ir.Location) : Ir.Expr :=
  .literal (.regex r.pattern r.flags) loc

/-- A constant is lowered in every context, and nothing else happens. -/
theorem lowerExpr_literal (value : Ir.Literal) (loc : Option Ir.Location) (ctx : Context)
    (s : LowerState) :
    lowerExpr ctx (.literal value loc) s =
      (.ok ((Expr.of (literalForm value)).withLoc loc), s) := by
  obtain ⟨depth, hdepth⟩ : ∃ depth, ctx.depth (.literal value loc) = depth + 1 := by
    refine Nat.exists_eq_add_one_of_ne_zero ?_
    rw [Context.depth]
    positivity
  rw [lowerExpr, hdepth]
  rfl

theorem Regex.constant_lowersTo (r : Regex) (ctx : Context) :
    LowersTo 1 ctx (r.constant none) (.of (.literal (.regex r.pattern r.flags))) :=
  ⟨.start .empty [] [], _, rfl⟩

/-- A literal is printed as its text, wherever it comes from. -/
theorem print_literal {e : Expr} {value : Literal} (h : e.form = .literal value)
    (options : PrintOptions) : e.print options = value.text := by
  obtain ⟨loc, form⟩ := e
  obtain rfl : form = .literal value := h
  rw [Expr.print, Expr.pieces, ExprForm.pieces]
  cases loc <;> exact String.empty_append

/-- What a constant is lowered to has its pattern and its flags between slashes. -/
theorem LowersTo.regex_print {r : Regex} {loc : Option Ir.Location} {e : Expr}
    (h : LowersTo n ctx (r.constant loc) e) (options : PrintOptions) :
    (e.print options).toList = r.text := by
  obtain ⟨m, s, t, code, hcore, hform⟩ := h.core rfl rfl
  obtain ⟨rfl, -⟩ := pure_eq_ok.1 hcore
  have hprint : e.print options = "/" ++ r.pattern ++ "/" ++ r.flags := print_literal hform options
  simp [hprint, Regex.text]

/-! ## Patterns between slashes -/

/-- Whether the slashes around a pattern can be told from what is in it. -/
structure Regex.Delimited (cs : List Char) : Prop where
  ne_nil : cs ≠ []
  oneLine : ∀ c ∈ cs, isLineEnd c = false
  /-- A slash is escaped or in a class. -/
  enclosed : ∀ before behind, cs = before ++ '/' :: behind →
    Place.outside.after before ≠ .outside

theorem Regex.Pattern.readable_iff {cs : List Char} (h : Pattern a cs) :
    Readable cs ↔ Delimited cs :=
  ⟨fun hread => ⟨hread.ne_nil, hread.body.oneLine, hread.body.enclosed⟩,
    fun hdelimited =>
      ⟨⟨hdelimited.oneLine, hdelimited.enclosed, h.outside⟩, hdelimited.ne_nil, h.noStar⟩⟩

/-- A constant with a valid pattern and valid flags is lowered in every context. Its code is a
literal for it, in front of anything that does not go on with its flags, if the slashes around the
pattern can be told from what is in it. Otherwise the code is not one literal, of whatever pattern
and flags. -/
theorem regexConstant_readsBack {r : Regex} (h : r.Valid a) :
    (∀ ctx loc s, ∃ e, lowerExpr ctx (r.constant loc) s = (.ok e, s)) ∧
    ∀ n ctx loc e, LowersTo n ctx (r.constant loc) e → ∀ options,
      (Regex.Delimited r.pattern.toList → ∀ rest, rest.head?.any a.isPart = false →
        Regex.read a ((e.print options).toList ++ rest) = some (r, rest)) ∧
      (¬Regex.Delimited r.pattern.toList → ∀ t,
        Regex.read a (e.print options).toList ≠ some (t, [])) := by
  refine ⟨fun ctx loc s => ⟨_, lowerExpr_literal _ loc ctx s⟩, fun n ctx loc e he options => ?_⟩
  rw [he.regex_print]
  refine ⟨fun hdelimited rest hrest => ?_, fun hnot t hread => hnot ?_⟩
  · exact Regex.read_eq_some.2 ⟨rfl, h.pattern.readable_iff.2 hdelimited, h.letters, hrest⟩
  · obtain ⟨htext, hreadable, hletters, -⟩ := Regex.read_eq_some.1 hread
    rw [List.append_nil] at htext
    obtain rfl := Regex.eq_of_text_eq h.letters hletters htext
    exact h.pattern.readable_iff.1 hreadable

/-! ### Patterns with slashes -/

/-- Slashes of which one is in a class, behind a bracket that is escaped, and one is escaped. -/
def enclosedSlashes : Regex := ⟨"[\\]/]+\\/", "gi"⟩

/-- An expression with an escaped slash and one in a class reads back. -/
theorem enclosedSlashes_readBack : enclosedSlashes.Valid .ascii ∧
    ∃ e, LowersTo 1 (.ofFile bareFile) (enclosedSlashes.constant none) e ∧
      e.print .default = "/[\\]/]+\\//gi" ∧
      Regex.read .ascii ((e.print .default).toList ++ [';']) = some (enclosedSlashes, [';']) := by
  have hvalid : enclosedSlashes.Valid .ascii :=
    ⟨.cls (.escape ']' (.char (by decide) .nil)) (.sign (by decide)) (.escape '/' .once .nil),
      List.forall_iff_forall_mem.mp (by decide), by decide, by decide⟩
  have hbody : Regex.readBody .outside (enclosedSlashes.pattern.toList ++ ['/']) =
      some (enclosedSlashes.pattern.toList, []) := by
    decide +kernel
  have hdelimited : Regex.Delimited enclosedSlashes.pattern.toList :=
    hvalid.pattern.readable_iff.1 ⟨(Regex.readBody_eq_some.1 hbody).2, by decide, by decide⟩
  have hlowers := enclosedSlashes.constant_lowersTo (.ofFile bareFile)
  refine ⟨hvalid, _, hlowers, by decide +kernel, ?_⟩
  exact ((regexConstant_readsBack hvalid).2 1 _ none _ hlowers .default).1 hdelimited [';'] rfl

/-- Whether a constant is lowered to this text, and the text is not one literal, of whatever pattern
and flags. -/
def Regex.IsMisread (r : Regex) (text : String) : Prop :=
  ∃ e, LowersTo 1 (.ofFile bareFile) (r.constant none) e ∧ e.print .default = text ∧
    ∀ t, Regex.read .ascii text.toList ≠ some (t, [])

theorem Regex.isMisread_of_read {r : Regex} {text : String} (htext : r.text = text.toList)
    (hread : (Regex.read .ascii text.toList).all (·.2 != []) = true) : r.IsMisread text := by
  have hlowers := r.constant_lowersTo (.ofFile bareFile)
  refine ⟨_, hlowers, String.toList_inj.1 ((hlowers.regex_print _).trans htext), fun t ht => ?_⟩
  rw [ht] at hread
  cases hread

/-- The empty pattern comes to the front of a comment, a slash ends the literal too early, and a
line end may not stand in it. -/
theorem bareSlash_isNoLiteral :
    (Regex.Valid .ascii ⟨"", "g"⟩ ∧ Regex.IsMisread ⟨"", "g"⟩ "//g") ∧
    (Regex.Valid .ascii ⟨"a/b", "g"⟩ ∧ Regex.IsMisread ⟨"a/b", "g"⟩ "/a/b/g") ∧
    (Regex.Valid .ascii ⟨"a\nb", "g"⟩ ∧ Regex.IsMisread ⟨"a\nb", "g"⟩ "/a\nb/g") := by
  have hvalid : ∀ {pattern : String}, (∀ c ∈ pattern.toList, c ∉ Regex.syntaxCharacters) →
      Regex.Valid .ascii ⟨pattern, "g"⟩ := fun hchars =>
    ⟨.of_chars hchars, by simp, by simp, by simp⟩
  refine ⟨⟨hvalid ?_, Regex.isMisread_of_read rfl (by decide +kernel)⟩,
    ⟨hvalid ?_, Regex.isMisread_of_read rfl (by decide +kernel)⟩,
    ⟨hvalid ?_, Regex.isMisread_of_read rfl (by decide +kernel)⟩⟩ <;>
    simp [Regex.syntaxCharacters]

end TypedLowering.JavaScript
