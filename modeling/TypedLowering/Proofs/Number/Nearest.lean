import Mathlib.Algebra.Group.Nat.Defs
import Mathlib.Algebra.Order.Field.Power
import Mathlib.Data.Rat.Cast.Order
import Mathlib.Tactic.Linarith
import Mathlib.Tactic.LinearCombination
import Mathlib.Tactic.Ring
import TypedLowering.Number.Binary64
import TypedLowering.Number.Shortest

/-!
# The nearest double

A decimal literal denotes the double nearest to it. Doubles are ordered like their words
(`magnitude_strictMono`), so a decimal denotes at most one double (`IsNearest.unique`), and it
denotes the double in whose rounding interval it lies (`isNearest_of_contains`).
-/

namespace TypedLowering.Binary64

/-! ## Words and what they stand for -/

/-- The significand in a word without sign. -/
def significandOf (w : Nat) : Nat :=
  if w / exponentUnit = 0 then w else exponentUnit + w % exponentUnit

/-- The exponent of the power of two in a word without sign. -/
def scaleOf (w : Nat) : Int :=
  (if w / exponentUnit = 0 then (1 : Int) else (w / exponentUnit : Nat)) - 1075

/-- The parity of a significand is that of its word. -/
theorem significandOf_mod_two (w : Nat) : significandOf w % 2 = w % 2 := by
  rw [significandOf]
  split
  · rfl
  · simp only [exponentUnit]
    omega

/-- What a word without sign stands for. The word of infinity comes to `2 ^ 1024`, the number that
takes its place in roundings. -/
def magnitude (w : Nat) : ℚ := significandOf w * 2 ^ scaleOf w

/-- The magnitude of a number. -/
def value (x : Binary64) : ℚ := x.significand * 2 ^ x.scale

/-- The exponent of a word without a sign is its upper part. -/
theorem exponentBits_of_le {x : Binary64} (h : x.word ≤ infinity.word) :
    x.exponentBits = x.word / exponentUnit := by
  have hinf : infinity.word = 2047 * exponentUnit := rfl
  rw [exponentBits, Nat.mod_eq_of_lt]
  rw [hinf] at h
  simp only [exponentUnit] at *
  omega

/-- The significand of a word is that of the number. -/
theorem significandOf_word {x : Binary64} (h : x.word ≤ infinity.word) :
    significandOf x.word = x.significand := by
  rw [significandOf, significand, exponentBits_of_le h, fractionBits]
  by_cases h0 : x.word / exponentUnit = 0
  · have hlt : x.word < exponentUnit := (Nat.div_eq_zero_iff.1 h0).resolve_left (by decide)
    rw [if_pos h0, if_pos h0, Nat.mod_eq_of_lt hlt]
  · rw [if_neg h0, if_neg h0]

/-- The scale of a word is that of the number. -/
theorem scaleOf_word {x : Binary64} (h : x.word ≤ infinity.word) : scaleOf x.word = x.scale := by
  rw [scaleOf, scale, exponentBits_of_le h]

/-- The value of a number without a sign is the magnitude of its word. -/
theorem value_eq_magnitude {x : Binary64} (h : x.word ≤ infinity.word) :
    x.value = magnitude x.word := by
  rw [value, magnitude, significandOf_word h, scaleOf_word h]

/-- A number is made of its word. -/
theorem word_ofNat {w : Nat} (h : w ≤ infinity.word) : (⟨UInt64.ofNat w⟩ : Binary64).word = w := by
  have hinf : infinity.word < 2 ^ 64 := by decide
  exact UInt64.toNat_ofNat_of_lt' (Nat.lt_of_le_of_lt h hinf)

/-- Numbers with the same word are the same. -/
theorem word_injective {x y : Binary64} (h : x.word = y.word) : x = y := by
  cases x
  cases y
  exact congrArg mk (UInt64.toNat_inj.1 h)

/-- A power of two is positive. -/
theorem two_zpow_pos (s : Int) : (0 : ℚ) < 2 ^ s := zpow_pos (by norm_num) s

/-- The next word has the next significand, or it is a power of two, with half of the next
significand at the next scale. -/
theorem significandOf_succ (w : Nat) :
    significandOf (w + 1) = significandOf w + 1 ∧ scaleOf (w + 1) = scaleOf w ∨
      2 * significandOf (w + 1) = significandOf w + 1 ∧ scaleOf (w + 1) = scaleOf w + 1 ∧
        significandOf (w + 1) = exponentUnit := by
  have hdiv : (w + 1) / exponentUnit = w / exponentUnit ∧
        (w + 1) % exponentUnit = w % exponentUnit + 1 ∨
      (w + 1) / exponentUnit = w / exponentUnit + 1 ∧ (w + 1) % exponentUnit = 0 ∧
        w % exponentUnit + 1 = exponentUnit := by
    simp only [exponentUnit]
    omega
  have hw := Nat.div_add_mod w exponentUnit
  rw [significandOf, significandOf, scaleOf, scaleOf]
  rcases hdiv with ⟨hdiv, hmod⟩ | ⟨hdiv, hmod, hlast⟩
  · left
    rw [hdiv, hmod]
    by_cases h0 : w / exponentUnit = 0
    · rw [if_pos h0, if_pos h0]
      exact ⟨rfl, rfl⟩
    · rw [if_neg h0, if_neg h0]
      exact ⟨rfl, rfl⟩
  · rw [hdiv, hmod, if_neg (Nat.succ_ne_zero _), if_neg (Nat.succ_ne_zero _)]
    by_cases h0 : w / exponentUnit = 0
    · -- The first normal number is on the scale of the numbers below it.
      left
      rw [h0, if_pos rfl, if_pos rfl]
      rw [h0] at hw
      constructor <;> omega
    · right
      rw [if_neg h0, if_neg h0]
      refine ⟨?_, ?_, rfl⟩ <;> omega

/-- The next word stands for the next number on the scale. -/
theorem magnitude_succ (w : Nat) : magnitude (w + 1) = magnitude w + 2 ^ scaleOf w := by
  rw [magnitude, magnitude]
  rcases significandOf_succ w with ⟨hsig, hscale⟩ | ⟨hsig, hscale, -⟩
  · rw [hsig, hscale, Nat.cast_succ, add_mul, one_mul]
  · have hcast : (2 : ℚ) * significandOf (w + 1) = significandOf w + 1 := by exact_mod_cast hsig
    rw [hscale, zpow_add_one₀ (by norm_num)]
    linear_combination 2 ^ scaleOf w * hcast

/-- Greater words have greater magnitudes. -/
theorem magnitude_strictMono : StrictMono magnitude :=
  strictMono_nat_of_lt_succ fun w => by
    rw [magnitude_succ]
    exact lt_add_of_pos_right _ (two_zpow_pos _)

/-! ## Rounding -/

/-- Whether `x` is what the number `q` is rounded to: the nearest of the doubles from zero to
infinity, which takes the place of `2 ^ 1024`, and the even one of two that are as near. -/
structure IsNearest (q : ℚ) (x : Binary64) : Prop where
  finite : x.isFinite = true
  positive : x.signBit = false
  nearest : ∀ y : Binary64, y.word ≤ infinity.word → |q - x.value| ≤ |q - y.value|
  even : ∀ y : Binary64, y.word ≤ infinity.word → y ≠ x → |q - x.value| = |q - y.value| →
    x.word % 2 = 0

/-- A number without sign that is finite has a word below that of infinity. -/
theorem word_lt_infinity {x : Binary64} (hfinite : x.isFinite = true) (hsign : x.signBit = false) :
    x.word < infinity.word := by
  have hinf : infinity.word = 2047 * exponentUnit := rfl
  have hbits : x.exponentBits ≠ 2047 := by simpa [isFinite] using hfinite
  have hlow : x.word < signUnit := by simpa [signBit] using hsign
  simp only [exponentBits, exponentUnit, signUnit] at *
  omega

/-- No number lies as near as both of two doubles that are not neighbours, or nearer to none. -/
theorem exists_nearer {v w : Nat} {q : ℚ} (h : v + 1 < w)
    (hq : |q - magnitude v| = |q - magnitude w|) :
    |q - magnitude (v + 1)| < |q - magnitude v| := by
  have hlow : magnitude v < magnitude (v + 1) := magnitude_strictMono (Nat.lt_succ_self v)
  have hhigh : magnitude (v + 1) < magnitude w := magnitude_strictMono h
  rcases abs_eq_abs.1 hq with hq | hq
  · linarith
  · rw [abs_lt, abs_of_pos (by linarith)]
    constructor <;> linarith

/-- Rounding has one result. -/
theorem IsNearest.unique {q : ℚ} {x y : Binary64} (hx : IsNearest q x) (hy : IsNearest q y) :
    x = y := by
  by_contra hne
  have hxw := word_lt_infinity hx.finite hx.positive
  have hyw := word_lt_infinity hy.finite hy.positive
  have heq : |q - x.value| = |q - y.value| :=
    le_antisymm (hx.nearest y hyw.le) (hy.nearest x hxw.le)
  have hxeven := hx.even y hyw.le (Ne.symm hne) heq
  have hyeven := hy.even x hxw.le hne heq.symm
  rw [value_eq_magnitude hxw.le, value_eq_magnitude hyw.le] at heq
  -- Two even words are not neighbours, and the word after the lower one is nearer.
  have key : ∀ {v w : Binary64}, IsNearest q v → v.word < w.word → v.word % 2 = 0 →
      w.word % 2 = 0 → w.word < infinity.word → |q - magnitude v.word| = |q - magnitude w.word| →
      False := by
    intro v w hv hlt hveven hweven hw heq
    have hnext : v.word + 1 ≤ infinity.word := by omega
    have hnearer := exists_nearer (by omega : v.word + 1 < w.word) heq
    have hle := hv.nearest ⟨UInt64.ofNat (v.word + 1)⟩ (by rw [word_ofNat hnext]; exact hnext)
    rw [value_eq_magnitude (by omega), value_eq_magnitude (by rw [word_ofNat hnext]; exact hnext),
      word_ofNat hnext] at hle
    exact absurd hnearer (not_lt.2 hle)
  rcases Nat.lt_trichotomy x.word y.word with hlt | hword | hlt
  · exact key hx hlt hxeven hyeven hyw heq
  · exact hne (word_injective hword)
  · exact key hy hlt hyeven hxeven hxw heq.symm

/-! ## Rounding intervals -/

/-- Whether a number lies in the interval. -/
def Interval.Contains (i : Interval) (q : ℚ) : Prop :=
  if i.closed then
    (i.value - i.below : ℚ) ≤ q * i.denominator ∧ q * i.denominator ≤ i.value + i.above
  else (i.value - i.below : ℚ) < q * i.denominator ∧ q * i.denominator < i.value + i.above

/-- Shifts by an exponent and its opposite multiply by the power of two. -/
theorem shiftLeft_eq_zpow (e : Int) :
    ((1 <<< e.toNat : ℕ) : ℚ) = 2 ^ e * (1 <<< (-e).toNat : ℕ) := by
  rw [Nat.one_shiftLeft, Nat.one_shiftLeft]
  rcases Int.le_total 0 e with h | h
  · obtain ⟨n, rfl⟩ := Int.eq_ofNat_of_zero_le h
    simp
  · obtain ⟨n, hn⟩ := Int.exists_eq_neg_ofNat h
    subst hn
    simp

/-- How far the interval of a number reaches down: half of the way to the next number, or at least
half of it below a power of two. -/
def halfBelow (x : Binary64) : ℚ :=
  2 ^ (x.scale - if x.significand = exponentUnit then 2 else 1)

/-- How far the interval of a number reaches up: half of the way to the next number. -/
def halfAbove (x : Binary64) : ℚ := 2 ^ (x.scale - 1)

/-- The denominator of a rounding interval is positive. -/
theorem interval_denominator_pos (x : Binary64) : 0 < x.interval.denominator := by
  simp [interval, Nat.one_shiftLeft]

/-- The lower part of a rounding interval is half of the distance to the number below. -/
theorem interval_below (x : Binary64) :
    (x.interval.below : ℚ) = x.halfBelow * x.interval.denominator :=
  shiftLeft_eq_zpow _

/-- The upper part of a rounding interval is half of the distance to the number above. -/
theorem interval_above (x : Binary64) :
    (x.interval.above : ℚ) = x.halfAbove * x.interval.denominator := by
  rw [interval, halfAbove]
  push_cast
  rw [shiftLeft_eq_zpow]
  by_cases hpower : x.significand = exponentUnit
  · have hscale : x.scale - 1 = x.scale - 2 + 1 := by omega
    rw [if_pos hpower, if_pos hpower, hscale, zpow_add_one₀ two_ne_zero]
    generalize 1 <<< (-(x.scale - 2)).toNat = denominator
    push_cast
    ring
  · rw [if_neg hpower, if_neg hpower]
    generalize 1 <<< (-(x.scale - 1)).toNat = denominator
    push_cast
    ring

/-- The value in a rounding interval is that of the number. -/
theorem interval_value (x : Binary64) :
    (x.interval.value : ℚ) = x.value * x.interval.denominator := by
  rw [interval, value]
  push_cast
  rw [shiftLeft_eq_zpow]
  by_cases hpower : x.significand = exponentUnit
  · have hscale : x.scale = x.scale - 2 + 1 + 1 := by omega
    rw [if_pos hpower, if_pos hpower]
    generalize 1 <<< (-(x.scale - 2)).toNat = denominator
    conv_rhs => rw [hscale, zpow_add_one₀ two_ne_zero, zpow_add_one₀ two_ne_zero]
    push_cast
    ring
  · have hscale : x.scale = x.scale - 1 + 1 := by omega
    rw [if_neg hpower, if_neg hpower]
    generalize 1 <<< (-(x.scale - 1)).toNat = denominator
    conv_rhs => rw [hscale, zpow_add_one₀ two_ne_zero]
    push_cast
    ring

/-- The interval around a number, without the denominator. -/
theorem interval_contains_iff (x : Binary64) (q : ℚ) :
    x.interval.Contains q ↔
      if x.significand % 2 = 0 then x.value - x.halfBelow ≤ q ∧ q ≤ x.value + x.halfAbove
      else x.value - x.halfBelow < q ∧ q < x.value + x.halfAbove := by
  have hpos : (0 : ℚ) < x.interval.denominator := by exact_mod_cast x.interval_denominator_pos
  have hclosed : x.interval.closed = (x.significand % 2 == 0) := rfl
  rw [Interval.Contains, interval_value, interval_below, interval_above, ← sub_mul, ← add_mul,
    hclosed]
  simp only [mul_le_mul_iff_left₀ hpos, mul_lt_mul_iff_left₀ hpos, beq_iff_eq]

/-- The number above is not nearer than twice the distance to the end of the interval. -/
theorem value_above {x y : Binary64} (hy : y.word ≤ infinity.word) (h : x.word < y.word) :
    x.value + 2 * x.halfAbove ≤ y.value := by
  have hx : x.word ≤ infinity.word := by omega
  have hstep : x.value + 2 * x.halfAbove = magnitude (x.word + 1) := by
    have hscale : x.scale = x.scale - 1 + 1 := by omega
    rw [magnitude_succ, ← value_eq_magnitude hx, scaleOf_word hx, halfAbove]
    conv_rhs => rw [hscale, zpow_add_one₀ two_ne_zero]
    ring
  rw [hstep, value_eq_magnitude hy]
  exact magnitude_strictMono.monotone h

/-- Nor is the number below. -/
theorem value_below {x y : Binary64} (hx : x.word ≤ infinity.word) (h : y.word < x.word) :
    y.value ≤ x.value - 2 * x.halfBelow := by
  obtain ⟨w, hw⟩ : ∃ w, x.word = w + 1 := ⟨x.word - 1, by omega⟩
  have hscale := scaleOf_word hx
  have hsig := significandOf_word hx
  have hgap : 2 * x.halfBelow ≤ 2 ^ scaleOf w := by
    rw [halfBelow, mul_comm, ← zpow_add_one₀ two_ne_zero]
    refine zpow_le_zpow_right₀ one_le_two ?_
    rw [hw] at hscale hsig
    rcases significandOf_succ w with ⟨-, hstep⟩ | ⟨-, hstep, hpower⟩
    · split_ifs <;> omega
    · rw [if_pos (hsig.symm.trans hpower)]
      omega
  have hle : magnitude y.word ≤ magnitude w := magnitude_strictMono.monotone (by omega)
  rw [value_eq_magnitude (by omega), value_eq_magnitude hx, hw, magnitude_succ]
  linarith

/-- A number in the rounding interval of a double is rounded to the double. -/
theorem isNearest_of_contains {x : Binary64} {q : ℚ} (hfinite : x.isFinite = true)
    (hsign : x.signBit = false) (h : x.interval.Contains q) : IsNearest q x := by
  have hx := word_lt_infinity hfinite hsign
  rw [interval_contains_iff] at h
  have hbelow : 0 < x.halfBelow := two_zpow_pos _
  have habove : 0 < x.halfAbove := two_zpow_pos _
  -- Other numbers are at least as far from `q`, and farther if the ends do not belong to the
  -- interval.
  have hnear : ∀ y : Binary64, y.word ≤ infinity.word → y ≠ x →
      |q - x.value| ≤ |q - y.value| ∧ (|q - x.value| = |q - y.value| → x.significand % 2 = 0) := by
    intro y hy hne
    have hfar : x.value + 2 * x.halfAbove ≤ y.value ∨ y.value ≤ x.value - 2 * x.halfBelow := by
      rcases Nat.lt_trichotomy x.word y.word with hlt | heq | hlt
      · exact .inl (value_above hy hlt)
      · exact absurd (word_injective heq.symm) hne
      · exact .inr (value_below hx.le hlt)
    have hxq := abs_cases (q - x.value)
    have hyq := abs_cases (q - y.value)
    split_ifs at h with heven
    · refine ⟨?_, fun _ => heven⟩
      rcases hfar with hfar | hfar <;> rcases hxq with ⟨hxq, -⟩ | ⟨hxq, -⟩ <;>
        rcases hyq with ⟨hyq, _⟩ | ⟨hyq, _⟩ <;> rw [hxq, hyq] <;> linarith
    · have hlt : |q - x.value| < |q - y.value| := by
        rcases hfar with hfar | hfar <;> rcases hxq with ⟨hxq, -⟩ | ⟨hxq, -⟩ <;>
          rcases hyq with ⟨hyq, _⟩ | ⟨hyq, _⟩ <;> rw [hxq, hyq] <;> linarith
      exact ⟨hlt.le, fun heq => absurd heq hlt.ne⟩
  refine ⟨hfinite, hsign, fun y hy => ?_, fun y hy hne heq => ?_⟩
  · by_cases hne : y = x
    · rw [hne]
    · exact (hnear y hy hne).1
  · have heven := (hnear y hy hne).2 heq
    rwa [← significandOf_word hx.le, significandOf_mod_two] at heven

end TypedLowering.Binary64

/-!
## Natural numbers that are doubles

A natural number of at most 53 bits is a double of its own (`ofNat_injOn`).
-/

namespace TypedLowering.Binary64

/-- The word of a number of at most 53 bits: the number without its leading bit, moved to the front
of the fraction, behind the exponent. -/
theorem wordOfNat_eq {n : Nat} (h0 : n ≠ 0) (hn : n < 2 ^ 53) :
    ∃ fraction < 2 ^ 52, wordOfNat n = (n.log2 + 1023) * 2 ^ 52 + fraction ∧
      n * 2 ^ (52 - n.log2) = 2 ^ 52 + fraction := by
  have hlog : n.log2 ≤ 52 := Nat.le_of_lt_succ ((Nat.log2_lt h0).2 hn)
  have hlow : 2 ^ n.log2 ≤ n := Nat.log2_self_le h0
  have hhigh : n < 2 ^ (n.log2 + 1) := Nat.lt_log2_self
  have hpow : 2 ^ n.log2 * 2 ^ (52 - n.log2) = 2 ^ 52 := by
    rw [← Nat.pow_add, Nat.add_sub_cancel' hlog]
  have hge : 2 ^ 52 ≤ n * 2 ^ (52 - n.log2) := hpow ▸ Nat.mul_le_mul_right _ hlow
  have hlt : n * 2 ^ (52 - n.log2) < 2 ^ 53 := by
    have hmul := Nat.mul_lt_mul_of_pos_right hhigh (Nat.two_pow_pos (52 - n.log2))
    rw [Nat.pow_succ, Nat.mul_right_comm, hpow] at hmul
    exact hmul
  refine ⟨n * 2 ^ (52 - n.log2) - 2 ^ 52, by omega, ?_, (Nat.add_sub_of_le hge).symm⟩
  rw [wordOfNat, if_neg h0]
  simp only [hlog, if_true, Nat.shiftLeft_eq]
  rfl

/-- The word of a small natural number has 64 bits. -/
theorem wordOfNat_lt {n : Nat} (hn : n < 2 ^ 53) : wordOfNat n < 2 ^ 64 := by
  by_cases h0 : n = 0
  · subst h0
    exact Nat.two_pow_pos 64
  · obtain ⟨fraction, hfraction, hword, -⟩ := wordOfNat_eq h0 hn
    have hlog : n.log2 ≤ 52 := Nat.le_of_lt_succ ((Nat.log2_lt h0).2 hn)
    omega

/-- Different natural numbers of 53 bits have different words. -/
theorem wordOfNat_injOn {m n : Nat} (hm : m < 2 ^ 53) (hn : n < 2 ^ 53)
    (h : wordOfNat m = wordOfNat n) : m = n := by
  by_cases hm0 : m = 0
  · by_cases hn0 : n = 0
    · rw [hm0, hn0]
    · obtain ⟨_, _, hword, -⟩ := wordOfNat_eq hn0 hn
      rw [hm0, hword, wordOfNat, if_pos rfl] at h
      omega
  · by_cases hn0 : n = 0
    · obtain ⟨_, _, hword, -⟩ := wordOfNat_eq hm0 hm
      rw [hn0, hword, wordOfNat, if_pos rfl] at h
      omega
    · obtain ⟨r, hr, hrword, hmr⟩ := wordOfNat_eq hm0 hm
      obtain ⟨q, hq, hqword, hnq⟩ := wordOfNat_eq hn0 hn
      have hlog : m.log2 = n.log2 := by omega
      have hfraction : r = q := by
        rw [hrword, hqword, hlog] at h
        exact Nat.add_left_cancel h
      rw [hlog, hfraction, ← hnq] at hmr
      exact Nat.eq_of_mul_eq_mul_right (Nat.two_pow_pos _) hmr

/-- Different numbers of at most 53 bits are different doubles. -/
theorem ofNat_injOn {m n : Nat} (hm : m < 2 ^ 53) (hn : n < 2 ^ 53) (h : ofNat m = ofNat n) :
    m = n := by
  have hbits : UInt64.ofNat (wordOfNat m) = UInt64.ofNat (wordOfNat n) := congrArg bits h
  refine wordOfNat_injOn hm hn ?_
  have hnat := congrArg UInt64.toNat hbits
  rwa [UInt64.toNat_ofNat_of_lt' (wordOfNat_lt hm), UInt64.toNat_ofNat_of_lt' (wordOfNat_lt hn)]
    at hnat

end TypedLowering.Binary64
