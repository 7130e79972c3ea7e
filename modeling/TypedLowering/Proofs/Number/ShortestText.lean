import Mathlib.Data.Nat.Digits.Lemmas
import Mathlib.Tactic.FieldSimp
import TypedLowering.Proofs.Number.Nearest

/-!
# The digits of a number

The digits that are generated for a number lie in its rounding interval (`spelledBy_digits`), so
their value is rounded to the number (`isNearest_digits`). Seventeen digits are always enough, since
the interval is wider than one unit of the seventeenth (`Interval.Enough`).
-/

namespace TypedLowering.Binary64

namespace Interval

/-- An interval is under a bound if its upper end is, or reaches it without being part of it. -/
theorem under_iff (i : Interval) (bound : Nat) :
    i.under bound = true ↔
      if i.closed then i.value + i.above < bound else i.value + i.above ≤ bound := by
  rw [under]
  split <;> simp

/-- An interval with its upper end below a bound is under it. -/
theorem under_of_lt {i : Interval} {bound : Nat} (h : i.value + i.above < bound) :
    i.under bound = true := by
  rw [under_iff]
  split
  · exact h
  · exact h.le

/-- The upper end of an interval under a bound does not exceed it. -/
theorem le_of_under {i : Interval} {bound : Nat} (h : i.under bound = true) :
    i.value + i.above ≤ bound := by
  rw [under_iff] at h
  split at h
  · exact h.le
  · exact h

/-- An interval that is not under a bound reaches it. -/
theorem le_of_not_under {i : Interval} {bound : Nat} (h : ¬i.under bound = true) :
    bound ≤ i.value + i.above :=
  Nat.le_of_not_lt fun hlt => h (under_of_lt hlt)

/-! ## Bringing the number under one -/

/-- The interval with the number times `10 ^ up` and the denominator times `10 ^ down`. -/
def scaled (i : Interval) (up down : Nat) : Interval where
  value := i.value * 10 ^ up
  below := i.below * 10 ^ up
  above := i.above * 10 ^ up
  denominator := i.denominator * 10 ^ down
  closed := i.closed

/-- Scaling by nothing changes nothing. -/
theorem scaled_zero (i : Interval) : i.scaled 0 0 = i := by simp [scaled]

/-- A scaled interval contains the scaled numbers. -/
theorem scaled_contains (i : Interval) (up down : Nat) (q : ℚ) :
    (i.scaled up down).Contains q ↔ i.Contains (q * 10 ^ ((down : ℤ) - up)) := by
  have hpow : (0 : ℚ) < 10 ^ up := by positivity
  have hq : q * ((i.denominator : ℚ) * 10 ^ down) =
      q * 10 ^ ((down : ℤ) - up) * i.denominator * 10 ^ up := by
    rw [zpow_sub₀ (by norm_num), zpow_natCast, zpow_natCast]
    field_simp
  rw [Contains, Contains, scaled]
  push_cast
  rw [hq, ← sub_mul, ← add_mul]
  simp only [mul_le_mul_iff_left₀ hpow, mul_lt_mul_iff_left₀ hpow]

/-- Scaling down stops when the interval is under one. -/
theorem scaleDown_eq {n : Nat} {i : Interval} (k : Int)
    (h : i.value + i.above < i.denominator * 10 ^ n) :
    ∃ down : Nat, i.scaleDown n k = (i.scaled 0 down, k + down) ∧
      (i.scaled 0 down).under (i.denominator * 10 ^ down) = true ∧
      (down = 0 ∨ i.denominator * 10 ^ down ≤ 10 * (i.value + i.above)) := by
  induction n generalizing i k with
  | zero =>
    refine ⟨0, by simp [scaleDown, scaled], ?_, .inl rfl⟩
    rw [scaled_zero]
    exact under_of_lt h
  | succ n ih =>
    rw [scaleDown]
    split
    · rename_i hunder
      refine ⟨0, by simp [scaled], ?_, .inl rfl⟩
      rw [scaled_zero, pow_zero, mul_one]
      exact hunder
    · rename_i hunder
      have hle := le_of_not_under hunder
      rw [pow_succ', ← mul_assoc] at h
      obtain ⟨down, heq, hlow, hhigh⟩ :=
        @ih { i with denominator := i.denominator * 10 } (k + 1) h
      refine ⟨down + 1, ?_, ?_, .inr ?_⟩
      · rw [heq]
        simp [scaled, pow_succ', mul_assoc, add_comm, add_left_comm]
      · simpa [scaled, pow_succ', mul_assoc] using hlow
      · rw [pow_succ', ← mul_assoc]
        rcases hhigh with rfl | hhigh
        · omega
        · exact hhigh

/-- Scaling up stops before the interval would exceed one. -/
theorem scaleUp_eq {n : Nat} {i : Interval} (k : Int)
    (h : i.denominator < 10 * 10 ^ n * (i.value + i.above)) :
    ∃ up : Nat, i.scaleUp n k = (i.scaled up 0, k - up) ∧
      (i.under i.denominator = true → (i.scaled up 0).under i.denominator = true) ∧
      ¬(i.scaled up 0).times10.under i.denominator = true := by
  induction n generalizing i k with
  | zero =>
    refine ⟨0, by simp [scaleUp, scaled], ?_, ?_⟩
    · rw [scaled_zero]
      exact id
    · intro hunder
      have hle := le_of_under hunder
      rw [scaled_zero] at hle
      simp only [times10] at hle
      omega
  | succ n ih =>
    rw [scaleUp]
    split
    · rename_i hunder
      have hstep : i.times10.denominator < 10 * 10 ^ n * (i.times10.value + i.times10.above) := by
        rw [pow_succ, ← mul_assoc, mul_assoc] at h
        simp only [times10]
        rwa [← add_mul, mul_comm _ 10]
      obtain ⟨up, heq, hlow, hhigh⟩ := ih (k - 1) hstep
      have hscaled : i.times10.scaled up 0 = i.scaled (up + 1) 0 := by
        simp [scaled, times10, pow_succ', mul_assoc]
      rw [hscaled] at heq hlow hhigh
      refine ⟨up + 1, ?_, fun _ => hlow hunder, hhigh⟩
      rw [heq]
      congr 1
      push_cast
      ring
    · rename_i hunder
      refine ⟨0, by simp [scaled], ?_, ?_⟩
      · rw [scaled_zero]
        exact id
      · rw [scaled_zero]
        exact hunder

/-! ## Digits -/

/-- The number without its first digit after the point. -/
def remainder (i : Interval) : Interval :=
  { i.times10 with value := i.times10.value % i.denominator }

/-- Whether the digits so far are in the interval. -/
def stopsBelow (i : Interval) : Bool :=
  if i.closed then i.value ≤ i.below else i.value < i.below

/-- Whether the digits so far are in the interval once the last one is raised. -/
def stopsAbove (i : Interval) : Bool := !i.under i.denominator

/-- Whether the last digit is raised where the digits stop. -/
def raises (i : Interval) : Bool :=
  i.stopsAbove && (!i.stopsBelow || i.denominator ≤ 2 * i.value)

/-- One digit is generated, and then those of the remainder unless it stops. -/
theorem generate_succ (n : Nat) (i : Interval) (acc : List Nat) :
    i.generate (n + 1) acc =
      if i.remainder.stopsBelow || i.remainder.stopsAbove then
        (i.value * 10 / i.denominator :: acc, i.remainder.raises)
      else i.remainder.generate n (i.value * 10 / i.denominator :: acc) := rfl

/-- What the remainder contains belongs to the interval behind the digit. -/
theorem remainder_contains {i : Interval} {q : ℚ} (h : i.remainder.Contains q) :
    i.Contains ((↑(i.value * 10 / i.denominator) + q) / 10) := by
  have hdiv : (i.denominator : ℚ) * ↑(i.value * 10 / i.denominator) +
      ↑(i.value * 10 % i.denominator) = i.value * 10 := by
    exact_mod_cast Nat.div_add_mod (i.value * 10) i.denominator
  rw [Contains, remainder, times10] at h
  rw [Contains]
  push_cast at h ⊢
  split_ifs at h ⊢ with hclosed
  · constructor <;> linarith [h.1, h.2]
  · constructor <;> linarith [h.1, h.2]

/-- Digits that stop are in the interval. -/
theorem contains_raises {i : Interval} (hstop : (i.stopsBelow || i.stopsAbove) = true)
    (hlt : i.value < i.denominator) (hbelow : 0 < i.below) (habove : 0 < i.above) :
    i.Contains (i.raises.toNat : ℕ) := by
  have hbelow : (0 : ℚ) < i.below := by exact_mod_cast hbelow
  have habove : (0 : ℚ) < i.above := by exact_mod_cast habove
  have hvalue : (0 : ℚ) ≤ i.value := Nat.cast_nonneg _
  have hlt : (i.value : ℚ) < i.denominator := by exact_mod_cast hlt
  cases hraises : i.raises with
  | false =>
    have hlow : i.stopsBelow = true := by
      rw [raises] at hraises
      cases hlow : i.stopsBelow with
      | true => rfl
      | false =>
        rw [hlow, Bool.false_or] at hstop
        rw [hlow, hstop] at hraises
        cases hraises
    rw [stopsBelow] at hlow
    rw [Contains]
    split_ifs at hlow ⊢ <;> simp only [decide_eq_true_eq] at hlow
    · have hle : (i.value : ℚ) ≤ i.below := by exact_mod_cast hlow
      constructor <;> simp <;> linarith
    · have hlt : (i.value : ℚ) < i.below := by exact_mod_cast hlow
      constructor <;> simp <;> linarith
  | true =>
    have hhigh : ¬i.under i.denominator = true := by
      rw [raises, Bool.and_eq_true, stopsAbove, Bool.not_eq_true'] at hraises
      exact Bool.eq_false_iff.1 hraises.1
    rw [under_iff] at hhigh
    rw [Contains]
    split_ifs at hhigh ⊢
    · have hle : (i.denominator : ℚ) ≤ i.value + i.above := by
        exact_mod_cast Nat.le_of_not_lt hhigh
      constructor <;> simp <;> linarith
    · have hlt : (i.denominator : ℚ) < i.value + i.above := by
        exact_mod_cast Nat.lt_of_not_le hhigh
      constructor <;> simp <;> linarith

/-- Whether the interval is wider than one unit of the digit at that place, so that digits stop in
it there at the latest. -/
def Enough (i : Interval) (places : Nat) : Prop :=
  i.denominator < (i.below + i.above) * 10 ^ places

/-- If so many digits are enough, one less is enough for the remainder. -/
theorem Enough.remainder {i : Interval} {places : Nat} (h : i.Enough (places + 1)) :
    i.remainder.Enough places := by
  rw [Enough, pow_succ'] at h
  calc i.denominator < (i.below + i.above) * (10 * 10 ^ places) := h
    _ = (i.below * 10 + i.above * 10) * 10 ^ places := by ring

/-- Digits that do not stop leave an interval of less than a unit. -/
theorem not_enough_zero {i : Interval} (h : ¬(i.stopsBelow || i.stopsAbove) = true) :
    ¬i.Enough 0 := by
  rw [Bool.or_eq_true, stopsBelow, stopsAbove, Bool.not_eq_true', ← Bool.not_eq_true,
    under_iff] at h
  rw [Enough]
  split_ifs at h <;> simp only [decide_eq_true_eq] at h <;> omega

/-- What is known of the digits that were generated for a number, the last one first, of which the
last one may still have to be raised. -/
structure Generated (i : Interval) (ds : List Nat) (up : Bool) : Prop where
  digit : ∀ d ∈ ds, d < 10
  contains : i.Contains ((Nat.ofDigits 10 ds + up.toNat : ℕ) / 10 ^ ds.length)
  /-- The first digit is what the number has there. -/
  first : ds.getLast? = some (i.value * 10 / i.denominator)

/-- The first digit of a number under one is a digit. -/
theorem first_lt {i : Interval} (hlt : i.value < i.denominator) :
    i.value * 10 / i.denominator < 10 :=
  Nat.div_lt_of_lt_mul (by omega)

/-- Where the digits stop, a last one is generated, rounded up or down. -/
theorem Generated.single {i : Interval} (hlt : i.value < i.denominator) (hbelow : 0 < i.below)
    (habove : 0 < i.above) (hstop : (i.remainder.stopsBelow || i.remainder.stopsAbove) = true) :
    i.Generated [i.value * 10 / i.denominator] i.remainder.raises where
  digit := by simpa using first_lt hlt
  contains := by
    have h := remainder_contains (contains_raises hstop (Nat.mod_lt _ (by omega))
      (Nat.mul_pos hbelow (by decide)) (Nat.mul_pos habove (by decide)))
    simpa [Nat.ofDigits_singleton] using h
  first := rfl

/-- A digit in front of generated digits is generated. -/
theorem Generated.snoc {i : Interval} {ds : List Nat} {up : Bool} (hlt : i.value < i.denominator)
    (h : i.remainder.Generated ds up) :
    i.Generated (ds ++ [i.value * 10 / i.denominator]) up where
  digit := by
    intro d hd
    rcases List.mem_append.1 hd with hd | hd
    · exact h.digit d hd
    · rw [List.mem_singleton.1 hd]
      exact first_lt hlt
  contains := by
    have hrest := remainder_contains h.contains
    convert hrest using 1
    rw [Nat.ofDigits_append, Nat.ofDigits_singleton, List.length_append, List.length_singleton,
      pow_succ]
    push_cast
    field_simp
    ring
  first := by simp

/-- The digits stop, and they do so in the interval. -/
theorem generate_eq {n : Nat} {i : Interval} (acc : List Nat) (hlt : i.value < i.denominator)
    (hbelow : 0 < i.below) (habove : 0 < i.above) (henough : i.Enough (n + 1)) :
    ∃ ds up, i.generate (n + 1) acc = (ds ++ acc, up) ∧ i.Generated ds up := by
  induction n generalizing i acc with
  | zero =>
    rw [generate_succ]
    split
    · rename_i hstop
      exact ⟨_, _, rfl, .single hlt hbelow habove hstop⟩
    · rename_i hstop
      exact absurd henough.remainder (not_enough_zero hstop)
  | succ n ih =>
    rw [generate_succ]
    split
    · rename_i hstop
      exact ⟨_, _, rfl, .single hlt hbelow habove hstop⟩
    · obtain ⟨ds, up, heq, hds⟩ := @ih i.remainder (i.value * 10 / i.denominator :: acc)
        (Nat.mod_lt _ (by omega)) (Nat.mul_pos hbelow (by decide)) (Nat.mul_pos habove (by decide))
        henough.remainder
      exact ⟨ds ++ [i.value * 10 / i.denominator], up, by rw [heq]; simp, .snoc hlt hds⟩

/-- Digits that start with a digit other than zero. -/
theorem Generated.leading {i : Interval} {ds : List Nat} {up : Bool} (h : i.Generated ds up)
    (hpos : 0 < i.denominator) (hfirst : i.denominator ≤ i.value * 10) :
    10 ^ ds.length ≤ 10 * Nat.ofDigits 10 ds := by
  obtain ⟨init, rfl⟩ := List.getLast?_eq_some_iff.1 h.first
  have hone : 1 ≤ i.value * 10 / i.denominator := (Nat.one_le_div_iff hpos).2 hfirst
  have hmul := Nat.mul_le_mul_left (10 ^ init.length) hone
  rw [List.length_append, List.length_singleton, pow_succ', Nat.ofDigits_append,
    Nat.ofDigits_singleton]
  omega

/-- A number under a tenth, whose interval reaches up to a tenth, has the single digit one. -/
theorem generate_tenth {i : Interval} (n : Nat) (hsmall : i.value * 10 < i.denominator)
    (htenth : ¬i.times10.under i.denominator = true) (hbelow : i.below < i.value) :
    i.generate (n + 1) [] = ([0], true) := by
  have hrest : i.remainder = i.times10 := by
    rw [remainder]
    congr 1
    exact Nat.mod_eq_of_lt hsmall
  have habove : i.remainder.stopsAbove = true := by
    rw [stopsAbove, hrest, Bool.not_eq_true', ← Bool.not_eq_true]
    exact htenth
  have hlow : i.remainder.stopsBelow = false := by
    rw [hrest, stopsBelow, times10]
    split <;> simp <;> omega
  rw [generate_succ, raises, habove, hlow, Nat.div_eq_of_lt hsmall]
  simp

/-- Raising the last digit adds one, which may be carried out. -/
theorem raise_spec {ds : List Nat} (h : ∀ d ∈ ds, d < 10) :
    (raise ds).1.length = ds.length ∧ (∀ d ∈ (raise ds).1, d < 10) ∧
      Nat.ofDigits 10 ds + 1 =
        Nat.ofDigits 10 (raise ds).1 + (raise ds).2.toNat * 10 ^ ds.length := by
  induction ds with
  | nil => simp [raise]
  | cons d ds ih =>
    obtain ⟨hlength, hdigit, hvalue⟩ := ih fun d hd => h d (List.mem_cons_of_mem _ hd)
    have hd := h d List.mem_cons_self
    rw [raise]
    split
    · rename_i hlt
      refine ⟨rfl, ?_, ?_⟩
      · intro e he
        rcases List.mem_cons.1 he with rfl | he
        · omega
        · exact h e (List.mem_cons_of_mem _ he)
      · simp [Nat.ofDigits_cons]
        omega
    · have hnine : d = 9 := by omega
      refine ⟨by simp [hlength], ?_, ?_⟩
      · intro e he
        rcases List.mem_cons.1 he with rfl | he
        · decide
        · exact hdigit e he
      · rw [hnine, Nat.ofDigits_cons, Nat.ofDigits_cons, List.length_cons, pow_succ']
        have hten : 9 + 10 * Nat.ofDigits 10 ds + 1 = 10 * (Nat.ofDigits 10 ds + 1) := by ring
        rw [hten, hvalue]
        ring

/-- Scaling down and up is scaling by both. -/
theorem scaled_scaled (i : Interval) (up down : Nat) :
    (i.scaled 0 down).scaled up 0 = i.scaled up down := by
  simp [scaled]

/-- The number is brought to where its first digit is right behind the point. -/
theorem normalize_eq {i : Interval} (hlarge : i.value + i.above < i.denominator * 10 ^ 330)
    (hsmall : i.denominator < 10 * 10 ^ 340 * (i.value + i.above)) :
    ∃ up down : Nat, i.normalize = (i.scaled up down, (down : Int) - up) ∧
      (i.scaled up down).under (i.scaled up down).denominator = true ∧
      ¬(i.scaled up down).times10.under (i.scaled up down).denominator = true := by
  obtain ⟨down, hdown, hunder, hscaled⟩ := scaleDown_eq 0 hlarge
  have hup : (i.scaled 0 down).denominator <
      10 * 10 ^ 340 * ((i.scaled 0 down).value + (i.scaled 0 down).above) := by
    simp only [scaled, pow_zero, mul_one]
    rcases hscaled with rfl | hscaled
    · rw [pow_zero, mul_one]
      exact hsmall
    · have hpos : 0 < i.value + i.above := Nat.pos_of_mul_pos_left (Nat.zero_lt_of_lt hsmall)
      have hbound : ∀ n, n ≠ 0 →
          i.denominator * 10 ^ down < 10 * 10 ^ n * (i.value + i.above) := fun n hn =>
        Nat.lt_of_le_of_lt hscaled (Nat.mul_lt_mul_of_pos_right
          (lt_mul_of_one_lt_right (by decide) (Nat.one_lt_pow hn (by decide))) hpos)
      exact hbound 340 (by decide)
  obtain ⟨up, heq, hlow, hhigh⟩ := scaleUp_eq (0 + (down : Int)) hup
  rw [scaled_scaled] at heq hlow hhigh
  refine ⟨up, down, ?_, hlow hunder, hhigh⟩
  rw [normalize, hdown]
  simpa using heq

end Interval

/-! ## The digits of a double -/

/-- A significand has one bit more than a fraction. -/
theorem significand_lt (x : Binary64) : x.significand < 2 * exponentUnit := by
  have hfraction : x.fractionBits < exponentUnit := Nat.mod_lt _ (by decide)
  rw [significand]
  split <;> omega

/-- A number that is not zero has a positive significand. -/
theorem significand_pos {x : Binary64} (h : x.isZero = false) : 0 < x.significand := by
  rw [significand]
  split
  · rename_i hbits
    rw [isZero, hbits] at h
    simp at h
    omega
  · exact Nat.add_pos_left (by decide) _

/-- The scale of a finite number is between those of the least and the greatest one. -/
theorem scale_bounds {x : Binary64} (h : x.isFinite = true) : -1074 ≤ x.scale ∧ x.scale ≤ 971 := by
  have hlt : x.exponentBits < 2048 := Nat.mod_lt _ (by decide)
  have hne : x.exponentBits ≠ 2047 := by simpa [isFinite] using h
  rw [scale]
  split <;> omega

/-- A power of two has about a third as many decimal digits. -/
theorem two_pow_lt_ten_pow {m n k : Nat} (hm : m ≤ 13 * (k + 1)) (hn : 4 * (k + 1) ≤ n) :
    2 ^ m < 10 ^ n :=
  calc 2 ^ m ≤ 2 ^ (13 * (k + 1)) := Nat.pow_le_pow_right (by decide) hm
    _ = (2 ^ 13) ^ (k + 1) := pow_mul ..
    _ < (10 ^ 4) ^ (k + 1) := Nat.pow_lt_pow_left (by decide) (Nat.succ_ne_zero k)
    _ = 10 ^ (4 * (k + 1)) := (pow_mul ..).symm
    _ ≤ 10 ^ n := Nat.pow_le_pow_right (by decide) hn

/-- The interval of a number, and what bounds it. -/
theorem interval_bounds {x : Binary64} (hfinite : x.isFinite = true) (hzero : x.isZero = false) :
    0 < x.interval.above ∧ 0 < x.interval.below ∧ x.interval.below < x.interval.value ∧
      x.interval.value + x.interval.above < (x.interval.below + x.interval.above) * 10 ^ 16 ∧
      x.interval.value + x.interval.above < x.interval.denominator * 10 ^ 330 ∧
      x.interval.denominator < 10 * 10 ^ 340 * (x.interval.value + x.interval.above) := by
  have hpos := significand_pos hzero
  have hlt := x.significand_lt
  obtain ⟨hlow, hhigh⟩ := scale_bounds hfinite
  obtain ⟨unit, half, up, down, hunit, hup, hdown, hinterval⟩ : ∃ unit half up down : Nat,
      (unit = 4 ∧ half = 2 ∧ x.significand = exponentUnit ∨ unit = 2 ∧ half = 1) ∧ up ≤ 971 ∧
        down ≤ 1076 ∧ x.interval = ⟨x.significand * unit * 2 ^ up, 2 ^ up, half * 2 ^ up,
          2 ^ down, x.significand % 2 == 0⟩ := by
    rw [interval]
    by_cases hpower : x.significand = exponentUnit
    · refine ⟨4, 2, (x.scale - 2).toNat, (-(x.scale - 2)).toNat, .inl ⟨rfl, rfl, hpower⟩, by omega,
        by omega, ?_⟩
      simp [hpower, Nat.one_shiftLeft]
    · refine ⟨2, 1, (x.scale - 1).toNat, (-(x.scale - 1)).toNat, .inr ⟨rfl, rfl⟩, by omega,
        by omega, ?_⟩
      simp [hpower, Nat.one_shiftLeft]
  have hup1 : 0 < 2 ^ up := Nat.two_pow_pos up
  have hunits : x.significand * unit + half < (1 + half) * 10 ^ 16 ∧
      x.significand * unit + half < 2 ^ 56 ∧ 1 < x.significand * unit ∧ 0 < half := by
    simp only [exponentUnit] at *
    rcases hunit with ⟨rfl, rfl, hpower⟩ | ⟨rfl, rfl⟩ <;> omega
  obtain ⟨hwide, hunits, hvalue, hhalf⟩ := hunits
  rw [hinterval]
  refine ⟨Nat.mul_pos hhalf hup1, hup1, ?_, ?_, ?_, ?_⟩
  · exact (Nat.lt_mul_iff_one_lt_left hup1).2 hvalue
  · calc x.significand * unit * 2 ^ up + half * 2 ^ up
        = (x.significand * unit + half) * 2 ^ up := by ring
      _ < (1 + half) * 10 ^ 16 * 2 ^ up := Nat.mul_lt_mul_of_pos_right hwide hup1
      _ = (2 ^ up + half * 2 ^ up) * 10 ^ 16 := by ring
  · calc x.significand * unit * 2 ^ up + half * 2 ^ up
        = (x.significand * unit + half) * 2 ^ up := by ring
      _ < 2 ^ 56 * 2 ^ up := Nat.mul_lt_mul_of_pos_right hunits hup1
      _ = 2 ^ (56 + up) := (pow_add ..).symm
      _ < 10 ^ 330 := @two_pow_lt_ten_pow _ _ 78 (by omega) (by omega)
      _ ≤ 2 ^ down * 10 ^ 330 := Nat.le_mul_of_pos_left _ (Nat.two_pow_pos down)
  · calc 2 ^ down < 10 ^ 340 := @two_pow_lt_ten_pow _ _ 82 (by omega) (by omega)
      _ ≤ 10 * 10 ^ 340 := Nat.le_mul_of_pos_left _ (by decide)
      _ ≤ 10 * 10 ^ 340 * (x.significand * unit * 2 ^ up + half * 2 ^ up) :=
        Nat.le_mul_of_pos_right _ (Nat.add_pos_right _ (Nat.mul_pos hhalf hup1))

/-- The number that digits stand for, with the point at place `k`. -/
def decimal (ds : List Nat) (k : Int) : ℚ :=
  (Nat.ofDigits 10 ds.reverse : ℕ) * 10 ^ (k - ds.length)

/-- Digits as large as a list that does not start with zero. -/
theorem leading_ne_zero {ds : List Nat} (hdigit : ∀ d ∈ ds, d < 10)
    (h : 10 ^ ds.length ≤ 10 * Nat.ofDigits 10 ds) : ∃ d rest, ds.reverse = d :: rest ∧ d ≠ 0 := by
  induction ds using List.reverseRecOn with
  | nil => simp at h
  | append_singleton ds d _ =>
    refine ⟨d, ds.reverse, by simp, ?_⟩
    rintro rfl
    have hlt : Nat.ofDigits 10 ds < 10 ^ ds.length :=
      Nat.ofDigits_lt_base_pow_length (by decide) fun d hd =>
        hdigit d (List.mem_append_left _ hd)
    rw [List.length_append, List.length_singleton, pow_succ', Nat.ofDigits_append_zero] at h
    omega

/-- Digits that lie in the rounding interval of a number, of which the first one is not zero. -/
structure SpelledBy (x : Binary64) (ds : List Nat) (k : Int) : Prop where
  contains : x.interval.Contains (decimal ds k)
  digit : ∀ d ∈ ds, d < 10
  leading : ∃ d rest, ds = d :: rest ∧ d ≠ 0

/-- The digits of a positive number lie in its rounding interval, and the first one is not zero. -/
theorem spelledBy_digits {x : Binary64} (hfinite : x.isFinite = true) (hzero : x.isZero = false) :
    SpelledBy x x.digits.1 x.digits.2 := by
  obtain ⟨habove, hbelow, hvalue, hwide, hlarge, hsmall⟩ := interval_bounds hfinite hzero
  obtain ⟨up, down, hnorm, hunder, htenth⟩ := Interval.normalize_eq hlarge hsmall
  have hpow : 0 < 10 ^ up := Nat.pow_pos (by decide)
  have hle := Interval.le_of_under hunder
  have hge := Interval.le_of_not_under htenth
  generalize hi : x.interval.scaled up down = i at *
  have hi_below : i.below = x.interval.below * 10 ^ up := by rw [← hi]; rfl
  have hi_above : i.above = x.interval.above * 10 ^ up := by rw [← hi]; rfl
  have hi_value : i.value = x.interval.value * 10 ^ up := by rw [← hi]; rfl
  have hbelow' : 0 < i.below := hi_below ▸ Nat.mul_pos hbelow hpow
  have habove' : 0 < i.above := hi_above ▸ Nat.mul_pos habove hpow
  have hlt : i.value < i.denominator := by omega
  have henough : i.Enough 17 := by
    have hscaled := Nat.mul_lt_mul_of_pos_right hwide hpow
    rw [Interval.Enough]
    calc i.denominator ≤ i.value * 10 + i.above * 10 := hge
      _ = 10 * ((x.interval.value + x.interval.above) * 10 ^ up) := by rw [hi_value, hi_above]; ring
      _ < 10 * ((x.interval.below + x.interval.above) * 10 ^ 16 * 10 ^ up) := by omega
      _ = (i.below + i.above) * 10 ^ 17 := by rw [hi_below, hi_above]; ring
  obtain ⟨ds, raised, hgen, hds⟩ := Interval.generate_eq [] hlt hbelow' habove' henough
  have hleading : 10 ^ ds.length ≤ 10 * (Nat.ofDigits 10 ds + raised.toNat) := by
    by_cases htenths : i.value * 10 < i.denominator
    · have hvalue' : i.below < i.value := by
        rw [hi_below, hi_value]
        exact Nat.mul_lt_mul_of_pos_right hvalue hpow
      rw [Interval.generate_tenth 16 htenths htenth hvalue', List.append_nil] at hgen
      injection hgen with hds hraised
      rw [← hds, ← hraised]
      decide
    · have h := hds.leading (by omega) (Nat.le_of_not_lt htenths)
      omega
  have hcontains : ∀ (out : List Nat) (k : Int), Nat.ofDigits 10 out.reverse =
      Nat.ofDigits 10 ds + raised.toNat → k - out.length = (down - up : Int) - ds.length →
      x.interval.Contains (decimal out k) := by
    intro out k hvalue hk
    have h := hds.contains
    rw [← hi, Interval.scaled_contains] at h
    rw [decimal, hvalue, hk, zpow_sub₀ (by norm_num) _ (ds.length : ℤ), zpow_natCast]
    convert h using 1
    ring
  rw [digits, hnorm]
  simp only [hgen, List.append_nil]
  cases raised with
  | false =>
    refine ⟨hcontains _ _ ?_ ?_, ?_, ?_⟩
    · simp
    · simp
    · simpa using hds.digit
    · exact leading_ne_zero hds.digit hleading
  | true =>
    obtain ⟨hlength, hdigit, hraise⟩ := Interval.raise_spec hds.digit
    generalize Interval.raise ds = raised at *
    obtain ⟨ds', carry⟩ := raised
    cases carry with
    | false =>
      have hvalue : Nat.ofDigits 10 ds' = Nat.ofDigits 10 ds + 1 := by simpa using hraise.symm
      refine ⟨hcontains _ _ ?_ ?_, ?_, ?_⟩
      · simpa using hvalue
      · simp [hlength]
      · simpa using hdigit
      · refine leading_ne_zero hdigit ?_
        rw [hlength, hvalue]
        exact hleading
    | true =>
      have hvalue : Nat.ofDigits 10 (ds' ++ [1]) = Nat.ofDigits 10 ds + 1 := by
        rw [Nat.ofDigits_append, Nat.ofDigits_singleton, hlength]
        simpa using hraise.symm
      refine ⟨hcontains _ _ ?_ ?_, ?_, ⟨1, ds'.reverse, rfl, one_ne_zero⟩⟩
      · simpa using hvalue
      · simp [hlength]
      · intro d hd
        rcases List.mem_cons.1 hd with rfl | hd
        · decide
        · exact hdigit d (List.mem_reverse.1 hd)

/-- What the digits of a number stand for is rounded to the number. -/
theorem isNearest_digits {x : Binary64} (hfinite : x.isFinite = true) (hsign : x.signBit = false)
    (hzero : x.isZero = false) : IsNearest (decimal x.digits.1 x.digits.2) x :=
  isNearest_of_contains hfinite hsign (spelledBy_digits hfinite hzero).contains

/-! ## The text -/

/-- The number that decimal digits spell. -/
def numeral (cs : List Char) : Nat :=
  Nat.ofDigits 10 (cs.map fun c => c.toNat - 48).reverse

/-- The number of two parts is the first, moved by the length of the second, and the second. -/
theorem numeral_append (as bs : List Char) :
    numeral (as ++ bs) = numeral as * 10 ^ bs.length + numeral bs := by
  simp [numeral, Nat.ofDigits_append, mul_comm, add_comm]

/-- Zeros are the number zero. -/
theorem numeral_zeros (n : Nat) : numeral (List.replicate n '0') = 0 := by
  induction n with
  | zero => rfl
  | succ n ih =>
    rw [List.replicate_succ', numeral_append, ih]
    rfl

/-- The characters of digits are the number of the digits. -/
theorem numeral_digits {ds : List Nat} (h : ∀ d ∈ ds, d < 10) :
    numeral (ds.map Nat.digitChar) = Nat.ofDigits 10 ds.reverse := by
  rw [numeral, List.map_map]
  congr 1
  rw [List.reverse_inj]
  refine (List.map_congr_left fun d hd => ?_).trans (List.map_id ds)
  have hd := h d hd
  simp [Nat.toNat_digitChar_of_lt_ten hd]

/-- With the point behind the digits, the decimal is a whole number. -/
theorem decimal_of_nonneg {ds : List Nat} {k : Int} {n : Nat} (h : k = ds.length + n) :
    decimal ds k = (Nat.ofDigits 10 ds.reverse * 10 ^ n : ℕ) := by
  rw [decimal, h, add_sub_cancel_left, zpow_natCast]
  push_cast
  rfl

/-- With the point among or before the digits, the decimal is a quotient. -/
theorem decimal_of_neg {ds : List Nat} {k : Int} {m : Nat} (h : k + m = ds.length) :
    decimal ds k = (Nat.ofDigits 10 ds.reverse : ℕ) / 10 ^ m := by
  rw [decimal, ← h, sub_add_cancel_left, zpow_neg, zpow_natCast, div_eq_mul_inv]

/-- A decimal literal without an exponent, by its digits before and after the point. Only a single
digit before the point may be zero at the front. -/
structure IsDecimal (text whole fraction : List Char) : Prop where
  text_eq : text = whole ++ if fraction = [] then [] else '.' :: fraction
  digit : ∀ c ∈ whole ++ fraction, c.isDigit = true
  whole_ne_nil : whole ≠ []
  leading : whole.head? = some '0' → whole = ['0']

/-- The character of a digit is a digit. -/
theorem isDigit_digitChar {d : Nat} (h : d < 10) : (Nat.digitChar d).isDigit = true := by
  interval_cases d <;> rfl

/-- Only the digit zero has the character of zero. -/
theorem digitChar_eq_zero {d : Nat} (h : d < 10) (hzero : Nat.digitChar d = '0') : d = 0 := by
  interval_cases d <;> first | rfl | cases hzero

/-- The text of digits reads back as what the digits stand for. -/
theorem positional_isDecimal {ds : List Nat} {k : Int} (hdigit : ∀ d ∈ ds, d < 10)
    (hleading : ∃ d rest, ds = d :: rest ∧ d ≠ 0) :
    ∃ whole fraction, IsDecimal (positional ds k).toList whole fraction ∧
      (numeral (whole ++ fraction) : ℚ) / 10 ^ fraction.length = decimal ds k := by
  obtain ⟨d, rest, hds, hd⟩ := hleading
  have hchars : ∀ c ∈ ds.map Nat.digitChar, c.isDigit = true := by
    simpa using fun d hd => isDigit_digitChar (hdigit d hd)
  have hzeros : ∀ n, ∀ c ∈ List.replicate n '0', c.isDigit = true := by
    intro n c hc
    rw [List.eq_of_mem_replicate hc]
    rfl
  have hhead : (ds.map Nat.digitChar).head? ≠ some '0' := by
    rw [hds, List.map_cons, List.head?_cons]
    intro hzero
    exact hd (digitChar_eq_zero (hdigit d (hds ▸ List.mem_cons_self)) (Option.some.inj hzero))
  have hne : ds.map Nat.digitChar ≠ [] := by simp [hds]
  rw [positional]
  split
  · rename_i hk
    obtain ⟨n, rfl⟩ : ∃ n : Nat, k = -n := ⟨(-k).toNat, by omega⟩
    refine ⟨['0'], List.replicate n '0' ++ ds.map Nat.digitChar, ⟨?_, ?_, ?_, fun _ => rfl⟩, ?_⟩
    · simp [hds]
    · intro c hc
      rw [List.singleton_append] at hc
      rcases List.mem_cons.1 hc with rfl | hc
      · rfl
      · exact (List.mem_append.1 hc).elim (hzeros n c) (hchars c)
    · simp
    · rw [← List.append_assoc, numeral_append, List.singleton_append, ← List.replicate_succ,
        numeral_zeros, numeral_digits hdigit, decimal_of_neg (m := n + ds.length) (by omega)]
      simp
  · split
    · rename_i hk hlength
      obtain ⟨n, rfl⟩ : ∃ n : Nat, k = ds.length + n := ⟨k.toNat - ds.length, by omega⟩
      refine ⟨ds.map Nat.digitChar ++ List.replicate n '0', [], ⟨?_, ?_, ?_, ?_⟩, ?_⟩
      · have htoNat : (ds.length + n : Int).toNat - ds.length = n := by omega
        simp [htoNat]
      · intro c hc
        rw [List.append_nil] at hc
        exact (List.mem_append.1 hc).elim (hchars c) (hzeros n c)
      · simp [hds]
      · intro hzero
        rw [List.head?_append_of_ne_nil _ hne] at hzero
        exact absurd hzero hhead
      · rw [List.append_nil, numeral_append, numeral_zeros, numeral_digits hdigit,
          decimal_of_nonneg (n := n) (by omega)]
        simp
    · rename_i hk hlength
      obtain ⟨n, rfl⟩ : ∃ n : Nat, k = n := ⟨k.toNat, by omega⟩
      refine ⟨(ds.take n).map Nat.digitChar, (ds.drop n).map Nat.digitChar, ⟨?_, ?_, ?_, ?_⟩, ?_⟩
      · have hdrop : ds.drop n ≠ [] := by
          rw [Ne, List.drop_eq_nil_iff]
          omega
        have hlt : n < ds.length := by omega
        simp [hlt]
      · rw [← List.map_append, List.take_append_drop]
        exact hchars
      · have htake : ds.take n ≠ [] := by simp [hds]; omega
        simpa using htake
      · intro hzero
        obtain ⟨m, rfl⟩ : ∃ m, n = m + 1 := ⟨n - 1, by omega⟩
        rw [List.map_take, List.head?_take, if_neg (Nat.succ_ne_zero m)] at hzero
        exact absurd hzero hhead
      · rw [← List.map_append, List.take_append_drop, numeral_digits hdigit,
          decimal_of_neg (m := ds.length - n) (by omega)]
        simp

/-- Zero is nearest to the number zero. -/
theorem isNearest_zero {x : Binary64} (hsign : x.signBit = false) (hzero : x.isZero = true) :
    IsNearest 0 x := by
  have hword : x.word = 0 := by
    have hbits : x.exponentBits = 0 ∧ x.fractionBits = 0 := by simpa [isZero] using hzero
    have hlow : x.word < signUnit := by simpa [signBit] using hsign
    simp only [exponentBits, fractionBits, exponentUnit, signUnit] at *
    omega
  have hvalue : x.value = 0 := by
    rw [value_eq_magnitude (by rw [hword]; exact Nat.zero_le _), hword, magnitude]
    simp [significandOf]
  refine ⟨?_, hsign, ?_, ?_⟩
  · rw [isFinite, exponentBits, hword]
    rfl
  · intro y _
    simp [hvalue]
  · intro _ _ _ _
    rw [hword]

/-- The text of a finite number without sign is a decimal literal that is rounded to the number. -/
theorem text_isDecimal {x : Binary64} (hfinite : x.isFinite = true) (hsign : x.signBit = false) :
    ∃ whole fraction, IsDecimal x.text.toList whole fraction ∧
      IsNearest (numeral (whole ++ fraction) / 10 ^ fraction.length) x := by
  have hbits : x.exponentBits ≠ 2047 := by simpa [isFinite] using hfinite
  have htext : x.text = x.finiteText := by
    simp [text, isNaN, isInfinite, hbits]
  rw [htext, finiteText, hsign]
  cases hzero : x.isZero with
  | true =>
    refine ⟨['0'], [], ⟨by simp, by simp, by simp, fun _ => rfl⟩, ?_⟩
    simpa [numeral] using isNearest_zero hsign hzero
  | false =>
    have hds := spelledBy_digits hfinite hzero
    obtain ⟨whole, fraction, hdecimal, hvalue⟩ :=
      @positional_isDecimal x.digits.1 x.digits.2 hds.digit hds.leading
    refine ⟨whole, fraction, ?_, ?_⟩
    · simpa using hdecimal
    · rw [hvalue]
      exact isNearest_digits hfinite hsign hzero

end TypedLowering.Binary64
