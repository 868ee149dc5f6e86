/-
**Doubles on one line with the integers.**

A double is a sign and a magnitude, the pattern below the sign bit. Magnitudes stand in the order of
the values they spell (`scaled_strictMono`), so both orders of doubles are orders of integers:
`totalKey64` keeps the two zeros and every pattern apart, `lineKey64` puts both zeros at zero.

`double` rounds an integer to the nearest double, ties to the even one, and `truncate` cuts a double
to an integer, saturating. Rounding never carries an integer across a double (`le_nearest`,
`nearest_le`), and what it ends on is whole (`whole_nearest`). So integers and doubles have places on
one line (`linePlace`, `intPlace`), and the order of a rounded integer against a double is the order
of the places unless they round together (`intPlace_lt_of_totalKey`, `intPlace_truncate`).
-/

import DrStrange.Lib.Binary

namespace DrStrange.Lib

/-! ### The patterns -/

/-- The pattern below the sign bit. -/
def magnitude (bits : UInt64) : ℕ := bits.toNat % 2 ^ 63

def nan64 (bits : UInt64) : Bool := 2047 * 2 ^ 52 < magnitude bits

/-- The place of a double in the order of `total_cmp`. -/
def totalKey64 (bits : UInt64) : ℤ :=
  if bits.toNat < 2 ^ 63 then bits.toNat else 2 ^ 63 - 1 - bits.toNat

/-- The place of a double on the number line, both zeros at zero. -/
def lineKey64 (bits : UInt64) : ℤ :=
  if bits.toNat < 2 ^ 63 then bits.toNat else 2 ^ 63 - bits.toNat

/-- `f64::total_cmp`. -/
def totalCmp64 (a b : UInt64) : Ordering := compare (totalKey64 a) (totalKey64 b)

/-- `f64::partial_cmp`: none where one side is not a number. -/
def partialCmp64 (a b : UInt64) : Option Ordering :=
  if nan64 a || nan64 b then none else some (compare (lineKey64 a) (lineKey64 b))

/-- One, in units of the least double. -/
def one64 : ℕ := 2 ^ 1074

/-- What a magnitude spells, in units of the least double. -/
def scaled (magnitude : ℕ) : ℕ :=
  if magnitude / 2 ^ 52 = 0 then magnitude % 2 ^ 52
  else (2 ^ 52 + magnitude % 2 ^ 52) * 2 ^ (magnitude / 2 ^ 52 - 1)

/-- The magnitude of the double nearest to a natural number, ties to the even one. -/
def nearest (value : ℕ) : ℕ :=
  if value = 0 then 0
  else (value.log2 + 1022) * 2 ^ 52 +
    if value.log2 ≤ 52 then value * 2 ^ (52 - value.log2) else roundEven value (value.log2 - 52)

/-- `as f64`. -/
def double (value : ℤ) : UInt64 :=
  .ofNat ((if value < 0 then 2 ^ 63 else 0) + nearest value.natAbs)

/-- `as i64`: towards zero, saturating, and zero of what is not a number. -/
def truncate (bits : UInt64) : ℤ :=
  let whole : ℤ := Int.ofNat (scaled (magnitude bits) / one64)
  if nan64 bits then 0
  else if bits.toNat < 2 ^ 63 then min whole (2 ^ 63 - 1) else max (-whole) (-2 ^ 63)

theorem totalKey64_injective : Function.Injective totalKey64 := by
  intro a b same
  have smallA := a.toNat_lt
  have smallB := b.toNat_lt
  rw [← UInt64.toNat_inj]
  simp only [totalKey64] at same
  split_ifs at same <;> omega

variable {a b : UInt64}

/-- On the number line the order of `total_cmp` is kept. -/
theorem totalKey64_lt (less : lineKey64 a < lineKey64 b) : totalKey64 a < totalKey64 b := by
  have smallA := a.toNat_lt
  have smallB := b.toNat_lt
  simp only [totalKey64, lineKey64] at less ⊢
  split_ifs at less ⊢ <;> omega

theorem one64_pos : 0 < one64 := by
  unfold one64
  positivity

theorem pow_add_one64 (exponent : ℕ) : 2 ^ (exponent + 1074) = 2 ^ exponent * one64 := by
  rw [one64, pow_add]

/- A number of a thousand bits: it never unfolds. -/
attribute [irreducible] one64

/-! ### Magnitudes in the order of their values -/

theorem scaled_normal {exponent fraction : ℕ} (normal : 1 ≤ exponent) (short : fraction ≤ 2 ^ 52) :
    scaled (exponent * 2 ^ 52 + fraction) = (2 ^ 52 + fraction) * 2 ^ (exponent - 1) := by
  unfold scaled
  rcases Nat.lt_or_eq_of_le short with inside | carried
  · have top : (exponent * 2 ^ 52 + fraction) / 2 ^ 52 = exponent := by omega
    have low : (exponent * 2 ^ 52 + fraction) % 2 ^ 52 = fraction := by omega
    rw [top, low, if_neg (by omega)]
  · -- The fraction carries into the exponent.
    have top : (exponent * 2 ^ 52 + fraction) / 2 ^ 52 = exponent - 1 + 2 := by omega
    have low : (exponent * 2 ^ 52 + fraction) % 2 ^ 52 = 0 := by omega
    rw [top, low, if_neg (by omega), carried]
    show (2 ^ 52 + 0) * 2 ^ (exponent - 1 + 1) = _
    rw [pow_succ]
    ring

theorem scaled_lt_succ (magnitude : ℕ) : scaled magnitude < scaled (magnitude + 1) := by
  have split : magnitude = magnitude / 2 ^ 52 * 2 ^ 52 + magnitude % 2 ^ 52 := by omega
  have short : magnitude % 2 ^ 52 < 2 ^ 52 := Nat.mod_lt _ (by norm_num)
  by_cases normal : 1 ≤ magnitude / 2 ^ 52
  · rw [split, add_assoc, scaled_normal normal short.le, scaled_normal normal short]
    exact Nat.mul_lt_mul_of_pos_right (by omega) (Nat.two_pow_pos _)
  · have low : scaled magnitude = magnitude := by
      unfold scaled
      rw [if_pos (by omega)]
      omega
    rw [low]
    unfold scaled
    split_ifs with still
    · omega
    · have top : (magnitude + 1) / 2 ^ 52 = 1 := by omega
      rw [top]
      omega

theorem scaled_strictMono : StrictMono scaled := strictMono_nat_of_lt_succ scaled_lt_succ

/-! ### The nearest double of a natural number -/

theorem roundEven_cases (significand bits : ℕ) :
    roundEven significand bits = significand / 2 ^ bits ∨
      roundEven significand bits = significand / 2 ^ bits + 1 ∧ 0 < significand % 2 ^ bits := by
  have positive := Nat.two_pow_pos bits
  simp only [roundEven]
  split_ifs with up
  · exact .inr ⟨rfl, by omega⟩
  · exact .inl rfl

variable {value pattern : ℕ} {bits : UInt64}

/-- A number past the 53 bits of a significand lies from the pattern of its leading bits up to before
the next one, and is rounded to that pattern or, if something is lost, to the next. -/
theorem nearest_large (large : 52 < value.log2) :
    ∃ below, scaled below ≤ value * one64 ∧ value * one64 < scaled (below + 1) ∧
      (nearest value = below ∨ nearest value = below + 1 ∧ scaled below < value * one64) ∧
      one64 ∣ scaled below ∧ one64 ∣ scaled (below + 1) := by
  have positive : value ≠ 0 := fun zero => by simp [zero] at large
  obtain ⟨lost, gap⟩ : ∃ lost, value.log2 = lost + 52 := ⟨value.log2 - 52, by omega⟩
  have least : 2 ^ (lost + 52) ≤ value := gap ▸ Nat.log2_self_le positive
  have most : value < 2 ^ (lost + 53) := by
    have := @Nat.lt_log2_self value
    rwa [gap] at this
  have keptLow : 2 ^ 52 ≤ value / 2 ^ lost := by
    rw [Nat.le_div_iff_mul_le (Nat.two_pow_pos _), ← pow_add, add_comm]
    exact least
  have keptHigh : value / 2 ^ lost < 2 ^ 53 := by
    rw [Nat.div_lt_iff_lt_mul (Nat.two_pow_pos _), ← pow_add, add_comm 53]
    exact most
  have units : 2 ^ (lost + 52 + 1022 + 1 - 1) = 2 ^ lost * one64 := pow_add_one64 lost
  have spelled (kept : ℕ) (low : 2 ^ 52 ≤ kept) (high : kept ≤ 2 ^ 53) :
      scaled ((lost + 52 + 1022) * 2 ^ 52 + kept) = kept * 2 ^ lost * one64 := by
    obtain ⟨fraction, rfl⟩ := Nat.exists_eq_add_of_le low
    have pattern : (lost + 52 + 1022) * 2 ^ 52 + (2 ^ 52 + fraction) =
        (lost + 52 + 1022 + 1) * 2 ^ 52 + fraction := by ring
    rw [pattern, scaled_normal (by omega) (by omega), units, mul_assoc]
  have cut := Nat.div_add_mod value (2 ^ lost)
  have room := Nat.mod_lt value (Nat.two_pow_pos lost)
  rw [mul_comm] at cut
  refine ⟨(lost + 52 + 1022) * 2 ^ 52 + value / 2 ^ lost, ?_, ?_, ?_, ?_, ?_⟩
  · rw [spelled _ keptLow keptHigh.le]
    exact Nat.mul_le_mul_right _ (by omega)
  · rw [add_assoc, spelled _ (by omega) keptHigh]
    refine Nat.mul_lt_mul_of_pos_right ?_ one64_pos
    rw [Nat.succ_mul]
    omega
  · have rounded : nearest value = (lost + 52 + 1022) * 2 ^ 52 + roundEven value lost := by
      unfold nearest
      rw [if_neg positive, gap, if_neg (by omega), Nat.add_sub_cancel]
    rcases roundEven_cases value lost with down | ⟨up, some_⟩
    · exact .inl (by rw [rounded, down])
    · refine .inr ⟨by rw [rounded, up, ← Nat.add_assoc], ?_⟩
      rw [spelled _ keptLow keptHigh.le]
      exact Nat.mul_lt_mul_of_pos_right (by omega) one64_pos
  · rw [spelled _ keptLow keptHigh.le]
    exact Dvd.intro_left _ rfl
  · rw [add_assoc, spelled _ (by omega) keptHigh]
    exact Dvd.intro_left _ rfl

/-- A number within the 53 bits of a significand is a double. -/
theorem scaled_nearest_small (small : value.log2 ≤ 52) :
    scaled (nearest value) = value * one64 := by
  unfold nearest
  split_ifs with zero
  · rw [zero, zero_mul]
    rfl
  · have least : 2 ^ value.log2 ≤ value := Nat.log2_self_le zero
    have most : value < 2 ^ (value.log2 + 1) := Nat.lt_log2_self
    have whole : 2 ^ value.log2 * 2 ^ (52 - value.log2) = 2 ^ 52 := by
      rw [← pow_add]
      congr 1
      omega
    have low : 2 ^ 52 ≤ value * 2 ^ (52 - value.log2) := whole ▸ Nat.mul_le_mul_right _ least
    have high : value * 2 ^ (52 - value.log2) < 2 ^ 53 := by
      have bound := Nat.mul_lt_mul_of_pos_right most (Nat.two_pow_pos (52 - value.log2))
      rw [pow_succ, mul_right_comm, whole] at bound
      omega
    obtain ⟨fraction, spelled⟩ := Nat.exists_eq_add_of_le low
    have pattern : (value.log2 + 1022) * 2 ^ 52 + (2 ^ 52 + fraction) =
        (value.log2 + 1022 + 1) * 2 ^ 52 + fraction := by ring
    have units : 2 ^ (52 - value.log2) * 2 ^ (value.log2 + 1022 + 1 - 1) = one64 := by
      have sum : 52 - value.log2 + (value.log2 + 1022 + 1 - 1) = 0 + 1074 := by omega
      rw [← pow_add, sum, pow_add_one64, pow_zero, one_mul]
    rw [spelled, pattern, scaled_normal (by omega) (by omega), ← spelled, mul_assoc, units]

/-- **Rounding does not carry a number below a double that it is not below.** -/
theorem le_nearest (below : scaled pattern ≤ value * one64) : pattern ≤ nearest value := by
  by_cases small : value.log2 ≤ 52
  · rw [← scaled_nearest_small small] at below
    exact scaled_strictMono.le_iff_le.mp below
  · obtain ⟨kept, -, above, rounded, -⟩ := nearest_large (not_le.mp small)
    have under := scaled_strictMono.lt_iff_lt.mp (below.trans_lt above)
    omega

/-- **Nor above one that it is not above.** -/
theorem nearest_le (above : value * one64 ≤ scaled pattern) : nearest value ≤ pattern := by
  by_cases small : value.log2 ≤ 52
  · rw [← scaled_nearest_small small] at above
    exact scaled_strictMono.le_iff_le.mp above
  · obtain ⟨kept, below, -, rounded | ⟨rounded, lost⟩, -⟩ := nearest_large (not_le.mp small)
    · rw [rounded]
      exact scaled_strictMono.le_iff_le.mp (below.trans above)
    · rw [rounded]
      exact scaled_strictMono.lt_iff_lt.mp (lost.trans_le above)

theorem one_le_nearest (positive : 1 ≤ value) : 1 ≤ nearest value := by
  refine le_nearest ?_
  have least := Nat.mul_le_mul positive one64_pos
  exact least

/-- The nearest double of a number is whole. -/
theorem whole_nearest (value : ℕ) : one64 ∣ scaled (nearest value) := by
  by_cases small : value.log2 ≤ 52
  · rw [scaled_nearest_small small]
    exact Dvd.intro_left _ rfl
  · obtain ⟨kept, -, -, rounded | ⟨rounded, -⟩, low, high⟩ := nearest_large (not_le.mp small)
    · rwa [rounded]
    · rwa [rounded]

/-! ### Integers and doubles on one line -/

/-- The value in half units, and half a unit less below zero, which keeps the two zeros apart. -/
def linePlace (bits : UInt64) : ℤ :=
  if bits.toNat < 2 ^ 63 then 2 * scaled (magnitude bits) else -(2 * scaled (magnitude bits)) - 1

def intPlace (value : ℤ) : ℤ :=
  if value < 0 then 2 * (value * one64) - 1 else 2 * (value * one64)

theorem magnitude_of_low (low : bits.toNat < 2 ^ 63) : magnitude bits = bits.toNat :=
  Nat.mod_eq_of_lt low

theorem magnitude_of_high (high : ¬ bits.toNat < 2 ^ 63) :
    magnitude bits = bits.toNat - 2 ^ 63 := by
  have small := bits.toNat_lt
  unfold magnitude
  omega

/-- The order of `total_cmp` is the order of the places. -/
theorem linePlace_lt_iff : linePlace a < linePlace b ↔ totalKey64 a < totalKey64 b := by
  have less (a b : UInt64) : scaled (magnitude a) < scaled (magnitude b) ↔
      magnitude a < magnitude b :=
    scaled_strictMono.lt_iff_lt
  unfold linePlace totalKey64
  split_ifs with lowA lowB lowB
  · rw [← magnitude_of_low lowA, ← magnitude_of_low lowB, Nat.cast_lt, ← less a b]
    omega
  · omega
  · omega
  · have := less b a
    rw [magnitude_of_high lowA, magnitude_of_high lowB] at *
    omega

theorem intPlace_strictMono : StrictMono intPlace := by
  intro a b less
  have positive : (0 : ℤ) < one64 := Int.natCast_pos.mpr one64_pos
  have scaled : a * one64 < b * one64 := mul_lt_mul_of_pos_right less positive
  unfold intPlace
  split_ifs <;> omega

theorem natAbs_mul_one64 (value : ℤ) :
    ((value.natAbs * one64 : ℕ) : ℤ) = if value < 0 then -(value * one64) else value * one64 := by
  rw [Nat.cast_mul]
  split_ifs with below
  · rw [Int.ofNat_natAbs_of_nonpos below.le, neg_mul]
  · rw [Int.natAbs_of_nonneg (not_lt.mp below)]

/-- The double `2 ^ 63`. -/
theorem scaled_top : scaled (1086 * 2 ^ 52) = 2 ^ 63 * one64 := by
  have power (exponent : ℕ) :
      scaled ((exponent + 1075) * 2 ^ 52) = 2 ^ (52 + exponent) * one64 := by
    have spelled := scaled_normal (show 1 ≤ exponent + 1075 by omega) (Nat.zero_le (2 ^ 52))
    rw [add_zero, add_zero, Nat.add_sub_assoc (by norm_num), pow_add_one64, ← mul_assoc,
      ← pow_add] at spelled
    exact spelled
  exact power 11

section Rounded

variable {value : ℤ} {bits : UInt64}

theorem nearest_lt (small : value.natAbs ≤ 2 ^ 63) : nearest value.natAbs ≤ 1086 * 2 ^ 52 := by
  refine nearest_le ?_
  rw [scaled_top]
  exact Nat.mul_le_mul_right _ small

theorem toNat_double (small : value.natAbs ≤ 2 ^ 63) :
    (double value).toNat = (if value < 0 then 2 ^ 63 else 0) + nearest value.natAbs := by
  have bounded := nearest_lt small
  unfold double
  rw [UInt64.toNat_ofNat']
  split_ifs <;> omega

theorem magnitude_double (small : value.natAbs ≤ 2 ^ 63) :
    magnitude (double value) = nearest value.natAbs := by
  have bounded := nearest_lt small
  unfold magnitude
  rw [toNat_double small]
  split_ifs <;> omega

theorem double_low_iff (small : value.natAbs ≤ 2 ^ 63) :
    (double value).toNat < 2 ^ 63 ↔ ¬ value < 0 := by
  have bounded := nearest_lt small
  rw [toNat_double small]
  split_ifs <;> omega

/-- A rounded integer that a double is not below was not below it. -/
theorem totalKey64_le_of_linePlace (small : value.natAbs ≤ 2 ^ 63)
    (place : linePlace bits ≤ intPlace value) : totalKey64 bits ≤ totalKey64 (double value) := by
  have abs := natAbs_mul_one64 value
  have key := double_low_iff small
  have pattern := magnitude_double small
  unfold linePlace intPlace at place
  unfold totalKey64
  by_cases low : bits.toNat < 2 ^ 63
  · by_cases below : value < 0
    · rw [if_pos low, if_pos below] at place
      rw [if_pos below] at abs
      omega
    · rw [if_pos low, if_neg below] at place
      rw [if_neg below] at abs
      have under : magnitude bits ≤ nearest value.natAbs := le_nearest (by omega)
      have lowDouble := key.mpr below
      rw [if_pos low, if_pos lowDouble, ← magnitude_of_low low, ← magnitude_of_low lowDouble, pattern]
      exact_mod_cast under
  · rw [if_neg low] at place ⊢
    by_cases below : value < 0
    · rw [if_pos below] at place abs
      have least : nearest value.natAbs ≤ magnitude bits := nearest_le (by omega)
      have highDouble : ¬ (double value).toNat < 2 ^ 63 := fun low => key.mp low below
      rw [if_neg highDouble]
      rw [magnitude_of_high highDouble] at pattern
      rw [magnitude_of_high low] at least
      omega
    · rw [if_pos (key.mpr below)]
      have := bits.toNat_lt
      omega

/-- A rounded integer that is not above a double was not above it. -/
theorem totalKey64_ge_of_linePlace (small : value.natAbs ≤ 2 ^ 63)
    (place : intPlace value ≤ linePlace bits) : totalKey64 (double value) ≤ totalKey64 bits := by
  have abs := natAbs_mul_one64 value
  have key := double_low_iff small
  have pattern := magnitude_double small
  unfold linePlace intPlace at place
  unfold totalKey64
  by_cases low : bits.toNat < 2 ^ 63
  · rw [if_pos low] at place ⊢
    by_cases below : value < 0
    · have highDouble : ¬ (double value).toNat < 2 ^ 63 := fun low => key.mp low below
      rw [if_neg highDouble]
      have := (double value).toNat_lt
      omega
    · rw [if_neg below] at place abs
      have least : nearest value.natAbs ≤ magnitude bits := nearest_le (by omega)
      have lowDouble := key.mpr below
      rw [if_pos lowDouble, ← magnitude_of_low low, ← magnitude_of_low lowDouble, pattern]
      exact_mod_cast least
  · rw [if_neg low] at place ⊢
    by_cases below : value < 0
    · rw [if_pos below] at place abs
      have under : magnitude bits ≤ nearest value.natAbs := le_nearest (by omega)
      have highDouble : ¬ (double value).toNat < 2 ^ 63 := fun low => key.mp low below
      rw [if_neg highDouble]
      rw [magnitude_of_high highDouble] at pattern
      rw [magnitude_of_high low] at under
      omega
    · rw [if_neg below] at place abs
      omega

theorem double_zero : double 0 = 0 := rfl

/-- Only zero rounds to a zero. -/
theorem eq_zero_of_double (small : value.natAbs ≤ 2 ^ 63) (zero : lineKey64 (double value) = 0) :
    value = 0 := by
  by_contra some_
  have least : 1 ≤ nearest value.natAbs := one_le_nearest (by omega)
  unfold lineKey64 at zero
  rw [toNat_double small] at zero
  have bounded := nearest_lt small
  split_ifs at zero <;> omega

theorem nan64_double (small : value.natAbs ≤ 2 ^ 63) : nan64 (double value) = false := by
  have bounded := nearest_lt small
  unfold nan64
  rw [magnitude_double small]
  exact decide_eq_false (by omega)

/-- Whether a rounded integer is at least `2 ^ 63`. -/
theorem top_le_double_iff (small : value.natAbs ≤ 2 ^ 63) :
    (partialCmp64 (double value) 0x43e0000000000000).any Ordering.isGE ↔
      ¬ value < 0 ∧ 1086 * 2 ^ 52 ≤ nearest value.natAbs := by
  have bounded := nearest_lt small
  have top : nan64 0x43e0000000000000 = false := by decide
  have key : lineKey64 0x43e0000000000000 = 1086 * 2 ^ 52 := by decide
  unfold partialCmp64
  rw [nan64_double small, top, key]
  simp only [Bool.or_self, Bool.false_eq_true, if_false, Option.any_some]
  rw [Ordering.isGE_iff_ne_lt, compare_lt_iff_lt]
  unfold lineKey64
  rw [toNat_double small]
  split_ifs with below <;> omega

/-- A rounded integer below `2 ^ 63` is the integer it is cut to. -/
theorem linePlace_double (small : value.natAbs ≤ 2 ^ 63)
    (inside : value < 0 ∨ nearest value.natAbs < 1086 * 2 ^ 52) :
    linePlace (double value) = intPlace (truncate (double value)) := by
  have key := double_low_iff small
  have bounded := nearest_lt small
  obtain ⟨whole, spelled⟩ := whole_nearest value.natAbs
  rw [mul_comm] at spelled
  unfold truncate linePlace
  rw [nan64_double small, magnitude_double small, spelled, Nat.mul_div_cancel _ one64_pos]
  simp only [Bool.false_eq_true, if_false]
  by_cases below : value < 0
  · have some_ : 0 < whole := by
      have least : 1 ≤ nearest value.natAbs := one_le_nearest (by omega)
      have positive : scaled 0 < scaled (nearest value.natAbs) := scaled_strictMono (by omega)
      rw [spelled] at positive
      exact Nat.pos_of_mul_pos_right positive
    have most : whole ≤ 2 ^ 63 := by
      have top := scaled_strictMono.monotone bounded
      rw [spelled, scaled_top] at top
      exact Nat.le_of_mul_le_mul_right top one64_pos
    have high : ¬ (double value).toNat < 2 ^ 63 := fun low => key.mp low below
    rw [if_neg high, if_neg high, max_eq_left (by simp only [Int.ofNat_eq_natCast]; omega)]
    unfold intPlace
    rw [if_pos (by simp only [Int.ofNat_eq_natCast]; omega)]
    push_cast
    simp only [Int.ofNat_eq_natCast]
    ring
  · have most : whole < 2 ^ 63 := by
      have top := scaled_strictMono (inside.resolve_left below)
      rw [spelled, scaled_top] at top
      exact Nat.lt_of_mul_lt_mul_right top
    have low := key.mpr below
    rw [if_pos low, if_pos low, min_eq_left (by simp only [Int.ofNat_eq_natCast]; omega)]
    unfold intPlace
    rw [if_neg (by simp only [Int.ofNat_eq_natCast]; omega)]
    push_cast
    simp only [Int.ofNat_eq_natCast]

/-- An integer that is rounded up to `2 ^ 63` is below it. -/
theorem intPlace_lt_top (small : value.natAbs ≤ 2 ^ 63) (below : value < 2 ^ 63)
    (inside : ¬ value < 0) (top : nearest value.natAbs = 1086 * 2 ^ 52) :
    intPlace value < linePlace (double value) := by
  have positive : (0 : ℤ) < one64 := Int.natCast_pos.mpr one64_pos
  unfold intPlace linePlace
  rw [if_neg inside, if_pos ((double_low_iff small).mpr inside), magnitude_double small, top,
    scaled_top]
  have less := mul_lt_mul_of_pos_right below positive
  push_cast
  omega

end Rounded

end DrStrange.Lib
