/-
**Single and double precision as bit patterns.**

A float is taken apart into its sign, its exponent field and its fraction field, as natural numbers.
`widen` gives a single its double, and `narrow` rounds a double to the nearest single, ties to the
even one. A finite single comes back from its double (`narrow_widen`).
-/

import Mathlib

namespace DrStrange.Lib

/-- Neither infinite nor not a number. -/
def finite32 (bits : UInt32) : Bool := bits.toNat / 2 ^ 23 % 2 ^ 8 ≠ 255

def finite64 (bits : UInt64) : Bool := bits.toNat / 2 ^ 52 % 2 ^ 11 ≠ 2047

/-- The exponent and fraction fields of the double that a single of these fields has. -/
def widenFields (exponent fraction : ℕ) : ℕ × ℕ :=
  if exponent = 255 then (2047, fraction * 2 ^ 29)
  else if exponent = 0 then
    -- A subnormal single is a normal double.
    if fraction = 0 then (0, 0)
    else (fraction.log2 + 874, (fraction - 2 ^ fraction.log2) * 2 ^ (52 - fraction.log2))
  else (exponent + 896, fraction * 2 ^ 29)

def widen (bits : UInt32) : UInt64 :=
  let fields := widenFields (bits.toNat / 2 ^ 23 % 2 ^ 8) (bits.toNat % 2 ^ 23)
  .ofNat (bits.toNat / 2 ^ 31 * 2 ^ 63 + fields.1 * 2 ^ 52 + fields.2)

/-- A significand without its last bits, rounded to the nearest, ties to even. -/
def roundEven (significand bits : ℕ) : ℕ :=
  let kept := significand / 2 ^ bits
  let lost := significand % 2 ^ bits
  if 2 ^ bits < 2 * lost ∨ 2 ^ bits = 2 * lost ∧ kept % 2 = 1 then kept + 1 else kept

/-- A double's fields rounded to a single without its sign. A carry out of the fraction moves on to
the exponent, and past the last exponent is infinity. -/
def narrowFields (exponent fraction : ℕ) : ℕ :=
  if exponent = 2047 then 255 * 2 ^ 23 + if fraction = 0 then 0 else 2 ^ 22
  else
    let significand := if exponent = 0 then fraction else 2 ^ 52 + fraction
    min (255 * 2 ^ 23)
      ((exponent - 897) * 2 ^ 23 + roundEven significand (max 29 (926 - max exponent 1)))

def narrow (bits : UInt64) : UInt32 :=
  .ofNat (bits.toNat / 2 ^ 63 * 2 ^ 31 +
    narrowFields (bits.toNat / 2 ^ 52 % 2 ^ 11) (bits.toNat % 2 ^ 52))

theorem roundEven_mul (kept bits : ℕ) : roundEven (kept * 2 ^ bits) bits = kept := by
  have positive : 0 < 2 ^ bits := Nat.two_pow_pos bits
  unfold roundEven
  rw [Nat.mul_div_cancel _ positive, Nat.mul_mod_left]
  simp only [mul_zero]
  rw [if_neg]
  omega

theorem roundEven_zero (bits : ℕ) : roundEven 0 bits = 0 := by
  have nothing := roundEven_mul 0 bits
  rwa [zero_mul] at nothing

variable {fraction exponent : ℕ} {bits : UInt32}

/-- Fields in range are read back from the bits they make up. -/
theorem fields64 {sign : ℕ} (small : sign < 2) (inside : exponent < 2 ^ 11)
    (short : fraction < 2 ^ 52) :
    (UInt64.ofNat (sign * 2 ^ 63 + exponent * 2 ^ 52 + fraction)).toNat =
      sign * 2 ^ 63 + exponent * 2 ^ 52 + fraction := by
  rw [UInt64.toNat_ofNat']
  omega

theorem fields32 {bits : ℕ} (small : bits < 2 ^ 32) :
    (bits / 2 ^ 31 * 2 ^ 31 + (bits / 2 ^ 23 % 2 ^ 8 * 2 ^ 23 + bits % 2 ^ 23)) % 2 ^ 32 = bits := by
  omega

theorem log2_fraction (some_ : fraction ≠ 0) (short : fraction < 2 ^ 23) :
    2 ^ fraction.log2 ≤ fraction ∧ fraction < 2 ^ (fraction.log2 + 1) ∧ fraction.log2 ≤ 22 := by
  have below : fraction.log2 < 23 := (Nat.log2_lt some_).mpr short
  exact ⟨Nat.log2_self_le some_, Nat.lt_log2_self, by omega⟩

/-- The significand of a subnormal single, shifted up to where a double has its leading bit. -/
theorem significand_subnormal (some_ : fraction ≠ 0) (short : fraction < 2 ^ 23) :
    2 ^ 52 + (fraction - 2 ^ fraction.log2) * 2 ^ (52 - fraction.log2) =
      fraction * 2 ^ (52 - fraction.log2) := by
  obtain ⟨least, -, low⟩ := log2_fraction some_ short
  have whole : 2 ^ fraction.log2 * 2 ^ (52 - fraction.log2) = 2 ^ 52 := by
    rw [← pow_add]
    congr 1
    omega
  rw [Nat.sub_mul, whole]
  have room : 2 ^ 52 ≤ fraction * 2 ^ (52 - fraction.log2) := whole ▸ Nat.mul_le_mul_right _ least
  omega

theorem widenFields_lt (inside : exponent < 2 ^ 8) (short : fraction < 2 ^ 23) :
    (widenFields exponent fraction).1 < 2 ^ 11 ∧ (widenFields exponent fraction).2 < 2 ^ 52 := by
  unfold widenFields
  split_ifs with top zero none
  · simp only
    omega
  · simp
  · obtain ⟨least, most, low⟩ := log2_fraction none short
    have whole := significand_subnormal none short
    have room : fraction * 2 ^ (52 - fraction.log2) <
        2 ^ (fraction.log2 + 1) * 2 ^ (52 - fraction.log2) :=
      Nat.mul_lt_mul_of_pos_right most (Nat.two_pow_pos _)
    have sum : 2 ^ (fraction.log2 + 1) * 2 ^ (52 - fraction.log2) = 2 ^ 53 := by
      rw [← pow_add]
      congr 1
      omega
    simp only
    omega
  · simp only
    omega

theorem widenFields_finite (inside : exponent < 255) (short : fraction < 2 ^ 23) :
    (widenFields exponent fraction).1 < 2047 := by
  unfold widenFields
  rw [if_neg inside.ne]
  split_ifs with zero none
  · norm_num
  · have low := (log2_fraction none short).2.2
    simp only
    omega
  · simp only
    omega

/-- The fields of a finite single, and what its double rounds to. -/
theorem narrowFields_widenFields (inside : exponent < 255) (short : fraction < 2 ^ 23) :
    narrowFields (widenFields exponent fraction).1 (widenFields exponent fraction).2 =
      exponent * 2 ^ 23 + fraction := by
  unfold widenFields
  rw [if_neg inside.ne]
  split_ifs with zero none
  · subst zero none
    unfold narrowFields
    simp only
    rw [if_neg (by omega), if_pos trivial, roundEven_zero]
    rfl
  · obtain ⟨-, -, low⟩ := log2_fraction none short
    subst zero
    unfold narrowFields
    simp only
    rw [if_neg (by omega), if_neg (by omega), significand_subnormal none short]
    have shift : max 29 (926 - max (fraction.log2 + 874) 1) = 52 - fraction.log2 := by omega
    rw [shift, roundEven_mul]
    omega
  · unfold narrowFields
    simp only
    rw [if_neg (by omega), if_neg (by omega)]
    have shift : max 29 (926 - max (exponent + 896) 1) = 29 := by omega
    have whole : 2 ^ 52 + fraction * 2 ^ 29 = (2 ^ 23 + fraction) * 2 ^ 29 := by ring
    rw [shift, whole, roundEven_mul]
    omega

/-- The exponent and the fraction of a finite single. -/
theorem fields_finite (finite : finite32 bits) :
    bits.toNat / 2 ^ 23 % 2 ^ 8 < 255 ∧ bits.toNat % 2 ^ 23 < 2 ^ 23 := by
  have inside : bits.toNat / 2 ^ 23 % 2 ^ 8 < 2 ^ 8 := Nat.mod_lt _ (by norm_num)
  have proper : bits.toNat / 2 ^ 23 % 2 ^ 8 ≠ 255 := by simpa [finite32] using finite
  exact ⟨lt_of_le_of_ne (Nat.le_of_lt_succ inside) proper, Nat.mod_lt _ (by norm_num)⟩

/-- **A finite single comes back from its double.** -/
theorem narrow_widen (finite : finite32 bits) : narrow (widen bits) = bits := by
  have small : bits.toNat < 2 ^ 32 := bits.toNat_lt
  obtain ⟨proper, short⟩ := fields_finite finite
  obtain ⟨exponentLt, fractionLt⟩ := widenFields_lt (proper.trans (by norm_num)) short
  have rounded := narrowFields_widenFields proper short
  unfold narrow widen
  generalize widenFields (bits.toNat / 2 ^ 23 % 2 ^ 8) (bits.toNat % 2 ^ 23) = fields at *
  rw [fields64 (by omega) exponentLt fractionLt]
  have sign : (bits.toNat / 2 ^ 31 * 2 ^ 63 + fields.1 * 2 ^ 52 + fields.2) / 2 ^ 63 =
      bits.toNat / 2 ^ 31 := by omega
  have exponent : (bits.toNat / 2 ^ 31 * 2 ^ 63 + fields.1 * 2 ^ 52 + fields.2) / 2 ^ 52 % 2 ^ 11 =
      fields.1 := by omega
  have fraction : (bits.toNat / 2 ^ 31 * 2 ^ 63 + fields.1 * 2 ^ 52 + fields.2) % 2 ^ 52 =
      fields.2 := by omega
  rw [sign, exponent, fraction, rounded]
  refine UInt32.toNat_inj.mp ?_
  rw [UInt32.toNat_ofNat', fields32 small]

/-- A finite single has a finite double. -/
theorem finite_widen (finite : finite32 bits) : finite64 (widen bits) := by
  have small : bits.toNat < 2 ^ 32 := bits.toNat_lt
  obtain ⟨proper, short⟩ := fields_finite finite
  obtain ⟨exponentLt, fractionLt⟩ := widenFields_lt (proper.trans (by norm_num)) short
  have below := widenFields_finite proper short
  unfold finite64 widen
  generalize widenFields (bits.toNat / 2 ^ 23 % 2 ^ 8) (bits.toNat % 2 ^ 23) = fields at *
  rw [fields64 (by omega) exponentLt fractionLt]
  simp only [ne_eq, decide_eq_true_eq]
  omega

/- Read only through the lemmas above: a float's fields never reduce on a variable. -/
attribute [irreducible] finite32 finite64 widen narrow

end DrStrange.Lib
