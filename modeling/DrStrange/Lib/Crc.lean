/-
**Reflected cyclic redundancy checks: rounds of a shift register.**

One round shifts the register down and folds the polynomial in if the bit that fell out was set. It
is linear in exclusive or (`oneRound_xor`), and a register whose low bits are clear only shifts
(`rounds_of_low_zero`). So `n` rounds split into what is shifted down and what the low `n` bits turn
into (`rounds_split`), which is what a table of the low bits' answers is good for. Width, polynomial
and stride are parameters.
-/

import Mathlib

namespace DrStrange.Lib.Crc

variable {w : ℕ} (poly : BitVec w)

/-- One round: shift down, and fold the polynomial in for the bit that fell out. -/
def oneRound (register : BitVec w) : BitVec w :=
  (register >>> 1) ^^^ (if register.getLsbD 0 then poly else 0)

def rounds (n : ℕ) : BitVec w → BitVec w := (oneRound poly)^[n]

theorem rounds_zero (register : BitVec w) : rounds poly 0 register = register := rfl

theorem rounds_succ (n : ℕ) (register : BitVec w) :
    rounds poly (n + 1) register = oneRound poly (rounds poly n register) :=
  Function.iterate_succ_apply' _ _ _

theorem rounds_add (n m : ℕ) (register : BitVec w) :
    rounds poly (n + m) register = rounds poly n (rounds poly m register) :=
  Function.iterate_add_apply _ _ _ _

/-! ### Linearity -/

theorem oneRound_xor (a b : BitVec w) :
    oneRound poly (a ^^^ b) = oneRound poly a ^^^ oneRound poly b := by
  have folds : (if (a ^^^ b).getLsbD 0 then poly else 0) =
      (if a.getLsbD 0 then poly else 0) ^^^ (if b.getLsbD 0 then poly else 0) := by
    rw [BitVec.getLsbD_xor]
    cases a.getLsbD 0 <;> cases b.getLsbD 0 <;> simp
  rw [oneRound, oneRound, oneRound, folds, BitVec.ushiftRight_xor_distrib]
  ac_rfl

theorem rounds_xor (n : ℕ) (a b : BitVec w) :
    rounds poly n (a ^^^ b) = rounds poly n a ^^^ rounds poly n b := by
  induction n with
  | zero => rfl
  | succ n ih => rw [rounds_succ, rounds_succ, rounds_succ, ih, oneRound_xor]

/-! ### Low bits -/

/-- A register whose low bits are clear only shifts. -/
theorem rounds_of_low_zero {n : ℕ} {register : BitVec w}
    (clear : ∀ i < n, register.getLsbD i = false) : rounds poly n register = register >>> n := by
  induction n with
  | zero => rw [rounds_zero, BitVec.ushiftRight_zero]
  | succ n ih =>
    have out : (register >>> n).getLsbD 0 = false := by
      rw [BitVec.getLsbD_ushiftRight]
      exact clear n (Nat.lt_succ_self n)
    rw [rounds_succ, ih fun i low => clear i (Nat.lt_succ_of_lt low), oneRound, out,
      if_neg Bool.false_ne_true, BitVec.shiftRight_add]
    simp

/-- The low `n` bits of a register. -/
def low (n : ℕ) (register : BitVec w) : BitVec w := (register.setWidth n).setWidth w

theorem getLsbD_low (n : ℕ) (register : BitVec w) (i : ℕ) :
    (low n register).getLsbD i = (decide (i < n) && register.getLsbD i) := by
  rw [low, BitVec.getLsbD_setWidth, BitVec.getLsbD_setWidth]
  by_cases inside : i < w
  · simp [inside]
  · simp [inside, BitVec.getLsbD_of_ge register i (Nat.not_lt.mp inside)]

/-- **What `n` rounds do**: the high bits shift down, over what the low `n` bits turn into. -/
theorem rounds_split (n : ℕ) (register : BitVec w) :
    rounds poly n register = (register >>> n) ^^^ rounds poly n (low n register) := by
  have parts : register = (register ^^^ low n register) ^^^ low n register := by
    rw [BitVec.xor_assoc, BitVec.xor_self]
    simp
  have clear : ∀ i < n, (register ^^^ low n register).getLsbD i = false := by
    intro i inside
    rw [BitVec.getLsbD_xor, getLsbD_low, decide_eq_true inside, Bool.true_and, Bool.xor_self]
  have high : (register ^^^ low n register) >>> n = register >>> n := by
    refine BitVec.eq_of_getLsbD_eq fun i _ => ?_
    rw [BitVec.getLsbD_ushiftRight, BitVec.getLsbD_xor, getLsbD_low, BitVec.getLsbD_ushiftRight,
      decide_eq_false (Nat.not_lt.mpr (Nat.le_add_right n i)), Bool.false_and, Bool.xor_false]
  calc rounds poly n register
      = rounds poly n ((register ^^^ low n register) ^^^ low n register) := by rw [← parts]
    _ = (register >>> n) ^^^ rounds poly n (low n register) := by
        rw [rounds_xor, rounds_of_low_zero poly clear, high]

end DrStrange.Lib.Crc
