/-
**The fast CRC is the bitwise one.**

`crc32` takes eight bytes at a time through eight tables. What the code did before, and what every
file written by it was sealed with, is one bit at a time (`bitwise`). The rounds of the register are
linear, so the answer for eight bytes is the exclusive or of the answers for each of them, advanced
by those that follow it; `CRC32_SLICE8` holds just these.
-/

import DrStrange.Lib.Crc
import DrStrange.Native.Wal

namespace DrStrange.Native

open Lib.Crc

/-! ### One byte, bit by bit -/

/-- The inner loop of the reference: eight rounds. -/
def bitwiseRounds (crc : UInt32) : UInt32 := crc32Bit^[8] crc

/-- The bitwise CRC-32 the tables replaced. -/
def bitwise (bytes : Bytes) : UInt32 :=
  ~~~ bytes.foldl (fun crc byte => bitwiseRounds (crc ^^^ byte.toUInt32)) (~~~ 0)

/-- The reflected polynomial of IEEE 802.3. -/
def crc32Poly : BitVec 32 := 0xEDB88320#32

theorem crc32Bit_toBitVec (crc : UInt32) :
    (crc32Bit crc).toBitVec = oneRound crc32Poly crc.toBitVec := by
  have bit : (crc &&& 1).toBitVec = if crc.toBitVec.getLsbD 0 then 1#32 else 0#32 := by
    rw [UInt32.toBitVec_and]
    refine (BitVec.and_one_eq_setWidth_ofBool_getLsbD).trans ?_
    cases crc.toBitVec.getLsbD 0 <;> rfl
  have shifted : (crc >>> 1).toBitVec = crc.toBitVec >>> 1 := UInt32.toBitVec_shiftRight ..
  rw [crc32Bit, UInt32.toBitVec_xor, UInt32.toBitVec_and, UInt32.toBitVec_sub, bit, shifted, oneRound]
  cases crc.toBitVec.getLsbD 0 <;> rfl

theorem iterate_crc32Bit_toBitVec (n : ℕ) (crc : UInt32) :
    (crc32Bit^[n] crc).toBitVec = rounds crc32Poly n crc.toBitVec := by
  induction n with
  | zero => rfl
  | succ n ih => rw [Function.iterate_succ_apply', crc32Bit_toBitVec, ih, rounds_succ]

theorem iterate_crc32Bit_xor (n : ℕ) (a b : UInt32) :
    crc32Bit^[n] (a ^^^ b) = crc32Bit^[n] a ^^^ crc32Bit^[n] b := by
  refine UInt32.toBitVec_inj.mp ?_
  rw [UInt32.toBitVec_xor, iterate_crc32Bit_toBitVec, iterate_crc32Bit_toBitVec,
    iterate_crc32Bit_toBitVec, UInt32.toBitVec_xor, rounds_xor]

/-- Eight rounds move three bytes down and look the lowest one up. -/
theorem bitwiseRounds_split (crc : UInt32) :
    bitwiseRounds crc = (crc >>> 8) ^^^ crc32Table crc.toUInt8 := by
  have lowest : crc.toUInt8.toUInt32.toBitVec = low 8 crc.toBitVec := rfl
  have shifted : (crc >>> 8).toBitVec = crc.toBitVec >>> 8 := UInt32.toBitVec_shiftRight ..
  have looked : (crc32Table crc.toUInt8).toBitVec = rounds crc32Poly 8 (low 8 crc.toBitVec) := by
    rw [← lowest, ← iterate_crc32Bit_toBitVec]
    rfl
  refine UInt32.toBitVec_inj.mp ?_
  rw [bitwiseRounds, iterate_crc32Bit_toBitVec, rounds_split, UInt32.toBitVec_xor, shifted, looked]

theorem bitwiseRounds_xor (a b : UInt32) :
    bitwiseRounds (a ^^^ b) = bitwiseRounds a ^^^ bitwiseRounds b := iterate_crc32Bit_xor 8 a b

/-- The byte-wise step of the tail. -/
theorem bitwiseRounds_byte (crc : UInt32) (byte : UInt8) :
    bitwiseRounds (crc ^^^ byte.toUInt32) = (crc >>> 8) ^^^ crc32Table (crc.toUInt8 ^^^ byte) := by
  have out : byte.toUInt32 >>> 8 = 0 := by
    refine UInt32.toNat_inj.mp ?_
    simp [Nat.shiftRight_eq_div_pow, Nat.div_eq_of_lt byte.toNat_lt]
  have nothing : (crc ^^^ byte.toUInt32) >>> 8 = crc >>> 8 := by
    rw [UInt32.shiftRight_xor, out, UInt32.xor_zero]
  rw [bitwiseRounds_split, nothing, UInt32.toUInt8_xor, UInt8.toUInt8_toUInt32]

/-! ### Eight bytes through the tables -/

/-- `CRC32_SLICE8[k]` answers for a byte that `k` more follow. -/
theorem crc32Slice_eq (k : ℕ) (byte : UInt8) :
    crc32Slice k byte = bitwiseRounds^[k + 1] byte.toUInt32 := by
  induction k with
  | zero => rfl
  | succ k ih =>
    rw [Function.iterate_succ_apply', ← ih, bitwiseRounds_split]
    rfl

theorem iterate_bitwiseRounds_xor (n : ℕ) (a b : UInt32) :
    bitwiseRounds^[n] (a ^^^ b) = bitwiseRounds^[n] a ^^^ bitwiseRounds^[n] b := by
  induction n with
  | zero => rfl
  | succ n ih => simp only [Function.iterate_succ_apply', ih, bitwiseRounds_xor]

/-- The four bytes of the register, each looked up and advanced by those above it. -/
theorem iterate_four (crc : UInt32) :
    bitwiseRounds^[4] crc =
      bitwiseRounds^[4] crc.toUInt8.toUInt32 ^^^ bitwiseRounds^[3] (crc >>> 8).toUInt8.toUInt32 ^^^
        bitwiseRounds^[2] (crc >>> 16).toUInt8.toUInt32 ^^^
        bitwiseRounds (crc >>> 24).toUInt8.toUInt32 := by
  have down : ∀ register : UInt32,
      bitwiseRounds register = (register >>> 8) ^^^ bitwiseRounds register.toUInt8.toUInt32 :=
    bitwiseRounds_split
  have second : crc >>> 8 >>> 8 = crc >>> 16 := by
    refine UInt32.toNat_inj.mp ?_
    simp [UInt32.toNat_shiftRight, Nat.shiftRight_eq_div_pow, Nat.div_div_eq_div_mul]
  have third : crc >>> 16 >>> 8 = crc >>> 24 := by
    refine UInt32.toNat_inj.mp ?_
    simp [UInt32.toNat_shiftRight, Nat.shiftRight_eq_div_pow, Nat.div_div_eq_div_mul]
  have fourth : crc >>> 24 >>> 8 = 0 := by
    refine UInt32.toNat_inj.mp ?_
    have bound := crc.toNat_lt
    simp [UInt32.toNat_shiftRight, Nat.shiftRight_eq_div_pow, Nat.div_div_eq_div_mul]
    omega
  have last : bitwiseRounds (crc >>> 24) = bitwiseRounds (crc >>> 24).toUInt8.toUInt32 := by
    rw [down (crc >>> 24), fourth, UInt32.zero_xor]
  calc bitwiseRounds^[4] crc
      = bitwiseRounds^[3] (crc >>> 8) ^^^ bitwiseRounds^[4] crc.toUInt8.toUInt32 := by
        rw [Function.iterate_succ_apply, down crc, iterate_bitwiseRounds_xor,
          ← Function.iterate_succ_apply]
    _ = bitwiseRounds^[2] (crc >>> 16) ^^^ bitwiseRounds^[3] (crc >>> 8).toUInt8.toUInt32 ^^^
          bitwiseRounds^[4] crc.toUInt8.toUInt32 := by
        rw [Function.iterate_succ_apply _ 2, down (crc >>> 8), second, iterate_bitwiseRounds_xor,
          ← Function.iterate_succ_apply _ 2]
    _ = bitwiseRounds (crc >>> 24) ^^^ bitwiseRounds^[2] (crc >>> 16).toUInt8.toUInt32 ^^^
          bitwiseRounds^[3] (crc >>> 8).toUInt8.toUInt32 ^^^
          bitwiseRounds^[4] crc.toUInt8.toUInt32 := by
        rw [Function.iterate_succ_apply _ 1, down (crc >>> 16), third, iterate_bitwiseRounds_xor,
          ← Function.iterate_succ_apply _ 1]
        rfl
    _ = _ := by
        rw [last]
        ac_rfl

/-- A table answers for the exclusive or of two bytes. -/
theorem crc32Slice_xor (k : ℕ) (a b : UInt8) :
    crc32Slice k (a ^^^ b) = crc32Slice k a ^^^ crc32Slice k b := by
  rw [crc32Slice_eq, crc32Slice_eq, crc32Slice_eq, UInt8.toUInt32_xor, iterate_bitwiseRounds_xor]

/-- **Eight bytes at once.** -/
theorem crc32Block_eq (crc : UInt32) (b0 b1 b2 b3 b4 b5 b6 b7 : UInt8) :
    crc32Slice 7 (b0 ^^^ crc.toUInt8) ^^^ crc32Slice 6 (b1 ^^^ (crc >>> 8).toUInt8) ^^^
        crc32Slice 5 (b2 ^^^ (crc >>> 16).toUInt8) ^^^ crc32Slice 4 (b3 ^^^ (crc >>> 24).toUInt8) ^^^
        crc32Slice 3 b4 ^^^ crc32Slice 2 b5 ^^^ crc32Slice 1 b6 ^^^ crc32Slice 0 b7 =
      [b0, b1, b2, b3, b4, b5, b6, b7].foldl
        (fun crc byte => bitwiseRounds (crc ^^^ byte.toUInt32)) crc := by
  have register : bitwiseRounds^[8] crc =
      crc32Slice 7 crc.toUInt8 ^^^ crc32Slice 6 (crc >>> 8).toUInt8 ^^^
        crc32Slice 5 (crc >>> 16).toUInt8 ^^^ crc32Slice 4 (crc >>> 24).toUInt8 := by
    rw [show 8 = 4 + 4 from rfl, Function.iterate_add_apply]
    conv_lhs => rw [iterate_four crc]
    simp only [iterate_bitwiseRounds_xor, crc32Slice_eq]
    rfl
  have fed : [b0, b1, b2, b3, b4, b5, b6, b7].foldl
      (fun crc byte => bitwiseRounds (crc ^^^ byte.toUInt32)) crc =
      bitwiseRounds^[8] crc ^^^ crc32Slice 7 b0 ^^^ crc32Slice 6 b1 ^^^ crc32Slice 5 b2 ^^^
        crc32Slice 4 b3 ^^^ crc32Slice 3 b4 ^^^ crc32Slice 2 b5 ^^^ crc32Slice 1 b6 ^^^
        crc32Slice 0 b7 := by
    simp only [List.foldl_cons, List.foldl_nil, bitwiseRounds_xor, crc32Slice_eq]
    rfl
  rw [fed, register, crc32Slice_xor, crc32Slice_xor, crc32Slice_xor, crc32Slice_xor]
  ac_rfl

theorem crc32Loop_eq (crc : UInt32) (bytes : Bytes) :
    crc32Loop crc bytes =
      bytes.foldl (fun crc byte => bitwiseRounds (crc ^^^ byte.toUInt32)) crc := by
  fun_induction crc32Loop crc bytes with
  | case1 crc b0 b1 b2 b3 b4 b5 b6 b7 rest ih =>
    rw [ih, crc32Block_eq]
    simp only [List.foldl_cons, List.foldl_nil]
  | case2 crc tail short => simp only [bitwiseRounds_byte]

/-- **The fast CRC equals the bitwise one**, at every length. -/
theorem crc32_eq_bitwise (bytes : Bytes) : crc32 bytes = bitwise bytes := by
  rw [crc32, crc32Loop_eq, bitwise]

/-- The check value of the polynomial, over `"123456789"`. -/
example : crc32 [49, 50, 51, 52, 53, 54, 55, 56, 57] = 0xCBF43926 := by decide

end DrStrange.Native
