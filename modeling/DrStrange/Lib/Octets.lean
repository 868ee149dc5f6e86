/-
**Octet strings compared on their first bits.**

The bits of an octet string are those of its octets, highest first. Two strings are the same on their
first `n` bits if and only if they are the same on the whole octets among these and, under a mask, on
the octet that the rest of `n` ends in. The rules take the first octet off (`sameFirst_cons`), and end
under the mask (`sameFirst_part`).
-/

import Mathlib

namespace DrStrange.Lib

abbrev U8 := BitVec 8

/-- The bits of an octet, highest first. -/
def octetBits (octet : U8) : List Bool := (List.range 8).map octet.getMsbD

def bits (octets : List U8) : List Bool := octets.flatMap octetBits

/-- The same on the first `n` bits. -/
def SameFirst (n : ℕ) (a b : List U8) : Prop := (bits a).take n = (bits b).take n

instance (n : ℕ) (a b : List U8) : Decidable (SameFirst n a b) :=
  inferInstanceAs (Decidable (_ = _))

/-- The mask of the first `n` bits of an octet. -/
def topMask (n : ℕ) : U8 := 0xff#8 <<< (8 - n)

variable {n : ℕ} {x y : U8} {a b : List U8}

@[simp] theorem length_octetBits (octet : U8) : (octetBits octet).length = 8 := by
  rw [octetBits, List.length_map, List.length_range]

@[simp] theorem bits_nil : bits [] = [] := rfl

theorem bits_cons (octet : U8) (octets : List U8) :
    bits (octet :: octets) = octetBits octet ++ bits octets := List.flatMap_cons

theorem octetBits_injective (same : octetBits x = octetBits y) : x = y := by
  refine BitVec.eq_of_getMsbD_eq fun i inside => ?_
  have at_ := congrArg (fun bits => bits[i]?) same
  simpa [octetBits, inside] using at_

theorem getMsbD_topMask (small : n ≤ 8) (i : ℕ) : (topMask n).getMsbD i = decide (i < n) := by
  rw [topMask, BitVec.getMsbD_shiftLeft]
  have ones : (0xff#8).getMsbD (i + (8 - n)) = decide (i + (8 - n) < 8) := by
    exact BitVec.getMsbD_allOnes
  rw [ones]
  by_cases inside : i < n
  · simp [inside]
    omega
  · simp [inside]
    omega

/-- Under the mask octets are the same as on their first bits. -/
theorem masked_iff (small : n ≤ 8) :
    x &&& topMask n = y &&& topMask n ↔ (octetBits x).take n = (octetBits y).take n := by
  have first : ∀ octet : U8, (octetBits octet).take n = (List.range n).map octet.getMsbD := by
    intro octet
    rw [octetBits, ← List.map_take, List.take_range, min_eq_left small]
  rw [first, first, List.map_inj_left]
  constructor
  · intro same i inside
    have at_ := congrArg (fun octet => octet.getMsbD i) same
    simpa [BitVec.getMsbD_and, getMsbD_topMask small, List.mem_range.mp inside] using at_
  · intro same
    refine BitVec.eq_of_getMsbD_eq fun i _ => ?_
    rw [BitVec.getMsbD_and, BitVec.getMsbD_and, getMsbD_topMask small]
    by_cases inside : i < n
    · rw [same i (List.mem_range.mpr inside)]
    · simp [inside]

/-- Under the mask octets are the same if they are in one block of the numbers. -/
theorem masked_iff_div (n : ℕ) :
    x &&& topMask n = y &&& topMask n ↔ x.toNat / 2 ^ (8 - n) = y.toNat / 2 ^ (8 - n) := by
  have kept : ∀ octet : U8, (octet &&& topMask n).toNat =
      octet.toNat / 2 ^ (8 - n) * 2 ^ (8 - n) := by
    intro octet
    have whole : octet &&& topMask n = octet >>> (8 - n) <<< (8 - n) :=
      BitVec.shiftLeft_ushiftRight.symm
    have small : octet.toNat / 2 ^ (8 - n) * 2 ^ (8 - n) < 2 ^ 8 :=
      (Nat.div_mul_le_self _ _).trans_lt octet.isLt
    rw [whole, BitVec.toNat_shiftLeft, BitVec.toNat_ushiftRight, Nat.shiftLeft_eq,
      Nat.shiftRight_eq_div_pow,
      Nat.mod_eq_of_lt small]
  rw [← BitVec.toNat_inj, kept, kept]
  exact Nat.mul_left_inj (Nat.two_pow_pos _).ne'

@[simp] theorem sameFirst_zero : SameFirst 0 a b := rfl

theorem take_bits_cons : (bits (x :: a)).take (n + 8) = octetBits x ++ (bits a).take n := by
  rw [bits_cons, Nat.add_comm, ← length_octetBits x, List.take_length_add_append]

/-- A whole octet is the same, and so is what is behind it. -/
theorem sameFirst_cons : SameFirst (n + 8) (x :: a) (y :: b) ↔ x = y ∧ SameFirst n a b := by
  rw [SameFirst, take_bits_cons, take_bits_cons]
  constructor
  · intro same
    obtain ⟨head, tail⟩ := List.append_inj same (by simp)
    exact ⟨octetBits_injective head, tail⟩
  · rintro ⟨rfl, tail⟩
    rw [tail]

/-- Within an octet the mask decides. -/
theorem sameFirst_part (small : n ≤ 8) :
    SameFirst n (x :: a) (y :: b) ↔ x &&& topMask n = y &&& topMask n := by
  rw [SameFirst, masked_iff small, bits_cons, bits_cons,
    List.take_append_of_le_length (by simpa using small),
    List.take_append_of_le_length (by simpa using small)]

/-- The bits behind the first octet. -/
theorem drop_bits_cons : (bits (x :: a)).drop (n + 8) = (bits a).drop n := by
  rw [bits_cons, Nat.add_comm, ← length_octetBits x, List.drop_length_add_append]

/-- Whole octets are cut off with their bits. -/
theorem take_bits (octets : List U8) (k : ℕ) : (bits octets).take (8 * k) = bits (octets.take k) := by
  induction octets generalizing k with
  | nil => simp
  | cons octet octets ih =>
    cases k with
    | zero => rfl
    | succ k => rw [Nat.mul_succ, take_bits_cons, ih, List.take_succ_cons, bits_cons]

theorem drop_bits (octets : List U8) (k : ℕ) : (bits octets).drop (8 * k) = bits (octets.drop k) := by
  induction octets generalizing k with
  | nil => simp
  | cons octet octets ih =>
    cases k with
    | zero => rfl
    | succ k => rw [Nat.mul_succ, drop_bits_cons, ih, List.drop_succ_cons]

theorem length_bits (octets : List U8) : (bits octets).length = 8 * octets.length := by
  induction octets with
  | nil => rfl
  | cons octet octets ih =>
    rw [bits_cons, List.length_append, length_octetBits, ih, List.length_cons]
    omega

/-- Octets are read off their bits. -/
theorem bits_injective (same : bits a = bits b) : a = b := by
  induction a generalizing b with
  | nil =>
    cases b with
    | nil => rfl
    | cons y b =>
      have lengths := congrArg List.length same
      rw [length_bits, length_bits, List.length_cons] at lengths
      cases lengths
  | cons x a ih =>
    cases b with
    | nil =>
      have lengths := congrArg List.length same
      rw [length_bits, length_bits, List.length_cons] at lengths
      cases lengths
    | cons y b =>
      rw [bits_cons, bits_cons] at same
      obtain ⟨head, tail⟩ := List.append_inj same (by simp)
      rw [octetBits_injective head, ih tail]

/-- On whole octets the strings are compared octet by octet. -/
theorem sameFirst_octets (k : ℕ) : SameFirst (8 * k) a b ↔ a.take k = b.take k := by
  rw [SameFirst, take_bits, take_bits]
  exact ⟨bits_injective, congrArg bits⟩

/-- The inverted octets have the inverted bits. -/
theorem bits_map_not (octets : List U8) :
    bits (octets.map fun octet => ~~~octet) = (bits octets).map not := by
  induction octets with
  | nil => rfl
  | cons octet octets ih =>
    rw [List.map_cons, bits_cons, bits_cons, List.map_append, ih]
    congr 1
    rw [octetBits, octetBits, List.map_map]
    refine List.map_congr_left fun i inside => ?_
    have small := List.mem_range.mp inside
    simp [small]

end DrStrange.Lib
