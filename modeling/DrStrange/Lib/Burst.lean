/-
**Checksums and bursts.**

Two lists differ by a burst (`Burst`) where what differs stands within a few places in a row; every
slice of them then does.

A register of `w` bits takes a message in, one symbol of `s` bits after the other. With a polynomial
whose top bit is set no round forgets anything (`rounds_injective`), so messages that differ by a
burst of at most `w` bits leave different registers (`feedAll_burst`), whatever stands before and
after it. A register that is sent along behind its message makes one fixed register of every
message, and only of whole ones (`feedAll_sealed`).
-/

import DrStrange.Lib.Crc

namespace DrStrange.Lib

/-! ### Bursts -/

/-- The lists differ within `n` places in a row, if at all. -/
def Burst {α : Type} (n : ℕ) (whole damaged : List α) : Prop :=
  ∃ before mid mid' after, whole = before ++ mid ++ after ∧ damaged = before ++ mid' ++ after ∧
    mid.length = mid'.length ∧ mid.length ≤ n

namespace Burst

variable {α β : Type} {n : ℕ} {whole damaged : List α}

theorem length_eq (burst : Burst n whole damaged) : whole.length = damaged.length := by
  obtain ⟨before, mid, mid', after, rfl, rfl, same, -⟩ := burst
  simp [same]

theorem take (burst : Burst n whole damaged) (k : ℕ) : Burst n (whole.take k) (damaged.take k) := by
  obtain ⟨before, mid, mid', after, rfl, rfl, same, short⟩ := burst
  refine ⟨before.take k, mid.take (k - before.length), mid'.take (k - before.length),
    after.take (k - before.length - mid.length), ?_, ?_, ?_, ?_⟩
  · simp [List.take_append, Nat.sub_sub]
  · simp [List.take_append, Nat.sub_sub, same]
  · simp [same]
  · rw [List.length_take]
    omega

theorem drop (burst : Burst n whole damaged) (k : ℕ) : Burst n (whole.drop k) (damaged.drop k) := by
  obtain ⟨before, mid, mid', after, rfl, rfl, same, short⟩ := burst
  refine ⟨before.drop k, mid.drop (k - before.length), mid'.drop (k - before.length),
    after.drop (k - before.length - mid.length), ?_, ?_, ?_, ?_⟩
  · simp [List.drop_append, Nat.sub_sub]
  · simp [List.drop_append, Nat.sub_sub, same]
  · simp [same]
  · rw [List.length_drop]
    omega

theorem map (burst : Burst n whole damaged) (f : α → β) : Burst n (whole.map f) (damaged.map f) := by
  obtain ⟨before, mid, mid', after, rfl, rfl, same, short⟩ := burst
  exact ⟨before.map f, mid.map f, mid'.map f, after.map f, by simp, by simp, by simpa using same, by
    simpa using short⟩

/-- One place that changes is a burst. -/
theorem set (whole : List α) (i : ℕ) (a : α) (some_ : 0 < n) : Burst n whole (whole.set i a) := by
  by_cases inside : i < whole.length
  · refine ⟨whole.take i, [whole[i]], [a], whole.drop (i + 1), by simp, ?_, rfl, some_⟩
    rw [List.set_eq_take_append_cons_drop, if_pos inside]
    simp
  · refine ⟨whole, [], [], [], by simp, ?_, rfl, Nat.zero_le _⟩
    rw [List.set_eq_of_length_le (Nat.not_lt.mp inside)]
    simp

end Burst

/-! ### A message taken in -/

namespace Crc

variable {w s i : ℕ} (poly : BitVec w) {register : BitVec w}

/-- A symbol is folded into the low bits, and its rounds are made. -/
def feed (register : BitVec w) (symbol : BitVec s) : BitVec w :=
  rounds poly s (register ^^^ symbol.setWidth w)

def feedAll (register : BitVec w) (message : List (BitVec s)) : BitVec w :=
  message.foldl (feed poly) register

theorem feedAll_append (register : BitVec w) (before after : List (BitVec s)) :
    feedAll poly register (before ++ after) = feedAll poly (feedAll poly register before) after :=
  List.foldl_append ..

/-! ### Nothing is forgotten -/

section

variable {poly}

theorem oneRound_eq_zero (top : poly.getLsbD (w - 1) = true) (zero : oneRound poly register = 0#w) :
    register = 0#w := by
  have high : (register >>> 1).getLsbD (w - 1) = false := by
    rw [BitVec.getLsbD_ushiftRight]
    exact BitVec.getLsbD_of_ge _ _ (by omega)
  have last := congrArg (BitVec.getLsbD · (w - 1)) zero
  cases out : register.getLsbD 0 with
  | true =>
    -- The polynomial's top bit stays, as nothing else reaches it.
    simp [oneRound, out, high, top] at last
  | false =>
    refine BitVec.eq_of_getLsbD_eq fun i inside => ?_
    rw [oneRound, out, if_neg Bool.false_ne_true] at zero
    cases i with
    | zero => rw [out, BitVec.getLsbD_zero]
    | succ i =>
      have shifted := congrArg (BitVec.getLsbD · i) zero
      simpa [BitVec.getLsbD_ushiftRight, Nat.add_comm 1 i] using shifted

theorem oneRound_injective (top : poly.getLsbD (w - 1) = true) :
    Function.Injective (oneRound poly) := by
  intro a b same
  have none : oneRound poly (a ^^^ b) = 0#w := by rw [oneRound_xor, same, BitVec.xor_self]
  exact BitVec.xor_eq_zero_iff.mp (oneRound_eq_zero top none)

theorem rounds_injective (top : poly.getLsbD (w - 1) = true) (n : ℕ) :
    Function.Injective (rounds poly n) :=
  (oneRound_injective top).iterate n

theorem feed_injective (top : poly.getLsbD (w - 1) = true) (symbol : BitVec s) :
    Function.Injective fun register => feed poly register symbol := fun _ _ same =>
  (BitVec.xor_left_inj _).mp (rounds_injective top s same)

theorem feedAll_injective (top : poly.getLsbD (w - 1) = true) (message : List (BitVec s)) :
    Function.Injective fun register => feedAll poly register message := by
  induction message with
  | nil => exact fun _ _ same => same
  | cons symbol message ih => exact fun _ _ same => feed_injective top symbol (ih same)

end

/-! ### What fits the register at once -/

/-- The symbols side by side, the first one lowest. -/
def packed : List (BitVec s) → BitVec w
  | [] => 0#w
  | symbol :: message => symbol.setWidth w ^^^ (packed message <<< s)

theorem getLsbD_packed_cons (symbol : BitVec s) (message : List (BitVec s)) (inside : i < w) :
    (packed (symbol :: message) : BitVec w).getLsbD i =
      if i < s then symbol.getLsbD i else (packed message : BitVec w).getLsbD (i - s) := by
  rw [packed, BitVec.getLsbD_xor, BitVec.getLsbD_setWidth, BitVec.getLsbD_shiftLeft]
  by_cases here : i < s
  · simp [here, inside]
  · simp [here, inside, BitVec.getLsbD_of_ge symbol i (Nat.not_lt.mp here)]

/-- Nothing stands above the symbols. -/
theorem getLsbD_packed_of_ge (message : List (BitVec s)) (above : message.length * s ≤ i) :
    (packed message : BitVec w).getLsbD i = false := by
  induction message generalizing i with
  | nil => exact BitVec.getLsbD_zero
  | cons symbol message ih =>
    rw [List.length_cons, Nat.succ_mul] at above
    by_cases inside : i < w
    · rw [getLsbD_packed_cons symbol message inside, if_neg (by omega), ih (by omega)]
    · exact BitVec.getLsbD_of_ge _ _ (Nat.not_lt.mp inside)

theorem packed_injective {a b : List (BitVec s)} (length : a.length = b.length)
    (fits : a.length * s ≤ w) (same : (packed a : BitVec w) = packed b) : a = b := by
  induction a generalizing b with
  | nil => exact (List.length_eq_zero_iff.mp length.symm).symm
  | cons x a ih =>
    cases b with
    | nil => cases length
    | cons y b =>
      rw [List.length_cons, Nat.succ_mul] at fits
      have bits : ∀ i < w, (packed (x :: a) : BitVec w).getLsbD i =
          (packed (y :: b) : BitVec w).getLsbD i :=
        fun i _ => by rw [same]
      have first : x = y := by
        refine BitVec.eq_of_getLsbD_eq fun i inside => ?_
        have bit := bits i (by omega)
        rwa [getLsbD_packed_cons x a (by omega), getLsbD_packed_cons y b (by omega), if_pos inside,
          if_pos inside] at bit
      have shorter : a.length = b.length := Nat.succ.inj length
      have rest : (packed a : BitVec w) = packed b := by
        refine BitVec.eq_of_getLsbD_eq fun i inside => ?_
        by_cases used : i < a.length * s
        · have bit := bits (i + s) (by omega)
          rwa [getLsbD_packed_cons x a (by omega), getLsbD_packed_cons y b (by omega),
            if_neg (by omega),
            if_neg (by omega), Nat.add_sub_cancel] at bit
        · rw [getLsbD_packed_of_ge a (Nat.not_lt.mp used),
            getLsbD_packed_of_ge b (shorter ▸ Nat.not_lt.mp used)]
      rw [first, ih shorter (by omega) rest]

/-- The symbols as the digits of a number, the first one lowest. -/
def value : List (BitVec s) → ℕ
  | [] => 0
  | symbol :: message => 2 ^ s * value message + symbol.toNat

theorem packed_eq_ofNat (message : List (BitVec s)) :
    (packed message : BitVec w) = BitVec.ofNat w (value message) := by
  induction message with
  | nil => rfl
  | cons symbol message ih =>
    refine BitVec.eq_of_getLsbD_eq fun i inside => ?_
    rw [getLsbD_packed_cons symbol message inside, BitVec.getLsbD_ofNat, decide_eq_true inside,
      Bool.true_and,
      value, Nat.testBit_two_pow_mul_add _ symbol.isLt]
    by_cases here : i < s
    · rw [if_pos here, if_pos here, BitVec.testBit_toNat]
    · rw [if_neg here, if_neg here, ih, BitVec.getLsbD_ofNat, decide_eq_true (by omega),
        Bool.true_and]

/-- A short message may as well be folded in at once. -/
theorem feedAll_packed (register : BitVec w) {message : List (BitVec s)}
    (fits : message.length * s ≤ w) :
    feedAll poly register message = rounds poly (message.length * s)
      (register ^^^ packed message) := by
  induction message generalizing register with
  | nil => simp [feedAll, packed, rounds_zero]
  | cons symbol message ih =>
    rw [List.length_cons, Nat.succ_mul] at fits
    have down : rounds poly s ((packed message : BitVec w) <<< s) = packed message := by
      rw [rounds_of_low_zero poly fun i low => by simp [BitVec.getLsbD_shiftLeft, low]]
      refine BitVec.eq_of_getLsbD_eq fun i inside => ?_
      rw [BitVec.getLsbD_ushiftRight, BitVec.getLsbD_shiftLeft]
      by_cases room : s + i < w
      · simp [room]
      · have high : (packed message : BitVec w).getLsbD i = false :=
          getLsbD_packed_of_ge message (by omega)
        simp [room, high]
    calc feedAll poly register (symbol :: message)
        = rounds poly (message.length * s) (feed poly register symbol ^^^ packed message) := by
          rw [← ih (feed poly register symbol) (by omega)]
          rfl
      _ = rounds poly (message.length * s) (rounds poly s
        (register ^^^ packed (symbol :: message))) := by
          rw [feed, packed, ← BitVec.xor_assoc, rounds_xor poly s _ (packed message <<< s), down]
      _ = _ := by rw [← rounds_add, List.length_cons, Nat.succ_mul]

/-! ### What a register tells apart -/

section

variable {poly}

/-- **A burst shows.** -/
theorem feedAll_burst (top : poly.getLsbD (w - 1) = true) {n : ℕ} {whole damaged : List (BitVec s)}
    (burst : Burst n whole damaged) (fits : n * s ≤ w)
    (same : feedAll poly register whole = feedAll poly register damaged) : whole = damaged := by
  obtain ⟨before, mid, mid', after, rfl, rfl, length, short⟩ := burst
  have room : mid.length * s ≤ w := (Nat.mul_le_mul_right s short).trans fits
  have room' : mid'.length * s ≤ w := length ▸ room
  simp only [feedAll_append] at same
  have early := feedAll_injective top after same
  simp only [feedAll_packed poly (feedAll poly register before) room,
    feedAll_packed poly (feedAll poly register before) room', ← length] at early
  rw [packed_injective length room ((BitVec.xor_right_inj _).mp (rounds_injective top _ early))]

/-- **What a sealed message leaves**: the register that any message leaves, as its complement, behind
the message, makes the register of `w` rounds from all ones, and nothing else of that length does. -/
theorem feedAll_sealed (top : poly.getLsbD (w - 1) = true) (register : BitVec w)
    (message trailer : List (BitVec s)) (fits : trailer.length * s = w) :
    feedAll poly register (message ++ trailer) = rounds poly w (BitVec.allOnes w) ↔
      packed trailer = ~~~ feedAll poly register message := by
  rw [feedAll_append, feedAll_packed poly _ fits.le, fits, (rounds_injective top w).eq_iff]
  constructor
  · intro ones
    rw [← BitVec.xor_allOnes, ← ones, ← BitVec.xor_assoc, BitVec.xor_self, BitVec.zero_xor]
  · intro stored
    rw [stored, ← BitVec.xor_allOnes, ← BitVec.xor_assoc, BitVec.xor_self, BitVec.zero_xor]

end

end Crc

end DrStrange.Lib
