/-
**Texts by their bytes.**

A text is the list of its characters and its positions count the bytes of UTF-8. A position between
two characters cuts the text (`cutAt_eq_some`), in one way (`append_cut`), and a byte below 128 at
such a position is the character that follows it (`head_of_byte`).
-/

import Mathlib

namespace DrStrange.Lib

variable {text before after word : List Char} {c : Char} {n start stop : ℕ}

/-- The bytes of a text. -/
def bytes (text : List Char) : List UInt8 := text.flatMap String.utf8EncodeChar

/-- The characters before and after a byte position, if it is not inside of one. -/
def cutAt : ℕ → List Char → Option (List Char × List Char)
  | 0, text => some ([], text)
  | _ + 1, [] => none
  | n + 1, c :: text =>
    if c.utf8Size ≤ n + 1 then (cutAt (n + 1 - c.utf8Size) text).map fun (before, after) =>
      (c :: before, after)
    else none

/-- The characters between two byte positions. -/
def slice (start stop : ℕ) (text : List Char) : Option (List Char) :=
  (cutAt stop text).bind fun cut => (cutAt start cut.1).map Prod.snd

/-- A character of one byte. -/
def Ascii (c : Char) : Prop := c.val < 128

instance : DecidablePred Ascii := fun c => inferInstanceAs (Decidable (c.val < 128))

/-- The tables of the characters: what is a letter or a digit, and what is written for it in lower
case. -/
structure Unicode where
  alphanumeric : Char → Bool
  lower : Char → List Char

/-- The tables of the first 128 characters. -/
def Unicode.ascii : Unicode where
  alphanumeric := Char.isAlphanum
  lower c := [c.toLower]

/-- Unicode white space. -/
def whiteSpace (c : Char) : Bool :=
  (9 ≤ c.toNat && c.toNat ≤ 13) || [0x20, 0x85, 0xa0, 0x1680, 0x2028, 0x2029, 0x202f, 0x205f,
    0x3000].elem c.toNat ||
    (0x2000 ≤ c.toNat && c.toNat ≤ 0x200a)

/-- A text without the white space at its ends. -/
def trim (text : List Char) : List Char := (text.dropWhile whiteSpace).rdropWhile whiteSpace

@[simp] theorem bytes_nil : bytes [] = [] := rfl

theorem bytes_cons : bytes (c :: text) = String.utf8EncodeChar c ++ bytes text := rfl

theorem bytes_append : bytes (before ++ after) = bytes before ++ bytes after :=
  List.flatMap_append

theorem length_bytes_cons : (bytes (c :: text)).length = c.utf8Size + (bytes text).length := by
  rw [bytes_cons, List.length_append, String.length_utf8EncodeChar]

theorem length_le_bytes (text : List Char) : text.length ≤ (bytes text).length := by
  induction text with
  | nil => rfl
  | cons c text ih =>
    have positive := c.utf8Size_pos
    rw [length_bytes_cons, List.length_cons]
    omega

/-- What a cut is. -/
theorem cutAt_eq_some : cutAt n text = some (before, after) ↔
    text = before ++ after ∧ (bytes before).length = n := by
  induction text generalizing n before with
  | nil =>
    cases n with
    | zero =>
      rw [cutAt, Option.some.injEq, Prod.mk.injEq]
      constructor
      · rintro ⟨rfl, rfl⟩
        exact ⟨rfl, rfl⟩
      · intro ⟨empty, _⟩
        obtain ⟨rfl, rfl⟩ := List.append_eq_nil_iff.mp empty.symm
        exact ⟨rfl, rfl⟩
    | succ n =>
      rw [cutAt]
      refine iff_of_false (by simp) fun ⟨empty, length⟩ => ?_
      obtain ⟨rfl, rfl⟩ := List.append_eq_nil_iff.mp empty.symm
      exact absurd length (by simp)
  | cons c text ih =>
    have positive := c.utf8Size_pos
    cases n with
    | zero =>
      rw [cutAt, Option.some.injEq, Prod.mk.injEq]
      cases before with
      | nil => simp [eq_comm]
      | cons d before =>
        refine iff_of_false (by simp) fun ⟨_, length⟩ => ?_
        rw [length_bytes_cons] at length
        have := d.utf8Size_pos
        omega
    | succ n =>
      rw [cutAt]
      cases before with
      | nil =>
        refine iff_of_false ?_ fun ⟨_, length⟩ => absurd length (by simp)
        split
        · simp
        · simp
      | cons d before =>
        rw [List.cons_append, List.cons.injEq, length_bytes_cons]
        split
        · rename_i fits
          rw [Option.map_eq_some_iff]
          constructor
          · rintro ⟨⟨left, right⟩, cut, same⟩
            obtain ⟨⟨rfl, rfl⟩, rfl⟩ : (c = d ∧ left = before) ∧ right = after := by simpa using same
            obtain ⟨split, length⟩ := ih.mp cut
            exact ⟨⟨rfl, split⟩, by omega⟩
          · rintro ⟨⟨rfl, split⟩, length⟩
            exact ⟨(before, after), ih.mpr ⟨split, by omega⟩, rfl⟩
        · rename_i large
          refine iff_of_false (by simp) ?_
          rintro ⟨⟨rfl, -⟩, length⟩
          omega

/-- A text is cut at a position in one way. -/
theorem append_cut {before' after' : List Char} (same : before ++ after = before' ++ after')
    (length : (bytes before).length = (bytes before').length) :
      before = before' ∧ after = after' := by
  have left := cutAt_eq_some.mpr ⟨Eq.refl (before ++ after), length⟩
  rw [cutAt_eq_some.mpr ⟨same, rfl⟩, Option.some.injEq, Prod.mk.injEq] at left
  exact ⟨left.1.symm, left.2.symm⟩

/-- What a slice is. -/
theorem slice_eq_some : slice start stop text = some word ↔ ∃ before after,
    text = before ++ (word ++ after) ∧ (bytes before).length = start ∧
      (bytes (before ++ word)).length = stop := by
  simp only [slice, Option.bind_eq_some_iff, Option.map_eq_some_iff, Prod.exists, cutAt_eq_some]
  constructor
  · rintro ⟨head, after, ⟨split, length⟩, before, word', ⟨cut, first⟩, rfl⟩
    exact ⟨before, after, by rw [split, cut, List.append_assoc], first, cut ▸ length⟩
  · rintro ⟨before, after, split, first, length⟩
    exact ⟨before ++ word, after, ⟨by rw [split, List.append_assoc], length⟩, before, word,
      ⟨rfl, first⟩, rfl⟩

theorem utf8Size_ascii (ascii : Ascii c) : c.utf8Size = 1 := by
  have small : c.val.toNat < 128 := UInt32.lt_iff_toNat_lt.mp ascii
  rw [Char.utf8Size_eq_one_iff, UInt32.le_iff_toNat_le]
  exact Nat.le_of_lt_succ small

theorem bytes_ascii (ascii : Ascii c) : bytes (c :: text) = c.val.toUInt8 :: bytes text := by
  rw [bytes_cons, String.utf8EncodeChar_eq_singleton (utf8Size_ascii ascii)]
  rfl

theorem length_bytes_char (ascii : Ascii c) :
    (bytes (c :: text)).length = (bytes text).length + 1 := by
  rw [bytes_ascii ascii, List.length_cons]

/-- A text without bytes is empty. -/
theorem eq_nil_of_length_bytes (empty : (bytes text).length = 0) : text = [] := by
  cases text with
  | nil => rfl
  | cons c text =>
    rw [length_bytes_cons] at empty
    have := c.utf8Size_pos
    omega

/-- A word of characters of one byte is as long as its bytes. -/
theorem length_bytes_ascii (ascii : ∀ c ∈ word, Ascii c) : (bytes word).length = word.length := by
  induction word with
  | nil => rfl
  | cons c word ih =>
    rw [length_bytes_cons, utf8Size_ascii (ascii c List.mem_cons_self),
      ih fun d among => ascii d (List.mem_cons_of_mem _ among), List.length_cons, Nat.add_comm]

theorem high_of_or {a b : UInt8} (high : 128 ≤ b.toNat) : 128 ≤ (a ||| b).toNat := by
  rw [UInt8.toNat_or]
  exact high.trans Nat.right_le_or

/-- No byte of a longer character is below 128. -/
theorem bytes_high (long : ¬ Ascii c) : ∀ byte ∈ String.utf8EncodeChar c, 128 ≤ byte.toNat := by
  intro byte among
  rcases c.utf8Size_eq with one | two | three | four
  · refine absurd ?_ long
    exact UInt32.lt_of_le_of_lt (Char.utf8Size_eq_one_iff.mp one) (by decide)
  · rw [String.utf8EncodeChar_eq_cons_cons two] at among
    simp only [List.mem_cons, List.not_mem_nil, or_false] at among
    obtain rfl | rfl := among <;> exact high_of_or (by decide)
  · rw [String.utf8EncodeChar_eq_cons_cons_cons three] at among
    simp only [List.mem_cons, List.not_mem_nil, or_false] at among
    obtain rfl | rfl | rfl := among <;> exact high_of_or (by decide)
  · rw [String.utf8EncodeChar_eq_cons_cons_cons_cons four] at among
    simp only [List.mem_cons, List.not_mem_nil, or_false] at among
    obtain rfl | rfl | rfl | rfl := among <;> exact high_of_or (by decide)

theorem toNat_toUInt8_ascii (ascii : Ascii c) : c.val.toUInt8.toNat = c.val.toNat := by
  rw [UInt32.toNat_toUInt8]
  exact Nat.mod_eq_of_lt (Nat.lt_trans (UInt32.lt_iff_toNat_lt.mp ascii) (by decide))

/-- **A byte below 128 is its character.** -/
theorem head_of_byte (ascii : Ascii c) (byte : (bytes text).head? = some c.val.toUInt8) :
    ∃ rest, text = c :: rest := by
  cases text with
  | nil => cases byte
  | cons d rest =>
    refine ⟨rest, congrArg (· :: rest) ?_⟩
    by_cases short : Ascii d
    · rw [bytes_ascii short, List.head?_cons, Option.some.injEq] at byte
      have equal := congrArg UInt8.toNat byte
      rw [toNat_toUInt8_ascii ascii, toNat_toUInt8_ascii short] at equal
      exact Char.ext (UInt32.toNat_inj.mp equal)
    · obtain ⟨first, more, encoded⟩ :=
        List.exists_cons_of_ne_nil (String.utf8EncodeChar_ne_nil (c := d))
      have high := bytes_high short first (encoded ▸ List.mem_cons_self)
      rw [bytes_cons, encoded, List.cons_append, List.head?_cons, Option.some.injEq] at byte
      rw [byte, toNat_toUInt8_ascii ascii] at high
      exact absurd (UInt32.lt_iff_toNat_lt.mp ascii) (Nat.not_lt.mpr high)

/-- The byte at a cut is the first of what follows. -/
theorem getElem?_bytes_append (length : (bytes before).length = n) :
    (bytes (before ++ after))[n]? = (bytes after).head? := by
  rw [bytes_append, ← length, List.getElem?_append_right le_rfl, Nat.sub_self, List.head?_eq_getElem?]

/-! ### Strings -/

/-- The bytes of a string. -/
def asBytes (text : String) : List UInt8 := text.toByteArray.data.toList

/-- The string of these bytes, if they are valid. -/
def fromUtf8 (bytes : List UInt8) : Option String := String.fromUTF8? ⟨bytes.toArray⟩

theorem asBytes_eq_bytes (text : String) : asBytes text = bytes text.toList := by
  rw [asBytes, ← String.utf8Encode_toList]
  simp [List.utf8Encode, bytes]

theorem fromUtf8_asBytes (text : String) : fromUtf8 (asBytes text) = some text := by
  rw [fromUtf8, String.fromUTF8?, asBytes, Array.toArray_toList, dif_pos text.isValidUTF8]
  rfl

theorem asBytes_of_fromUtf8 {bytes : List UInt8} {text : String} (read : fromUtf8 bytes = some text) :
    asBytes text = bytes := by
  unfold fromUtf8 String.fromUTF8? at read
  split at read
  · cases read
    rfl
  · cases read

theorem asBytes_injective : Function.Injective asBytes := fun first second same => by
  rw [← Option.some.injEq, ← fromUtf8_asBytes first, same, fromUtf8_asBytes]

theorem asBytes_append (first second : String) :
    asBytes (first ++ second) = asBytes first ++ asBytes second := by
  simp only [asBytes_eq_bytes, String.toList_append, bytes_append]

/-- The zero byte is the zero character. -/
theorem zero_mem_asBytes {text : String} : 0 ∈ asBytes text ↔ '\x00' ∈ text.toList := by
  rw [asBytes_eq_bytes, bytes, List.mem_flatMap]
  constructor
  · intro ⟨c, among, zero⟩
    by_cases short : Ascii c
    · have single : bytes [c] = c.val.toUInt8 :: bytes [] := bytes_ascii short
      rw [bytes_cons, bytes_nil, List.append_nil] at single
      rw [single, List.mem_singleton] at zero
      have same := congrArg UInt8.toNat zero
      rw [toNat_toUInt8_ascii short] at same
      have null : c = '\x00' := Char.ext (UInt32.toNat_inj.mp same.symm)
      rwa [← null]
    · exact absurd (bytes_high short 0 zero) (by decide)
  · intro among
    exact ⟨_, among, by decide⟩

end DrStrange.Lib
