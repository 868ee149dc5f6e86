/-
**Pieces of a word, each at its first place.**

Pieces stand in a word in their order, with any gap before each and the last one at its end. Taking
each piece at the first place that is left reaches an end if any choice does, and the earliest of
all (`leftmost_within`, `leftmost_le`). A word is parted at the first place of a piece
(`splitOnce`).
-/

import Mathlib

namespace DrStrange.Lib

variable {α : Type} [DecidableEq α] {piece word : List α} {pieces : List (List α)} {n : ℕ}

/-- The first place of a piece. -/
def find (piece : List α) : List α → Option ℕ
  | [] => if piece = [] then some 0 else none
  | a :: rest => if piece <+: a :: rest then some 0 else (find piece rest).map (· + 1)

/-- Each piece at its first place behind those before it: the length of the word up to the last. -/
def leftmost : List (List α) → List α → Option ℕ
  | [], _ => some 0
  | piece :: pieces, word => do
    let i ← find piece word
    let n ← leftmost pieces (word.drop (i + piece.length))
    return i + piece.length + n

omit [DecidableEq α] in
/-- The pieces stand in the word, the last one at its end. -/
def Within : List (List α) → List α → Prop
  | [], word => word = []
  | piece :: pieces, word => ∃ gap rest, word = gap ++ (piece ++ rest) ∧ Within pieces rest

/-! ### The first place -/

theorem find_some (found : find piece word = some n) : piece <+: word.drop n ∧ n ≤ word.length := by
  induction word generalizing n with
  | nil =>
    rw [find] at found
    split at found
    · rename_i empty
      obtain rfl := Option.some.inj found
      exact ⟨empty ▸ List.prefix_rfl, le_rfl⟩
    · cases found
  | cons a rest ih =>
    rw [find] at found
    split at found
    · rename_i here
      obtain rfl := Option.some.inj found
      exact ⟨here, Nat.zero_le _⟩
    · obtain ⟨m, later, rfl⟩ := Option.map_eq_some_iff.mp found
      obtain ⟨there, inside⟩ := ih later
      exact ⟨there, Nat.succ_le_succ inside⟩

/-- No place of a piece is before the first. -/
theorem find_le {m : ℕ} (stands : piece <+: word.drop m) : ∃ n ≤ m, find piece word = some n := by
  induction word generalizing m with
  | nil =>
    rw [List.drop_nil, List.prefix_nil] at stands
    exact ⟨0, Nat.zero_le m, by rw [find, if_pos stands]⟩
  | cons a rest ih =>
    rw [find]
    split
    · exact ⟨0, Nat.zero_le m, rfl⟩
    · rename_i other
      cases m with
      | zero => exact absurd stands other
      | succ m =>
        obtain ⟨n, le, found⟩ := ih stands
        exact ⟨n + 1, Nat.succ_le_succ le, by rw [found]; rfl⟩

/-- What is before the first place of a piece, and what is behind it. -/
def splitOnce (piece word : List α) : Option (List α × List α) :=
  (find piece word).map fun n => (word.take n, word.drop (n + piece.length))

variable {before after : List α} {a : α}

theorem splitOnce_eq (parted : splitOnce piece word = some (before, after)) :
    word = before ++ (piece ++ after) := by
  obtain ⟨n, found, same⟩ := Option.map_eq_some_iff.mp parted
  obtain ⟨rfl, rfl⟩ := Prod.mk.inj same
  obtain ⟨rest, behind⟩ := (find_some found).1
  have after : word.drop (n + piece.length) = rest := by
    rw [← List.drop_drop, ← behind, List.drop_left]
  rw [after, behind, List.take_append_drop]

/-- A letter is not before its first place. -/
theorem not_mem_of_splitOnce (parted : splitOnce [a] word = some (before, after)) : a ∉ before := by
  obtain ⟨n, found, same⟩ := Option.map_eq_some_iff.mp parted
  obtain ⟨rfl, -⟩ := Prod.mk.inj same
  intro inside
  obtain ⟨m, bound, here⟩ := List.getElem_of_mem inside
  rw [List.length_take] at bound
  rw [List.getElem_take] at here
  have stands : [a] <+: word.drop m := by
    rw [List.drop_eq_getElem_cons (by omega), here]
    exact ⟨_, rfl⟩
  obtain ⟨first, le, found'⟩ := find_le stands
  obtain rfl := Option.some.inj (found.symm.trans found')
  omega

/-! ### All the pieces -/

omit [DecidableEq α] in
/-- A longer gap before the first piece. -/
theorem Within.extend {gap : List α} (within : Within (piece :: pieces) word) :
    Within (piece :: pieces) (gap ++ word) := by
  obtain ⟨own, rest, rfl, within⟩ := within
  exact ⟨gap ++ own, rest, (List.append_assoc ..).symm, within⟩

theorem leftmost_le_length (reached : leftmost pieces word = some n) : n ≤ word.length := by
  induction pieces generalizing word n with
  | nil =>
    obtain rfl := Option.some.inj reached
    exact Nat.zero_le _
  | cons piece pieces ih =>
    obtain ⟨i, found, rest⟩ := Option.bind_eq_some_iff.mp reached
    obtain ⟨k, further, same⟩ := Option.bind_eq_some_iff.mp rest
    obtain rfl := Option.some.inj same
    have own := (find_some found).1.length_le
    have inside := (find_some found).2
    have behind := ih further
    rw [List.length_drop] at own behind
    omega

/-- The end that is reached is one. -/
theorem leftmost_within (reached : leftmost pieces word = some n) : Within pieces (word.take n) := by
  induction pieces generalizing word n with
  | nil =>
    obtain rfl := Option.some.inj reached
    exact List.take_zero
  | cons piece pieces ih =>
    obtain ⟨i, found, rest⟩ := Option.bind_eq_some_iff.mp reached
    obtain ⟨k, further, same⟩ := Option.bind_eq_some_iff.mp rest
    obtain rfl := Option.some.inj same
    obtain ⟨stands, inside⟩ := find_some found
    refine ⟨word.take i, (word.drop (i + piece.length)).take k, ?_, ih further⟩
    have own : (word.drop i).take piece.length = piece := (List.prefix_iff_eq_take.mp stands).symm
    rw [Nat.add_assoc, List.take_add, List.take_add, own, List.drop_drop]

/-- **No end is before the one that is reached**, and one is reached if there is any. -/
theorem leftmost_le {stop : List α} (reaches : stop <+: word) (within : Within pieces stop) :
    ∃ n ≤ stop.length, leftmost pieces word = some n := by
  induction pieces generalizing word stop with
  | nil => exact ⟨0, Nat.zero_le _, rfl⟩
  | cons piece pieces ih =>
    obtain ⟨gap, rest, rfl, within⟩ := within
    obtain ⟨tail, rfl⟩ := reaches
    have stands : piece <+: (gap ++ (piece ++ rest) ++ tail).drop gap.length := by
      rw [List.append_assoc, List.drop_left, List.append_assoc]
      exact List.prefix_append _ _
    obtain ⟨i, before, found⟩ := find_le stands
    -- Behind the first place, the rest stands as it does behind the given one, only farther off.
    let more := (gap ++ piece).drop (i + piece.length)
    have split : (gap ++ (piece ++ rest) ++ tail).drop (i + piece.length) = more ++ rest ++ tail := by
      rw [← List.append_assoc gap, List.append_assoc (gap ++ piece), List.append_assoc more,
        List.drop_append_of_le_length]
      rw [List.length_append]
      omega
    have farther : more.length + i = gap.length := by
      rw [List.length_drop, List.length_append]
      omega
    obtain ⟨n, le, further⟩ : ∃ n ≤ (more ++ rest).length, leftmost pieces (more ++ rest ++ tail) =
      some n := by
      cases pieces with
      | nil => exact ⟨0, Nat.zero_le _, rfl⟩
      | cons next pieces => exact ih (List.prefix_append _ _) within.extend
    refine ⟨i + piece.length + n, ?_, ?_⟩
    · simp only [List.length_append] at le ⊢
      omega
    · rw [leftmost, found, Option.bind_eq_bind, Option.bind_some, split, further]
      rfl

end DrStrange.Lib
