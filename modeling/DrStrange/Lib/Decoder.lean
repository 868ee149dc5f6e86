/-
**Decoders that undo what was encoded.**

A decoder takes a value off the front of a list. It undoes a code (`Undoes`) where it reads the
value back from it whatever stands behind it, so the code of a record is undone by the decoders of
its fields, one after the other (`Undoes.bind`).
-/

import Mathlib

namespace DrStrange.Lib

variable {α β γ : Type}

abbrev Decoder (γ α : Type) : Type := StateT (List γ) Option α

namespace Decoder

/-- The next `n` symbols, if there are as many. -/
def take (n : ℕ) : Decoder γ (List γ) := fun text =>
  if n ≤ text.length then some (text.take n, text.drop n) else none

def next : Decoder γ γ := fun
  | [] => none
  | symbol :: text => some (symbol, text)

/-- The code reads as the value. -/
def Undoes (p : Decoder γ α) (code : List γ) (value : α) : Prop :=
  ∀ rest, p (code ++ rest) = some (value, rest)

namespace Undoes

variable {p : Decoder γ α} {f : α → Decoder γ β} {code more : List γ} {a : α} {b : β}

theorem pure (value : α) : Undoes (Pure.pure value : Decoder γ α) [] value := fun _ => rfl

theorem bind (first : Undoes p code a) (second : Undoes (f a) more b) :
    Undoes (p >>= f) (code ++ more) b := by
  intro rest
  show (p (code ++ more ++ rest)).bind (fun read => f read.1 read.2) = _
  rw [List.append_assoc, first]
  exact second rest

theorem map (first : Undoes p code a) (g : α → β) : Undoes (g <$> p) code (g a) := by
  intro rest
  show (p (code ++ rest)).bind (fun read => some (g read.1, read.2)) = _
  rw [first]
  rfl

theorem take (code : List γ) : Undoes (Decoder.take code.length) code code := by
  intro rest
  rw [Decoder.take, if_pos (by simp)]
  simp

theorem next (symbol : γ) : Undoes Decoder.next [symbol] symbol := fun _ => rfl

/-- The code alone reads as the value. -/
theorem whole (undoes : Undoes p code a) : p code = some (a, []) := by
  have read := undoes []
  rwa [List.append_nil] at read

end Undoes

/-! ### What a decoder takes -/

/-- What is left is shorter by at least `n`. -/
def Takes (n : ℕ) (p : Decoder γ α) : Prop :=
  ∀ ⦃text rest value⦄, p text = some (value, rest) → rest.length + n ≤ text.length

namespace Takes

variable {p : Decoder γ α} {f : α → Decoder γ β} {m n : ℕ}

theorem pure (value : α) : Takes 0 (Pure.pure value : Decoder γ α) := by
  intro text rest other read
  cases read
  exact le_rfl

theorem bind (first : Takes m p) (second : ∀ a, Takes n (f a)) : Takes (m + n) (p >>= f) := by
  intro text rest value read
  change (p text).bind (fun read => f read.1 read.2) = _ at read
  obtain ⟨⟨a, left⟩, here, after⟩ := Option.bind_eq_some_iff.mp read
  have before := first here
  have behind := second a after
  simp only at behind
  omega

theorem map (first : Takes m p) (g : α → β) : Takes m (g <$> p) := by
  intro text rest value read
  change (p text).bind (fun read => some (g read.1, read.2)) = _ at read
  obtain ⟨⟨a, left⟩, here, after⟩ := Option.bind_eq_some_iff.mp read
  cases after
  exact first here

theorem mono (first : Takes m p) (less : n ≤ m) : Takes n p := fun _ _ _ read =>
  (Nat.add_le_add_left less _).trans (first read)

theorem take (k : ℕ) : Takes k (Decoder.take k : Decoder γ (List γ)) := by
  intro text rest value read
  rw [Decoder.take] at read
  split_ifs at read with enough
  cases read
  rw [List.length_drop]
  omega

theorem next : Takes 1 (Decoder.next : Decoder γ γ) := by
  intro text rest value read
  cases text with
  | nil => cases read
  | cons symbol text =>
    cases read
    rfl

end Takes

end Decoder

end DrStrange.Lib
