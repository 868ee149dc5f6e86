/-
**A set that is emptied by a generation.**

An index is in the set if its stamp is the generation of the set. A new generation empties the set
without touching the stamps: in a `Clean` set no stamp is ahead of the generation, so none is the next
one (`ready_not_seen`), and where the generation wraps around the stamps are cleared. The set may grow
at any time and is emptied any number of times, past every wrap.
-/

import Mathlib

namespace DrStrange.Lib

structure Stamps where
  visited : List UInt32
  epoch : UInt32
  deriving DecidableEq, Repr

namespace Stamps

/-- The empty set over no index. -/
def empty : Stamps := ⟨[], 0⟩

/-- The stamps of at least `n` indices. -/
def grown (stamps : Stamps) (n : ℕ) : List UInt32 :=
  if stamps.visited.length < n then stamps.visited ++ List.replicate (n - stamps.visited.length) 0
  else stamps.visited

/-- Room for `n` indices, and the next generation. -/
def ready (stamps : Stamps) (n : ℕ) : Stamps :=
  if stamps.epoch + 1 = 0 then ⟨List.replicate (stamps.grown n).length 0, 1⟩
  else ⟨stamps.grown n, stamps.epoch + 1⟩

def mark (stamps : Stamps) (e : ℕ) : Stamps :=
  { stamps with visited := stamps.visited.set e stamps.epoch }

def Seen (stamps : Stamps) (e : ℕ) : Prop := stamps.visited[e]? = some stamps.epoch

/-- No stamp is ahead of the generation. -/
def Clean (stamps : Stamps) : Prop := ∀ stamp ∈ stamps.visited, stamp ≤ stamps.epoch

variable {stamps : Stamps} {e n : ℕ}

theorem clean_empty : empty.Clean := nofun

theorem grown_le (clean : stamps.Clean) : ∀ stamp ∈ stamps.grown n, stamp ≤ stamps.epoch := by
  intro stamp inside
  unfold grown at inside
  split_ifs at inside with short
  · obtain old | new := List.mem_append.mp inside
    · exact clean stamp old
    · rw [List.eq_of_mem_replicate new]
      exact UInt32.zero_le
  · exact clean stamp inside

/-- Before the first mark every stamp is behind the generation. -/
theorem ready_behind (clean : stamps.Clean) :
    ∀ stamp ∈ (stamps.ready n).visited, stamp < (stamps.ready n).epoch := by
  intro stamp inside
  unfold ready at inside ⊢
  split_ifs at inside ⊢ with wraps
  · rw [List.eq_of_mem_replicate inside]
    show (0 : UInt32) < 1
    decide
  · have next : stamps.epoch < stamps.epoch + 1 := by
      have other : (stamps.epoch + 1).toNat ≠ 0 := fun zero => wraps (UInt32.toNat_inj.mp zero)
      rw [UInt32.lt_iff_toNat_lt]
      rw [UInt32.toNat_add, UInt32.toNat_one] at other ⊢
      have small := stamps.epoch.toNat_lt
      omega
    exact UInt32.lt_of_le_of_lt (grown_le clean stamp inside) next

theorem clean_ready (clean : stamps.Clean) : (stamps.ready n).Clean := fun stamp inside =>
  UInt32.le_of_lt (ready_behind clean stamp inside)

/-- Nothing is left in the set. -/
theorem ready_not_seen (clean : stamps.Clean) : ¬ (stamps.ready n).Seen e := fun seen =>
  absurd (ready_behind clean _ (List.mem_of_getElem? seen)) (UInt32.lt_irrefl _)

theorem length_ready : n ≤ (stamps.ready n).visited.length := by
  have long : n ≤ (stamps.grown n).length := by
    unfold grown
    split_ifs with short
    · rw [List.length_append, List.length_replicate]
      omega
    · omega
  unfold ready
  split_ifs
  · rwa [List.length_replicate]
  · exact long

@[simp] theorem length_mark : (stamps.mark e).visited.length = stamps.visited.length :=
  List.length_set

theorem clean_mark (clean : stamps.Clean) : (stamps.mark e).Clean := by
  intro stamp inside
  obtain old | rfl := List.mem_or_eq_of_mem_set inside
  · exact clean stamp old
  · exact UInt32.le_refl _

theorem seen_mark {i : ℕ} (inside : e < stamps.visited.length) :
    (stamps.mark e).Seen i ↔ i = e ∨ stamps.Seen i := by
  unfold Seen mark
  by_cases same : e = i
  · subst same
    simp [inside]
  · simp [same, Ne.symm same]

end Stamps

end DrStrange.Lib
