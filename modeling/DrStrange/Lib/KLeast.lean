/-
**The `k` least of a stream, through a heap of `k` items.**

Every item is pushed, and the greatest is popped whenever the heap holds more than `k`. Which of
several greatest a heap gives up, and the order it is read in at the end, are its own. What is held
after a stream are `k` least of its items, or all of them (`held_stream`); sorted, they begin the
items in some order that is sorted as well (`KLeast.begins`).
-/

import Mathlib

namespace DrStrange.Lib

variable {α δ : Type} [LinearOrder δ] {key : α → δ} {k : ℕ} {x : α} {held items hits : List α}

/-- A heap that gives up the greatest of its items. -/
structure MaxHeap (key : α → δ) where
  pop : List α → Option (α × List α)
  intoIter : List α → List α
  pop_eq_some : ∀ {held top rest}, pop held = some (top, rest) →
    held.Perm (top :: rest) ∧ ∀ x ∈ held, key x ≤ key top
  pop_eq_none : ∀ {held}, pop held = none → held = []
  perm : ∀ held, (intoIter held).Perm held

/-- The heap that gives up the first of its greatest. -/
def MaxHeap.first [DecidableEq α] (key : α → δ) : MaxHeap key where
  pop held := (held.argmax key).map fun top => (top, held.erase top)
  intoIter held := held
  pop_eq_some popped := by
    obtain ⟨top, most, same⟩ := Option.map_eq_some_iff.mp popped
    obtain ⟨rfl, rfl⟩ := Prod.mk.injEq .. ▸ same
    exact ⟨List.perm_cons_erase (List.argmax_mem most), fun x among =>
      List.le_of_mem_argmax among most⟩
  pop_eq_none empty := List.argmax_eq_none.mp (Option.map_eq_none_iff.mp empty)
  perm held := .refl _

/-- An item is pushed, and one of the greatest popped if there are more than `k`. -/
def MaxHeap.offer (heap : MaxHeap key) (k : ℕ) (held : List α) (x : α) : List α :=
  if k < (x :: held).length then ((heap.pop (x :: held)).map Prod.snd).getD (x :: held) else x :: held

def MaxHeap.stream (heap : MaxHeap key) (k : ℕ) (items : List α) : List α :=
  items.foldl (heap.offer k) []

/-- What is held of the items that came: `k` of them or all, and none of the rest is less. -/
structure Held (key : α → δ) (k : ℕ) (items held : List α) : Prop where
  length : held.length = min k items.length
  rest : ∃ rest, (held ++ rest).Perm items ∧ ∀ x ∈ held, ∀ y ∈ rest, key x ≤ key y

theorem held_nil : Held key k [] [] where
  length := by simp
  rest := ⟨[], .refl _, nofun⟩

/-- One item more. -/
theorem Held.offer (so_far : Held key k items held) (heap : MaxHeap key) :
    Held key k (items ++ [x]) (heap.offer k held x) := by
  obtain ⟨rest, perm, least⟩ := so_far.rest
  have count := perm.length_eq
  have size := so_far.length
  rw [List.length_append] at count
  have pushed : ((x :: held) ++ rest).Perm (items ++ [x]) :=
    (perm.cons x).trans (List.perm_append_singleton x items).symm
  unfold MaxHeap.offer
  split_ifs with full
  · cases popped : heap.pop (x :: held) with
    | none => exact absurd (heap.pop_eq_none popped) (List.cons_ne_nil x held)
    | some split =>
      obtain ⟨top, kept⟩ := split
      obtain ⟨same, most⟩ := heap.pop_eq_some popped
      have lengths := same.length_eq
      rw [List.length_cons, List.length_cons] at lengths
      rw [List.length_cons] at full
      refine ⟨?_, top :: rest, ?_, ?_⟩
      · show kept.length = _
        rw [List.length_append, List.length_singleton]
        omega
      · show (kept ++ top :: rest).Perm _
        exact List.perm_middle.trans ((same.symm.append_right rest).trans pushed)
      · intro y among z other
        have inside : y ∈ x :: held := same.mem_iff.mpr (List.mem_cons_of_mem top among)
        obtain rfl | after := List.mem_cons.mp other
        · exact most y inside
        · -- the item popped is one that was held, or the new one, and then what was held stays
          obtain rfl | before := List.mem_cons.mp (same.mem_iff.mpr (List.mem_cons_self (a := top)))
          · exact least y (same.cons_inv.mem_iff.mpr among) z after
          · exact (most y inside).trans (least top before z after)
  · rw [List.length_cons, not_lt] at full
    refine ⟨?_, rest, pushed, ?_⟩
    · rw [List.length_cons, List.length_append, List.length_singleton]
      omega
    · -- all items are held, so that there is no rest
      have none : rest = [] := by
        rw [← List.length_eq_zero_iff]
        omega
      subst none
      exact fun _ _ _ => nofun

/-- **What is held after a stream.** -/
theorem held_stream (heap : MaxHeap key) (k : ℕ) (items : List α) :
    Held key k items (heap.stream k items) := by
  induction items using List.reverseRecOn with
  | nil => exact held_nil
  | append_singleton items x ih =>
    rw [MaxHeap.stream, List.foldl_append, List.foldl_cons, List.foldl_nil]
    exact ih.offer heap

theorem Held.perm {other : List α} (so_far : Held key k items held) (same : other.Perm held) :
    Held key k items other where
  length := same.length_eq.trans so_far.length
  rest := by
    obtain ⟨rest, perm, least⟩ := so_far.rest
    exact ⟨rest, (same.append_right rest).trans perm, fun x among => least x (same.mem_iff.mp among)⟩

theorem Held.of_perm {items' : List α} (so_far : Held key k items held) (same : items.Perm items') :
    Held key k items' held where
  length := same.length_eq ▸ so_far.length
  rest := by
    obtain ⟨rest, perm, least⟩ := so_far.rest
    exact ⟨rest, perm.trans same, least⟩

/-- The `k` least of the items, or all of them, in order. -/
structure KLeast (key : α → δ) (k : ℕ) (items hits : List α) :
    Prop extends Held key k items hits where
  sorted : hits.Pairwise fun x y => key x ≤ key y

theorem kLeast_nil : KLeast key k [] [] := ⟨held_nil, .nil⟩

/-- A stable sort. -/
def sortBy (key : α → δ) (items : List α) : List α := items.mergeSort fun x y => key x ≤ key y

theorem sortBy_perm (items : List α) : (sortBy key items).Perm items := List.mergeSort_perm ..

variable (key) in
theorem pairwise_sortBy (items : List α) : (sortBy key items).Pairwise fun x y => key x ≤ key y := by
  have sorted := @List.pairwise_mergeSort α (fun x y => decide (key x ≤ key y))
    (fun x y z low high => by simpa using (of_decide_eq_true low).trans (of_decide_eq_true high))
    (fun x y => by simpa using le_total (key x) (key y)) items
  exact sorted.imp of_decide_eq_true

theorem Held.kLeast (so_far : Held key k items held) : KLeast key k items (sortBy key held) where
  toHeld := so_far.perm (sortBy_perm held)
  sorted := pairwise_sortBy key held

/-- The `k` least begin the items in some order, sorted. -/
theorem KLeast.begins (least : KLeast key k items hits) :
    ∃ all : List α, all.Perm items ∧ hits = (sortBy key all).take k := by
  obtain ⟨rest, perm, below⟩ := least.rest
  refine ⟨hits ++ sortBy key rest, ((sortBy_perm rest).append_left hits).trans perm, ?_⟩
  have sorted : (hits ++ sortBy key rest).Pairwise fun x y => decide (key x ≤ key y) = true := by
    rw [List.pairwise_append]
    refine ⟨least.sorted.imp decide_eq_true, (pairwise_sortBy key rest).imp decide_eq_true,
      fun x among y other => ?_⟩
    exact decide_eq_true (below x among y ((sortBy_perm rest).mem_iff.mp other))
  rw [sortBy, List.mergeSort_of_pairwise sorted]
  have size := least.length
  have count := perm.length_eq
  rw [List.length_append] at count
  obtain whole | short := le_or_gt k hits.length
  · have exactly : hits.length = k := by omega
    rw [List.take_left' exactly]
  · have none : rest = [] := by
      rw [← List.length_eq_zero_iff]
      omega
    subst none
    rw [sortBy, List.mergeSort_nil, List.append_nil, List.take_of_length_le short.le]

variable (key) in
/-- The first `k` of the items sorted are their `k` least. -/
theorem kLeast_take (k : ℕ) (items : List α) : KLeast key k items ((sortBy key items).take k) where
  length := by rw [List.length_take, (sortBy_perm items).length_eq]
  rest := by
    refine ⟨(sortBy key items).drop k, by rw [List.take_append_drop]; exact sortBy_perm items, ?_⟩
    have sorted := pairwise_sortBy key items
    rw [← List.take_append_drop k (sortBy key items)] at sorted
    exact fun x among y other => (List.pairwise_append.mp sorted).2.2 x among y other
  sorted := (pairwise_sortBy key items).sublist (List.take_sublist k _)

end DrStrange.Lib
