/-
**Sets that are merged, as a forest.**

Each element points towards the root of its tree. In a forest the way to the root ends
(`apply_root`), skipping a parent changes no root (`Rises.root_halve`), and hanging one root under
another merges their trees (`Rises.root_link`). Where elements are merged pair by pair, two of them
have one root exactly if the pairs connect them (`Partitions.merge`).
-/

import Mathlib

namespace DrStrange.Lib

variable {α : Type} [Fintype α] [DecidableEq α] {f g : α → α} {height : α → ℕ} {x y a b small big : α}
  {links : List (α × α)}

/-- How many roots there are. -/
def roots (f : α → α) : ℕ := (Finset.univ.filter fun x => f x = x).card

/-- Heights that rise towards the roots, and by less than the elements that are no roots. -/
structure Rises (f : α → α) (height : α → ℕ) : Prop where
  lt : ∀ x, f x ≠ x → height x < height (f x)
  le : ∀ x, height x + roots f ≤ Fintype.card α

/-- Where the way of an element ends. -/
def root (f : α → α) (x : α) : α := f^[Fintype.card α] x

omit [Fintype α] [DecidableEq α] in
theorem iterate_of_root (top : f x = x) (k : ℕ) : f^[k] x = x := Function.iterate_fixed top k

theorem Rises.lt_card (rises : Rises f height) (inner : f x ≠ x) : height x < Fintype.card α :=
  (rises.lt x inner).trans_le ((Nat.le_add_right _ _).trans (rises.le (f x)))

theorem Rises.iterate (rises : Rises f height) (k : ℕ) :
    f (f^[k] x) = f^[k] x ∨ height x + k ≤ height (f^[k] x) := by
  induction k with
  | zero => exact .inr le_rfl
  | succ k ih =>
    rw [Function.iterate_succ_apply']
    rcases ih with top | high
    · exact .inl (by rw [top, top])
    · by_cases inner : f (f^[k] x) = f^[k] x
      · exact .inl (by rw [inner, inner])
      · have higher := rises.lt _ inner
        exact .inr (by omega)

/-- **The way to the root ends.** -/
theorem Rises.apply_root (rises : Rises f height) (x : α) : f (root f x) = root f x := by
  rcases @Rises.iterate _ _ _ _ _ x rises (Fintype.card α) with top | high
  · exact top
  · by_contra inner
    have low := rises.lt_card inner
    exact absurd low (not_lt.mpr ((Nat.le_add_left _ _).trans high))

omit [DecidableEq α] in
theorem root_apply : root f (f x) = root f x ↔ f (root f x) = root f x := by
  rw [root, root, ← Function.iterate_succ_apply, Function.iterate_succ_apply']

/-- What no step changes, and what is a root's own, is the root. -/
theorem Rises.root_eq (rises : Rises f height) (top : α → α) (steps : ∀ x, top (f x) = top x)
    (tops : ∀ x, f x = x → top x = x) (x : α) : root f x = top x := by
  have along : ∀ k, top (f^[k] x) = top x := by
    intro k
    induction k with
    | zero => rfl
    | succ k ih => rw [Function.iterate_succ_apply', steps, ih]
  rw [← along (Fintype.card α)]
  exact (tops _ (rises.apply_root x)).symm

theorem Rises.root_step (rises : Rises f height) (x : α) : root f (f x) = root f x :=
  root_apply.mpr (rises.apply_root x)

omit [DecidableEq α] in
theorem root_of_top (top : f x = x) : root f x = x := iterate_of_root top _

/-! ### Skipping a parent -/

/-- An element that points to the parent of its parent. -/
def halve (f : α → α) (x : α) : α → α := Function.update f x (f (f x))

theorem Rises.halve_top (rises : Rises f height) : halve f x y = y ↔ f y = y := by
  unfold halve
  by_cases same : y = x
  · subst same
    rw [Function.update_self]
    constructor
    · intro loop
      by_contra inner
      have first := rises.lt y inner
      by_cases second : f (f y) = f y
      · exact inner (second.symm.trans loop)
      · have higher := rises.lt _ second
        rw [loop] at higher
        exact absurd first higher.not_gt
    · intro top
      rw [top, top]
  · rw [Function.update_of_ne same]

theorem Rises.halve (rises : Rises f height) : Rises (halve f x) height where
  lt y inner := by
    have inner' := fun top => inner ((@Rises.halve_top _ _ _ _ _ x y rises).mpr top)
    unfold Lib.halve at inner ⊢
    by_cases same : y = x
    · subst same
      rw [Function.update_self]
      have first := rises.lt y inner'
      by_cases second : f (f y) = f y
      · rwa [second]
      · exact first.trans (rises.lt _ second)
    · rw [Function.update_of_ne same]
      exact rises.lt y inner'
  le y := by
    have same : roots (Lib.halve f x) = roots f :=
      congrArg Finset.card (Finset.filter_congr fun y _ => rises.halve_top)
    rw [same]
    exact rises.le y

/-- **Skipping a parent changes no root.** -/
theorem Rises.root_halve (rises : Rises f height) : root (Lib.halve f x) y = root f y := by
  refine rises.halve.root_eq (root f) (fun z => ?_) (fun z top => ?_) y
  · unfold Lib.halve
    by_cases same : z = x
    · subst same
      rw [Function.update_self, rises.root_step, rises.root_step]
    · rw [Function.update_of_ne same, rises.root_step]
  · exact root_of_top (rises.halve_top.mp top)

/-! ### Hanging a root under another -/

/-- One root, hung under another. -/
def link (f : α → α) (small big : α) : α → α := Function.update f small big

omit [Fintype α] in
theorem link_top (apart : small ≠ big) : link f small big y = y ↔ f y = y ∧ y ≠ small := by
  unfold link
  by_cases same : y = small
  · subst same
    rw [Function.update_self]
    exact iff_of_false apart.symm fun both => both.2 rfl
  · rw [Function.update_of_ne same, and_iff_left same]

theorem roots_link (low : f small = small) (apart : small ≠ big) :
    roots (link f small big) + 1 = roots f := by
  have rest : (Finset.univ.filter fun y => link f small big y = y) =
      (Finset.univ.filter fun y => f y = y).erase small := by
    ext y
    rw [Finset.mem_filter_univ, link_top apart, Finset.mem_erase, Finset.mem_filter_univ, and_comm]
  unfold roots
  rw [rest]
  exact Finset.card_erase_add_one (Finset.mem_filter_univ _ |>.mpr low)

theorem Rises.link (rises : Rises f height) (low : f small = small) (top : f big = big)
    (apart : small ≠ big) :
    Rises (link f small big) (Function.update height big (max (height big) (height small + 1))) where
  lt y inner := by
    have inner' : ¬ (f y = y ∧ y ≠ small) := fun both => inner ((link_top apart).mpr both)
    unfold Lib.link at inner ⊢
    by_cases same : y = small
    · subst same
      rw [Function.update_self, Function.update_self, Function.update_of_ne apart]
      exact (Nat.lt_succ_self _).trans_le (le_max_right _ _)
    · have moves : f y ≠ y := fun top => inner' ⟨top, same⟩
      have higher := rises.lt y moves
      have other : y ≠ big := fun same => moves (same ▸ top)
      rw [Function.update_of_ne same, Function.update_of_ne other]
      by_cases under : f y = big
      · rw [under] at higher ⊢
        rw [Function.update_self]
        exact higher.trans_le (le_max_left _ _)
      · rwa [Function.update_of_ne under]
  le y := by
    have fewer := roots_link low apart
    have bound := rises.le y
    have bound' := rises.le small
    by_cases same : y = big
    · subst same
      rw [Function.update_self]
      omega
    · rw [Function.update_of_ne same]
      omega

/-- **Hanging a root under another merges their trees**, and no others. -/
theorem Rises.root_link (rises : Rises f height) (low : f small = small) (top : f big = big)
    (apart : small ≠ big) :
      root (Lib.link f small big) y = if root f y = small then big else root f y := by
  refine (rises.link low top apart).root_eq (fun y => if root f y = small then big else root f y)
    (fun z => ?_)
    (fun z top' => ?_) y
  · by_cases same : z = small
    · subst same
      unfold Lib.link
      rw [Function.update_self, root_of_top low, if_pos rfl, root_of_top top, if_neg apart.symm]
    · unfold Lib.link
      rw [Function.update_of_ne same, rises.root_step]
  · obtain ⟨own, other⟩ := (link_top apart).mp top'
    rw [root_of_top own, if_neg other]

/-! ### Merging pair by pair -/

/-- Elements have one root exactly if the pairs connect them. -/
def Partitions (f : α → α) (links : List (α × α)) : Prop :=
  ∀ x y, root f x = root f y ↔ Relation.EqvGen (fun a b => (a, b) ∈ links) x y

omit [Fintype α] [DecidableEq α] in
/-- What one more pair connects. -/
theorem eqvGen_append : Relation.EqvGen (fun c d => (c, d) ∈ links ++ [(a, b)]) x y ↔
    Relation.EqvGen (fun c d => (c, d) ∈ links) x y ∨
    (Relation.EqvGen (fun c d => (c, d) ∈ links) x a ∧
      Relation.EqvGen (fun c d => (c, d) ∈ links) b y) ∨
    (Relation.EqvGen (fun c d => (c, d) ∈ links) x b ∧
      Relation.EqvGen (fun c d => (c, d) ∈ links) a y) := by
  have old : ∀ {x y}, Relation.EqvGen (fun c d => (c, d) ∈ links) x y →
      Relation.EqvGen (fun c d => (c, d) ∈ links ++ [(a, b)]) x y :=
    fun joined => joined.mono fun c d among => List.mem_append_left _ among
  have new : Relation.EqvGen (fun c d => (c, d) ∈ links ++ [(a, b)]) a b :=
    .rel _ _ (List.mem_append_right _ List.mem_cons_self)
  constructor
  · intro joined
    induction joined with
    | rel x y among =>
      rcases List.mem_append.mp among with before | last
      · exact .inl (.rel _ _ before)
      · obtain ⟨rfl, rfl⟩ := Prod.mk.inj (List.mem_singleton.mp last)
        exact .inr (.inl ⟨.refl _, .refl _⟩)
    | refl x => exact .inl (.refl _)
    | symm x y _ ih =>
      rcases ih with same | ⟨first, last⟩ | ⟨first, last⟩
      · exact .inl same.symm
      · exact .inr (.inr ⟨last.symm, first.symm⟩)
      · exact .inr (.inl ⟨last.symm, first.symm⟩)
    | trans x y z _ _ ih ih' =>
      rcases ih with same | ⟨first, last⟩ | ⟨first, last⟩
      · rcases ih' with same' | ⟨first', last'⟩ | ⟨first', last'⟩
        · exact .inl (same.trans _ _ _ same')
        · exact .inr (.inl ⟨same.trans _ _ _ first', last'⟩)
        · exact .inr (.inr ⟨same.trans _ _ _ first', last'⟩)
      · rcases ih' with same' | ⟨first', last'⟩ | ⟨first', last'⟩
        · exact .inr (.inl ⟨first, last.trans _ _ _ same'⟩)
        · exact .inr (.inl ⟨first, last'⟩)
        · exact .inl (first.trans _ _ _ last')
      · rcases ih' with same' | ⟨first', last'⟩ | ⟨first', last'⟩
        · exact .inr (.inr ⟨first, last.trans _ _ _ same'⟩)
        · exact .inl (first.trans _ _ _ last')
        · exact .inr (.inr ⟨first, last'⟩)
  · rintro (same | ⟨first, last⟩ | ⟨first, last⟩)
    · exact old same
    · exact (old first).trans _ _ _ (new.trans _ _ _ (old last))
    · exact (old first).trans _ _ _ (new.symm.trans _ _ _ (old last))

omit [DecidableEq α] in
/-- **One pair is merged**: elements of the two trees have one root, and otherwise none more have. -/
theorem Partitions.merge (partitions : Partitions f links)
    (merged : ∀ x y, root g x = root g y ↔ root f x = root f y ∨
      (root f x = root f a ∧ root f b = root f y) ∨ (root f x = root f b ∧ root f a = root f y)) :
    Partitions g (links ++ [(a, b)]) := by
  intro x y
  rw [merged, eqvGen_append, partitions, partitions, partitions, partitions, partitions]

omit [DecidableEq α] in
theorem Partitions.congr (partitions : Partitions f links) (same : ∀ y, root g y = root f y) :
    Partitions g links := by
  intro x y
  rw [same, same, partitions]

omit [DecidableEq α] in
/-- A pair of one tree merges nothing. -/
theorem Partitions.stay (partitions : Partitions f links) (one : root f a = root f b) :
    Partitions f (links ++ [(a, b)]) := by
  refine partitions.merge fun x y => ?_
  constructor
  · exact .inl
  · rintro (same | ⟨first, last⟩ | ⟨first, last⟩)
    · exact same
    · exact first.trans (one.trans last)
    · exact first.trans (one.symm.trans last)

/-- **A pair of two trees** is merged by hanging the root of one under that of the other. -/
theorem Partitions.hang (rises : Rises f height) (partitions : Partitions f links)
    (sides : (small = root f a ∧ big = root f b) ∨ (small = root f b ∧ big = root f a))
    (apart : small ≠ big) :
    Partitions (link f small big) (links ++ [(a, b)]) := by
  have low : f small = small := by
    rcases sides with ⟨rfl, -⟩ | ⟨rfl, -⟩ <;> exact rises.apply_root _
  have top : f big = big := by
    rcases sides with ⟨-, rfl⟩ | ⟨-, rfl⟩ <;> exact rises.apply_root _
  refine partitions.merge fun x y => ?_
  rw [rises.root_link low top apart, rises.root_link low top apart]
  rcases sides with ⟨rfl, rfl⟩ | ⟨rfl, rfl⟩ <;> split_ifs <;> grind

end DrStrange.Lib
