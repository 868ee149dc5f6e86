/-
**The modularity of a partition.**

Between the nodes of a graph stands a symmetric matrix of weights. A partition is worth the weight
inside of its classes, less what the degrees alone would put there. Moving one node changes the
modularity by what the node gains (`modularity_update`), and joining nodes into one keeps the
modularity of every partition that does not part them (`modularity_comp`). What each round raises
ends where there are finitely many states (`above_lt`).
-/

import Mathlib

namespace DrStrange.Lib

variable {V W C D K : Type*} [Fintype V] [Fintype W] [Field K] {A : V → V → K} {B : W → W → K}
  {f : V → W}
  {σ : V → C} {i : V} {c : C}

/-! ### Weights and partitions -/

/-- The weight at a node; a loop counts as it stands in the matrix. -/
def degree (A : V → V → K) (i : V) : K := ∑ j, A i j

/-- All the weight, from both ends. -/
def volume (A : V → V → K) : K := ∑ i, degree A i

/-- What stands between two nodes beyond what their degrees would put there. -/
def surplus (A : V → V → K) (i j : V) : K := A i j / volume A - degree A i * degree A j / volume A ^ 2

section

variable [DecidableEq C]

/-- The modularity of a partition, given by the class of each node. -/
def modularity (A : V → V → K) (σ : V → C) : K := ∑ i, ∑ j, if σ i = σ j then surplus A i j else 0

/-- What a node that stands alone gains by joining a class. -/
def gain [DecidableEq V] (A : V → V → K) (σ : V → C) (i : V) (c : C) : K :=
  ∑ j with j ≠ i ∧ σ j = c, A i j - (∑ j with j ≠ i ∧ σ j = c, degree A j) * degree A i / volume A

/-- Partitions into the same classes are worth the same. -/
theorem modularity_congr [DecidableEq D] {τ : V → D} (same : ∀ i j, σ i = σ j ↔ τ i = τ j) :
    modularity A σ = modularity A τ := by
  unfold modularity
  refine Finset.sum_congr rfl fun i _ => Finset.sum_congr rfl fun j _ => ?_
  simp only [same i j]

/-! ### Moving one node -/

variable [DecidableEq V]

/-- A symmetric sum over pairs, parted at a node. -/
theorem sum_pairs {t : V → V → K} (symm : ∀ i j, t i j = t j i) (i : V) :
    ∑ a, ∑ b, t a b = t i i + 2 * ∑ j ∈ Finset.univ.erase i, t i j +
      ∑ a ∈ Finset.univ.erase i, ∑ b ∈ Finset.univ.erase i, t a b := by
  have row : ∀ a, ∑ b, t a b = t a i + ∑ b ∈ Finset.univ.erase i, t a b := fun a =>
    (Finset.add_sum_erase Finset.univ (t a) (Finset.mem_univ i)).symm
  have column : ∑ a ∈ Finset.univ.erase i, t a i = ∑ j ∈ Finset.univ.erase i, t i j :=
    Finset.sum_congr rfl fun a _ => symm a i
  rw [← Finset.add_sum_erase Finset.univ (fun a => ∑ b, t a b) (Finset.mem_univ i), row i]
  simp only [row, Finset.sum_add_distrib, column]
  ring

theorem sum_surplus (σ : V → C) (c : C) :
    ∑ j ∈ Finset.univ.erase i, (if c = σ j then surplus A i j else 0) = gain A σ i c / volume A := by
  have members : Finset.univ.erase i = Finset.univ.filter (· ≠ i) := by
    ext j
    simp
  have sides : ∀ j, (if c = σ j then surplus A i j else 0) = if σ j = c then surplus A i j else 0 :=
    fun j => by
    simp only [eq_comm]
  rw [members, Finset.sum_congr rfl fun j _ => sides j, ← Finset.sum_filter, Finset.filter_filter]
  simp only [surplus, Finset.sum_sub_distrib, gain, ← Finset.sum_div, ← Finset.mul_sum]
  rw [sub_div, div_div, sq, mul_comm (degree A i)]

/-- **One node moves**: what the partition is worth changes by what the node gains. -/
theorem modularity_update (symm : ∀ i j, A i j = A j i) (σ : V → C) (i : V) (c : C) :
    modularity A (Function.update σ i c) =
      modularity A σ + 2 * (gain A σ i c - gain A σ i (σ i)) / volume A := by
  have symm' : ∀ τ : V → C, ∀ a b, (if τ a = τ b then surplus A a b else 0) =
      if τ b = τ a then surplus A b a else 0 := by
    intro τ a b
    have pair : surplus A a b = surplus A b a := by
      rw [surplus, surplus, symm a b, mul_comm (degree A a)]
    simp only [pair, eq_comm]
  have others : ∀ a ∈ Finset.univ.erase i, Function.update σ i c a = σ a := fun a inside =>
    Function.update_of_ne (Finset.ne_of_mem_erase inside) ..
  have rest : ∑ a ∈ Finset.univ.erase i, ∑ b ∈ Finset.univ.erase i,
      (if Function.update σ i c a = Function.update σ i c b then surplus A a b else 0) =
        ∑ a ∈ Finset.univ.erase i, ∑ b ∈ Finset.univ.erase i, if σ a =
        σ b then surplus A a b else 0 :=
    Finset.sum_congr rfl fun a inside => Finset.sum_congr rfl fun b inside' => by
      rw [others a inside, others b inside']
  have mine : ∑ j ∈ Finset.univ.erase i,
      (if Function.update σ i c i = Function.update σ i c j then surplus A i j else 0) =
        gain A σ i c / volume A := by
    rw [← sum_surplus σ c]
    refine Finset.sum_congr rfl fun j inside => ?_
    rw [Function.update_self, others j inside]
  rw [modularity, modularity, sum_pairs (symm' _) i, sum_pairs (symm' σ) i, rest, mine,
    sum_surplus σ (σ i),
    if_pos rfl, if_pos rfl]
  ring

end

/-! ### Joining nodes -/

/-- The weights between the classes of nodes that are joined. -/
def Joins [DecidableEq W] (A : V → V → K) (f : V → W) (B : W → W → K) : Prop :=
  ∀ a b, B a b = ∑ i with f i = a, ∑ j with f j = b, A i j

section

variable [DecidableEq W]

theorem sum_fibers (t : V → V → K) (f : V → W) :
    ∑ a, ∑ b, ∑ i with f i = a, ∑ j with f j = b, t i j = ∑ i, ∑ j, t i j := by
  have inner : ∀ a, ∑ b, ∑ i with f i = a, ∑ j with f j = b, t i j = ∑ i with f i = a, ∑ j, t i j :=
    fun a => by
    rw [Finset.sum_comm]
    exact Finset.sum_congr rfl fun i _ => Finset.sum_fiberwise Finset.univ f (t i)
  rw [Finset.sum_congr rfl fun a _ => inner a]
  exact Finset.sum_fiberwise Finset.univ f fun i => ∑ j, t i j

/-- The degree of what is joined. -/
theorem degree_joins (joins : Joins A f B) (a : W) : degree B a = ∑ i with f i = a, degree A i := by
  unfold degree
  rw [Finset.sum_congr rfl fun b _ => joins a b, Finset.sum_comm]
  exact Finset.sum_congr rfl fun i _ => Finset.sum_fiberwise Finset.univ f (A i)

/-- **Joining keeps all the weight.** -/
theorem volume_joins (joins : Joins A f B) : volume B = volume A := by
  unfold volume
  rw [Finset.sum_congr rfl fun a _ => degree_joins joins a]
  exact Finset.sum_fiberwise Finset.univ f (degree A)

/-- **Joining keeps what a partition is worth** that does not part what is joined. -/
theorem modularity_comp [DecidableEq C] (joins : Joins A f B) (σ : W → C) :
    modularity A (σ ∘ f) = modularity B σ := by
  have pairs : ∀ a b, (if σ a = σ b then surplus B a b else 0) =
      ∑ i with f i = a, ∑ j with f j = b, if (σ ∘ f) i = (σ ∘ f) j then surplus A i j else 0 := by
    intro a b
    have inside : ∀ i ∈ Finset.univ.filter (f · = a), ∀ j ∈ Finset.univ.filter (f · = b),
        (if (σ ∘ f) i = (σ ∘ f) j then surplus A i j else 0) = if σ a =
        σ b then surplus A i j else 0 := by
      intro i left j right
      rw [Function.comp_apply, Function.comp_apply, (Finset.mem_filter.mp left).2,
        (Finset.mem_filter.mp right).2]
    rw [Finset.sum_congr rfl fun i left => Finset.sum_congr rfl fun j right => inside i left j right]
    split_ifs with same
    · simp only [surplus, volume_joins joins, degree_joins joins, joins a b, Finset.sum_sub_distrib,
        Finset.sum_div,
        Finset.sum_mul_sum]
    · simp
  unfold modularity
  rw [Finset.sum_congr rfl fun a _ => Finset.sum_congr rfl fun b _ => pairs a b]
  exact (sum_fibers _ f).symm

end

/-! ### A value that rises -/

section

variable {S L : Type*} [LinearOrder L] [Fintype S] {value : S → L} {s t : S}

/-- How many states are worth more. -/
def above (value : S → L) (s : S) : ℕ := (Finset.univ.filter fun t => value s < value t).card

theorem above_lt (rises : value s < value t) : above value t < above value s := by
  have more : ∀ u, value t < value u → value s < value u := fun u higher => rises.trans higher
  refine Finset.card_lt_card ((Finset.ssubset_iff_of_subset ?_).mpr ⟨t, ?_, ?_⟩)
  · simpa [Finset.subset_iff] using more
  · simpa using rises
  · simp

/-- Not all the states are worth more. -/
theorem above_lt_card (value : S → L) (s : S) : above value s < Fintype.card S := by
  refine Finset.card_lt_univ_of_notMem (x := s) ?_
  simp

end

end DrStrange.Lib
