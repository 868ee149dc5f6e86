/-
**First appearances: one element for each class of a list.**

`firsts same xs` keeps each element that no earlier one is the same as. Where `same` is an
equivalence of the elements it holds exactly one of each class, in order of first appearance, and one
more element at the end is either the same as one of them or one of them itself
(`firsts_append_singleton`).
-/

import DrStrange.Lib.Ordered

namespace DrStrange.Lib

variable {α β : Type*} {same : α → α → Bool} {ok : α → Prop} {xs : List α} {x y : α}

/-- An equivalence of the elements that are `ok`. -/
structure EquivalenceOn (ok : α → Prop) (same : α → α → Bool) : Prop where
  refl : ∀ x, ok x → same x x
  symm : ∀ x y, ok x → ok y → same x y → same y x
  trans : ∀ x y z, ok x → ok y → ok z → same x y → same y z → same x z

/-- What a comparator that orders the elements finds equal is an equivalence of them. -/
theorem equivalenceOn_of_orderedAt {cmp : α → α → Ordering}
    (ordered : ∀ x, ok x → OrderedAt ok cmp x) : EquivalenceOn ok fun x y => cmp x y = .eq where
  refl x here := by simpa using (ordered x here).refl here
  symm x y here there equal := by
    simp only [decide_eq_true_eq] at equal ⊢
    rw [(ordered x here).swap y there, equal]
    rfl
  trans x y z here there last one two := by
    simp only [decide_eq_true_eq] at one two ⊢
    rw [(ordered x here).chain y z there last (by rw [one]; nofun) (by rw [two]; nofun), one, two]
    rfl

/-- An equivalence of what a function reads off the elements. -/
theorem EquivalenceOn.comap {f : β → α} (equivalence : EquivalenceOn ok same) :
    EquivalenceOn (fun b => ok (f b)) fun a b => same (f a) (f b) where
  refl x here := equivalence.refl (f x) here
  symm x y here there := equivalence.symm (f x) (f y) here there
  trans x y z here there last := equivalence.trans (f x) (f y) (f z) here there last

/-- Each element that no earlier one is the same as. -/
def firsts (same : α → α → Bool) : List α → List α
  | [] => []
  | x :: xs => x :: (firsts same xs).filter fun y => !same x y

theorem firsts_sublist : (firsts same xs).Sublist xs := by
  induction xs with
  | nil => exact .refl _
  | cons x xs ih => exact (List.filter_sublist.trans ih).cons_cons x

theorem firsts_pairwise : (firsts same xs).Pairwise fun x y => same x y = false := by
  induction xs with
  | nil => exact .nil
  | cons x xs ih =>
    refine List.pairwise_cons.mpr ⟨fun y member => ?_, ih.filter _⟩
    simpa using (List.mem_filter.mp member).2

/-- Two of the firsts that are the same stand at one place. -/
theorem firsts_place (equivalence : EquivalenceOn ok same) (all : ∀ x ∈ xs, ok x) {i j : ℕ}
    (first : (firsts same xs)[i]? = some x) (second : (firsts same xs)[j]? = some y)
    (equal : same x y) : i = j := by
  have apart := List.pairwise_iff_getElem.mp (@firsts_pairwise _ same xs)
  have here := all x (firsts_sublist.subset (List.mem_of_getElem? first))
  have there := all y (firsts_sublist.subset (List.mem_of_getElem? second))
  obtain ⟨shortI, rfl⟩ := List.getElem?_eq_some_iff.mp first
  obtain ⟨shortJ, rfl⟩ := List.getElem?_eq_some_iff.mp second
  rcases Nat.lt_trichotomy i j with less | same' | greater
  · rw [apart i j shortI shortJ less] at equal
    cases equal
  · exact same'
  · have back := equivalence.symm _ _ here there equal
    rw [apart j i shortJ shortI greater] at back
    cases back

/-- Every element is the same as one of the firsts. -/
theorem exists_first (equivalence : EquivalenceOn ok same) (all : ∀ x ∈ xs, ok x)
    (member : y ∈ xs) : ∃ x ∈ firsts same xs, same x y := by
  induction xs with
  | nil => cases member
  | cons x xs ih =>
    obtain ⟨here, all⟩ := List.forall_mem_cons.mp all
    rcases List.mem_cons.mp member with rfl | member
    · exact ⟨y, List.mem_cons_self, equivalence.refl y here⟩
    · obtain ⟨z, first, equal⟩ := ih all member
      by_cases covered : same x z
      · refine ⟨x, List.mem_cons_self, equivalence.trans x z y here ?_ (all y member) covered equal⟩
        exact all z (firsts_sublist.subset first)
      · exact ⟨z, .tail _ (List.mem_filter.mpr ⟨first, by simpa using covered⟩), equal⟩

/-- **One more element is the same as one of the firsts, or one of them itself.** -/
theorem firsts_append_singleton (equivalence : EquivalenceOn ok same) (all : ∀ x ∈ xs, ok x)
    (last : ok y) :
    firsts same (xs ++ [y]) =
      if (firsts same xs).any (same · y) then firsts same xs else firsts same xs ++ [y] := by
  induction xs with
  | nil => rfl
  | cons x xs ih =>
    obtain ⟨here, all⟩ := List.forall_mem_cons.mp all
    rw [List.cons_append, firsts, ih all, firsts, List.any_cons]
    by_cases equal : same x y
    · rw [equal, Bool.true_or, if_pos rfl]
      split_ifs
      · rfl
      · rw [List.filter_append, List.filter_singleton, equal]
        simp
    · have rest : (firsts same xs).any (same · y) =
          ((firsts same xs).filter fun y => !same x y).any (same · y) := by
        rw [List.any_filter, Bool.eq_iff_iff, List.any_eq_true, List.any_eq_true]
        refine exists_congr fun z => and_congr_right fun member => ?_
        have held := all z (firsts_sublist.subset member)
        rw [Bool.and_eq_true, Bool.not_eq_true', iff_and_self]
        intro covers
        by_contra covered
        exact equal (equivalence.trans x z y here held last (by simpa using covered) covers)
      rw [Bool.not_eq_true] at equal
      rw [equal, Bool.false_or, ← rest]
      split_ifs
      · rfl
      · rw [List.filter_append, List.filter_singleton, equal]
        simp

/-- A test that the same elements pass together may come before or after. -/
theorem filter_firsts {keep : α → Bool} (together : ∀ x y, same x y → keep x = keep y) :
    (firsts same xs).filter keep = firsts same (xs.filter keep) := by
  induction xs with
  | nil => rfl
  | cons x xs ih =>
    rw [firsts, List.filter_cons, List.filter_cons, List.filter_filter]
    split_ifs with kept
    · rw [firsts, ← ih, List.filter_filter]
      simp only [Bool.and_comm]
    · rw [← ih]
      refine List.filter_congr fun y member => ?_
      cases other : keep y with
      | false => rfl
      | true =>
        cases equal : same x y with
        | false => rfl
        | true => rw [together x y equal, other] at kept; exact absurd rfl kept

end DrStrange.Lib
