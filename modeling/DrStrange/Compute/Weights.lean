/-
**The weights of a level.**

The code's sums over a level are sums of one symmetric matrix (`degree_eq`, `totalWeight_eq`), every
edge that it adds is one entry more (`entry_foldl`), and so condensing joins the nodes of a
community (`joins_condense`). An edge between communities stands for edges between their nodes
(`Keyed.condense`).
-/

import DrStrange.Compute.Louvain

namespace DrStrange.Compute

open Std DrStrange.Graph Lib

variable {n k : ℕ} {g : WGraph n} {α : Type} {map : ExtTreeMap (Fin n) ℚ compare}
  {key c a b i j : Fin n} {w : ℚ} {pairs : List (Fin n × ℚ)} {P : Fin n → Fin n → Prop}
  {frame : Frame}

/-! ### Maps of weights -/

theorem getD_addTo : (addTo map key w)[c]?.getD 0 = map[c]?.getD 0 + if key = c then w else 0 := by
  rw [addTo, ExtTreeMap.getElem?_insert]
  by_cases same : key = c
  · simp [same]
  · simp [same]

theorem mem_addTo : c ∈ addTo map key w ↔ key = c ∨ c ∈ map := by
  rw [addTo, ExtTreeMap.mem_insert, LawfulEqCmp.compare_eq_iff_eq]

/-- A sum over the pairs of a map is one over all keys. -/
theorem sum_toList {h : Fin n → ℚ → ℚ} (zero : ∀ j, h j 0 = 0) :
    (map.toList.map fun pair => h pair.1 pair.2).sum = ∑ j, h j (map[j]?.getD 0) := by
  have distinct : map.toList.Nodup := by
    refine List.Pairwise.imp ?_ ExtTreeMap.distinct_keys_toList
    intro p q apart same
    exact apart (same ▸ LawfulEqCmp.compare_eq_iff_eq.mpr rfl)
  have keys : Set.InjOn Prod.fst (map.toList.toFinset : Set (Fin n × ℚ)) := by
    rintro ⟨j, v⟩ left ⟨_, w⟩ right rfl
    have left := ExtTreeMap.mem_toList_iff_getElem?_eq_some.mp (List.mem_toFinset.mp left)
    have right := ExtTreeMap.mem_toList_iff_getElem?_eq_some.mp (List.mem_toFinset.mp right)
    exact congrArg _ (Option.some.inj (left.symm.trans right))
  have each : ∀ pair ∈ map.toList.toFinset, h pair.1 pair.2 = h pair.1 (map[pair.1]?.getD 0) := by
    rintro ⟨j, v⟩ inside
    rw [ExtTreeMap.mem_toList_iff_getElem?_eq_some.mp (List.mem_toFinset.mp inside)]
    rfl
  rw [← List.sum_toFinset _ distinct, Finset.sum_congr rfl each,
    ← Finset.sum_image (f := fun j => h j (map[j]?.getD 0)) keys]
  refine Finset.sum_subset (Finset.subset_univ _) fun j _ absent => ?_
  cases found : map[j]? with
  | none => exact zero j
  | some v =>
    refine absurd (Finset.mem_image.mpr ⟨(j, v), ?_, rfl⟩) absent
    exact List.mem_toFinset.mpr (ExtTreeMap.mem_toList_iff_getElem?_eq_some.mpr found)

theorem sum_weightsOf : (weightsOf map).sum = ∑ j : Fin n, map[j]?.getD 0 :=
  sum_toList (h := fun _ w => w) fun _ => rfl

/-! ### The matrix -/

/-- The weight between two nodes, with loops from both ends. -/
def WGraph.entry (g : WGraph n) (i j : Fin n) : ℚ :=
  (g.adj i)[j]?.getD 0 + if i = j then 2 * g.selfW i else 0

/-- The code's degree is the one of the matrix. -/
theorem degree_eq : g.degree i = degree g.entry i := by
  simp only [WGraph.degree, Lib.degree, WGraph.entry, sum_weightsOf, Finset.sum_add_distrib,
    Finset.sum_ite_eq,
    Finset.mem_univ, if_true]

/-- The code's total weight is half of the matrix. -/
theorem totalWeight_eq : 2 * g.totalWeight = volume g.entry := by
  have each : ∀ i, degree g.entry i = (weightsOf (g.adj i)).sum + 2 * g.selfW i :=
    fun i => degree_eq.symm
  simp only [WGraph.totalWeight, volume, each, Finset.sum_add_distrib, ← Finset.mul_sum,
    ← List.ofFn_eq_map,
    List.sum_ofFn]
  ring

theorem entry_empty : (WGraph.empty (n := n)).entry a b = 0 := by
  simp [WGraph.entry, WGraph.empty]

theorem entry_addSelf :
    (g.addSelf i w).entry a b = g.entry a b + if i = a ∧ i = b then 2 * w else 0 := by
  unfold WGraph.entry WGraph.addSelf
  by_cases own : i = a
  · subst own
    by_cases same : i = b
    · simp [same]
      ring
    · simp [same]
  · simp [own, Function.update_of_ne (Ne.symm own)]

theorem entry_addAdj : (g.addAdj i j w).entry a b = g.entry a b + if i = a ∧ j = b then w else 0 := by
  unfold WGraph.entry WGraph.addAdj
  by_cases own : i = a
  · subst own
    simp only [Function.update_self, getD_addTo, true_and]
    ring
  · simp [own, Function.update_of_ne (Ne.symm own)]

/-- What is added one after the other is added together. -/
theorem entry_foldl {step : WGraph n → α → WGraph n} {add : α → ℚ} {all : List α}
    (each : ∀ g x, (step g x).entry a b = g.entry a b + add x) :
    (all.foldl step g).entry a b = g.entry a b + (all.map add).sum := by
  induction all generalizing g with
  | nil => simp
  | cons x all ih => rw [List.foldl_cons, ih, each, List.map_cons, List.sum_cons, add_assoc]

/-! ### Condensing -/

/-- What a node adds to the graph of the communities. -/
theorem entry_condense_step {f : Fin n → Fin k} {acc : WGraph k} {a b : Fin k} :
    ((g.adj i).foldl (fun acc j w => if f i = f j then acc.addSelf (f i) (w / 2)
      else acc.addAdj (f i) (f j) w)
      (acc.addSelf (f i) (g.selfW i))).entry a b =
        acc.entry a b + if f i = a then ∑ j with f j = b, g.entry i j else 0 := by
  have each : ∀ (acc : WGraph k) (pair : Fin n × ℚ),
      (if f i = f pair.1 then acc.addSelf (f i) (pair.2 / 2)
        else acc.addAdj (f i) (f pair.1) pair.2).entry a b =
        acc.entry a b + if f i = a ∧ f pair.1 = b then pair.2 else 0 := by
    intro acc pair
    split_ifs with same mine mine
    · rw [entry_addSelf, if_pos ⟨mine.1, same.trans mine.2⟩]
      ring
    · rw [entry_addSelf, if_neg fun both => mine ⟨both.1, same.symm.trans both.2⟩]
    · rw [entry_addAdj, if_pos mine]
    · rw [entry_addAdj, if_neg mine]
  rw [ExtTreeMap.foldl_eq_foldl_toList, entry_foldl each, entry_addSelf,
    sum_toList (h := fun j w => if f i = a ∧ f j = b then w else 0) fun j => by simp, add_assoc]
  congr 1
  by_cases mine : f i = a
  · have loop : ∀ j, (if f j = b then g.entry i j else 0) =
        (if f j = b then (g.adj i)[j]?.getD 0 else 0) +
        if i = j then (if f i = b then 2 * g.selfW i else 0) else 0 := by
      intro j
      unfold WGraph.entry
      by_cases own : i = j
      · subst own
        split_ifs <;> simp
      · simp [own]
    simp only [mine, true_and, if_true, Finset.sum_filter, loop, Finset.sum_add_distrib,
      Finset.sum_ite_eq,
      Finset.mem_univ]
    ring
  · simp [mine]

/-- **Condensing joins the nodes of a community.** -/
theorem joins_condense {membership : Fin n → ℕ} :
    Joins g.entry (label membership) (g.condense membership).entry := by
  intro a b
  rw [WGraph.condense, entry_foldl fun acc i => entry_condense_step, entry_empty, zero_add,
    ← List.ofFn_eq_map,
    List.sum_ofFn, Finset.sum_filter]

/-! ### Edges -/

/-- A relation holds along every edge of the level. -/
def WGraph.Keyed (g : WGraph n) (P : Fin n → Fin n → Prop) : Prop := ∀ i j, j ∈ g.adj i → P i j

theorem keyed_empty : (WGraph.empty (n := n)).Keyed P := fun _ _ inside => by
  simp [WGraph.empty] at inside

theorem WGraph.Keyed.addAdj (keyed : g.Keyed P) (holds : P i j) : (g.addAdj i j w).Keyed P := by
  intro a b inside
  unfold WGraph.addAdj at inside
  dsimp only at inside
  by_cases own : a = i
  · subst own
    rw [Function.update_self, mem_addTo] at inside
    obtain rfl | inside := inside
    · exact holds
    · exact keyed a b inside
  · rw [Function.update_of_ne own] at inside
    exact keyed a b inside

/-- An edge between communities is one between their nodes. -/
theorem keyed_condense {membership : Fin n → ℕ}
    {Q : Fin (width membership) → Fin (width membership) → Prop}
    (holds : g.Keyed fun i j => label membership i ≠ label membership j →
      Q (label membership i) (label membership j)) : (g.condense membership).Keyed Q := by
  refine List.foldlRecOn (motive := (WGraph.Keyed · Q)) _ _ keyed_empty fun acc keyed i _ => ?_
  rw [ExtTreeMap.foldl_eq_foldl_toList]
  refine List.foldlRecOn (motive := (WGraph.Keyed · Q)) _ _ keyed fun acc keyed pair inside => ?_
  split_ifs with same
  · exact keyed
  · refine keyed.addAdj (holds i pair.1 ?_ same)
    have found := ExtTreeMap.mem_toList_iff_getElem?_eq_some.mp inside
    exact ExtTreeMap.mem_iff_isSome_getElem?.mpr (Option.isSome_of_eq_some found)

theorem WGraph.Keyed.link (keyed : g.Keyed P) (holds : i ≠ j → P i j ∧ P j i) :
    (g.link i j).Keyed P := by
  unfold WGraph.link
  split_ifs with loop
  · exact keyed
  · exact (keyed.addAdj (holds loop).1).addAdj (holds loop).2

theorem keyed_weights {P : Fin frame.nodes.length → Fin frame.nodes.length → Prop}
    (holds : ∀ i j, (∃ edge, (j, edge) ∈ frame.out i) → i ≠ j → P i j ∧ P j i) :
    frame.weights.Keyed P := by
  refine List.foldlRecOn (motive := (WGraph.Keyed · P)) _ _ keyed_empty fun acc keyed i _ => ?_
  refine List.foldlRecOn (motive := (WGraph.Keyed · P)) _ _ keyed fun acc keyed pair inside => ?_
  exact keyed.link (holds i pair.1 ⟨pair.2, inside⟩)

/-! ### Levels of the algorithm -/

/-- What holds of every level: weights are the same both ways and not negative, and loops stand
apart. -/
structure WGraph.Sound (g : WGraph n) : Prop where
  symm : ∀ i j, g.entry i j = g.entry j i
  nonneg : ∀ i j, 0 ≤ g.entry i j
  apart : g.Keyed (· ≠ ·)

/-- **The graph of the communities is sound.** -/
theorem WGraph.Sound.condense {membership : Fin n → ℕ} (sound : g.Sound) :
    (g.condense membership).Sound := by
  refine ⟨fun a b => ?_, fun a b => ?_, keyed_condense fun i j _ apart => apart⟩
  · rw [joins_condense, joins_condense, Finset.sum_comm]
    exact Finset.sum_congr rfl fun j _ => Finset.sum_congr rfl fun i _ => sound.symm i j
  · rw [joins_condense]
    exact Finset.sum_nonneg fun i _ => Finset.sum_nonneg fun j _ => sound.nonneg i j

/-- What an edge adds to the weights. -/
theorem entry_link :
    (g.link i j).entry a b = g.entry a b + ((if i = a ∧ j = b then 1 else 0) + if j = a ∧
      i = b then 1 else 0) := by
  unfold WGraph.link
  by_cases loop : i = j
  · subst loop
    rw [if_pos rfl, entry_addSelf]
    split_ifs <;> norm_num
  · rw [if_neg loop, entry_addAdj, entry_addAdj, add_assoc]

theorem WGraph.Sound.link (sound : g.Sound) : (g.link i j).Sound := by
  refine ⟨fun a b => ?_, fun a b => ?_, sound.apart.link fun apart => ⟨apart, Ne.symm apart⟩⟩
  · rw [entry_link, entry_link, sound.symm a b, add_comm (if i = a ∧ j = b then (1 : ℚ) else 0)]
    simp only [and_comm]
  · rw [entry_link]
    have old := sound.nonneg a b
    split_ifs <;> linarith

/-- **The undirected view of a frame is sound.** -/
theorem sound_weights : frame.weights.Sound := by
  refine List.foldlRecOn (motive := WGraph.Sound) _ _ ?_ fun acc sound i _ => ?_
  · exact ⟨fun a b => by rw [entry_empty, entry_empty], fun a b => entry_empty.ge, keyed_empty⟩
  · exact List.foldlRecOn (motive := WGraph.Sound) _ _ sound fun acc sound pair _ => sound.link

end DrStrange.Compute
