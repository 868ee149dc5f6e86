/-
**One level of local moving.**

The running totals are the degrees of the communities (`Consistent`), so what the code compares are
the gains of the matrix, and every move that it accepts raises the modularity (`visit_spec`). There
are finitely many partitions, so the rounds end (`rounds_end`), and no community spans two
components (`Within`).
-/

import DrStrange.Compute.Weights

namespace DrStrange.Compute

open Std (ExtTreeMap LawfulEqCmp)
open Lib

variable {n fuel : ℕ} {g : WGraph n} {X : Type} {comm τ : Fin n → Fin n} {tot : Fin n → ℚ}
  {minGain : ℚ} {i j c l : Fin n} {run : Moving n × Bool} {p : Fin n → X}
  {map : ExtTreeMap (Fin n) ℕ compare} {state : Moving n}

/-! ### Gains -/

theorem getD_foldl_addTo {f : Fin n → Fin n} {pairs : List (Fin n × ℚ)}
    {map : ExtTreeMap (Fin n) ℚ compare} :
    (pairs.foldl (fun map pair => addTo map (f pair.1) pair.2) map)[c]?.getD 0 =
      map[c]?.getD 0 + (pairs.map fun pair => if f pair.1 = c then pair.2 else 0).sum := by
  induction pairs generalizing map with
  | nil => simp
  | cons pair pairs ih =>
    rw [List.foldl_cons, ih, getD_addTo, List.map_cons, List.sum_cons, add_assoc]

/-- **The weight into a community** is that to its other nodes. -/
theorem getD_wTo (sound : g.Sound) :
    (g.wTo comm i)[c]?.getD 0 = ∑ j with j ≠ i ∧ comm j = c, g.entry i j := by
  rw [WGraph.wTo, ExtTreeMap.foldl_eq_foldl_toList, getD_foldl_addTo,
    sum_toList (h := fun j w => if comm j = c then w else 0) fun j => by
      simp, ExtTreeMap.getElem?_empty,
    Option.getD_none, zero_add, Finset.sum_filter]
  refine Finset.sum_congr rfl fun j _ => ?_
  unfold WGraph.entry
  by_cases own : j = i
  · subst own
    have absent : (g.adj j)[j]? = none :=
      ExtTreeMap.getElem?_eq_none fun inside => sound.apart j j inside rfl
    simp [absent]
  · simp [own, Ne.symm own]

theorem exists_of_mem_wTo (inside : c ∈ g.wTo comm i) : ∃ j ∈ g.adj i, comm j = c := by
  rw [WGraph.wTo, ExtTreeMap.foldl_eq_foldl_toList] at inside
  suffices ∀ pairs : List (Fin n × ℚ), (∀ pair ∈ pairs, pair.1 ∈ g.adj i) →
      ∀ map : ExtTreeMap (Fin n) ℚ compare,
      c ∈ pairs.foldl (fun map pair => addTo map (comm pair.1) pair.2) map →
        c ∈ map ∨ ∃ j ∈ g.adj i, comm j = c by
    refine (this (g.adj i).toList (fun pair member => ?_) ∅ inside).resolve_left
      ExtTreeMap.not_mem_empty
    have found := ExtTreeMap.mem_toList_iff_getElem?_eq_some.mp member
    exact ExtTreeMap.mem_iff_isSome_getElem?.mpr (Option.isSome_of_eq_some found)
  intro pairs
  induction pairs with
  | nil => exact fun _ map inside => .inl inside
  | cons pair pairs ih =>
    intro among map inside
    obtain inside | found :=
      ih (fun pair member => among pair (List.mem_cons_of_mem _ member)) _ inside
    · obtain same | inside := mem_addTo.mp inside
      · exact .inr ⟨pair.1, among pair List.mem_cons_self, same⟩
      · exact .inl inside
    · exact .inr found

/-- The totals are the degrees of the communities. -/
def Moving.Consistent (g : WGraph n) (state : Moving n) : Prop :=
  ∀ c, state.tot c = ∑ j with state.comm j = c, degree g.entry j

/-- A sum over a class, with one node apart. -/
theorem sum_class (d : Fin n → ℚ) (τ : Fin n → Fin n) (i c : Fin n) :
    ∑ j with τ j = c, d j = (if τ i = c then d i else 0) + ∑ j with j ≠ i ∧ τ j = c, d j := by
  rw [Finset.sum_filter, Finset.sum_filter, ← Finset.add_sum_erase _ _ (Finset.mem_univ i)]
  congr 1
  rw [← Finset.add_sum_erase _ _ (Finset.mem_univ i), if_neg (by simp), zero_add]
  refine Finset.sum_congr rfl fun j inside => ?_
  simp [Finset.ne_of_mem_erase inside]

/-- The totals without a node. -/
theorem Moving.Consistent.without (consistent : state.Consistent g) (i c : Fin n) :
    Function.update state.tot (state.comm i) (state.tot (state.comm i) - g.degree i) c =
      ∑ j with j ≠ i ∧ state.comm j = c, degree g.entry j := by
  have parted := sum_class (degree g.entry) state.comm i c
  by_cases own : state.comm i = c
  · subst own
    rw [Function.update_self, consistent, parted, if_pos rfl, degree_eq]
    ring
  · rw [Function.update_of_ne (Ne.symm own), consistent, parted, if_neg own, zero_add]

/-- The totals with a node in a community. -/
theorem consistent_with (without : ∀ c, tot c = ∑ j with j ≠ i ∧ comm j = c, degree g.entry j) :
    Moving.Consistent g ⟨Function.update comm i c, Function.update tot c (tot c + g.degree i)⟩ := by
  intro a
  have others : ∑ j with j ≠ i ∧ Function.update comm i c j = a, degree g.entry j = tot a := by
    rw [without a]
    refine Finset.sum_congr (Finset.filter_congr fun j _ => and_congr_right fun apart => ?_)
      fun _ _ => rfl
    rw [Function.update_of_ne apart]
  dsimp only
  rw [sum_class _ _ i, others, Function.update_self]
  by_cases own : c = a
  · subst own
    rw [Function.update_self, if_pos rfl, degree_eq, add_comm]
  · rw [Function.update_of_ne (Ne.symm own), if_neg own, zero_add]

/-! ### The best community -/

/-- The best of the communities seen: its worth, and if it is another than the own one, that it
gains more. -/
structure Best (worth : Fin n → ℚ) (keys : ExtTreeMap (Fin n) ℚ compare) (own : Fin n)
    (best : Fin n × ℚ) : Prop where
  gains : best.2 = worth best.1
  least : worth own ≤ best.2
  wins : best.1 ≠ own → worth own < best.2 ∧ best.1 ∈ keys

/-- **The best community** of all. -/
theorem best_foldl {worth : Fin n → ℚ} {keys : ExtTreeMap (Fin n) ℚ compare} {own : Fin n}
    {deg twoM : ℚ}
    (nonneg : 0 ≤ minGain) (worths : ∀ c, keys[c]?.getD 0 - tot c * deg / twoM = worth c) :
    Best worth keys own
      (keys.foldl (better deg twoM minGain tot) (own, keys[own]?.getD 0 - tot own * deg / twoM)) := by
  rw [ExtTreeMap.foldl_eq_foldl_toList, worths]
  refine List.foldlRecOn (motive := Best worth keys own) _ _ ⟨rfl, le_rfl, fun apart =>
    absurd rfl apart⟩
    fun best held pair inside => ?_
  have found := ExtTreeMap.mem_toList_iff_getElem?_eq_some.mp inside
  have mine : pair.2 - tot pair.1 * deg / twoM = worth pair.1 := by
    rw [← worths, found]
    rfl
  unfold better
  dsimp only
  rw [mine]
  split_ifs with more
  · have higher : worth own < worth pair.1 := by
      have := held.least
      linarith
    exact ⟨rfl, higher.le, fun _ => ⟨higher,
      ExtTreeMap.mem_iff_isSome_getElem?.mpr (Option.isSome_of_eq_some found)⟩⟩
  · exact held

/-! ### One visit -/

/-- **A visit** keeps the totals, and a move that is accepted raises the modularity and joins the
community of a neighbour. -/
theorem visit_spec (sound : g.Sound) (positive : 0 < volume g.entry) (nonneg : 0 ≤ minGain)
    (consistent : run.1.Consistent g) : (g.visit minGain run i).1.Consistent g ∧
      (((g.visit minGain run i).1.comm = run.1.comm ∧ (g.visit minGain run i).2 = run.2) ∨
        (g.visit minGain run i).2 = true ∧
          modularity g.entry run.1.comm < modularity g.entry (g.visit minGain run i).1.comm ∧
          ∃ j ∈ g.adj i, (g.visit minGain run i).1.comm =
          Function.update run.1.comm i (run.1.comm j)) := by
  have without := consistent.without (i := i)
  have worths : ∀ c, (g.wTo run.1.comm i)[c]?.getD 0 -
      Function.update run.1.tot (run.1.comm i) (run.1.tot (run.1.comm i) - g.degree i) c *
      g.degree i / (2 * g.totalWeight) = gain g.entry run.1.comm i c := by
    intro c
    rw [getD_wTo sound, without, degree_eq, totalWeight_eq, gain]
  have best : Best (gain g.entry run.1.comm i) (g.wTo run.1.comm i) (run.1.comm i) _ :=
    best_foldl nonneg worths
  have kept := consistent_with (c := run.1.comm i) without
  rw [Function.update_eq_self] at kept
  unfold WGraph.visit
  dsimp only
  split_ifs with moves
  · obtain ⟨higher, inside⟩ := best.wins moves
    obtain ⟨j, near, same⟩ := exists_of_mem_wTo inside
    refine ⟨consistent_with without, .inr ⟨rfl, ?_, j, near, by rw [same]⟩⟩
    rw [modularity_update sound.symm, lt_add_iff_pos_right]
    rw [best.gains] at higher
    exact div_pos (mul_pos two_pos (sub_pos.mpr higher)) positive
  · have stays := not_not.mp moves
    refine ⟨?_, .inl ⟨rfl, rfl⟩⟩
    rw [stays]
    exact kept

/-! ### Rounds -/

/-- Communities lie within the classes of a function. -/
def Within (p : Fin n → X) (comm : Fin n → Fin n) : Prop := ∀ i j, comm i = comm j → p i = p j

/-- A node that joins the community of a neighbour stays within. -/
theorem Within.update (within : Within p comm) (near : p i = p j) :
    Within p (Function.update comm i (comm j)) := by
  intro a b same
  by_cases left : a = i
  · by_cases right : b = i
    · rw [left, right]
    · rw [left, Function.update_self, Function.update_of_ne right] at same
      rw [left, near]
      exact within j b same
  · by_cases right : b = i
    · rw [right, Function.update_self, Function.update_of_ne left] at same
      rw [right, near]
      exact within a j same
    · rw [Function.update_of_ne left, Function.update_of_ne right] at same
      exact within a b same

/-- Some visits later: the totals are right, no community spans two classes that no edge leaves, and
either nothing has moved or the modularity has risen. -/
structure Visited (g : WGraph n) (was : Fin n → Fin n) (run : Moving n × Bool) : Prop where
  consistent : run.1.Consistent g
  within : ∀ {X : Type} {p : Fin n → X}, g.Keyed (fun i j => p i = p j) → Within p was →
    Within p run.1.comm
  rises : (run.1.comm = was ∧ run.2 = false) ∨
    run.2 = true ∧ modularity g.entry was < modularity g.entry run.1.comm

theorem Visited.visit {was : Fin n → Fin n} (sound : g.Sound) (positive : 0 < volume g.entry)
    (nonneg : 0 ≤ minGain)
    (visited : Visited g was run) : Visited g was (g.visit minGain run i) := by
  obtain ⟨consistent, stays | ⟨moved, higher, j, near, same⟩⟩ :=
    visit_spec (i := i) sound positive nonneg visited.consistent
  · refine ⟨consistent, fun keyed within => ?_, ?_⟩
    · rw [stays.1]
      exact visited.within keyed within
    · rw [stays.1, stays.2]
      exact visited.rises
  · refine ⟨consistent, fun keyed within => ?_, .inr ⟨moved, ?_⟩⟩
    · rw [same]
      exact (visited.within keyed within).update (keyed i j near)
    · obtain ⟨start, -⟩ | ⟨-, lower⟩ := visited.rises
      · exact start ▸ higher
      · exact lower.trans higher

/-- **One round.** -/
theorem visited_round (sound : g.Sound) (positive : 0 < volume g.entry) (nonneg : 0 ≤ minGain)
    (consistent : state.Consistent g) :
    Visited g state.comm ((List.finRange n).foldl (g.visit minGain) (state, false)) :=
  List.foldlRecOn (motive := Visited g state.comm) _ _ ⟨consistent, fun _ within =>
    within, .inl ⟨rfl, rfl⟩⟩
    fun _ visited _ _ => visited.visit sound positive nonneg

/-- What local moving makes of a partition: one that is worth no less and spans no more. -/
structure Improves (g : WGraph n) (was comm : Fin n → Fin n) : Prop where
  worth : modularity g.entry was ≤ modularity g.entry comm
  within : ∀ {X : Type} {p : Fin n → X}, g.Keyed (fun i j => p i = p j) → Within p was → Within p comm

/-- **The rounds end**, after as many as there are better partitions at most. -/
theorem rounds_end (sound : g.Sound) (positive : 0 < volume g.entry) (nonneg : 0 ≤ minGain)
    (consistent : state.Consistent g) (enough : above (modularity g.entry) state.comm < fuel) :
    ∃ comm, g.rounds minGain fuel state = some comm ∧ Improves g state.comm comm := by
  induction fuel generalizing state with
  | zero => exact absurd enough (Nat.not_lt_zero _)
  | succ fuel ih =>
    unfold WGraph.rounds
    have visited := visited_round sound positive nonneg consistent
    generalize (List.finRange n).foldl (g.visit minGain) (state, false) = run at visited
    obtain ⟨after, improved⟩ := run
    dsimp only
    obtain ⟨same, stopped⟩ | ⟨moved, higher⟩ := visited.rises
    · have stopped : improved = false := stopped
      exact ⟨after.comm, by rw [stopped]; rfl, (congrArg (modularity g.entry)
        same).ge, visited.within⟩
    · have fewer : above (modularity g.entry) after.comm < above (modularity g.entry) state.comm :=
        above_lt higher
      obtain ⟨comm, ended, improves⟩ := ih visited.consistent
        (fewer.trans_le (Nat.le_of_lt_succ enough))
      refine ⟨comm, by rw [if_pos moved, ended], higher.le.trans improves.worth, fun keyed within =>
        ?_⟩
      exact improves.within keyed (visited.within keyed within)

/-- Rounds to spare change nothing. -/
theorem rounds_mono {fuel' : ℕ} (le : fuel ≤ fuel')
    (ended : g.rounds minGain fuel state = some comm) :
    g.rounds minGain fuel' state = some comm := by
  induction fuel generalizing state fuel' with
  | zero => cases ended
  | succ fuel ih =>
    obtain ⟨fuel', rfl⟩ : ∃ more, fuel' = more + 1 := ⟨fuel' - 1, by omega⟩
    unfold WGraph.rounds at ended ⊢
    dsimp only at ended ⊢
    split_ifs at ended ⊢
    · exact ih (by omega) ended
    · exact ended

/-! ### Numbering -/

/-- Numbers given to some labels, each another, counting up. -/
structure Numbering (map : ExtTreeMap (Fin n) ℕ compare) : Prop where
  below : ∀ (a : Fin n) v, map[a]? = some v → v < map.size
  apart : ∀ (a b : Fin n) v, map[a]? = some v → map[b]? = some v → a = b

theorem size_insert_fresh (fresh : map[l]? = none) :
    (map.insert l map.size).size = map.size + 1 := by
  rw [ExtTreeMap.size_insert, if_neg]
  intro inside
  obtain ⟨v, found⟩ := Option.isSome_iff_exists.mp (ExtTreeMap.mem_iff_isSome_getElem?.mp inside)
  cases fresh.symm.trans found

theorem Numbering.insert (numbering : Numbering map) (fresh : map[l]? = none) :
    Numbering (map.insert l map.size) := by
  have cases : ∀ {a : Fin n} {v}, (map.insert l map.size)[a]? = some v →
      (a = l ∧ v = map.size) ∨ map[a]? = some v := by
    intro a v found
    rw [ExtTreeMap.getElem?_insert] at found
    split_ifs at found with same
    · exact .inl ⟨(LawfulEqCmp.eq_of_compare same).symm, (Option.some.inj found).symm⟩
    · exact .inr found
  refine ⟨fun a v found => ?_, fun a b v left right => ?_⟩
  · rw [size_insert_fresh fresh]
    obtain ⟨-, rfl⟩ | before := cases found
    · exact Nat.lt_succ_self _
    · exact (numbering.below a v before).trans (Nat.lt_succ_self _)
  · obtain ⟨mine, last⟩ | before := cases left
    · obtain ⟨mine', -⟩ | before' := cases right
      · rw [mine, mine']
      · exact absurd (numbering.below b v before') (last ▸ lt_irrefl _)
    · obtain ⟨-, last⟩ | before' := cases right
      · exact absurd (numbering.below a v before) (last ▸ lt_irrefl _)
      · exact numbering.apart a b v before before'

/-- **Labels are numbered alike if they are the same**, below the number of labels. -/
theorem renumberFrom_eq_map {labels : List (Fin n)} (numbering : Numbering map) :
    ∃ number : Fin n → ℕ, renumberFrom map labels = labels.map number ∧
      (∀ a v, map[a]? = some v → number a = v) ∧
      (∀ a b, (a ∈ map ∨ a ∈ labels) → (b ∈ map ∨ b ∈ labels) → number a = number b → a = b) ∧
      ∀ a ∈ labels, number a < map.size + labels.length := by
  induction labels generalizing map with
  | nil =>
    have agrees : ∀ (a : Fin n) v, map[a]? = some v → map[a]?.getD 0 = v := fun a v found => by
      rw [found]
      rfl
    refine ⟨fun a => map[a]?.getD 0, rfl, agrees, fun a b left right same => ?_, by simp⟩
    have left := left.resolve_right List.not_mem_nil
    have right := right.resolve_right List.not_mem_nil
    obtain ⟨v, found⟩ := Option.isSome_iff_exists.mp (ExtTreeMap.mem_iff_isSome_getElem?.mp left)
    obtain ⟨w, found'⟩ := Option.isSome_iff_exists.mp (ExtTreeMap.mem_iff_isSome_getElem?.mp right)
    obtain rfl : v = w := (agrees a v found).symm.trans (same.trans (agrees b w found'))
    exact numbering.apart a b v found found'
  | cons l labels ih =>
    unfold renumberFrom
    cases found : map[l]? with
    | some id =>
      obtain ⟨number, eq, agrees, apart, bound⟩ := ih numbering
      have seen : ∀ {a}, (a ∈ map ∨ a ∈ l :: labels) → (a ∈ map ∨ a ∈ labels) := by
        rintro a (inside | inside)
        · exact .inl inside
        · obtain rfl | inside := List.mem_cons.mp inside
          · exact .inl (ExtTreeMap.mem_iff_isSome_getElem?.mpr (Option.isSome_of_eq_some found))
          · exact .inr inside
      refine ⟨number, by rw [eq, List.map_cons, agrees l id found], agrees,
        fun a b left right => apart a b (seen left) (seen right), fun a inside => ?_⟩
      rw [List.length_cons]
      obtain rfl | inside := List.mem_cons.mp inside
      · rw [agrees a id found]
        have := numbering.below a id found
        omega
      · have := bound a inside
        omega
    | none =>
      obtain ⟨number, eq, agrees, apart, bound⟩ := ih (numbering.insert found)
      have own : number l = map.size := agrees l _ ExtTreeMap.getElem?_insert_self
      have seen : ∀ {a}, (a ∈ map ∨ a ∈ l :: labels) → (a ∈ map.insert l map.size ∨ a ∈ labels) := by
        rintro a (inside | inside)
        · exact .inl (ExtTreeMap.mem_insert.mpr (.inr inside))
        · obtain rfl | inside := List.mem_cons.mp inside
          · exact .inl ExtTreeMap.mem_insert_self
          · exact .inr inside
      refine ⟨number, by rw [eq, List.map_cons, own], fun a v before => agrees a v ?_,
        fun a b left right => apart a b (seen left) (seen right), fun a inside => ?_⟩
      · rw [ExtTreeMap.getElem?_insert, if_neg, before]
        intro same
        obtain rfl := LawfulEqCmp.eq_of_compare same
        cases found.symm.trans before
      · rw [List.length_cons]
        obtain rfl | inside := List.mem_cons.mp inside
        · omega
        · have := bound a inside
          rw [size_insert_fresh found] at this
          omega

/-- **Numbering keeps the communities**, and there are no more numbers than nodes. -/
theorem renumber_spec (comm : Fin n → Fin n) :
    (∀ i j, renumber comm i = renumber comm j ↔ comm i = comm j) ∧ ∀ i, renumber comm i < n := by
  have start : Numbering (∅ : ExtTreeMap (Fin n) ℕ compare) := by
    refine ⟨fun a v found => ?_, fun a b v found => ?_⟩
    all_goals cases ExtTreeMap.getElem?_empty.symm.trans found
  obtain ⟨number, eq, -, apart, bound⟩ : ∃ number : Fin n → ℕ,
      renumberFrom ∅ (List.ofFn comm) = (List.ofFn comm).map number ∧ _ := renumberFrom_eq_map start
  have inside : ∀ i, comm i ∈ List.ofFn comm := fun i => List.mem_ofFn.mpr ⟨i, rfl⟩
  have each : ∀ i, renumber comm i = number (comm i) := by
    intro i
    have there := List.getElem_of_eq eq (i := i)
      (by rw [length_renumberFrom, List.length_ofFn]; exact i.isLt)
    rw [List.getElem_map, List.getElem_ofFn] at there
    exact there
  refine ⟨fun i j => ?_, fun i => ?_⟩
  · rw [each, each]
    exact ⟨apart _ _ (.inr (inside i)) (.inr (inside j)), congrArg number⟩
  · have := bound _ (inside i)
    rw [List.length_ofFn, ExtTreeMap.size_empty, zero_add] at this
    exact each i ▸ this

/-! ### One level -/

/-- What one level makes of the nodes: communities that are worth no less than the single nodes and
that no edge-closed class parts, with no more numbers than nodes. -/
structure Improved (g : WGraph n) (membership : Fin n → ℕ) : Prop where
  worth : modularity g.entry (id : Fin n → Fin n) ≤ modularity g.entry membership
  within : ∀ {X : Type} {p : Fin n → X}, g.Keyed (fun i j => p i = p j) →
    ∀ i j, membership i = membership j → p i = p j
  small : ∀ i, membership i < n

/-- **One level ends**, whatever the rounds to spare. -/
theorem oneLevel_ends (sound : g.Sound) (nonneg : 0 ≤ minGain) :
    ∃ membership, (∀ fuel, n ^ n ≤ fuel → g.oneLevel minGain fuel = some membership) ∧
    Improved g membership := by
  by_cases edgeless : 2 * g.totalWeight = 0
  · refine ⟨fun i => i, fun fuel _ => if_pos edgeless, ?_, fun _ i j same => ?_, fun i => i.isLt⟩
    · exact (modularity_congr fun i j => Fin.ext_iff).le
    · rw [Fin.ext same]
  · have positive : 0 < volume g.entry := by
      rw [totalWeight_eq] at edgeless
      have nonneg := Finset.sum_nonneg fun i (_ : i ∈ Finset.univ) =>
        Finset.sum_nonneg fun j (_ : j ∈ Finset.univ) =>
        sound.nonneg i j
      exact lt_of_le_of_ne nonneg (Ne.symm edgeless)
    have consistent : Moving.Consistent g ⟨fun i => i, g.degree⟩ := by
      intro c
      simp [degree_eq, Finset.filter_eq']
    have card : Fintype.card (Fin n → Fin n) = n ^ n := by simp
    obtain ⟨comm, ended, improves⟩ := rounds_end sound positive nonneg consistent
      (card ▸ above_lt_card (modularity g.entry) fun i => i)
    obtain ⟨same, small⟩ := renumber_spec comm
    refine ⟨renumber comm, fun fuel enough => ?_, ?_, fun keyed i j together => ?_, small⟩
    · rw [WGraph.oneLevel, if_neg edgeless, rounds_mono enough ended]
      rfl
    · exact improves.worth.trans (modularity_congr fun i j => (same i j).symm).le
    · exact improves.within keyed (fun i j equal => congrArg _ equal) i j ((same i j).mp together)

end DrStrange.Compute
