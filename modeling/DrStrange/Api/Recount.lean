/-
**The summary counters equal a recount.**

`count` scans a plane and finds its census (`Sound.count`), and so does the stored row, if the delta
of every transaction is what the transaction has changed: the difference between the census and the
delta, the drift, is the same after a method as before it (`WriteOp.balances`).

One thing moves the drift. A type change counts before it writes, and a bulk load that merges kept
nodes counts after it has merged them, so either is out if the dictionary it needs a name from has
run over.
-/

import DrStrange.Api.Isolation
import DrStrange.Graph.Census

namespace DrStrange.Graph

open Std Lib ExtTreeMap

variable {base tables after : Tables} {plane other : PlaneId} {millis change : ℤ}
  {nodes edges : Set ℕ} {α β : Type} {id : ℕ} {host : Host} {db : Database}
  {counts : ExtTreeMap String ℕ compare} {changes : ExtTreeMap String ℤ compare} {name : String}
  {delta : CounterDelta} {names : List String}

/-! ### Counters that show a census -/

/-- Named counters with these numbers, and none at zero. -/
structure Tallies (counts : ExtTreeMap String ℕ compare) (numbers : String → ℤ) : Prop where
  shows : ∀ name, (counts.getD name 0 : ℤ) = numbers name
  positive : ∀ (name : String) (count : ℕ), counts[name]? = some count → 0 < count

/-- The counters of a plane with the numbers of a census. -/
structure PlaneCounters.Shows (counters : PlaneCounters) (census : Census) : Prop where
  nodes : (counters.nodes : ℤ) = census.1
  edges : (counters.edges : ℤ) = census.2.1
  labels : Tallies counters.labels census.2.2.1
  edgeTypes : Tallies counters.edgeTypes census.2.2.2

theorem Tallies.zero : Tallies ∅ 0 := ⟨fun _ => by simp, fun _ _ found => by simp at found⟩

theorem PlaneCounters.Shows.zero : PlaneCounters.zero.Shows 0 := ⟨rfl, rfl, .zero, .zero⟩

theorem Tallies.unique {counts' : ExtTreeMap String ℕ compare} {numbers : String → ℤ}
    (one : Tallies counts numbers) (two : Tallies counts' numbers) : counts = counts' := by
  refine ext_getElem? fun name => ?_
  have same : counts.getD name 0 = counts'.getD name 0 := by
    exact_mod_cast (one.shows name).trans (two.shows name).symm
  rw [getD_eq_getD_getElem?, getD_eq_getD_getElem?] at same
  have positive := one.positive name
  have positive' := two.positive name
  cases found : counts[name]? with
  | none =>
    cases found' : counts'[name]? with
    | none => rfl
    | some count => simp_all
  | some count =>
    cases found' : counts'[name]? with
    | none => simp_all
    | some count' => simp_all

theorem PlaneCounters.Shows.unique {counters counters' : PlaneCounters} {census : Census}
    (one : counters.Shows census) (two : counters'.Shows census) : counters = counters' := by
  have nodes : counters.nodes = counters'.nodes := by exact_mod_cast one.nodes.trans two.nodes.symm
  have edges : counters.edges = counters'.edges := by exact_mod_cast one.edges.trans two.edges.symm
  cases counters
  cases counters'
  simp only [PlaneCounters.mk.injEq]
  exact ⟨nodes, edges, one.labels.unique two.labels, one.edgeTypes.unique two.edgeTypes⟩

/-! ### The recount -/

theorem Tallies.bump {counts : ExtTreeMap String ℕ compare} {numbers : String → ℤ} {name : String}
    (tallies : Tallies counts numbers) :
    Tallies (counts.insert name (counts.getD name 0 + 1)) (numbers + Pi.single name 1) := by
  refine ⟨fun other => ?_, fun other count found => ?_⟩
  · rw [getD_insert, Pi.add_apply, ← tallies.shows other]
    by_cases same : name = other
    · subst same
      simp
    · simp [same, Ne.symm same]
  · rw [getElem?_insert] at found
    split at found
    · cases found
      omega
    · exact tallies.positive other count found

theorem Tallies.bumpAll {numbers : String → ℤ} (tallies : Tallies counts numbers) :
    Tallies (names.foldl (fun counts name => counts.insert name (counts.getD name 0 + 1)) counts)
      (numbers + fun name => (names.count name : ℤ)) := by
  induction names generalizing counts numbers with
  | nil => simpa [← Pi.zero_def] using tallies
  | cons name names ih =>
    have rest := ih (@Tallies.bump _ _ name tallies)
    have total : numbers + Pi.single name 1 + (fun other => (names.count other : ℤ)) =
        numbers + fun other => ((name :: names).count other : ℤ) := by
      funext other
      by_cases same : other = name
      · subst same
        simp
        ring
      · simp [same, Ne.symm same]
    rw [List.foldl_cons, ← total]
    exact rest

theorem Sound.countNodes (sound : Sound nodes edges tables) {ids : List NodeId}
    {counters : PlaneCounters} {census : Census} (shows : counters.Shows census) :
    ∃ counted, countNodes tables plane ids counters = .ok counted ∧
      counted.Shows (census + (ids.map (tables.nodeCensus plane)).sum) := by
  induction ids generalizing counters census with
  | nil => exact ⟨counters, rfl, by simpa using shows⟩
  | cons id ids ih =>
    cases stored : tables.nodes[(plane, id)]? with
    | none =>
      obtain ⟨counted, ran, seen⟩ := ih shows
      refine ⟨counted, ?_, ?_⟩
      · rw [Graph.countNodes, getNode_absent stored]
        exact ran
      · rwa [List.map_cons, List.sum_cons, Tables.nodeCensus, stored, Option.elim_none, zero_add]
    | some row =>
      have bumped : PlaneCounters.Shows { counters with
          nodes := counters.nodes + 1
          labels := (tables.labelsOf row).foldl (fun labels label =>
            labels.insert label (labels.getD label 0 + 1)) counters.labels }
          (census + Census.ofNode (tables.labelsOf row)) :=
        ⟨by simp [shows.nodes, Census.ofNode], by simp [shows.edges, Census.ofNode],
          shows.labels.bumpAll, by simpa [Census.ofNode] using shows.edgeTypes⟩
      obtain ⟨counted, ran, seen⟩ := ih bumped
      refine ⟨counted, ?_, ?_⟩
      · rw [Graph.countNodes, sound.getNode stored]
        exact ran
      · rwa [List.map_cons, List.sum_cons, Tables.nodeCensus, stored, Option.elim_some, ← add_assoc]

theorem Sound.countEdges (sound : Sound nodes edges tables) {ids : List EdgeId}
    {counters : PlaneCounters} {census : Census} (shows : counters.Shows census) :
    ∃ counted, countEdges tables plane ids counters = .ok counted ∧
      counted.Shows (census + (ids.map (tables.edgeCensus plane)).sum) := by
  induction ids generalizing counters census with
  | nil => exact ⟨counters, rfl, by simpa using shows⟩
  | cons id ids ih =>
    cases stored : tables.edges[(plane, id)]? with
    | none =>
      obtain ⟨counted, ran, seen⟩ := ih shows
      refine ⟨counted, ?_, ?_⟩
      · rw [Graph.countEdges, getEdge_absent stored]
        exact ran
      · rwa [List.map_cons, List.sum_cons, Tables.edgeCensus, stored, Option.elim_none, zero_add]
    | some row =>
      obtain ⟨ty, named, read⟩ := sound.getEdge stored
      have bumped : PlaneCounters.Shows { counters with
          edges := counters.edges + 1
          edgeTypes := counters.edgeTypes.insert ty (counters.edgeTypes.getD ty 0 + 1) }
          (census + Census.ofEdge ty) :=
        ⟨by simp [shows.nodes, Census.ofEdge], by simp [shows.edges, Census.ofEdge],
          by simpa [Census.ofEdge] using shows.labels, shows.edgeTypes.bump⟩
      obtain ⟨counted, ran, seen⟩ := ih bumped
      refine ⟨counted, ?_, ?_⟩
      · rw [Graph.countEdges, read]
        exact ran
      · rwa [List.map_cons, List.sum_cons, Tables.edgeCensus, stored, Option.elim_some,
          Tables.ofEdge, named, Option.elim_some, ← add_assoc]

/-- The records of a plane, one after the other, are all that is counted. -/
theorem census_eq_sum : tables.census plane =
    ((scanAll tables plane).map (tables.nodeCensus plane)).sum +
      ((scanEdges tables plane).map (tables.edgeCensus plane)).sum := by
  have zero : ∀ (key : NodeKey) (row : NodeRow), decide (key.1 = plane) = false →
      tables.nodeWeight plane key row = 0 := by
    intro key row off
    rw [Tables.nodeWeight, if_neg (of_decide_eq_false off)]
  have zero' : ∀ (key : EdgeKey) (row : EdgeRow), decide (key.1 = plane) = false →
      tables.edgeWeight plane key row = 0 := by
    intro key row off
    rw [Tables.edgeWeight, if_neg (of_decide_eq_false off)]
  rw [Tables.census, tally_filter _ zero, tally_filter _ zero', scanAll, scanEdges,
    ← map_fst_toList_eq_keys, ← map_fst_toList_eq_keys]
  simp only [List.filter_map, List.map_map]
  congr 2
  · refine List.map_congr_left fun row member => ?_
    obtain ⟨inside, own⟩ := List.mem_filter.mp member
    obtain ⟨⟨p, id⟩, value⟩ := row
    obtain rfl : p = plane := of_decide_eq_true own
    have found := mem_toList_iff_getElem?_eq_some.mp inside
    simp [Tables.nodeWeight, Tables.nodeCensus, found]
  · refine List.map_congr_left fun row member => ?_
    obtain ⟨inside, own⟩ := List.mem_filter.mp member
    obtain ⟨⟨p, id⟩, value⟩ := row
    obtain rfl : p = plane := of_decide_eq_true own
    have found := mem_toList_iff_getElem?_eq_some.mp inside
    simp [Tables.edgeWeight, Tables.edgeCensus, found]

/-- **What `count` finds** in a sound store. -/
theorem Sound.count (sound : Sound nodes edges tables) :
    ∃ counted, count tables plane = .ok counted ∧ counted.Shows (tables.census plane) := by
  obtain ⟨first, ran, shows⟩ := @Sound.countNodes _ plane _ _ sound (scanAll tables plane) _ _ .zero
  obtain ⟨counted, ran', shows'⟩ :=
    @Sound.countEdges _ plane _ _ sound (scanEdges tables plane) _ _ shows
  refine ⟨counted, ?_, ?_⟩
  · rw [Graph.count, ran]
    exact ran'
  · rwa [zero_add, ← census_eq_sum] at shows'

/-! ### What a delta adds up to -/

/-- The changes to named counters, by name. -/
def numbers (changes : ExtTreeMap String ℤ compare) (name : String) : ℤ := changes.getD name 0

def CounterDelta.census (delta : CounterDelta) : Census :=
  (delta.nodes, delta.edges, numbers delta.labels, numbers delta.edgeTypes)

theorem CounterDelta.census_default : CounterDelta.default.census = 0 := by
  simp [CounterDelta.census, CounterDelta.default, numbers, Prod.ext_iff, funext_iff]

theorem numbers_shiftName :
    numbers (shiftName change changes name) = numbers changes + Pi.single name change := by
  funext other
  rw [Pi.add_apply, numbers, shiftName, getD_insert, numbers]
  by_cases same : name = other
  · subst same
    simp
  · simp [same, Ne.symm same]

theorem numbers_shiftNames :
    numbers (names.foldl (shiftName change) changes) =
      numbers changes + change • fun name => (names.count name : ℤ) := by
  induction names generalizing changes with
  | nil => simp [← Pi.zero_def]
  | cons name names ih =>
    rw [List.foldl_cons, ih, numbers_shiftName]
    funext other
    by_cases same : other = name
    · subst same
      simp
      ring
    · simp [same, Ne.symm same]

/-- A delta without an entry but zeros changes nothing. -/
theorem CounterDelta.census_isEmpty (empty : delta.isEmpty = true) : delta.census = 0 := by
  have zero : ∀ {changes : ExtTreeMap String ℤ compare},
      changes.toList.all (fun row => row.2 = 0) = true → numbers changes = 0 := by
    intro changes all
    funext name
    rw [numbers, getD_eq_getD_getElem?]
    cases found : changes[name]? with
    | none => rfl
    | some change =>
      exact of_decide_eq_true (List.all_eq_true.mp all _ (mem_toList_iff_getElem?_eq_some.mpr found))
  simp only [isEmpty, Bool.and_eq_true, decide_eq_true_eq] at empty
  obtain ⟨⟨⟨nodes, edges⟩, labels⟩, types⟩ := empty
  rw [census, nodes, edges, zero (by simpa using labels), zero (by simpa using types)]
  rfl

section Delta

variable {delta : CounterDelta} {labels old new : List String} {ty ty' : String}

theorem CounterDelta.census_nodeAdded :
    (delta.nodeAdded labels).census = delta.census + Census.ofNode labels := by
  simp [CounterDelta.census, CounterDelta.nodeAdded, Census.ofNode, numbers_shiftNames]

theorem CounterDelta.census_nodeRemoved :
    (delta.nodeRemoved labels).census = delta.census - Census.ofNode labels := by
  simp [CounterDelta.census, CounterDelta.nodeRemoved, Census.ofNode, numbers_shiftNames,
    sub_eq_add_neg]

theorem CounterDelta.census_edgeAdded :
    (delta.edgeAdded ty).census = delta.census + Census.ofEdge ty := by
  simp [CounterDelta.census, CounterDelta.edgeAdded, Census.ofEdge, numbers_shiftName]

theorem CounterDelta.census_edgeRemoved :
    (delta.edgeRemoved ty).census = delta.census - Census.ofEdge ty := by
  simp [CounterDelta.census, CounterDelta.edgeRemoved, Census.ofEdge, numbers_shiftName,
    sub_eq_add_neg, Pi.single_neg]

theorem CounterDelta.census_relabelled :
    (delta.relabelled old new).census =
      delta.census - Census.ofNode old + Census.ofNode new := by
  simp [CounterDelta.census, CounterDelta.relabelled, Census.ofNode, numbers_shiftNames,
    sub_eq_add_neg]

theorem CounterDelta.census_retyped :
    (delta.retyped ty ty').census = delta.census - Census.ofEdge ty + Census.ofEdge ty' := by
  simp [CounterDelta.census, CounterDelta.retyped, Census.ofEdge, numbers_shiftName,
    sub_eq_add_neg, Pi.single_neg]

end Delta

/-! ### A delta folded into a row -/

/-- Changes made one after the other, seen at one name. -/
theorem getD_shiftAll {rows : List (String × ℤ)} :
    (rows.foldl (fun counts row =>
      counts.insert row.1 (shiftCount (counts.getD row.1 0) row.2)) counts).getD name 0 =
      ((rows.filter fun row => row.1 = name).map Prod.snd).foldl shiftCount (counts.getD name 0) := by
  induction rows generalizing counts with
  | nil => rfl
  | cons row rows ih =>
    obtain ⟨own, change⟩ := row
    rw [List.foldl_cons, ih, getD_insert]
    by_cases same : own = name
    · subst same
      simp
    · simp [same]

/-- The row of a name is all there is under it. -/
theorem filter_toList {κ ν : Type} {cmp : κ → κ → Ordering} [TransCmp cmp] [LawfulEqCmp cmp]
    [DecidableEq κ] (map : ExtTreeMap κ ν cmp) (key : κ) :
    map.toList.filter (fun row => row.1 = key) =
      (map[key]?).toList.map fun value => (key, value) := by
  have rows := (toList_perm map key).filter fun row => row.1 = key
  have own : ((map[key]?).toList.map fun value => (key, value)).filter (fun row => row.1 = key) =
      (map[key]?).toList.map fun value => (key, value) :=
    List.filter_eq_self.mpr fun row member => by
      obtain ⟨value, -, rfl⟩ := List.mem_map.mp member
      exact decide_eq_true rfl
  rw [List.filter_append, own, List.filter_filter] at rows
  simp only [ne_eq, decide_not, Bool.and_not_self, List.filter_false, List.append_nil] at rows
  cases found : map[key]? with
  | none => exact (found ▸ rows).eq_nil
  | some value =>
    rw [found] at rows
    exact List.perm_singleton.mp rows

theorem getD_shiftCounts :
    (shiftCounts counts changes).getD name 0 =
      shiftCount (counts.getD name 0) (numbers changes name) := by
  have shifted : (changes.foldl (fun counts name change =>
      counts.insert name (shiftCount (counts.getD name 0) change)) counts).getD name 0 =
        shiftCount (counts.getD name 0) (numbers changes name) := by
    rw [foldl_eq_foldl_toList, getD_shiftAll, filter_toList, numbers,
      @getD_eq_getD_getElem? _ _ _ changes]
    cases changes[name]? with
    | none => simp [shiftCount]
    | some change => rfl
  rw [← shifted, shiftCounts, getD_eq_getD_getElem?, getD_eq_getD_getElem?, getElem?_filter]
  cases (changes.foldl (fun counts name change =>
    counts.insert name (shiftCount (counts.getD name 0) change)) counts)[name]? with
  | none => rfl
  | some count => by_cases zero : count = 0 <;> simp [zero, Option.filter, Nat.pos_iff_ne_zero]

theorem Tallies.shift {before : String → ℤ} (tallies : Tallies counts before)
    (enough : 0 ≤ before + numbers changes) :
    Tallies (shiftCounts counts changes) (before + numbers changes) := by
  refine ⟨fun name => ?_, fun name count found => ?_⟩
  · have room : 0 ≤ before name + numbers changes name := enough name
    rw [getD_shiftCounts, shiftCount, tallies.shows name]
    exact Int.toNat_of_nonneg room
  · rw [shiftCounts, getElem?_filter, Option.pfilter_eq_some_iff] at found
    obtain ⟨-, positive⟩ := found
    exact of_decide_eq_true positive

/-- A delta is folded into a row exactly, if nothing drops below zero. -/
theorem PlaneCounters.Shows.apply {stored : PlaneCounters} {census : Census}
    (shows : stored.Shows census) (enough : 0 ≤ census + delta.census) :
    (delta.apply stored).Shows (census + delta.census) := by
  obtain ⟨nodes, edges, labels, types⟩ := enough
  refine ⟨?_, ?_, shows.labels.shift labels, shows.edgeTypes.shift types⟩
  · show ((shiftCount stored.nodes delta.nodes : ℕ) : ℤ) = census.1 + delta.nodes
    rw [shiftCount, shows.nodes]
    exact Int.toNat_of_nonneg nodes
  · show ((shiftCount stored.edges delta.edges : ℕ) : ℤ) = census.2.1 + delta.edges
    rw [shiftCount, shows.edges]
    exact Int.toNat_of_nonneg edges

end DrStrange.Graph
