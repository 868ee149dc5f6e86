/-
**The rows of a plan end at nodes that are there.**

A scan and a seek start at nodes of the plane, a hop lands on an end of an edge, and the other steps
only drop or reorder rows. So if the rows of the source are live, all rows of the plan are.
-/

import DrStrange.Compute.Exec
import DrStrange.Lib.Fallible

namespace DrStrange.Compute

open Std DrStrange.Graph Lib

variable {tables : Tables} {plane : PlaneId} {machine : Machine} {vector : VectorSearch}
  {keyword : KeywordSearch}
  {items : List Item} {ty : Option String} {reader : GraphReader} {rows out frontier : List Row}
  {query : List UInt32} {need : BindingNeed} {property : String} {metric : Metric} {dir : Dir}
  {seen : List NodeId} {id : NodeId} {row : Row} {k : ℕ}

/-- Every row of a stream ends at a node of the plane. -/
def Live (tables : Tables) (plane : PlaneId) (items : List Item) : Prop :=
  ∀ row : Row, Except.ok row ∈ items → (plane, row.head) ∈ tables.nodes

theorem Live.subset {fewer : List Item} (live : Live tables plane items) (subset : fewer ⊆ items) :
    Live tables plane fewer :=
  fun row member => live row (subset member)

theorem Live.flatMap {f : Item → List Item} (live : Live tables plane items)
    (each : ∀ item, (∀ row, item = .ok row → (plane, row.head) ∈ tables.nodes) →
      Live tables plane (f item)) : Live tables plane (items.flatMap f) := by
  intro row member
  obtain ⟨item, here, inside⟩ := List.mem_flatMap.mp member
  exact each item (fun row same => live row (same ▸ here)) row inside

theorem Live.map_ok :
    Live tables plane (rows.map .ok) ↔ ∀ row ∈ rows, (plane, row.head) ∈ tables.nodes := by
  constructor
  · exact fun live row member => live row (List.mem_map_of_mem member)
  · intro each row member
    obtain ⟨other, here, same⟩ := List.mem_map.mp member
    exact Except.ok.inj same ▸ each other here

/-- A hop lands on a node. -/
theorem neighbors_live (exact : Exact tables) {node : NodeId} {n : Neighbor}
    (member : n ∈ neighbors tables plane node dir ty) : (plane, n.node) ∈ tables.nodes := by
  rw [neighbors_eq] at member
  obtain ⟨side, -, inside⟩ := List.mem_flatMap.mp member
  obtain ⟨row, found, -, far, -⟩ := (mem_sideHops exact).mp inside
  obtain ⟨src, dst⟩ := exact.endpoints plane n.edge row found
  rw [← far]
  cases side with
  | fwd => exact dst
  | rev => exact src

theorem drain_ok (drained : drain items = .ok rows) : items = rows.map .ok := by
  induction items generalizing rows with
  | nil =>
    obtain rfl := Except.ok.inj drained
    rfl
  | cons item items ih =>
    cases item with
    | error e => exact nomatch drained
    | ok row =>
      obtain ⟨rest, inner, same⟩ := bind_eq_ok.mp drained
      obtain rfl := Except.ok.inj same
      rw [List.map_cons, ih inner]

/-! ### Steps -/

section Steps

variable (exact : Exact tables) {item : Item}
include exact

theorem expandOne_live :
    Live tables plane (expandOne (planeReader tables plane vector keyword) dir ty item) := by
  intro row member
  cases item with
  | error e => simp [expandOne] at member
  | ok start =>
    obtain ⟨n, inside, same⟩ := List.mem_map.mp member
    obtain rfl := Except.ok.inj same
    exact neighbors_live exact inside

/-- A walk from a node that is there ends at one. -/
theorem along_live {start : Row} {walk : List ℕ} {hops : List Neighbor}
    (taken : Walk (planeReader tables plane vector keyword) dir ty start.head walk hops)
    (here : (plane, start.head) ∈ tables.nodes) :
    (plane, (start.along hops).head) ∈ tables.nodes := by
  induction hops generalizing start walk with
  | nil => exact here
  | cons n hops ih =>
    cases taken with
    | cons read position rest =>
      obtain rfl := Except.ok.inj read
      have landed : (plane, (start.step n.edge n.node).head) ∈ tables.nodes :=
        neighbors_live exact (List.mem_of_getElem? position)
      exact ih rest landed

theorem expandVar_live {min max : ℕ}
    (here : ∀ row, item = .ok row → (plane, row.head) ∈ tables.nodes) :
    Live tables plane
      (expandVar (planeReader tables plane vector keyword) dir ty min max item) := by
  intro row member
  cases item with
  | error e => simp [expandVar] at member
  | ok start =>
    rw [expandVar, ExpandVar.drain_eq] at member
    simp only [ExpandVar.new, Option.toList_none, List.map_nil, List.nil_append, stackItems,
      List.flatMap_cons, List.flatMap_nil, List.append_nil] at member
    obtain ⟨⟨walk, -⟩, inside, rfl⟩ := List.mem_map.mp member
    obtain ⟨hops, taken, -, -, rfl⟩ := mem_visits_ok.mp inside
    exact along_live exact taken (here start rfl)

theorem beamCandidates_live {out : List (UInt32 × Row)}
    (ran : beamCandidates machine (planeReader tables plane vector keyword) dir ty property query
      metric row = .ok out) : ∀ candidate ∈ out, (plane, candidate.2.head) ∈ tables.nodes := by
  obtain ⟨ns, read, mapped⟩ := bind_eq_ok.mp ran
  obtain rfl := Except.ok.inj read
  refine mapM_forall mapped fun n member candidate made => ?_
  obtain ⟨vector, -, same⟩ := bind_eq_ok.mp made
  obtain rfl := Except.ok.inj same
  exact neighbors_live exact member

theorem expandBeam_live {width depth : ℕ}
    (ran : expandBeam machine (planeReader tables plane vector keyword) dir ty property query metric
      width depth frontier = .ok out) : ∀ row ∈ out, (plane, row.head) ∈ tables.nodes := by
  induction depth generalizing frontier out with
  | zero =>
    obtain rfl := Except.ok.inj ran
    exact nofun
  | succ depth ih =>
    obtain ⟨found, mapped, rest⟩ := bind_eq_ok.mp ran
    have live : ∀ candidate ∈ found.flatten, (plane, candidate.2.head) ∈ tables.nodes := by
      intro candidate member
      obtain ⟨own, inside, here⟩ := List.mem_flatten.mp member
      exact mapM_forall mapped (fun row _ out made => beamCandidates_live exact made) own inside
        candidate here
    dsimp only at rest
    split at rest
    · obtain rfl := Except.ok.inj rest
      exact nofun
    · obtain ⟨further, inner, same⟩ := bind_eq_ok.mp rest
      obtain rfl := Except.ok.inj same
      intro row member
      rcases List.mem_append.mp member with best | later
      · obtain ⟨candidate, inside, rfl⟩ := List.mem_map.mp best
        exact live candidate (List.mem_mergeSort.mp (List.mem_of_mem_take inside))
      · exact ih inner row later

end Steps

theorem filterOne_subset {pred : Expr}
    (member : .ok row ∈ items.filterMap (filterOne machine reader pred need)) :
    .ok row ∈ items := by
  obtain ⟨item, here, kept⟩ := List.mem_filterMap.mp member
  cases item with
  | error e => simp [filterOne] at kept
  | ok own =>
    rw [filterOne] at kept
    split at kept
    · simp at kept
    · exact Except.ok.inj (Option.some.inj kept) ▸ here
    · simp at kept

theorem distinctRows_subset : distinctRows seen items ⊆ items := by
  induction items generalizing seen with
  | nil => exact fun _ member => member
  | cons item items ih =>
    cases item with
    | error e => exact List.cons_subset_cons _ ih
    | ok row =>
      rw [distinctRows]
      split
      · exact fun _ member => List.mem_cons_of_mem _ (ih member)
      · exact List.cons_subset_cons _ ih

theorem sortRows_subset {keys : List SortKey}
    (sorted : sortRows machine reader keys need items = .ok out) :
    ∀ row ∈ out, Except.ok row ∈ items := by
  obtain ⟨decorated, mapped, same⟩ := bind_eq_ok.mp sorted
  obtain rfl := Except.ok.inj same
  intro row member
  obtain ⟨pair, inside, rfl⟩ := List.mem_map.mp member
  suffices all : ∀ pair ∈ decorated, Except.ok pair.2 ∈ items from
    all pair (List.mem_mergeSort.mp inside)
  refine mapM_forall mapped fun item here pair made => ?_
  obtain ⟨own, same, rest⟩ := bind_eq_ok.mp made
  obtain ⟨values, -, same'⟩ := bind_eq_ok.mp rest
  obtain rfl := Except.ok.inj same'
  exact same ▸ here

theorem firstRows_sublist : (firstRows seen rows).Sublist rows := by
  induction rows generalizing seen with
  | nil => exact .slnil
  | cons row rows ih =>
    rw [firstRows]
    split
    · exact ih.cons row
    · exact ih.cons_cons row

/-- What is ranked is a candidate. -/
theorem vectorTopKRows_subset {candidates : List NodeId}
    (ran : vectorTopKRows machine reader candidates property query metric k = .ok out) :
    ∀ row ∈ out, row.head ∈ candidates := by
  obtain ⟨near, mapped, same⟩ := bind_eq_ok.mp ran
  obtain rfl := Except.ok.inj same
  have known : ∀ found ∈ near, ∀ hit ∈ found, hit.2 ∈ candidates := by
    refine mapM_forall mapped fun id member found made hit here => ?_
    obtain ⟨vector, -, same⟩ := bind_eq_ok.mp made
    obtain rfl := Except.ok.inj same
    obtain ⟨own, -, near⟩ := Option.bind_eq_some_iff.mp here
    rw [Hnsw.near] at near
    split at near
    · exact (Option.some.inj near) ▸ member
    · cases near
  intro row member
  obtain ⟨hit, taken, rfl⟩ := List.mem_map.mp member
  have listed : hit ∈ near.reduceOption :=
    (machine.permHits _).mem_iff.mp (List.mem_mergeSort.mp (List.mem_of_mem_take taken))
  exact known _ (List.reduceOption_mem_iff.mp listed) hit rfl

/-- A ranked node is one of the frontier's. -/
theorem frontierTopK_subset
    (ran : frontierTopK machine reader property query metric k frontier = .ok out) :
    ∀ row ∈ out, row.head ∈ frontier.map Row.head := by
  obtain ⟨ranked, ranks, same⟩ := bind_eq_ok.mp ran
  obtain rfl := Except.ok.inj same
  intro row member
  obtain ⟨scored, inside, rfl⟩ := List.mem_map.mp member
  have listed : scored.head ∈ frontier.map Row.head :=
    (firstRows_sublist.map Row.head).subset (vectorTopKRows_subset ranks scored inside)
  dsimp only
  cases found : (firstRows [] frontier).find? fun row => row.head = scored.head with
  | none => exact listed
  | some own =>
    have same := of_decide_eq_true (List.find?_eq_some_iff_append.mp found).1
    exact same ▸ listed

theorem applyStep_live (exact : Exact tables) {out : List Item} {step : Step}
    (live : Live tables plane items)
    (ran : applyStep machine (planeReader tables plane vector keyword) need items step = .ok out) :
    Live tables plane out := by
  cases step with
  | expand dir ty =>
    obtain rfl := Except.ok.inj ran
    exact live.flatMap fun item _ => expandOne_live exact
  | expandVar dir ty min max =>
    obtain rfl := Except.ok.inj ran
    exact live.flatMap fun item here => expandVar_live exact here
  | filter pred =>
    obtain rfl := Except.ok.inj ran
    exact fun row member => live row (filterOne_subset member)
  | skip n =>
    obtain rfl := Except.ok.inj ran
    exact live.subset (List.drop_subset n items)
  | limit n =>
    obtain rfl := Except.ok.inj ran
    exact live.subset (List.take_subset n items)
  | distinct =>
    obtain rfl := Except.ok.inj ran
    exact live.subset distinctRows_subset
  | sort keys =>
    obtain ⟨rows, sorted, same⟩ := bind_eq_ok.mp ran
    obtain rfl := Except.ok.inj same
    exact Live.map_ok.mpr fun row member => live row (sortRows_subset sorted row member)
  | frontierTopK property query metric k =>
    obtain ⟨frontier, drained, rest⟩ := bind_eq_ok.mp ran
    obtain ⟨rows, ranked, same⟩ := bind_eq_ok.mp rest
    obtain rfl := Except.ok.inj same
    rw [drain_ok drained] at live
    refine Live.map_ok.mpr fun row member => ?_
    obtain ⟨own, here, same⟩ := List.mem_map.mp (frontierTopK_subset ranked row member)
    exact same ▸ Live.map_ok.mp live own here
  | expandBeam dir ty property query metric width depth =>
    obtain ⟨frontier, -, rest⟩ := bind_eq_ok.mp ran
    obtain ⟨rows, beamed, same⟩ := bind_eq_ok.mp rest
    obtain rfl := Except.ok.inj same
    exact Live.map_ok.mpr (expandBeam_live exact beamed)

theorem applySteps_live (exact : Exact tables) {steps : List Step} {out : List Item}
    (live : Live tables plane items)
    (ran : steps.foldlM (applyStep machine (planeReader tables plane vector keyword) need) items =
      .ok out) : Live tables plane out := by
  induction steps generalizing items with
  | nil => exact Except.ok.inj ran ▸ live
  | cons step steps ih =>
    rw [List.foldlM_cons] at ran
    obtain ⟨middle, first, rest⟩ := bind_eq_ok.mp ran
    exact ih (applyStep_live exact live first) rest

/-! ### Sources -/

/-- A label's index lists nodes. -/
theorem scanLabel_live (exact : Exact tables) {label : String}
    (member : id ∈ scanLabel tables plane label) : (plane, id) ∈ tables.nodes := by
  rw [scanLabel] at member
  split at member
  · cases member
  · obtain ⟨⟨p, number, node⟩, inside, rfl⟩ := List.mem_map.mp member
    simp only [List.mem_filter, ExtTreeMap.mem_keys, Bool.and_eq_true, decide_eq_true_eq] at inside
    obtain ⟨held, rfl, -⟩ := inside
    obtain ⟨row, found, -⟩ := (exact.labelIdx p number node).mp held
    exact ExtTreeMap.mem_iff_isSome_getElem?.mpr (by simp [found])

theorem nodeIdByExternalKey_live (exact : Exact tables) {key : String}
    (found : nodeIdByExternalKey tables plane key = some id) : (plane, id) ∈ tables.nodes := by
  obtain ⟨row, stored, -⟩ := (exact.extKeys plane key id).mp found
  exact ExtTreeMap.mem_iff_isSome_getElem?.mpr (by simp [stored])

/-- What a seek finds is what the keys resolve to. -/
theorem seekKeys_eq {keys : List String} :
    seekKeys (planeReader tables plane vector keyword) keys =
      .ok (keys.filterMap (nodeIdByExternalKey tables plane)) := by
  suffices ∀ found, keys.foldlM (fun out key => do
      return out ++ (← (planeReader tables plane vector keyword).nodeIdByKey key).toList) found =
        Except.ok (ε := Error) (found ++ keys.filterMap (nodeIdByExternalKey tables plane)) from
    this []
  intro found
  induction keys generalizing found with
  | nil => rw [List.filterMap_nil, List.append_nil]; rfl
  | cons key keys ih =>
    rw [List.foldlM_cons]
    refine (ih _).trans (congrArg Except.ok ?_)
    rw [List.append_assoc, List.filterMap_cons]
    cases nodeIdByExternalKey tables plane key <;> rfl

/-- The sources that a match compiles to. -/
def Source.Matches : Source → Prop
  | .scanAll | .scanLabel _ | .seekKeys _ => True
  | .seekIds _ | .vectorTopK .. | .keywordTopK .. => False

theorem sourceRows_live (exact : Exact tables) {source : Source} (matched : source.Matches)
    (ran : sourceRows machine (planeReader tables plane vector keyword) source = .ok rows) :
    ∀ row ∈ rows, (plane, row.head) ∈ tables.nodes := by
  cases source with
  | scanAll =>
    obtain rfl := Except.ok.inj ran
    exact List.forall_mem_map.mpr fun id member => mem_scanAll.mp member
  | scanLabel label =>
    obtain rfl := Except.ok.inj ran
    exact List.forall_mem_map.mpr fun id member => scanLabel_live exact member
  | seekKeys keys =>
    rw [sourceRows, seekKeys_eq] at ran
    obtain rfl := Except.ok.inj ran
    refine List.forall_mem_map.mpr fun id member => ?_
    obtain ⟨key, -, found⟩ := List.mem_filterMap.mp member
    exact nodeIdByExternalKey_live exact found
  | seekIds | vectorTopK | keywordTopK => exact matched.elim

/-- **Every row of a plan over a match ends at a node of the plane.** -/
theorem execute_live (exact : Exact tables) {plan : LogicalPlan} (matched : plan.source.Matches)
    (ran : execute machine (planeReader tables plane vector keyword) plan = .ok items) :
    Live tables plane items := by
  obtain ⟨rows, source, steps⟩ := bind_eq_ok.mp ran
  exact applySteps_live exact (Live.map_ok.mpr (sourceRows_live exact matched source)) steps

/-! ### Distinct rows -/

/-- Rows kept apart by their nodes. -/
theorem distinctRows_nodup (drained : drain (distinctRows seen items) = .ok rows) :
    (rows.map Row.head).Nodup ∧ ∀ row ∈ rows, row.head ∉ seen := by
  induction items generalizing seen rows with
  | nil =>
    obtain rfl := Except.ok.inj drained
    exact ⟨List.nodup_nil, nofun⟩
  | cons item items ih =>
    cases item with
    | error e => exact nomatch drained
    | ok row =>
      rw [distinctRows] at drained
      split at drained
      · exact ih drained
      · rename_i unseen
        obtain ⟨rest, inner, same⟩ := bind_eq_ok.mp drained
        obtain rfl := Except.ok.inj same
        obtain ⟨nodup, apart⟩ := ih inner
        refine ⟨List.nodup_cons.mpr ⟨?_, nodup⟩, List.forall_mem_cons.mpr ⟨unseen, ?_⟩⟩
        · intro member
          obtain ⟨other, inside, same⟩ := List.mem_map.mp member
          exact apart other inside (same ▸ List.mem_cons_self)
        · exact fun other inside => fun here => apart other inside (List.mem_cons_of_mem _ here)

end DrStrange.Compute
