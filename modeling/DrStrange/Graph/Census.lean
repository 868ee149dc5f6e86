/-
**What a recount of a plane finds, and how each group of rows changes it.**

A census has the number of nodes and of edges, for each label the number of times nodes carry it, and
for each type the number of edges. Its numbers are signed, so that what one step adds or takes off is
a census too. It is the tally of the records of a plane (`Tables.census`): a record written moves it
by the weight of the new record less that of the old (`census_writeNode`, `census_writeEdge`).
-/

import DrStrange.Graph.BulkLines
import DrStrange.Graph.Labels
import DrStrange.Lib.Tally

namespace DrStrange.Graph

open Std Lib ExtTreeMap

variable {tables after : Tables} {plane other : PlaneId} {id : ℕ} {nodes edges : Set ℕ}
  {row : EdgeRow} {labels : List String} {ty : String} {props : Properties}

/-- Nodes, edges, nodes by label, edges by type. -/
abbrev Census := ℤ × ℤ × (String → ℤ) × (String → ℤ)

namespace Census

/-- One node that carries these labels. -/
def ofNode (labels : List String) : Census := (1, 0, fun name => labels.count name, 0)

/-- One edge of this type. -/
def ofEdge (ty : String) : Census := (0, 1, 0, Pi.single ty 1)

theorem ofNode_nonneg : 0 ≤ ofNode labels :=
  ⟨zero_le_one, le_rfl, fun _ => Int.natCast_nonneg _, le_rfl⟩

theorem ofEdge_nonneg : 0 ≤ ofEdge ty :=
  ⟨le_rfl, zero_le_one, le_rfl, fun name => by
    by_cases same : name = ty
    · simp [ofEdge, same]
    · simp [ofEdge, same]⟩

end Census

/-- What an edge row counts for; a type without a name counts for nothing. -/
def Tables.ofEdge (tables : Tables) (row : EdgeRow) : Census :=
  ((tables.dictNames .edgeType)[row.ty]?).elim 0 Census.ofEdge

def Tables.nodeWeight (tables : Tables) (plane : PlaneId) (key : NodeKey) (row : NodeRow) : Census :=
  if key.1 = plane then Census.ofNode (tables.labelsOf row) else 0

def Tables.edgeWeight (tables : Tables) (plane : PlaneId) (key : EdgeKey) (row : EdgeRow) : Census :=
  if key.1 = plane then tables.ofEdge row else 0

/-- What a recount of a plane finds. -/
def Tables.census (tables : Tables) (plane : PlaneId) : Census :=
  tally (tables.nodeWeight plane) tables.nodes + tally (tables.edgeWeight plane) tables.edges

theorem tally_nonneg {κ ν : Type} {cmp : κ → κ → Ordering} [TransCmp cmp] {weight : κ → ν → Census}
    {map : ExtTreeMap κ ν cmp} (nonneg : ∀ key row, 0 ≤ weight key row) : 0 ≤ tally weight map := by
  refine List.sum_nonneg fun part member => ?_
  obtain ⟨row, -, rfl⟩ := List.mem_map.mp member
  exact nonneg row.1 row.2

theorem Tables.census_nonneg : 0 ≤ tables.census plane := by
  refine add_nonneg (tally_nonneg fun key row => ?_) (tally_nonneg fun key row => ?_)
  · rw [nodeWeight]
    split
    · exact Census.ofNode_nonneg
    · exact le_rfl
  · rw [edgeWeight, ofEdge]
    split
    · cases (tables.dictNames .edgeType)[row.ty]? with
      | none => exact le_rfl
      | some ty => exact Census.ofEdge_nonneg
    · exact le_rfl

/-! ### Tables that count the same -/

theorem labelsOf_congr (names : after.dictNames = tables.dictNames) (row : NodeRow) :
    after.labelsOf row = tables.labelsOf row := by
  rw [Tables.labelsOf, Tables.labelsOf, names]

theorem weights_congr (names : after.dictNames = tables.dictNames) :
    after.nodeWeight plane = tables.nodeWeight plane ∧
      after.edgeWeight plane = tables.edgeWeight plane := by
  constructor
  · funext key row
    rw [Tables.nodeWeight, Tables.nodeWeight, labelsOf_congr names]
  · funext key row
    rw [Tables.edgeWeight, Tables.edgeWeight, Tables.ofEdge, Tables.ofEdge, names]

theorem census_congr (nodes : after.nodes = tables.nodes) (edges : after.edges = tables.edges)
    (names : after.dictNames = tables.dictNames) : after.census plane = tables.census plane := by
  rw [Tables.census, Tables.census, (weights_congr names).1, (weights_congr names).2, nodes, edges]

/-- What counts on a plane is its rows, and the names they have. -/
theorem Sound.census_agree (sound : Sound nodes edges tables)
    (nodesEq : ∀ id : NodeId, after.nodes[(plane, id)]? = tables.nodes[(plane, id)]?)
    (edgesEq : ∀ id : EdgeId, after.edges[(plane, id)]? = tables.edges[(plane, id)]?)
    (kept : ∀ (dict : Dict) (number : ℕ) (name : String), (tables.dictNames dict)[number]? =
      some name →
      (after.dictNames dict)[number]? = some name) : after.census plane = tables.census plane := by
  rw [Tables.census, Tables.census]
  congr 1
  · refine (tally_agree (fun key => key.1 = plane) ?_ ?_ ?_ ?_).symm
    · exact fun key row apart => if_neg (of_decide_eq_false apart)
    · exact fun key row apart => if_neg (of_decide_eq_false apart)
    · rintro ⟨own, id⟩ here
      obtain rfl : own = plane := of_decide_eq_true here
      exact nodesEq id
    · intro key row here found
      have known := labelsOf_named (sound.labels key row found) fun _ _ known => kept .label _ _ known
      rw [Tables.nodeWeight, Tables.nodeWeight, known]
  · refine (tally_agree (fun key => key.1 = plane) ?_ ?_ ?_ ?_).symm
    · exact fun key row apart => if_neg (of_decide_eq_false apart)
    · exact fun key row apart => if_neg (of_decide_eq_false apart)
    · rintro ⟨own, id⟩ here
      obtain rfl : own = plane := of_decide_eq_true here
      exact edgesEq id
    · intro key row here found
      have named := getElem?_eq_some_getElem (sound.types key row found)
      rw [Tables.edgeWeight, Tables.edgeWeight, Tables.ofEdge, Tables.ofEdge, named,
        kept .edgeType _ _ named]

theorem Grows.census {world : World} (grows : Grows world.tables after) (sound : world.Sound) :
    after.census plane = world.tables.census plane :=
  sound.tables.census_agree (fun _ => by rw [grows.nodes_eq]) (fun _ => by rw [grows.edges_eq])
    fun _ _ _ known => sound.named (grows.changes : Changes 0 world _) known

/-- What is written on one plane does not count on another. -/
theorem World.Sound.census_off {world next : World} (sound : world.Sound)
    (changes : Changes plane world next) (off : other ≠ plane) :
    next.tables.census other = world.tables.census other :=
  sound.tables.census_agree (fun _ => changes.nodes_off off) (fun _ => changes.edges_off off)
    fun _ _ _ known => sound.named changes known

/-- A plane without rows counts for nothing. -/
theorem census_zero (nodes : ∀ id : NodeId, tables.nodes[(plane, id)]? = none)
    (edges : ∀ id : EdgeId, tables.edges[(plane, id)]? = none) : tables.census plane = 0 := by
  have first : tally (tables.nodeWeight plane) tables.nodes =
      tally (fun _ _ => (0 : Census)) tables.nodes := by
    refine tally_congr fun key row found => if_neg ?_
    rintro rfl
    exact nomatch (nodes key.2).symm.trans found
  have second : tally (tables.edgeWeight plane) tables.edges =
      tally (fun _ _ => (0 : Census)) tables.edges := by
    refine tally_congr fun key row found => if_neg ?_
    rintro rfl
    exact nomatch (edges key.2).symm.trans found
  rw [Tables.census, first, second]
  simp [tally]

/-! ### One record written -/

/-- What the node under an id counts for. -/
def Tables.nodeCensus (tables : Tables) (plane : PlaneId) (id : NodeId) : Census :=
  (tables.nodes[(plane, id)]?).elim 0 fun row => Census.ofNode (tables.labelsOf row)

/-- What the edge under an id counts for. -/
def Tables.edgeCensus (tables : Tables) (plane : PlaneId) (id : EdgeId) : Census :=
  (tables.edges[(plane, id)]?).elim 0 tables.ofEdge

theorem edgeCensus_absent (absent : tables.edges[(plane, id)]? = none) :
    tables.edgeCensus plane id = 0 := by
  rw [Tables.edgeCensus, absent, Option.elim_none]

theorem edgeCensus_found (found : tables.edges[(plane, id)]? = some row)
    (named : (tables.dictNames .edgeType)[row.ty]? = some ty) :
    tables.edgeCensus plane id = Census.ofEdge ty := by
  rw [Tables.edgeCensus, found, Option.elim_some, Tables.ofEdge, named, Option.elim_some]

theorem census_writeNode {row : Option NodeRow}
    (written : after.nodes = tables.nodes.write (plane, id) row) (edges : after.edges = tables.edges)
    (names : after.dictNames = tables.dictNames) :
    after.census plane = tables.census plane - tables.nodeCensus plane id +
      row.elim 0 fun row => Census.ofNode (tables.labelsOf row) := by
  have weight : ∀ row : Option NodeRow, weigh (tables.nodeWeight plane) (plane, id) row =
      row.elim 0 fun row => Census.ofNode (tables.labelsOf row) := by
    intro row
    cases row with
    | none => rfl
    | some row => exact if_pos rfl
  rw [Tables.census, Tables.census, (weights_congr names).1, (weights_congr names).2, written, edges,
    tally_write, weight, weight, Tables.nodeCensus]
  abel

theorem census_writeEdge {row : Option EdgeRow}
    (written : after.edges = tables.edges.write (plane, id) row) (nodes : after.nodes = tables.nodes)
    (names : after.dictNames = tables.dictNames) :
    after.census plane = tables.census plane - tables.edgeCensus plane id +
      row.elim 0 tables.ofEdge := by
  have weight : ∀ row : Option EdgeRow, weigh (tables.edgeWeight plane) (plane, id) row =
      row.elim 0 tables.ofEdge := by
    intro row
    cases row with
    | none => rfl
    | some row => exact if_pos rfl
  rw [Tables.census, Tables.census, (weights_congr names).1, (weights_congr names).2, written, nodes,
    tally_write, weight, weight, Tables.edgeCensus]
  abel

/-- A named type is what an edge of it counts for. -/
theorem ofEdge_named (inverse : Inverse (tables.dictIds .edgeType) (tables.dictNames .edgeType))
    (named : (tables.dictIds .edgeType)[ty]? = some row.ty) :
    tables.ofEdge row = Census.ofEdge ty := by
  rw [Tables.ofEdge, (inverse ty row.ty).mp named]
  rfl

theorem census_rewriteNode {row : NodeRow} (found : tables.nodes[(plane, id)]? = some row) :
    (tables.apply (.node (plane, id) (some { row with props := props }))).census plane =
      tables.census plane := by
  rw [@census_writeNode tables _ _ _ (some { row with props := props }) (by rfl) (by rfl) (by rfl),
    Tables.nodeCensus, found]
  exact sub_add_cancel _ _

theorem census_relabel {row : NodeRow} {ids : List ℕ}
    (found : tables.nodes[(plane, id)]? = some row)
    (inverse : Inverse (tables.dictIds .label) (tables.dictNames .label))
    (known : tables.Names .label labels ids) :
    (tables.applyAll (relabelWrites plane id row ids)).census plane =
      tables.census plane - Census.ofNode (tables.labelsOf row) + Census.ofNode labels := by
  have named : tables.labelsOf { row with labels := ids } = labels := known.labelsOf inverse
  rw [@census_writeNode _ _ _ _ (some { row with labels := ids }) (by rw [applyAll_relabelWrites])
    (by rw [applyAll_relabelWrites]) (by rw [applyAll_relabelWrites]), Tables.nodeCensus, found,
    Option.elim_some, Option.elim_some, named]

theorem census_rewriteEdge (found : tables.edges[(plane, id)]? = some row) :
    (tables.apply (.edge (plane, id) (some { row with props := props }))).census plane =
      tables.census plane := by
  rw [@census_writeEdge tables _ _ _ (some { row with props := props }) (by rfl) (by rfl) (by rfl),
    Tables.edgeCensus, found]
  exact sub_add_cancel _ _

theorem census_retype {number : ℕ}
    (inverse : Inverse (tables.dictIds .edgeType) (tables.dictNames .edgeType))
    (known : (tables.dictIds .edgeType)[ty]? = some number) :
    (tables.applyAll (retypeWrites plane id row number)).census plane =
      tables.census plane - tables.edgeCensus plane id + Census.ofEdge ty := by
  have named : tables.ofEdge { row with ty := number } = Census.ofEdge ty :=
    ofEdge_named inverse known
  rw [@census_writeEdge _ _ _ _ (some { row with ty := number }) (by rw [applyAll_retypeWrites])
    (by rw [applyAll_retypeWrites]) (by rw [applyAll_retypeWrites]), Option.elim_some, named]

/-! ### Edges taken out -/

theorem edges_edgeDeletes : (tables.applyAll (edgeDeletes tables plane id)).edges =
    tables.edges.write (plane, id) none := by
  rw [applyAll_edgeDeletes]
  cases found : tables.edges[(plane, id)]? with
  | none =>
    refine ext_getElem? fun key => ?_
    rw [getElem?_write]
    split
    · rename_i here
      rw [← here]
      exact found
    · rfl
  | some row => rfl

theorem census_edgeDeletes : (tables.applyAll (edgeDeletes tables plane id)).census plane =
    tables.census plane - tables.edgeCensus plane id := by
  have rest : (tables.applyAll (edgeDeletes tables plane id)).nodes = tables.nodes ∧
      (tables.applyAll (edgeDeletes tables plane id)).dictNames = tables.dictNames := by
    rw [applyAll_edgeDeletes]
    cases tables.edges[(plane, id)]? <;> exact ⟨rfl, rfl⟩
  rw [census_writeEdge edges_edgeDeletes rest.1 rest.2, Option.elim_none, add_zero]

/-- Different edges taken out, one after the other. -/
theorem census_withoutEdges {ids : List EdgeId} (nodup : ids.Nodup) :
    (tables.withoutEdges plane ids).census plane =
      tables.census plane - (ids.map (tables.edgeCensus plane)).sum := by
  induction ids generalizing tables with
  | nil => simp [Tables.withoutEdges]
  | cons id ids ih =>
    obtain ⟨fresh, nodup⟩ := List.nodup_cons.mp nodup
    have names : (tables.applyAll (edgeDeletes tables plane id)).dictNames = tables.dictNames := by
      rw [applyAll_edgeDeletes]
      cases tables.edges[(plane, id)]? <;> rfl
    have same : ∀ other ∈ ids,
        (tables.applyAll (edgeDeletes tables plane id)).edgeCensus plane other =
          tables.edgeCensus plane other := by
      intro other member
      have apart : (plane, id) ≠ (plane, other) := fun same => fresh ((Prod.mk.inj same).2 ▸ member)
      rw [Tables.edgeCensus, Tables.edgeCensus, edges_edgeDeletes, getElem?_write, if_neg apart]
      cases tables.edges[(plane, other)]? with
      | none => rfl
      | some row => rw [Option.elim_some, Option.elim_some, Tables.ofEdge, Tables.ofEdge, names]
    have rest := @ih (tables.applyAll (edgeDeletes tables plane id)) nodup
    rw [Tables.withoutEdges, List.foldl_cons, ← Tables.withoutEdges, rest, census_edgeDeletes,
      List.map_congr_left same, List.map_cons, List.sum_cons]
    abel

theorem census_withoutNode {row : NodeRow} (found : tables.nodes[(plane, id)]? = some row) :
    (tables.withoutNode plane id row).census plane =
      tables.census plane - Census.ofNode (tables.labelsOf row) := by
  have gone := @census_writeNode tables (tables.withoutNode plane id row) plane id none rfl rfl rfl
  rw [gone, Tables.nodeCensus, found, Option.elim_some, Option.elim_none, add_zero]

/-- A node deleted: it and its edges. -/
theorem census_deleteNode {row : NodeRow} (found : tables.nodes[(plane, id)]? = some row) :
    (tables.deleteNode plane id row).census plane = tables.census plane -
      ((incidentEdges tables plane id).map (tables.edgeCensus plane)).sum -
      Census.ofNode (tables.labelsOf row) := by
  have cleared : (tables.withoutEdges plane (incidentEdges tables plane id)).census plane = _ :=
    census_withoutEdges (List.nodup_dedup _)
  have records := @withoutEdges_records plane tables (incidentEdges tables plane id)
  have names : (tables.withoutEdges plane (incidentEdges tables plane id)).dictNames =
      tables.dictNames := by rw [records]
  rw [Tables.deleteNode, census_withoutNode (by rw [records, found]), labelsOf_congr names]
  exact congrArg (· - _) cleared

/-- A name without a number is the type of no edge. -/
theorem Exact.census_unnamed (exact : Exact tables) {name : String}
    (unknown : (tables.dictIds .edgeType)[name]? = none) : (tables.census plane).2.2.2 name = 0 := by
  have zero : ∀ census census' : Census, census.2.2.2 name = 0 → census'.2.2.2 name = 0 →
      (census + census').2.2.2 name = 0 := by
    intro census census' one two
    show census.2.2.2 name + census'.2.2.2 name = 0
    rw [one, two, add_zero]
  refine zero _ _ ?_ ?_
  · refine List.sum_induction (fun census : Census => census.2.2.2 name = 0) zero rfl ?_
    intro census member
    obtain ⟨row, -, rfl⟩ := List.mem_map.mp member
    rw [Tables.nodeWeight]
    split <;> rfl
  · refine List.sum_induction (fun census : Census => census.2.2.2 name = 0) zero rfl ?_
    intro census member
    obtain ⟨row, -, rfl⟩ := List.mem_map.mp member
    rw [Tables.edgeWeight, Tables.ofEdge]
    split
    · cases named : (tables.dictNames .edgeType)[row.2.ty]? with
      | none => rfl
      | some ty =>
        have apart : name ≠ ty := by
          rintro rfl
          exact nomatch unknown.symm.trans ((exact.dict .edgeType name _).mpr named)
        exact Pi.single_eq_of_ne apart 1
    · rfl

/-! ### Records inserted -/

theorem census_insertNode {row : NodeRow} (absent : tables.nodes[(plane, id)]? = none)
    (inverse : Inverse (tables.dictIds .label) (tables.dictNames .label))
    (known : tables.Names .label labels row.labels) :
    (tables.applyAll (nodeWrites plane id row)).census plane =
      tables.census plane + Census.ofNode labels := by
  have named : tables.labelsOf row = labels :=
    @Tables.Names.labelsOf tables _ _ row.externalKey row.props known inverse
  rw [@census_writeNode _ _ _ _ (some row) (by rw [applyAll_nodeWrites]) (by rw [applyAll_nodeWrites])
    (by rw [applyAll_nodeWrites]), Tables.nodeCensus, absent, Option.elim_none, Option.elim_some,
    sub_zero, named]

theorem census_insertEdge (absent : tables.edges[(plane, id)]? = none)
    (inverse : Inverse (tables.dictIds .edgeType) (tables.dictNames .edgeType))
    (named : (tables.dictIds .edgeType)[ty]? = some row.ty) :
    (tables.applyAll (edgeWrites plane id row)).census plane =
      tables.census plane + Census.ofEdge ty := by
  rw [@census_writeEdge _ _ _ _ (some row) (by rw [applyAll_edgeWrites]) (by rw [applyAll_edgeWrites])
    (by rw [applyAll_edgeWrites]), Tables.edgeCensus, absent, Option.elim_none, Option.elim_some,
    sub_zero, ofEdge_named inverse named]

/-- The nodes of a load, each new. -/
theorem census_insertNodes {named : Tables} {rows : List (NodeId × NodeRow)}
    {lines : List (NodeId × BulkNode)} (dicts : tables.dictIds = named.dictIds)
    (names : tables.dictNames = named.dictNames)
    (inverse : Inverse (named.dictIds .label) (named.dictNames .label))
    (nodup : (rows.map Prod.fst).Nodup)
    (absent : ∀ row ∈ rows, tables.nodes[(plane, row.1)]? = none)
    (made : List.Forall₂ (fun row => Made named plane ((plane, row.1), row.2)) rows lines) :
    (insertNodes tables plane rows).census plane =
      tables.census plane + (lines.map fun line => Census.ofNode line.2.labels).sum := by
  induction made generalizing tables with
  | nil => simp [insertNodes]
  | @cons row line rows lines first _ ih =>
    obtain ⟨fresh, nodup⟩ := List.nodup_cons.mp nodup
    have here := absent row List.mem_cons_self
    have inserted := @applyAll_nodeWrites tables plane row.1 row.2
    have rest := @ih (tables.applyAll (nodeWrites plane row.1 row.2)) (by rw [inserted, ← dicts])
      (by rw [inserted, ← names]) nodup (by
        intro other member
        have apart : (plane, row.1) ≠ (plane, other.1) := by
          intro same
          exact fresh (List.mem_map.mpr ⟨other, member, (Prod.mk.inj same).2.symm⟩)
        rw [inserted, getElem?_write, if_neg apart]
        exact absent other (List.mem_cons_of_mem _ member))
    have known : tables.Names .label line.2.labels row.2.labels := by
      rw [Tables.Names, dicts]
      exact first.labels
    rw [insertNodes, List.foldl_cons, ← insertNodes, rest,
      census_insertNode here (by rwa [dicts, names]) known, List.map_cons, List.sum_cons, add_assoc]

/-- The edges of a load, each new. -/
theorem StagesEdges.census {named : Tables} {keyToId : ExtTreeMap String NodeId compare}
    {start position : ℕ} {edges : List BulkEdge} {rows : List (EdgeId × EdgeRow)}
    (stages : StagesEdges named plane keyToId start position edges rows)
    (dicts : tables.dictIds = named.dictIds) (names : tables.dictNames = named.dictNames)
    (inverse : Inverse (named.dictIds .edgeType) (named.dictNames .edgeType))
    (absent : ∀ row ∈ rows, tables.edges[(plane, row.1)]? = none) :
    (insertEdges tables plane rows).census plane =
      tables.census plane + (edges.map fun edge => Census.ofEdge edge.ty).sum := by
  induction stages generalizing tables with
  | done => simp [insertEdges]
  | @edge position edge edges src dst ty rows _ _ known stages ih =>
    have here := absent _ List.mem_cons_self
    have inserted := @applyAll_edgeWrites tables plane (start + position) ⟨src, dst, ty, edge.props⟩
    have nodup := StagesEdges.nodup (.edge ‹_› ‹_› known stages)
    obtain ⟨fresh, -⟩ := List.nodup_cons.mp nodup
    have rest := @ih (tables.applyAll (edgeWrites plane (start + position)
        ⟨src, dst, ty, edge.props⟩)) (by rw [inserted, ← dicts]) (by rw [inserted, ← names]) (by
        intro other member
        have apart : (plane, start + position) ≠ (plane, other.1) := by
          intro same
          exact fresh (List.mem_map.mpr ⟨other, member, (Prod.mk.inj same).2.symm⟩)
        rw [inserted, getElem?_write, if_neg apart]
        exact absent other (List.mem_cons_of_mem _ member))
    rw [insertEdges, List.foldl_cons, ← insertEdges, rest,
      census_insertEdge here (by rwa [dicts, names]) (by rwa [dicts]), List.map_cons,
      List.sum_cons, add_assoc]

end DrStrange.Graph
