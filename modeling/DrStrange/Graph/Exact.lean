/-
**The tables agree with one another.**

`Exact` says what the index tables hold in terms of the records: a label-index entry for each label
of each node, a `node_plane` row for each node, a key row for each key, an entry in each adjacency
table for each edge, both ends of every edge present, and dictionaries and plane names inverse to
their reverse tables. `Sound` adds where ids come from: whatever is stored lies below its counter,
and the ids in `nodes` and `edges` are set aside for records still to be written.

Each group of rows that a graph function writes keeps both.
-/

import DrStrange.Graph.Bulk

namespace DrStrange.Graph

open Std Lib ExtTreeMap

variable {tables : Tables} {plane : PlaneId} {id : ℕ} {row : EdgeRow} {key : Option String}
  {labels : List ℕ}

/-! ### What a group of rows changes -/

/-- Rows of one table written one after the other: the table with all of them written. -/
theorem applyAll_rows {κ ν ρ : Type} {cmp : κ → κ → Ordering} [TransCmp cmp] {write : ρ → Write}
    {row : ρ → κ × Option ν} {rows : List ρ} (table : Tables → ExtTreeMap κ ν cmp)
    (replace : Tables → ExtTreeMap κ ν cmp → Tables)
    (one : ∀ tables input, tables.apply (write input) =
      replace tables ((table tables).write (row input).1 (row input).2))
    (read : ∀ tables map, table (replace tables map) = map)
    (same : ∀ tables, replace tables (table tables) = tables)
    (twice : ∀ tables map other, replace (replace tables map) other = replace tables other) :
    tables.applyAll (rows.map write) = replace tables ((table tables).writeAll (rows.map row)) := by
  induction rows generalizing tables with
  | nil => exact (same tables).symm
  | cons input rows ih =>
    rw [List.map_cons, Tables.applyAll_cons, ih, one, read, twice]
    rfl

/-- One value written at the keys of a list: the table with the value at each of them. -/
theorem applyAll_each {κ ν : Type} {cmp : κ → κ → Ordering} [TransCmp cmp] {write : κ → Write}
    {value : Option ν} {keys : List κ} (table : Tables → ExtTreeMap κ ν cmp)
    (replace : Tables → ExtTreeMap κ ν cmp → Tables)
    (one : ∀ tables key, tables.apply (write key) = replace tables ((table tables).write key value))
    (read : ∀ tables map, table (replace tables map) = map)
    (same : ∀ tables, replace tables (table tables) = tables)
    (twice : ∀ tables map other, replace (replace tables map) other = replace tables other) :
    tables.applyAll (keys.map write) = replace tables ((table tables).writeEach keys value) :=
  applyAll_rows table replace one read same twice

theorem applyAll_labelWrites {row : Option Unit} :
    tables.applyAll (labelWrites plane id labels row) =
      { tables with
        labelIdx := tables.labelIdx.writeEach (labels.map fun label => (plane, label, id)) row } := by
  rw [labelWrites, show (labels.map fun label => Write.labelIdx (plane, label, id) row) =
    (labels.map fun label => (plane, label, id)).map (Write.labelIdx · row) by simp]
  exact applyAll_each (·.labelIdx) (fun tables map => { tables with labelIdx := map })
    (fun _ _ => rfl) (fun _ _ => rfl) (fun _ => rfl) (fun _ _ _ => rfl)

theorem applyAll_keyWrites :
    tables.applyAll (keyWrites plane id key) =
      { tables with
        extKeys := key.elim tables.extKeys fun key =>
          tables.extKeys.write (plane, key) (some id) } := by
  cases key <;> rfl

theorem applyAll_keyDeletes :
    tables.applyAll (keyDeletes tables plane id key) =
      { tables with
        extKeys := key.elim tables.extKeys fun key =>
          if tables.extKeys[(plane, key)]? = some id then tables.extKeys.write (plane, key) none
          else tables.extKeys } := by
  cases key with
  | none => rfl
  | some key =>
    by_cases owned : tables.extKeys[(plane, key)]? = some id
    · rw [keyDeletes, if_pos (show nodeIdByExternalKey tables plane key = some id from owned),
        Option.elim_some, if_pos owned]
      rfl
    · rw [keyDeletes, if_neg (show ¬nodeIdByExternalKey tables plane key = some id from owned),
        Option.elim_some, if_neg owned]
      rfl

/-- The tables with a node's rows written. -/
theorem applyAll_nodeWrites {row : NodeRow} :
    tables.applyAll (nodeWrites plane id row) =
      { tables with
        nodes := tables.nodes.write (plane, id) (some row)
        nodePlane := tables.nodePlane.write id (some plane)
        labelIdx := tables.labelIdx.writeEach
          (row.labels.map fun label => (plane, label, id)) (some ())
        extKeys := row.externalKey.elim tables.extKeys fun key =>
          tables.extKeys.write (plane, key) (some id) } := by
  simp only [nodeWrites, Tables.applyAll_append, applyAll_labelWrites, applyAll_keyWrites]
  rfl

theorem applyAll_relabelWrites {row : NodeRow} :
    tables.applyAll (relabelWrites plane id row labels) =
      { tables with
        nodes := tables.nodes.write (plane, id) (some { row with labels := labels })
        labelIdx := (tables.labelIdx.writeEach
          (row.labels.map fun label => (plane, label, id)) none).writeEach
            (labels.map fun label => (plane, label, id)) (some ()) } := by
  simp only [relabelWrites, Tables.applyAll_append, applyAll_labelWrites]
  rfl

/-- Both adjacency tables with an edge's entry written. -/
def writeAdj (adj : Side → ExtTreeMap AdjKey Unit compare) (plane : PlaneId) (id : EdgeId)
    (row : EdgeRow) (value : Option Unit) : Side → ExtTreeMap AdjKey Unit compare :=
  fun side => (adj side).write (row.adjKey plane id side) value

theorem update_writeAdj {adj : Side → ExtTreeMap AdjKey Unit compare} {value : Option Unit} :
    Function.update (Function.update adj .fwd ((adj .fwd).write (row.adjKey plane id .fwd) value))
      .rev ((adj .rev).write (row.adjKey plane id .rev) value) = writeAdj adj plane id row value := by
  funext side
  cases side <;> simp [writeAdj]

theorem applyAll_edgeWrites {row : EdgeRow} :
    tables.applyAll (edgeWrites plane id row) =
      { tables with
        edges := tables.edges.write (plane, id) (some row)
        adj := writeAdj tables.adj plane id row (some ()) } := by
  simp only [← update_writeAdj]
  rfl

theorem applyAll_edgeDeletes :
    tables.applyAll (edgeDeletes tables plane id) =
      (tables.edges[(plane, id)]?).elim tables fun row =>
        { tables with
          edges := tables.edges.write (plane, id) none
          adj := writeAdj tables.adj plane id row none } := by
  simp only [edgeDeletes, ← update_writeAdj]
  cases tables.edges[(plane, id)]? <;> rfl

theorem applyAll_moveWrites {retyped : EdgeRow} :
    tables.applyAll (moveWrites plane id row retyped) =
      { tables with
        adj := writeAdj (writeAdj tables.adj plane id row none) plane id retyped (some ()) } := by
  simp only [← update_writeAdj]
  rfl

/-! ### The invariant -/

/-- Every table agrees with the records. -/
structure Exact (tables : Tables) : Prop where
  labelIdx : ∀ (plane : PlaneId) (label : ℕ) (node : NodeId), (plane, label, node) ∈ tables.labelIdx ↔
    ∃ row : NodeRow, tables.nodes[(plane, node)]? = some row ∧ label ∈ row.labels
  nodePlane : ∀ (node : NodeId) (plane : PlaneId), tables.nodePlane[node]? = some plane ↔
    (plane, node) ∈ tables.nodes
  extKeys : ∀ (plane : PlaneId) (key : String) (node : NodeId), tables.extKeys[(plane, key)]? =
    some node ↔
    ∃ row : NodeRow, tables.nodes[(plane, node)]? = some row ∧ row.externalKey = some key
  adj : ∀ (side : Side) (plane : PlaneId) (near : NodeId) (ty : ℕ) (far : NodeId) (edge : EdgeId),
    (plane, near, ty, far, edge) ∈ tables.adj side ↔
    ∃ row : EdgeRow, tables.edges[(plane, edge)]? = some row ∧
      row.near side = near ∧ row.ty = ty ∧ row.far side = far
  endpoints : ∀ (plane : PlaneId) (edge : EdgeId) (row : EdgeRow),
    tables.edges[(plane, edge)]? = some row →
    (plane, row.src) ∈ tables.nodes ∧ (plane, row.dst) ∈ tables.nodes
  dict : ∀ dict, Inverse (tables.dictIds dict) (tables.dictNames dict)
  planeNames : ∀ (name : String) (id : PlaneId), tables.planeNames[name]? = some id ↔
    (tables.planes[id]?).map PlaneRecord.name = some name

/-- An id below a counter has been handed out or set aside. -/
def Tables.Below (tables : Tables) (counter : Counter) (id : ℕ) : Prop :=
  ∃ next, tables.next counter = some next ∧ id < next

/-- The tables agree, what is stored lies below its counter and is named, and the ids of `nodes` and
`edges` are set aside: below their counters and not in use. -/
structure Sound (nodes edges : Set ℕ) (tables : Tables) : Prop where
  exact : Exact tables
  nodeIds : ∀ plane node, (plane, node) ∈ tables.nodes → tables.Below .node node ∧ node ∉ nodes
  edgeIds : ∀ plane edge, (plane, edge) ∈ tables.edges → tables.Below .edge edge ∧ edge ∉ edges
  dictIds : ∀ dict (id : ℕ), id ∈ tables.dictNames dict → tables.Below dict.counter id ∧ id < 2 ^ 32
  labels : ∀ (key : NodeKey) (row : NodeRow), tables.nodes[key]? = some row →
    ∀ label ∈ row.labels, label ∈ tables.dictNames .label
  types : ∀ (key : EdgeKey) (row : EdgeRow), tables.edges[key]? = some row →
    row.ty ∈ tables.dictNames .edgeType
  planeIds : ∀ id : PlaneId, id ∈ tables.planes → tables.Below .plane id
  freeNodes : ∀ id ∈ nodes, tables.Below .node id
  freeEdges : ∀ id ∈ edges, tables.Below .edge id

variable {nodes edges : Set ℕ} {node : NodeId}

/-! ### Nodes -/

theorem Exact.absent (exact : Exact tables) (fresh : ∀ plane, (plane, node) ∉ tables.nodes)
    (plane : PlaneId) (label : ℕ) : (plane, label, node) ∉ tables.labelIdx := by
  intro member
  obtain ⟨row, found, -⟩ := (exact.labelIdx plane label node).mp member
  exact fresh plane (mem_iff_isSome_getElem?.mpr (by simp [found]))

theorem Exact.insertNode {row : NodeRow} (exact : Exact tables)
    (fresh : ∀ plane, (plane, id) ∉ tables.nodes)
    (free : takenKey tables plane row.externalKey = none) :
    Exact (tables.applyAll (nodeWrites plane id row)) := by
  rw [applyAll_nodeWrites]
  refine ⟨?_, ?_, ?_, exact.adj, ?_, exact.dict, exact.planeNames⟩
  · intro p label node
    have known := exact.labelIdx p label node
    have absent := exact.absent fresh p label
    simp only [mem_writeEach, getElem?_write]
    grind
  · intro node p
    have known := exact.nodePlane node p
    simp only [mem_write, getElem?_write]
    grind
  · intro p key node
    have known := exact.extKeys p key node
    simp only [getElem?_write]
    cases owned : row.externalKey with
    | none => grind
    | some name =>
      grind [takenKey, nodeIdByExternalKey]
  · intro p edge other found
    have known := exact.endpoints p edge other found
    simp only [mem_write]
    grind

/-- A record rewritten with the labels and the key it had. -/
theorem Exact.rewriteNode {row : NodeRow} {props : Properties} (exact : Exact tables)
    (found : tables.nodes[(plane, id)]? = some row) :
    Exact (tables.apply (.node (plane, id) (some { row with props := props }))) := by
  have member : (plane, id) ∈ tables.nodes := mem_iff_isSome_getElem?.mpr (by simp [found])
  refine ⟨?_, ?_, ?_, exact.adj, ?_, exact.dict, exact.planeNames⟩
  · intro p label node
    have known := exact.labelIdx p label node
    simp only [Tables.apply, getElem?_write]
    grind
  · intro node p
    have known := exact.nodePlane node p
    simp only [Tables.apply, mem_write]
    grind
  · intro p key node
    have known := exact.extKeys p key node
    simp only [Tables.apply, getElem?_write]
    grind
  · intro p edge other present
    have known := exact.endpoints p edge other present
    simp only [Tables.apply, mem_write]
    grind

theorem Exact.relabel {row : NodeRow} {labels : List ℕ} (exact : Exact tables)
    (found : tables.nodes[(plane, id)]? = some row) :
    Exact (tables.applyAll (relabelWrites plane id row labels)) := by
  have member : (plane, id) ∈ tables.nodes := mem_iff_isSome_getElem?.mpr (by simp [found])
  rw [applyAll_relabelWrites]
  refine ⟨?_, ?_, ?_, exact.adj, ?_, exact.dict, exact.planeNames⟩
  · intro p label node
    have known := exact.labelIdx p label node
    simp only [mem_writeEach, getElem?_write]
    grind
  · intro node p
    have known := exact.nodePlane node p
    simp only [mem_write]
    grind
  · intro p key node
    have known := exact.extKeys p key node
    simp only [getElem?_write]
    grind
  · intro p edge other present
    have known := exact.endpoints p edge other present
    simp only [mem_write]
    grind

/-- A node that no edge touches taken out, with its label entries, its key and its plane row. -/
theorem Exact.removeNode {row : NodeRow} (exact : Exact tables)
    (found : tables.nodes[(plane, id)]? = some row)
    (apart : ∀ (edge : EdgeId) (other : EdgeRow), tables.edges[(plane, edge)]? = some other →
      other.src ≠ id ∧ other.dst ≠ id) :
    Exact { tables with
      nodes := tables.nodes.write (plane, id) none
      nodePlane := tables.nodePlane.write id none
      labelIdx := tables.labelIdx.writeEach (row.labels.map fun label => (plane, label, id)) none
      extKeys := row.externalKey.elim tables.extKeys fun key =>
        if tables.extKeys[(plane, key)]? = some id then tables.extKeys.write (plane, key) none
        else tables.extKeys } := by
  have member : (plane, id) ∈ tables.nodes := mem_iff_isSome_getElem?.mpr (by simp [found])
  refine ⟨?_, ?_, ?_, exact.adj, ?_, exact.dict, exact.planeNames⟩
  · intro p label node
    have known := exact.labelIdx p label node
    simp only [mem_writeEach, getElem?_write]
    grind
  · intro node p
    have known := exact.nodePlane node p
    have own := exact.nodePlane id plane
    simp only [mem_write, getElem?_write]
    grind
  · intro p key node
    have known := exact.extKeys p key node
    cases owned : row.externalKey with
    | none =>
      simp only [getElem?_write, Option.elim_none]
      grind
    | some name =>
      have own := (exact.extKeys plane name id).mpr ⟨row, found, owned⟩
      simp only [getElem?_write, Option.elim_some, if_pos own]
      grind
  · intro p edge other present
    have known := exact.endpoints p edge other present
    have clear := apart edge other
    simp only [mem_write]
    grind

/-! ### Edges -/

theorem Exact.insertEdge {row : EdgeRow} (exact : Exact tables)
    (fresh : (plane, id) ∉ tables.edges) (src : (plane, row.src) ∈ tables.nodes)
    (dst : (plane, row.dst) ∈ tables.nodes) :
    Exact (tables.applyAll (edgeWrites plane id row)) := by
  have absent : tables.edges[(plane, id)]? = none := by
    rwa [mem_iff_isSome_getElem?, Bool.not_eq_true, Option.isSome_eq_false_iff,
      Option.isNone_iff_eq_none] at fresh
  rw [applyAll_edgeWrites]
  refine ⟨exact.labelIdx, exact.nodePlane, exact.extKeys, ?_, ?_, exact.dict, exact.planeNames⟩
  · intro side p near ty far edge
    have known := exact.adj side p near ty far edge
    simp only [writeAdj, EdgeRow.adjKey, mem_write, getElem?_write]
    grind
  · intro p edge other present
    have known := exact.endpoints p edge other
    simp only [getElem?_write] at present
    grind

/-- An edge's record and both of its adjacency entries taken out. -/
theorem Exact.removeEdge (exact : Exact tables) (plane : PlaneId) (id : EdgeId) :
    Exact (tables.applyAll (edgeDeletes tables plane id)) := by
  rw [applyAll_edgeDeletes]
  cases found : tables.edges[(plane, id)]? with
  | none => exact exact
  | some row =>
    refine ⟨exact.labelIdx, exact.nodePlane, exact.extKeys, ?_, ?_, exact.dict, exact.planeNames⟩
    · intro side p near ty far edge
      have known := exact.adj side p near ty far edge
      simp only [Option.elim_some, writeAdj, EdgeRow.adjKey, mem_write, getElem?_write]
      grind
    · intro p edge other present
      have known := exact.endpoints p edge other
      simp only [Option.elim_some, getElem?_write] at present
      grind

theorem Exact.rewriteEdge {props : Properties} (exact : Exact tables)
    (found : tables.edges[(plane, id)]? = some row) :
    Exact (tables.apply (.edge (plane, id) (some { row with props := props }))) := by
  refine ⟨exact.labelIdx, exact.nodePlane, exact.extKeys, ?_, ?_, exact.dict, exact.planeNames⟩
  · intro side p near ty far edge
    have known := exact.adj side p near ty far edge
    simp only [Tables.apply, getElem?_write]
    have same : ∀ side, ({ row with props := props } : EdgeRow).near side = row.near side ∧
        ({ row with props := props } : EdgeRow).far side = row.far side := by
      intro side
      cases side <;> exact ⟨rfl, rfl⟩
    grind
  · intro p edge other present
    have known := exact.endpoints p edge
    simp only [Tables.apply, getElem?_write] at present ⊢
    grind

theorem Exact.retype {row : EdgeRow} (exact : Exact tables)
    (found : tables.edges[(plane, id)]? = some row) (ty : ℕ) :
    Exact ((tables.applyAll (if ty ≠ row.ty then moveWrites plane id row { row with ty := ty }
      else [])).apply (.edge (plane, id) (some { row with ty := ty }))) := by
  have same : ∀ side, ({ row with ty := ty } : EdgeRow).near side = row.near side ∧
      ({ row with ty := ty } : EdgeRow).far side = row.far side := by
    intro side
    cases side <;> exact ⟨rfl, rfl⟩
  have endpoints : ∀ (p : PlaneId) (edge : EdgeId) (other : EdgeRow),
      (tables.edges.write (plane, id) (some { row with ty := ty }))[(p, edge)]? = some other →
        (p, other.src) ∈ tables.nodes ∧ (p, other.dst) ∈ tables.nodes := by
    intro p edge other present
    have known := exact.endpoints p edge
    simp only [getElem?_write] at present
    grind
  split
  · rw [applyAll_moveWrites]
    refine ⟨exact.labelIdx, exact.nodePlane, exact.extKeys, ?_, endpoints, exact.dict,
      exact.planeNames⟩
    intro side p near other far edge
    have known := exact.adj side p near other far edge
    simp only [Tables.apply, writeAdj, EdgeRow.adjKey, mem_write, getElem?_write]
    grind
  · refine ⟨exact.labelIdx, exact.nodePlane, exact.extKeys, ?_, endpoints, exact.dict,
      exact.planeNames⟩
    intro side p near other far edge
    have known := exact.adj side p near other far edge
    simp only [Tables.applyAll_nil, Tables.apply, getElem?_write]
    grind

/-! ### Planes -/

/-- A plane's record and name row, written where the name is free or already the plane's. -/
theorem Exact.writePlane {name : String} {props : Properties} (exact : Exact tables)
    (free : ∀ other, tables.planeNames[name]? = some other → other = id)
    (kept : ∀ row, tables.planes[id]? = some row → row.name = name) :
    Exact ((tables.apply (.plane id (some ⟨name, props⟩))).apply (.planeName name (some id))) := by
  refine ⟨exact.labelIdx, exact.nodePlane, exact.extKeys, exact.adj, exact.endpoints, exact.dict, ?_⟩
  intro other number
  have known := exact.planeNames other number
  simp only [Tables.apply, getElem?_write]
  grind

/-- A plane's old name row deleted, its record and the new name written. -/
theorem Exact.renamePlane {row : PlaneRecord} {name : String} (exact : Exact tables)
    (found : tables.planes[id]? = some row) (free : tables.planeNames[name]? = none) :
    Exact (((tables.apply (.planeName row.name none)).apply
      (.plane id (some ⟨name, row.props⟩))).apply (.planeName name (some id))) := by
  refine ⟨exact.labelIdx, exact.nodePlane, exact.extKeys, exact.adj, exact.endpoints, exact.dict, ?_⟩
  intro other number
  have known := exact.planeNames other number
  have own := exact.planeNames row.name id
  simp only [Tables.apply, getElem?_write]
  grind

/-- A table without the rows of one plane. -/
def withoutPlane {κ ν : Type} {cmp : PlaneId × κ → PlaneId × κ → Ordering} [TransCmp cmp]
    (map : ExtTreeMap (PlaneId × κ) ν cmp) (plane : PlaneId) : ExtTreeMap (PlaneId × κ) ν cmp :=
  map.writeEach (map.keys.filter fun key => key.1 = plane) none

section WithoutPlane

variable {κ ν : Type} [DecidableEq κ] {cmp : PlaneId × κ → PlaneId × κ → Ordering} [TransCmp cmp]
  [LawfulEqCmp cmp] {map : ExtTreeMap (PlaneId × κ) ν cmp} {key : PlaneId × κ}

@[simp, grind =]
theorem getElem?_withoutPlane :
    (withoutPlane map plane)[key]? = if key.1 = plane then none else map[key]? := by
  simp only [withoutPlane, getElem?_writeEach, List.mem_filter, mem_keys, decide_eq_true_eq]
  by_cases inside : key.1 = plane
  · simp only [inside, and_true, if_true]
    split
    · rfl
    · exact getElem?_eq_none ‹_›
  · simp [inside]

@[simp, grind =]
theorem mem_withoutPlane : key ∈ withoutPlane map plane ↔ key.1 ≠ plane ∧ key ∈ map := by
  simp only [mem_iff_isSome_getElem?, getElem?_withoutPlane]
  split <;> simp [*]

end WithoutPlane

/-- The tables once a plane's rows are gone. -/
def Tables.dropPlane (tables : Tables) (plane : PlaneId) (name : String) : Tables :=
  { tables with
    nodePlane := tables.nodePlane.writeEach (scanAll tables plane) none
    nodes := withoutPlane tables.nodes plane
    edges := withoutPlane tables.edges plane
    adj := fun side => withoutPlane (tables.adj side) plane
    labelIdx := withoutPlane tables.labelIdx plane
    extKeys := withoutPlane tables.extKeys plane
    planes := tables.planes.write plane none
    planeNames := tables.planeNames.write name none }

theorem mem_scanAll : node ∈ scanAll tables plane ↔ (plane, node) ∈ tables.nodes := by
  simp only [scanAll, List.mem_map, List.mem_filter, mem_keys, decide_eq_true_eq]
  constructor
  · rintro ⟨key, ⟨member, rfl⟩, rfl⟩
    exact member
  · exact fun member => ⟨(plane, node), ⟨member, rfl⟩, rfl⟩

theorem nodup_scanAll : (scanAll tables plane).Nodup := by
  refine List.Nodup.map_on ?_ (nodup_keys.filter _)
  intro a memberA b memberB same
  simp only [List.mem_filter, decide_eq_true_eq] at memberA memberB
  exact Prod.ext (memberA.2.trans memberB.2.symm) same

theorem Exact.dropPlane {row : PlaneRecord} (exact : Exact tables)
    (found : tables.planes[plane]? = some row) : Exact (tables.dropPlane plane row.name) := by
  refine ⟨?_, ?_, ?_, ?_, ?_, exact.dict, ?_⟩
  · intro p label node
    have known := exact.labelIdx p label node
    simp only [Tables.dropPlane, mem_withoutPlane, getElem?_withoutPlane]
    grind
  · intro node p
    have known := exact.nodePlane node p
    have inside := exact.nodePlane node plane
    simp only [Tables.dropPlane, getElem?_writeEach, mem_withoutPlane, mem_scanAll]
    grind
  · intro p key node
    have known := exact.extKeys p key node
    simp only [Tables.dropPlane, getElem?_withoutPlane]
    grind
  · intro side p near ty far edge
    have known := exact.adj side p near ty far edge
    simp only [Tables.dropPlane, mem_withoutPlane, getElem?_withoutPlane]
    grind
  · intro p edge other present
    have known := exact.endpoints p edge other
    simp only [Tables.dropPlane, mem_withoutPlane, getElem?_withoutPlane] at present ⊢
    grind
  · intro name number
    have known := exact.planeNames name number
    have own := exact.planeNames row.name plane
    simp only [Tables.dropPlane, getElem?_write]
    grind

end DrStrange.Graph
