/-
**Every group of rows keeps the tables sound.**

One lemma for each group of rows that the graph code writes: a reservation of ids, a new name, a
node or an edge inserted, rewritten or taken out, a plane written, renamed or dropped. A reservation
sets ids aside and an insert uses one of them up. What is stored only ever mentions names the
dictionaries hold.
-/

import DrStrange.Graph.Exact

namespace DrStrange.Graph

open Std Lib ExtTreeMap

variable {tables : Tables} {nodes edges fewer less : Set ℕ} {plane : PlaneId} {id start count : ℕ}
  {counter : Counter} {name : String} {row : EdgeRow}

/-! ### Ids -/

theorem Sound.mono (sound : Sound nodes edges tables) (subset : fewer ⊆ nodes)
    (subset' : less ⊆ edges) : Sound fewer less tables where
  exact := sound.exact
  nodeIds plane node member :=
    ⟨(sound.nodeIds plane node member).1, fun free =>
      (sound.nodeIds plane node member).2 (subset free)⟩
  edgeIds plane edge member :=
    ⟨(sound.edgeIds plane edge member).1, fun free =>
      (sound.edgeIds plane edge member).2 (subset' free)⟩
  dictIds := sound.dictIds
  labels := sound.labels
  types := sound.types
  planeIds := sound.planeIds
  freeNodes id free := sound.freeNodes id (subset free)
  freeEdges id free := sound.freeEdges id (subset' free)

/-- A counter advanced keeps every id below it. -/
theorem Tables.Below.next {other : Counter} (found : tables.next counter = some start)
    (below : tables.Below other id) :
    (tables.apply (.next counter (start + count))).Below other id := by
  obtain ⟨next, held, less⟩ := below
  by_cases same : other = counter
  · subst same
    refine ⟨start + count, by simp [Tables.apply], ?_⟩
    rw [found, Option.some.injEq] at held
    omega
  · exact ⟨next, by simpa [Tables.apply, Function.update_of_ne same] using held, less⟩

/-- What a counter sets aside lies below it. -/
theorem Tables.below_of_reserved (inside : id ∈ Set.Ico start (start + count)) :
    (tables.apply (.next counter (start + count))).Below counter id :=
  ⟨start + count, by simp [Tables.apply], inside.2⟩

theorem Sound.next (sound : Sound nodes edges tables) (found : tables.next counter = some start)
    (count : ℕ) :
    Sound nodes edges (tables.apply (.next counter (start + count))) where
  exact := ⟨sound.exact.labelIdx, sound.exact.nodePlane, sound.exact.extKeys, sound.exact.adj,
    sound.exact.endpoints, sound.exact.dict, sound.exact.planeNames⟩
  nodeIds plane node member :=
    ⟨(sound.nodeIds plane node member).1.next found, (sound.nodeIds plane node member).2⟩
  edgeIds plane edge member :=
    ⟨(sound.edgeIds plane edge member).1.next found, (sound.edgeIds plane edge member).2⟩
  dictIds dict id member :=
    ⟨(sound.dictIds dict id member).1.next found, (sound.dictIds dict id member).2⟩
  labels := sound.labels
  types := sound.types
  planeIds id member := (sound.planeIds id member).next found
  freeNodes id free := (sound.freeNodes id free).next found
  freeEdges id free := (sound.freeEdges id free).next found

/-- An id at or past its counter is below nothing. -/
theorem Tables.Below.lt (below : tables.Below counter id) (found : tables.next counter = some start) :
    id < start := by
  obtain ⟨next, held, less⟩ := below
  rw [found, Option.some.injEq] at held
  omega

/-- A reservation of node ids sets them aside. -/
theorem Sound.reserveNodes (sound : Sound nodes edges tables)
    (found : tables.next .node = some start) :
    Sound (nodes ∪ Set.Ico start (start + count)) edges
      (tables.apply (.next .node (start + count))) := by
  refine { sound.next found count with nodeIds := ?_, freeNodes := ?_ }
  · intro plane node member
    refine ⟨((sound.next found count).nodeIds plane node member).1, ?_⟩
    rintro (free | inside)
    · exact (sound.nodeIds plane node member).2 free
    · have below := (sound.nodeIds plane node member).1.lt found
      exact absurd inside.1 (by omega)
  · rintro id (free | inside)
    · exact (sound.freeNodes id free).next found
    · exact Tables.below_of_reserved inside

/-- A reservation of edge ids sets them aside. -/
theorem Sound.reserveEdges (sound : Sound nodes edges tables)
    (found : tables.next .edge = some start) :
    Sound nodes (edges ∪ Set.Ico start (start + count))
      (tables.apply (.next .edge (start + count))) := by
  refine { sound.next found count with edgeIds := ?_, freeEdges := ?_ }
  · intro plane edge member
    refine ⟨((sound.next found count).edgeIds plane edge member).1, ?_⟩
    rintro (free | inside)
    · exact (sound.edgeIds plane edge member).2 free
    · have below := (sound.edgeIds plane edge member).1.lt found
      exact absurd inside.1 (by omega)
  · rintro id (free | inside)
    · exact (sound.freeEdges id free).next found
    · exact Tables.below_of_reserved inside

/-! ### Names -/

/-- The rows of a new name: its counter advanced, and both dictionary rows. -/
def internWrites (dict : Dict) (name : String) (id : ℕ) : List Write :=
  [.next dict.counter (id + 1), .dictId dict name id, .dictName dict id name]

/-- An id the counter of its dictionary has not reached has no name. -/
theorem Sound.unnamed {dict : Dict} (sound : Sound nodes edges tables)
    (found : tables.next dict.counter = some id) : (tables.dictNames dict)[id]? = none := by
  refine getElem?_eq_none fun member => ?_
  have below := (sound.dictIds dict id member).1.lt found
  omega

/-- A name once given stays. -/
theorem mem_dictNames_newName {dict other : Dict} {number : ℕ}
    (member : number ∈ tables.dictNames other) :
    number ∈ (tables.applyAll (internWrites dict name id)).dictNames other := by
  by_cases same : other = dict
  · subst same
    simpa [internWrites, Tables.apply] using Or.inr member
  · simpa [internWrites, Tables.apply, Function.update_of_ne same] using member

/-- A new name numbered by the counter of its dictionary. -/
theorem Sound.newName {dict : Dict} (sound : Sound nodes edges tables)
    (found : tables.next dict.counter = some id) (narrow : id < 2 ^ 32)
    (unknown : (tables.dictIds dict)[name]? = none) :
    Sound nodes edges (tables.applyAll (internWrites dict name id)) := by
  have advanced := sound.next found 1
  refine { advanced with
    exact := { advanced.exact with dict := ?_ }
    dictIds := ?_
    labels := fun key row held label member =>
      mem_dictNames_newName (sound.labels key row held label member)
    types := fun key row held => mem_dictNames_newName (sound.types key row held) }
  · intro other
    by_cases same : other = dict
    · subst same
      simpa [internWrites, Tables.apply] using
        (sound.exact.dict other).insert unknown (sound.unnamed found)
    · simpa [internWrites, Tables.apply, Function.update_of_ne same] using sound.exact.dict other
  · intro other number member
    by_cases same : other = dict
    · subst same
      simp only [internWrites, Tables.applyAll_cons, Tables.applyAll_nil, Tables.apply,
        Function.update_self, mem_insert, Std.compare_eq_iff_eq] at member
      rcases member with rfl | member
      · exact ⟨⟨_, by simp [internWrites, Tables.apply], Nat.lt_succ_self _⟩, narrow⟩
      · exact advanced.dictIds other number member
    · refine advanced.dictIds other number ?_
      simpa [internWrites, Tables.apply, Function.update_of_ne same] using member

/-! ### Nodes -/

/-- A node set aside for is written nowhere. -/
theorem Sound.fresh {node : NodeId} (sound : Sound nodes edges tables) (free : node ∈ nodes)
    (plane : PlaneId) : (plane, node) ∉ tables.nodes :=
  fun member => (sound.nodeIds plane node member).2 free

theorem Sound.insertNode {row : NodeRow} (sound : Sound nodes edges tables) (free : id ∈ nodes)
    (unclaimed : takenKey tables plane row.externalKey = none)
    (named : ∀ label ∈ row.labels, label ∈ tables.dictNames .label) :
    Sound (nodes \ {id}) edges (tables.applyAll (nodeWrites plane id row)) := by
  have exact := sound.exact.insertNode (sound.fresh free) unclaimed
  rw [applyAll_nodeWrites] at exact ⊢
  refine ⟨exact, ?_, sound.edgeIds, sound.dictIds, ?_, sound.types, sound.planeIds,
    fun id free => sound.freeNodes id free.1, sound.freeEdges⟩
  · intro p node member
    simp only [mem_write] at member
    split at member
    · rename_i same
      cases same
      exact ⟨sound.freeNodes id free, fun still => still.2 rfl⟩
    · exact ⟨(sound.nodeIds p node member).1, fun still => (sound.nodeIds p node member).2 still.1⟩
  · intro key other held
    rw [getElem?_write] at held
    split at held
    · rw [← Option.some.inj held]
      exact named
    · exact sound.labels key other held

/-- Tables that differ in records and indexes stay sound where every record they store has an old
id and names the dictionaries hold. -/
theorem Sound.of_subset {after : Tables} (sound : Sound nodes edges tables) (exact : Exact after)
    (counters : after.next = tables.next) (dicts : after.dictNames = tables.dictNames)
    (keptNodes : ∀ key (row : NodeRow), after.nodes[key]? = some row →
      key ∈ tables.nodes ∧ ∀ label ∈ row.labels, label ∈ tables.dictNames .label)
    (keptEdges : ∀ key (row : EdgeRow), after.edges[key]? = some row →
      key ∈ tables.edges ∧ row.ty ∈ tables.dictNames .edgeType)
    (keptPlanes : ∀ id ∈ after.planes, id ∈ tables.planes) : Sound nodes edges after := by
  have below : ∀ counter id, tables.Below counter id → after.Below counter id := by
    intro counter id held
    rwa [Tables.Below, counters]
  refine ⟨exact, ?_, ?_, ?_, ?_, ?_, ?_, ?_, ?_⟩
  · intro plane node member
    obtain ⟨old, -⟩ := keptNodes _ _ (getElem?_eq_some_getElem member)
    exact ⟨below _ _ (sound.nodeIds plane node old).1, (sound.nodeIds plane node old).2⟩
  · intro plane edge member
    obtain ⟨old, -⟩ := keptEdges _ _ (getElem?_eq_some_getElem member)
    exact ⟨below _ _ (sound.edgeIds plane edge old).1, (sound.edgeIds plane edge old).2⟩
  · intro dict id member
    rw [dicts] at member
    exact ⟨below _ _ (sound.dictIds dict id member).1, (sound.dictIds dict id member).2⟩
  · intro key row held
    rw [dicts]
    exact (keptNodes key row held).2
  · intro key row held
    rw [dicts]
    exact (keptEdges key row held).2
  · exact fun id member => below _ _ (sound.planeIds id (keptPlanes id member))
  · exact fun id free => below _ _ (sound.freeNodes id free)
  · exact fun id free => below _ _ (sound.freeEdges id free)

theorem mem_of_getElem? {κ ν : Type} {cmp : κ → κ → Ordering} [TransCmp cmp]
    {map : ExtTreeMap κ ν cmp} {key : κ} {value : ν} (found : map[key]? = some value) :
    key ∈ map := by
  rw [mem_iff_isSome_getElem?, found]
  rfl

/-- A stored node is old and its labels are named. -/
theorem Sound.nodeKept (sound : Sound nodes edges tables) (key : NodeKey) (row : NodeRow)
    (found : tables.nodes[key]? = some row) :
    key ∈ tables.nodes ∧ ∀ label ∈ row.labels, label ∈ tables.dictNames .label :=
  ⟨mem_of_getElem? found, sound.labels key row found⟩

/-- A stored edge is old and its type is named. -/
theorem Sound.edgeKept (sound : Sound nodes edges tables) (key : EdgeKey) (row : EdgeRow)
    (found : tables.edges[key]? = some row) :
    key ∈ tables.edges ∧ row.ty ∈ tables.dictNames .edgeType :=
  ⟨mem_of_getElem? found, sound.types key row found⟩

/-- A node written over one of its id is old, and named if its labels are. -/
theorem Sound.nodeWritten {row : NodeRow} {value : Option NodeRow}
    (sound : Sound nodes edges tables) (found : tables.nodes[(plane, id)]? = some row)
    (named : ∀ row ∈ value, ∀ label ∈ row.labels, label ∈ tables.dictNames .label) (key : NodeKey)
    (other : NodeRow) (held : (tables.nodes.write (plane, id) value)[key]? = some other) :
    key ∈ tables.nodes ∧ ∀ label ∈ other.labels, label ∈ tables.dictNames .label := by
  rw [getElem?_write] at held
  split at held
  · rename_i same
    exact ⟨same ▸ mem_of_getElem? found, named other held⟩
  · exact sound.nodeKept key other held

/-- An edge written over one of its id is old, and named if its type is. -/
theorem Sound.edgeWritten {value : Option EdgeRow} (sound : Sound nodes edges tables)
    (found : tables.edges[(plane, id)]? = some row)
    (named : ∀ row ∈ value, row.ty ∈ tables.dictNames .edgeType) (key : EdgeKey) (other : EdgeRow)
    (held : (tables.edges.write (plane, id) value)[key]? = some other) :
    key ∈ tables.edges ∧ other.ty ∈ tables.dictNames .edgeType := by
  rw [getElem?_write] at held
  split at held
  · rename_i same
    exact ⟨same ▸ mem_of_getElem? found, named other held⟩
  · exact sound.edgeKept key other held

theorem Sound.rewriteNode {row : NodeRow} (sound : Sound nodes edges tables)
    (found : tables.nodes[(plane, id)]? = some row) (props : Properties) :
    Sound nodes edges (tables.apply (.node (plane, id) (some { row with props := props }))) := by
  refine sound.of_subset (sound.exact.rewriteNode found) rfl rfl (sound.nodeWritten found ?_)
    sound.edgeKept (fun _ member => member)
  rintro _ ⟨⟩
  exact sound.labels _ row found

theorem Sound.relabel {row : NodeRow} {labels : List ℕ} (sound : Sound nodes edges tables)
    (found : tables.nodes[(plane, id)]? = some row)
    (named : ∀ label ∈ labels, label ∈ tables.dictNames .label) :
    Sound nodes edges (tables.applyAll (relabelWrites plane id row labels)) := by
  have exact : Exact (tables.applyAll (relabelWrites plane id row labels)) :=
    sound.exact.relabel found
  rw [applyAll_relabelWrites] at exact ⊢
  refine sound.of_subset exact rfl rfl (sound.nodeWritten found ?_) sound.edgeKept
    (fun _ member => member)
  rintro _ ⟨⟩
  exact named

/-- The tables once a node that no edge touches is gone. -/
def Tables.withoutNode (tables : Tables) (plane : PlaneId) (id : NodeId) (row : NodeRow) : Tables :=
  { tables with
    nodes := tables.nodes.write (plane, id) none
    nodePlane := tables.nodePlane.write id none
    labelIdx := tables.labelIdx.writeEach (row.labels.map fun label => (plane, label, id)) none
    extKeys := row.externalKey.elim tables.extKeys fun key =>
      if tables.extKeys[(plane, key)]? = some id then tables.extKeys.write (plane, key) none
      else tables.extKeys }

theorem Sound.removeNode {row : NodeRow} (sound : Sound nodes edges tables)
    (found : tables.nodes[(plane, id)]? = some row)
    (apart : ∀ (edge : EdgeId) (other : EdgeRow), tables.edges[(plane, edge)]? = some other →
      other.src ≠ id ∧ other.dst ≠ id) :
    Sound nodes edges (tables.withoutNode plane id row) :=
  sound.of_subset (sound.exact.removeNode found apart) rfl rfl
    (sound.nodeWritten found (fun _ absent => nomatch absent)) sound.edgeKept
    (fun _ member => member)

/-! ### Edges -/

/-- An edge set aside for is written nowhere. -/
theorem Sound.freshEdge {edge : EdgeId} (sound : Sound nodes edges tables) (free : edge ∈ edges)
    (plane : PlaneId) : (plane, edge) ∉ tables.edges :=
  fun member => (sound.edgeIds plane edge member).2 free

theorem Sound.insertEdge {row : EdgeRow} (sound : Sound nodes edges tables) (free : id ∈ edges)
    (src : (plane, row.src) ∈ tables.nodes) (dst : (plane, row.dst) ∈ tables.nodes)
    (named : row.ty ∈ tables.dictNames .edgeType) :
    Sound nodes (edges \ {id}) (tables.applyAll (edgeWrites plane id row)) := by
  have exact := sound.exact.insertEdge (sound.freshEdge free plane) src dst
  rw [applyAll_edgeWrites] at exact ⊢
  refine ⟨exact, sound.nodeIds, ?_, sound.dictIds, sound.labels, ?_, sound.planeIds,
    sound.freeNodes, fun id free => sound.freeEdges id free.1⟩
  · intro p edge member
    simp only [mem_write] at member
    split at member
    · rename_i same
      cases same
      exact ⟨sound.freeEdges id free, fun still => still.2 rfl⟩
    · exact ⟨(sound.edgeIds p edge member).1, fun still => (sound.edgeIds p edge member).2 still.1⟩
  · intro key other held
    rw [getElem?_write] at held
    split at held
    · rw [← Option.some.inj held]
      exact named
    · exact sound.types key other held

theorem Sound.removeEdge (sound : Sound nodes edges tables) (plane : PlaneId) (id : EdgeId) :
    Sound nodes edges (tables.applyAll (edgeDeletes tables plane id)) := by
  have exact := sound.exact.removeEdge plane id
  rw [applyAll_edgeDeletes] at exact ⊢
  cases found : tables.edges[(plane, id)]? with
  | none => exact sound
  | some row =>
    rw [found] at exact
    exact sound.of_subset exact rfl rfl sound.nodeKept
      (sound.edgeWritten found (fun _ absent => nomatch absent)) (fun _ member => member)

theorem Sound.rewriteEdge (sound : Sound nodes edges tables)
    (found : tables.edges[(plane, id)]? = some row) (props : Properties) :
    Sound nodes edges (tables.apply (.edge (plane, id) (some { row with props := props }))) := by
  refine sound.of_subset (sound.exact.rewriteEdge found) rfl rfl sound.nodeKept
    (sound.edgeWritten found ?_) (fun _ member => member)
  rintro _ ⟨⟩
  exact sound.types _ row found

/-- The rows of a type change. -/
def retypeWrites (plane : PlaneId) (id : EdgeId) (row : EdgeRow) (ty : ℕ) : List Write :=
  (if ty ≠ row.ty then moveWrites plane id row { row with ty := ty } else []) ++
    [.edge (plane, id) (some { row with ty := ty })]

theorem applyAll_retypeWrites {ty : ℕ} :
    tables.applyAll (retypeWrites plane id row ty) =
      { tables with
        edges := tables.edges.write (plane, id) (some { row with ty := ty })
        adj := if ty ≠ row.ty then
            writeAdj (writeAdj tables.adj plane id row none) plane id { row with ty := ty } (some ())
          else tables.adj } := by
  rw [retypeWrites, Tables.applyAll_append]
  split
  · rw [applyAll_moveWrites]
    rfl
  · rfl

theorem Sound.retype {row : EdgeRow} {ty : ℕ} (sound : Sound nodes edges tables)
    (found : tables.edges[(plane, id)]? = some row) (named : ty ∈ tables.dictNames .edgeType) :
    Sound nodes edges (tables.applyAll (retypeWrites plane id row ty)) := by
  have exact := sound.exact.retype found ty
  have kept : ∀ (key : EdgeKey) (other : EdgeRow),
      (tables.edges.write (plane, id) (some { row with ty := ty }))[key]? = some other →
        key ∈ tables.edges ∧ other.ty ∈ tables.dictNames .edgeType := by
    refine sound.edgeWritten found ?_
    rintro _ ⟨⟩
    exact named
  rw [retypeWrites, Tables.applyAll_append]
  by_cases moved : ty ≠ row.ty
  · rw [if_pos moved, applyAll_moveWrites] at exact ⊢
    exact sound.of_subset exact rfl rfl sound.nodeKept kept (fun _ member => member)
  · rw [if_neg moved, Tables.applyAll_nil] at exact ⊢
    exact sound.of_subset exact rfl rfl sound.nodeKept kept (fun _ member => member)

/-! ### Planes -/

/-- A plane record and its name row, written at an id below the counter. -/
theorem Sound.writePlane {name : String} {props : Properties} (sound : Sound nodes edges tables)
    (below : tables.Below .plane id)
    (free : ∀ other, tables.planeNames[name]? = some other → other = id)
    (kept : ∀ row, tables.planes[id]? = some row → row.name = name) :
    Sound nodes edges
      ((tables.apply (.plane id (some ⟨name, props⟩))).apply (.planeName name (some id))) := by
  refine ⟨sound.exact.writePlane free kept, sound.nodeIds, sound.edgeIds, sound.dictIds,
    sound.labels, sound.types, ?_, sound.freeNodes, sound.freeEdges⟩
  intro other member
  simp only [Tables.apply, mem_write] at member
  split at member
  · rename_i same
    exact same ▸ below
  · exact sound.planeIds other member

/-- A row written over a row of its key brings no new key in. -/
theorem mem_of_mem_write {κ ν : Type} [DecidableEq κ] {cmp : κ → κ → Ordering} [TransCmp cmp]
    [LawfulEqCmp cmp] {map : ExtTreeMap κ ν cmp} {key other : κ} {old : ν} {value : Option ν}
    (found : map[key]? = some old) (member : other ∈ map.write key value) : other ∈ map := by
  rw [mem_write] at member
  split at member
  · rename_i same
    exact same ▸ mem_of_getElem? found
  · exact member

/-- A plane the counter has not numbered yet has no record. -/
theorem Sound.unnumbered (sound : Sound nodes edges tables)
    (found : tables.next .plane = some id) : tables.planes[id]? = none := by
  refine getElem?_eq_none fun member => ?_
  have below := (sound.planeIds id member).lt found
  omega

/-- A plane's own name leads to it. -/
theorem Exact.ownName {row : PlaneRecord} (exact : Exact tables)
    (found : tables.planes[id]? = some row) : tables.planeNames[row.name]? = some id :=
  (exact.planeNames row.name id).mpr (by rw [found]; rfl)

theorem Sound.renamePlane {row : PlaneRecord} (sound : Sound nodes edges tables)
    (found : tables.planes[id]? = some row) (free : tables.planeNames[name]? = none) :
    Sound nodes edges (((tables.apply (.planeName row.name none)).apply
      (.plane id (some ⟨name, row.props⟩))).apply (.planeName name (some id))) :=
  sound.of_subset (sound.exact.renamePlane found free) rfl rfl sound.nodeKept sound.edgeKept
    (fun _ => mem_of_mem_write found)

/-! ### Dropping a plane -/

section DeletePrefix

variable {keys : List NodeId} {name : String} {value : Option Unit}

theorem applyAll_nodePlaneDeletes : tables.applyAll (keys.map (.nodePlane · none)) =
    { tables with nodePlane := tables.nodePlane.writeEach keys none } :=
  applyAll_each (·.nodePlane) (fun tables map => { tables with nodePlane := map })
    (fun _ _ => rfl) (fun _ _ => rfl) (fun _ => rfl) (fun _ _ _ => rfl)

theorem applyAll_nodeDeletes {keys : List NodeKey} : tables.applyAll (keys.map (.node · none)) =
    { tables with nodes := tables.nodes.writeEach keys none } :=
  applyAll_each (·.nodes) (fun tables map => { tables with nodes := map })
    (fun _ _ => rfl) (fun _ _ => rfl) (fun _ => rfl) (fun _ _ _ => rfl)

theorem applyAll_edgeDeletesAll {keys : List EdgeKey} :
    tables.applyAll (keys.map (.edge · none)) =
      { tables with edges := tables.edges.writeEach keys none } :=
  applyAll_each (·.edges) (fun tables map => { tables with edges := map })
    (fun _ _ => rfl) (fun _ _ => rfl) (fun _ => rfl) (fun _ _ _ => rfl)

theorem applyAll_adjWrites {side : Side} {keys : List AdjKey} :
    tables.applyAll (keys.map (.adj side · value)) =
      { tables with
        adj := Function.update tables.adj side ((tables.adj side).writeEach keys value) } :=
  applyAll_each (·.adj side)
    (fun tables map => { tables with adj := Function.update tables.adj side map })
    (fun _ _ => rfl) (fun _ _ => by simp) (fun _ => by simp) (fun _ _ _ => by simp)

theorem applyAll_labelDeletes {keys : List LabelKey} :
    tables.applyAll (keys.map (.labelIdx · value)) =
      { tables with labelIdx := tables.labelIdx.writeEach keys value } :=
  applyAll_each (·.labelIdx) (fun tables map => { tables with labelIdx := map })
    (fun _ _ => rfl) (fun _ _ => rfl) (fun _ => rfl) (fun _ _ _ => rfl)

theorem applyAll_extKeyDeletes {keys : List (PlaneId × String)} :
    tables.applyAll (keys.map (.extKey · none)) =
      { tables with extKeys := tables.extKeys.writeEach keys none } :=
  applyAll_each (·.extKeys) (fun tables map => { tables with extKeys := map })
    (fun _ _ => rfl) (fun _ _ => rfl) (fun _ => rfl) (fun _ _ _ => rfl)

theorem applyAll_planeDeletes :
    tables.applyAll (planeDeletes tables plane name) = tables.dropPlane plane name := by
  have sides : ∀ adj : Side → ExtTreeMap AdjKey Unit compare,
      Function.update (Function.update adj .fwd (withoutPlane (adj .fwd) plane)) .rev
        (withoutPlane (adj .rev) plane) = fun side => withoutPlane (adj side) plane := by
    intro adj
    funext side
    cases side <;> simp
  simp only [planeDeletes, deletePrefix, Tables.applyAll_append, applyAll_nodePlaneDeletes,
    applyAll_nodeDeletes, applyAll_edgeDeletesAll, applyAll_adjWrites, applyAll_labelDeletes,
    applyAll_extKeyDeletes]
  simp only [Tables.dropPlane, ← sides]
  rfl

end DeletePrefix

theorem Sound.dropPlane {row : PlaneRecord} (sound : Sound nodes edges tables)
    (found : tables.planes[plane]? = some row) :
    Sound nodes edges (tables.dropPlane plane row.name) := by
  refine sound.of_subset (sound.exact.dropPlane found) rfl rfl ?_ ?_ (fun _ => mem_of_mem_write found)
  · intro key other held
    rw [Tables.dropPlane, getElem?_withoutPlane] at held
    split at held
    · cases held
    · exact sound.nodeKept key other held
  · intro key other held
    rw [Tables.dropPlane, getElem?_withoutPlane] at held
    split at held
    · cases held
    · exact sound.edgeKept key other held

end DrStrange.Graph
