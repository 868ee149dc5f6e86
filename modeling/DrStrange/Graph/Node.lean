/-
**Nodes: records, external keys, labels.**

A node is a record, its `node_plane` row, one label-index entry for each label and, if it carries a
key, the row that maps the key to it. Deleting a node first deletes every edge that touches it.
-/

import DrStrange.Graph.Edge

namespace DrStrange.Graph

open Std Lib

variable {base : Tables}

/-- A decoded node. -/
structure NodeRecord where
  id : NodeId
  plane : PlaneId
  externalKey : Option String
  labels : List String
  properties : Properties

/-- The node a key is bound to. -/
def nodeIdByExternalKey (tables : Tables) (plane : PlaneId) (key : String) : Option NodeId :=
  tables.extKeys[(plane, key)]?

/-- The label-index entries of a node, written with `row`. -/
def labelWrites (plane : PlaneId) (id : NodeId) (labels : List ℕ) (row : Option Unit) :
    List Write :=
  labels.map fun label => .labelIdx (plane, label, id) row

/-- The row that maps a node's key to it. -/
def keyWrites (plane : PlaneId) (id : NodeId) : Option String → List Write
  | some key => [.extKey (plane, key) (some id)]
  | none => []

/-- The rows of a node. -/
def nodeWrites (plane : PlaneId) (id : NodeId) (row : NodeRow) : List Write :=
  [.node (plane, id) (some row), .nodePlane id (some plane)] ++
    labelWrites plane id row.labels (some ()) ++ keyWrites plane id row.externalKey

/-- The key a node would carry, if a live node of the plane owns it. -/
def takenKey (tables : Tables) (plane : PlaneId) : Option String → Option String
  | some key => if (nodeIdByExternalKey tables plane key).isSome then some key else none
  | none => none

/-- Writes a node under an id the caller has allocated. -/
def insertNode (plane : PlaneId) (id : NodeId) (externalKey : Option String)
    (labels : List String) (props : Properties) : TxnM base Unit := do
  match takenKey (← view) plane externalKey with
  | some key => throw (.conflict s!"external key '{key}' already exists in plane {plane}")
  | none =>
    let labelIds ← internLabels labels
    stageAll (nodeWrites plane id ⟨externalKey, labelIds, props⟩)

/-- `create_node` without a key, `create_node_with_key` with one: an id straight off the counter. -/
def createNodeImpl (plane : PlaneId) (externalKey : Option String) (labels : List String)
    (props : Properties) : TxnM base NodeId := do
  let id ← nextId .node
  insertNode plane id externalKey labels props
  return id

/-- A node under the next id. -/
def Txn.createNode (plane : PlaneId) (labels : List String) (props : Properties) :
    TxnM base NodeId :=
  createNodeImpl plane none labels props

/-- A node under the next id, bound to a free key. -/
def Txn.createNodeWithKey (plane : PlaneId) (externalKey : String) (labels : List String)
    (props : Properties) : TxnM base NodeId :=
  createNodeImpl plane (some externalKey) labels props

/-- A node with its labels resolved. -/
def getNode (tables : Tables) (plane : PlaneId) (id : NodeId) : Except Error (Option NodeRecord) :=
  match tables.nodes[(plane, id)]? with
  | none => .ok none
  | some row => do
    let labels ← row.labels.mapM (resolveLabel tables)
    return some ⟨id, plane, row.externalKey, labels, row.props⟩

/-- The record of the node a key is bound to. -/
def getNodeByExternalKey (tables : Tables) (plane : PlaneId) (key : String) :
    Except Error (Option NodeRecord) :=
  match nodeIdByExternalKey tables plane key with
  | some id => getNode tables plane id
  | none => .ok none

/-- Rewrites the properties of an existing node. -/
def updateNodeProps (plane : PlaneId) (id : NodeId) (update : Properties → Properties) :
    TxnM base Unit := do
  let some row := (← view).nodes[(plane, id)]? | throw (.notFound s!"node {id}")
  stage (.node (plane, id) (some { row with props := update row.props }))

/-- Writes one property of a node. -/
def setNodeProp (plane : PlaneId) (id : NodeId) (key : String) (prop : PropDesc) : TxnM base Unit :=
  updateNodeProps plane id fun props => props.insert key prop

/-- Takes one property off a node. -/
def removeNodeProp (plane : PlaneId) (id : NodeId) (key : String) : TxnM base Unit :=
  updateNodeProps plane id fun props => props.erase key

/-- The rows of a label change: the old entries deleted, the new put, the record rewritten. -/
def relabelWrites (plane : PlaneId) (id : NodeId) (row : NodeRow) (labels : List ℕ) : List Write :=
  labelWrites plane id row.labels none ++ labelWrites plane id labels (some ()) ++
    [.node (plane, id) (some { row with labels := labels })]

/-- Replaces a node's labels; the new ones are interned first. -/
def setNodeLabels (plane : PlaneId) (id : NodeId) (labels : List String) : TxnM base Unit := do
  let some row := (← view).nodes[(plane, id)]? | throw (.notFound s!"node {id}")
  let labelIds ← internLabels labels
  stageAll (relabelWrites plane id row labelIds)

/-- The ids of the edges at a node, from both adjacency tables, sorted, each once. -/
def incidentEdges (tables : Tables) (plane : PlaneId) (id : NodeId) : List EdgeId :=
  (([Side.fwd, Side.rev].flatMap fun side =>
    (adjEntries tables plane id side).map fun key => key.2.2.2.2).mergeSort (· ≤ ·)).dedup

def deleteEdges (plane : PlaneId) : List EdgeId → TxnM base Unit
  | [] => return
  | id :: ids => do
    deleteEdge plane id
    deleteEdges plane ids

/-- The delete of the row that maps a node's key to it, if the row still points at the node. -/
def keyDeletes (tables : Tables) (plane : PlaneId) (id : NodeId) : Option String → List Write
  | some key =>
    if nodeIdByExternalKey tables plane key = some id then [.extKey (plane, key) none] else []
  | none => []

/-- Deletes a node and every edge that touches it; an absent node is no error. -/
def deleteNode (plane : PlaneId) (id : NodeId) : TxnM base Unit := do
  let some row := (← view).nodes[(plane, id)]? | return
  deleteEdges plane (incidentEdges (← view) plane id)
  stageAll (labelWrites plane id row.labels none)
  stageAll (keyDeletes (← view) plane id row.externalKey)
  stage (.nodePlane id none)
  stage (.node (plane, id) none)

/-- The ids of the nodes that carry a label, ascending; an unknown label has none. -/
def scanLabel (tables : Tables) (plane : PlaneId) (label : String) : List NodeId :=
  match lookupLabel tables label with
  | none => []
  | some id =>
    (tables.labelIdx.keys.filter fun key => key.1 = plane && key.2.1 = id).map fun key => key.2.2

end DrStrange.Graph
