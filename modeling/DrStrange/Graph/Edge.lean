/-
**Edges and adjacency.**

An edge is a record and one entry in each adjacency table, filed under its type: a type change moves
both entries. Endpoints are checked when an edge is inserted, so an edge never leaves its plane.
-/

import DrStrange.Graph.Meta

namespace DrStrange.Graph

open Std Lib

variable {base : Tables}

/-- Direction of an adjacency scan. -/
inductive Dir where
  | out
  | in
  | both
  deriving DecidableEq, Repr

/-- One hop: the neighbour and the edge that reached it. -/
structure Neighbor where
  node : NodeId
  edge : EdgeId
  deriving DecidableEq, Repr

/-- A decoded edge. -/
structure EdgeRecord where
  id : EdgeId
  plane : PlaneId
  src : NodeId
  dst : NodeId
  ty : String
  properties : Properties

/-- Whether the node has a row on the plane. -/
def nodeExists (tables : Tables) (plane : PlaneId) (id : NodeId) : Bool :=
  (tables.nodes[(plane, id)]?).isSome

/-- The rows of an edge: its record and both adjacency entries. -/
def edgeWrites (plane : PlaneId) (id : EdgeId) (row : EdgeRow) : List Write :=
  [.edge (plane, id) (some row), .adj .fwd (row.adjKey plane id .fwd) (some ()),
    .adj .rev (row.adjKey plane id .rev) (some ())]

/-- Writes an edge under an id the caller has allocated. -/
def insertEdge (plane : PlaneId) (id : EdgeId) (src dst : NodeId) (ty : String)
    (props : Properties) : TxnM base Unit := do
  if nodeExists (← view) plane src = false then
    throw (.planeMismatch s!"src node {src} does not exist in plane {plane}")
  else if nodeExists (← view) plane dst = false then
    throw (.planeMismatch s!"dst node {dst} does not exist in plane {plane}")
  else
    let tyId ← internEdgeType ty
    stageAll (edgeWrites plane id ⟨src, dst, tyId, props⟩)

/-- Writes an edge under an id straight off the counter. -/
def Txn.createEdge (plane : PlaneId) (src dst : NodeId) (ty : String) (props : Properties) :
    TxnM base EdgeId := do
  let id ← nextId .edge
  insertEdge plane id src dst ty props
  return id

/-- The record of an edge, decoded. -/
def getEdge (tables : Tables) (plane : PlaneId) (id : EdgeId) : Except Error (Option EdgeRecord) :=
  match tables.edges[(plane, id)]? with
  | none => .ok none
  | some row =>
    match (tables.dictNames .edgeType)[row.ty]? with
    | none => .error (.corrupt s!"dangling edge type id {row.ty}")
    | some ty => .ok (some ⟨id, plane, row.src, row.dst, ty, row.props⟩)

/-- The deletes of an edge's rows; nothing where there is no such edge. -/
def edgeDeletes (tables : Tables) (plane : PlaneId) (id : EdgeId) : List Write :=
  match tables.edges[(plane, id)]? with
  | none => []
  | some row =>
    [.adj .fwd (row.adjKey plane id .fwd) none, .adj .rev (row.adjKey plane id .rev) none,
      .edge (plane, id) none]

/-- Deletes an edge and both of its adjacency entries; an absent edge is no error. -/
def deleteEdge (plane : PlaneId) (id : EdgeId) : TxnM base Unit := do
  stageAll (edgeDeletes (← view) plane id)

/-- Rewrites the properties of an existing edge. -/
def updateEdgeProps (plane : PlaneId) (id : EdgeId) (update : Properties → Properties) :
    TxnM base Unit := do
  let some row := (← view).edges[(plane, id)]? | throw (.notFound s!"edge {id}")
  stage (.edge (plane, id) (some { row with props := update row.props }))

/-- Writes one property of an edge. -/
def setEdgeProp (plane : PlaneId) (id : EdgeId) (key : String) (prop : PropDesc) : TxnM base Unit :=
  updateEdgeProps plane id fun props => props.insert key prop

/-- Takes one property off an edge. -/
def removeEdgeProp (plane : PlaneId) (id : EdgeId) (key : String) : TxnM base Unit :=
  updateEdgeProps plane id fun props => props.erase key

/-- The rows of a type change: both adjacency entries moved. -/
def moveWrites (plane : PlaneId) (id : EdgeId) (row retyped : EdgeRow) : List Write :=
  [.adj .fwd (row.adjKey plane id .fwd) none, .adj .rev (row.adjKey plane id .rev) none,
    .adj .fwd (retyped.adjKey plane id .fwd) (some ()),
    .adj .rev (retyped.adjKey plane id .rev) (some ())]

/-- Changes an existing edge's type and moves its adjacency entries if the type id changes. -/
def setEdgeType (plane : PlaneId) (id : EdgeId) (ty : String) : TxnM base Unit := do
  let some row := (← view).edges[(plane, id)]? | throw (.notFound s!"edge {id}")
  let tyId ← internEdgeType ty
  if tyId ≠ row.ty then
    stageAll (moveWrites plane id row { row with ty := tyId })
  stage (.edge (plane, id) (some { row with ty := tyId }))

/-- The ids of a plane's edges, ascending. -/
def scanEdges (tables : Tables) (plane : PlaneId) : List EdgeId :=
  (tables.edges.keys.filter fun key => key.1 = plane).map Prod.snd

/-- The entries of one adjacency table under a node, in key order. -/
def adjEntries (tables : Tables) (plane : PlaneId) (node : NodeId) (side : Side) : List AdjKey :=
  (tables.adj side).keys.filter fun key => key.1 = plane && key.2.1 = node

def Dir.sides : Dir → List Side
  | .out => [.fwd]
  | .in => [.rev]
  | .both => [.fwd, .rev]

/-- One-hop expansion; an edge type that was never interned has no edges. -/
def neighbors (tables : Tables) (plane : PlaneId) (node : NodeId) (dir : Dir)
    (ty : Option String) : List Neighbor :=
  let hops (keep : ℕ → Bool) : List Neighbor :=
    dir.sides.flatMap fun side =>
      ((adjEntries tables plane node side).filter fun key => keep key.2.2.1).map fun key =>
        ⟨key.2.2.2.1, key.2.2.2.2⟩
  match ty with
  | none => hops fun _ => true
  | some name =>
    match lookupEdgeType tables name with
    | none => []
    | some id => hops fun other => other = id

end DrStrange.Graph
