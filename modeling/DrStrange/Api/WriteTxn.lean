/-
**Write transactions of the database API.**

A `WriteTxn` is a graph transaction on one plane together with what it will hand over when it
commits: the ids it has in reserve, the changes to the plane's summary counters, and the events for
the vector and keyword indexes that were declared when it began. The two kinds of index are mirrored
the same way and differ in what they read off a property.

`madeNodes` and `madeEdges` name every record made so far, by this transaction and by the committed
ones before it, in order; no function reads them.
-/

import DrStrange.Graph.Bulk

namespace DrStrange.Graph

open Std Lib

/-! ### Summary counters -/

/-- Signed changes to a plane's counters, folded into its row at commit. -/
structure CounterDelta where
  nodes : ℤ
  edges : ℤ
  labels : ExtTreeMap String ℤ compare
  edgeTypes : ExtTreeMap String ℤ compare

def CounterDelta.default : CounterDelta := ⟨0, 0, ∅, ∅⟩

def CounterDelta.isEmpty (delta : CounterDelta) : Bool :=
  delta.nodes = 0 && delta.edges = 0 && delta.labels.toList.all (·.2 = 0) &&
    delta.edgeTypes.toList.all (·.2 = 0)

/-- `change` added to the entry of a name. -/
def shiftName (change : ℤ) (names : ExtTreeMap String ℤ compare) (name : String) :
    ExtTreeMap String ℤ compare :=
  names.insert name (names.getD name 0 + change)

def CounterDelta.nodeAdded (delta : CounterDelta) (labels : List String) : CounterDelta :=
  { delta with nodes := delta.nodes + 1, labels := labels.foldl (shiftName 1) delta.labels }

def CounterDelta.nodeRemoved (delta : CounterDelta) (labels : List String) : CounterDelta :=
  { delta with nodes := delta.nodes - 1, labels := labels.foldl (shiftName (-1)) delta.labels }

def CounterDelta.edgeAdded (delta : CounterDelta) (ty : String) : CounterDelta :=
  { delta with edges := delta.edges + 1, edgeTypes := shiftName 1 delta.edgeTypes ty }

def CounterDelta.edgeRemoved (delta : CounterDelta) (ty : String) : CounterDelta :=
  { delta with edges := delta.edges - 1, edgeTypes := shiftName (-1) delta.edgeTypes ty }

/-- The labels of a node replaced. -/
def CounterDelta.relabelled (delta : CounterDelta) (old new : List String) : CounterDelta :=
  { delta with labels := new.foldl (shiftName 1) (old.foldl (shiftName (-1)) delta.labels) }

def CounterDelta.retyped (delta : CounterDelta) (old new : String) : CounterDelta :=
  { delta with edgeTypes := shiftName 1 (shiftName (-1) delta.edgeTypes old) new }

/-- `saturating_add_signed`: a counter stops at zero. -/
def shiftCount (count : ℕ) (change : ℤ) : ℕ := (count + change).toNat

/-- Named counters shifted; those at zero are dropped. -/
def shiftCounts (counts : ExtTreeMap String ℕ compare) (changes : ExtTreeMap String ℤ compare) :
    ExtTreeMap String ℕ compare :=
  (changes.foldl (fun counts name change =>
    counts.insert name (shiftCount (counts.getD name 0) change)) counts).filter
      fun _ count => 0 < count

def CounterDelta.apply (delta : CounterDelta) (stored : PlaneCounters) : PlaneCounters where
  nodes := shiftCount stored.nodes delta.nodes
  edges := shiftCount stored.edges delta.edges
  labels := shiftCounts stored.labels delta.labels
  edgeTypes := shiftCounts stored.edgeTypes delta.edgeTypes

/-! ### Index events -/

def PropDesc.value : PropDesc → PropValue
  | .mk _ value => value

/-- What a vector index reads off a value. -/
def PropValue.asVector : PropValue → Option (List UInt32)
  | .vector entries => some entries
  | _ => none

/-- What a keyword index reads off a value. -/
def PropValue.asText : PropValue → Option String
  | .str text => some text
  | _ => none

/-- A change to an index, buffered during a write and applied at commit. -/
inductive IndexEvent (α : Type) where
  | upsert (label property : String) (node : NodeId) (value : α)
  | remove (label property : String) (node : NodeId)
  | removeNode (node : NodeId)

section Events

variable {α σ : Type}

/-- What the index on `property` reads off a node's properties. -/
def indexed (read : PropValue → Option α) (props : Properties) (property : String) : Option α :=
  (props[property]?).bind fun prop => read prop.value

/-- The events of a node with these labels and properties, one for each index on one of its labels. -/
def nodeEvents (read : PropValue → Option α) (decls : List (String × String × σ)) (node : NodeId)
    (labels : List String) (props : Properties) : List (IndexEvent α) :=
  decls.filterMap fun (label, property, _) =>
    if label ∈ labels then
      match indexed read props property with
      | some value => some (.upsert label property node value)
      | none => some (.remove label property node)
    else none

/-- The events of a label change: one for each index whose label the node gained or lost. -/
def labelsEvents (read : PropValue → Option α) (decls : List (String × String × σ)) (node : NodeId)
    (old new : List String) (props : Properties) : List (IndexEvent α) :=
  decls.filterMap fun (label, property, _) =>
    if decide (label ∈ old) = decide (label ∈ new) then none
    else
      match indexed read props property with
      | some value =>
        if label ∈ new then some (.upsert label property node value)
        else some (.remove label property node)
      | none => none

/-- The events of one property change on a node with these labels. -/
def propEvents (read : PropValue → Option α) (decls : List (String × String × σ)) (node : NodeId)
    (key : String) (value : Option PropValue) (labels : List String) : List (IndexEvent α) :=
  decls.filterMap fun (label, property, _) =>
    if property = key ∧ label ∈ labels then
      match value.bind read with
      | some value => some (.upsert label property node value)
      | none => some (.remove label property node)
    else none

/-- The events of the nodes a bulk load made: nothing is removed for a new node. -/
def bulkEvents (read : PropValue → Option α) (decls : List (String × String × σ))
    (nodes : List (NodeId × BulkNode)) : List (IndexEvent α) :=
  nodes.flatMap fun (id, node) => decls.filterMap fun (label, property, _) =>
    if label ∈ node.labels then
      (indexed read node.props property).map fun value => .upsert label property id value
    else none

end Events

/-! ### The transaction -/

structure WriteTxn (base : Tables) where
  plane : PlaneId
  txn : Txn base
  ids : IdAllocator
  decls : List (String × String × Metric)
  events : List (IndexEvent (List UInt32))
  kwDecls : List (String × String × Language)
  kwEvents : List (IndexEvent String)
  counters : CounterDelta
  madeNodes : List NodeId
  madeEdges : List EdgeId

variable {base : Tables} {α : Type}

/-- A transaction on a plane, with the indexes declared on it now. -/
def WriteTxn.begin (base : Tables) (plane : PlaneId) (decls : List (String × String × Metric))
    (kwDecls : List (String × String × Language)) (madeNodes : List NodeId)
    (madeEdges : List EdgeId) : WriteTxn base :=
  ⟨plane, .start base, .new, decls, [], kwDecls, [], .default, madeNodes, madeEdges⟩

/-- API code over a write transaction. -/
abbrev WriteM (base : Tables) := EStateM Error (WriteTxn base)

/-- Graph code run on the transaction's plane. -/
def onTxn (run : PlaneId → TxnM base α) : WriteM base α := fun write =>
  match run write.plane write.txn with
  | .ok result txn => .ok result { write with txn := txn }
  | .error error txn => .error error { write with txn := txn }

/-- A read of the plane, on the tables as the transaction sees them. -/
def reading (read : Tables → PlaneId → Except Error α) : WriteM base α := fun write =>
  match read write.txn.tables write.plane with
  | .ok result => .ok result write
  | .error error => .error error write

def nextNodeId : WriteM base NodeId := do
  let batch := (← get).ids.node
  let (id, batch) ← onTxn fun _ => batch.take .node
  modify fun write => { write with ids := { write.ids with node := batch } }
  return id

def nextEdgeId : WriteM base EdgeId := do
  let batch := (← get).ids.edge
  let (id, batch) ← onTxn fun _ => batch.take .edge
  modify fun write => { write with ids := { write.ids with edge := batch } }
  return id

/-- A node made, for the counters and for both kinds of index. -/
def WriteTxn.nodeMade (write : WriteTxn base) (id : NodeId) (labels : List String)
    (props : Properties) : WriteTxn base :=
  { write with
    madeNodes := write.madeNodes ++ [id]
    counters := write.counters.nodeAdded labels
    events := write.events ++ nodeEvents PropValue.asVector write.decls id labels props
    kwEvents := write.kwEvents ++ nodeEvents PropValue.asText write.kwDecls id labels props }

/-- `create_node` without a key, `create_node_with_key` with one. -/
def createNodeAs (key : Option String) (labels : List String) (props : Properties) :
    WriteM base NodeId := do
  let id ← nextNodeId
  onTxn fun plane => insertNode plane id key labels props
  modify fun write => write.nodeMade id labels props
  return id

def createNode (labels : List String) (props : Properties) : WriteM base NodeId :=
  createNodeAs none labels props

def createNodeWithKey (key : String) (labels : List String) (props : Properties) :
    WriteM base NodeId :=
  createNodeAs (some key) labels props

def createEdge (src dst : NodeId) (ty : String) (props : Properties) : WriteM base EdgeId := do
  let id ← nextEdgeId
  onTxn fun plane => insertEdge plane id src dst ty props
  modify fun write => { write with
    madeEdges := write.madeEdges ++ [id]
    counters := write.counters.edgeAdded ty }
  return id

/-- The types of a node's edges counted off, one after the other. -/
def countRemoved : List EdgeId → WriteM base Unit
  | [] => return
  | id :: ids => do
    match ← reading fun tables plane => getEdge tables plane id with
    | some edge =>
      modify fun write => { write with counters := write.counters.edgeRemoved edge.ty }
    | none => pure ()
    countRemoved ids

/-- The edges at a node, from its neighbours, each once. -/
def neighborEdges (tables : Tables) (plane : PlaneId) (id : NodeId) : List EdgeId :=
  (((neighbors tables plane id .both none).map Neighbor.edge).mergeSort (· ≤ ·)).dedup

/-- What a delete takes off the counters: the node's labels and the types of its edges. -/
def countNode (id : NodeId) : WriteM base Unit := do
  match ← reading fun tables plane => getNode tables plane id with
  | some node =>
    let incident ← reading fun tables plane => .ok (neighborEdges tables plane id)
    countRemoved incident
    modify fun write => { write with counters := write.counters.nodeRemoved node.labels }
  | none => return

/-- Deletes a node with every edge at it; an absent node is no error. -/
def deleteNodeTxn (id : NodeId) : WriteM base Unit := do
  countNode id
  onTxn fun plane => deleteNode plane id
  modify fun write => { write with
    events := write.events ++ [.removeNode id]
    kwEvents := write.kwEvents ++ [.removeNode id] }

def deleteEdgeTxn (id : EdgeId) : WriteM base Unit := do
  match ← reading fun tables plane => getEdge tables plane id with
  | some edge => modify fun write => { write with counters := write.counters.edgeRemoved edge.ty }
  | none => pure ()
  onTxn fun plane => deleteEdge plane id

/-- The events of a property change, from the labels the node has now. -/
def recordPropEvent (id : NodeId) (key : String) (value : Option PropValue) : WriteM base Unit := do
  if (← get).decls.any (fun decl => decl.2.1 = key) then
    match ← reading fun tables plane => getNode tables plane id with
    | some node => modify fun write => { write with
        events := write.events ++
          propEvents PropValue.asVector write.decls id key value node.labels }
    | none => return
  else return

def recordKwPropEvent (id : NodeId) (key : String) (value : Option PropValue) :
    WriteM base Unit := do
  if (← get).kwDecls.any (fun decl => decl.2.1 = key) then
    match ← reading fun tables plane => getNode tables plane id with
    | some node => modify fun write => { write with
        kwEvents := write.kwEvents ++
          propEvents PropValue.asText write.kwDecls id key value node.labels }
    | none => return
  else return

def setProp (id : NodeId) (key : String) (prop : PropDesc) : WriteM base Unit := do
  onTxn fun plane => setNodeProp plane id key prop
  recordPropEvent id key (some prop.value)
  recordKwPropEvent id key (some prop.value)

def removeProp (id : NodeId) (key : String) : WriteM base Unit := do
  onTxn fun plane => removeNodeProp plane id key
  recordPropEvent id key none
  recordKwPropEvent id key none

/-- Replaces a node's labels and adjusts its place in every index whose label it gained or lost. -/
def setLabels (id : NodeId) (labels : List String) : WriteM base Unit := do
  match ← reading fun tables plane => getNode tables plane id with
  | none => throw (.notFound s!"node {id}")
  | some node =>
    onTxn fun plane => setNodeLabels plane id labels
    modify fun write => { write with
      counters := write.counters.relabelled node.labels labels
      events := write.events ++
        labelsEvents PropValue.asVector write.decls id node.labels labels node.properties
      kwEvents := write.kwEvents ++
        labelsEvents PropValue.asText write.kwDecls id node.labels labels node.properties }

def setEdgePropTxn (id : EdgeId) (key : String) (prop : PropDesc) : WriteM base Unit :=
  onTxn fun plane => setEdgeProp plane id key prop

def removeEdgePropTxn (id : EdgeId) (key : String) : WriteM base Unit :=
  onTxn fun plane => removeEdgeProp plane id key

def setEdgeTypeTxn (id : EdgeId) (ty : String) : WriteM base Unit := do
  match ← reading fun tables plane => getEdge tables plane id with
  | some edge =>
    if edge.ty ≠ ty then
      modify fun write => { write with counters := write.counters.retyped edge.ty ty }
  | none => pure ()
  onTxn fun plane => setEdgeType plane id ty

/-! ### Bulk loads -/

def setProps (id : NodeId) : List (String × PropDesc) → WriteM base Unit
  | [] => return
  | (key, prop) :: props => do
    setProp id key prop
    setProps id props

/-- The lines of kept nodes merged into them: properties written over, labels replaced if there
are any. -/
def mergeKept (nodes : List BulkNode) : List (ℕ × NodeId) → WriteM base Unit
  | [] => return
  | (position, id) :: existing => do
    match nodes[position]? with
    | some node =>
      setProps id node.props.toList
      if node.labels.isEmpty then mergeKept nodes existing
      else
        setLabels id node.labels
        mergeKept nodes existing
    | none => mergeKept nodes existing

/-- The lines of a load that made a node, with the id each got. -/
def madeLines (nodes : List BulkNode) (stats : BulkStats) : List (NodeId × BulkNode) :=
  ((stats.nodeIds.zip nodes).zipIdx.filter fun line =>
    line.2 ∉ stats.existing.map Prod.fst).map Prod.fst

def bulkUpsert (nodes : List BulkNode) (edges : List BulkEdge) (onConflict : OnConflict) :
    WriteM base BulkStats := do
  let (stats, edgeIds) ← onTxn fun plane => bulkLoadIds plane nodes edges onConflict
  modify fun write => { write with
    madeNodes := write.madeNodes ++ stats.created
    madeEdges := write.madeEdges ++ edgeIds }
  if onConflict = .update then
    mergeKept nodes stats.existing
  modify fun write => { write with
    counters := (edges.map BulkEdge.ty).foldl CounterDelta.edgeAdded
      ((madeLines nodes stats).foldl (fun delta line => delta.nodeAdded line.2.labels) write.counters)
    events := write.events ++ bulkEvents PropValue.asVector write.decls (madeLines nodes stats)
    kwEvents := write.kwEvents ++ bulkEvents PropValue.asText write.kwDecls (madeLines nodes stats) }
  return stats

/-- `WriteTxn::bulk_load_edges`. -/
def bulkLoadEdgesTxn (edges : List BulkEdgeById) : WriteM base ℕ := do
  let (count, ids) ← onTxn fun plane => bulkLoadEdges plane edges
  modify fun write => { write with
    madeEdges := write.madeEdges ++ ids
    counters := (edges.map BulkEdgeById.ty).foldl CounterDelta.edgeAdded write.counters }
  return count

/-! ### Commit -/

/-- The counters folded into the plane's row, the sequence advanced and the time stamped. -/
def sealCommit (millis : ℤ) : WriteM base ℕ := do
  let delta := (← get).counters
  if delta.isEmpty = false then
    onTxn fun plane => do
      let stored := ((← view).counters[plane]?).getD .zero
      stage (.counters plane (some (delta.apply stored)))
  let seq ← onTxn fun _ => bumpCommitSeq
  onTxn fun _ => writeCommitTime millis
  return seq

/-- The methods of a write transaction. -/
inductive WriteOp where
  | createNode (labels : List String) (props : Properties)
  | createNodeWithKey (key : String) (labels : List String) (props : Properties)
  | createEdge (src dst : NodeId) (ty : String) (props : Properties)
  | bulkUpsert (nodes : List BulkNode) (edges : List BulkEdge) (onConflict : OnConflict)
  | deleteNode (id : NodeId)
  | deleteEdge (id : EdgeId)
  | setProp (id : NodeId) (key : String) (prop : PropDesc)
  | removeProp (id : NodeId) (key : String)
  | setLabels (id : NodeId) (labels : List String)
  | setEdgeProp (id : EdgeId) (key : String) (prop : PropDesc)
  | removeEdgeProp (id : EdgeId) (key : String)
  | setEdgeType (id : EdgeId) (ty : String)

/-- One method called; its result is not used. -/
def WriteOp.call : WriteOp → WriteM base Unit
  | .createNode labels props => discard (Graph.createNode labels props)
  | .createNodeWithKey key labels props => discard (Graph.createNodeWithKey key labels props)
  | .createEdge src dst ty props => discard (Graph.createEdge src dst ty props)
  | .bulkUpsert nodes edges onConflict => discard (Graph.bulkUpsert nodes edges onConflict)
  | .deleteNode id => deleteNodeTxn id
  | .deleteEdge id => deleteEdgeTxn id
  | .setProp id key prop => Graph.setProp id key prop
  | .removeProp id key => Graph.removeProp id key
  | .setLabels id labels => Graph.setLabels id labels
  | .setEdgeProp id key prop => setEdgePropTxn id key prop
  | .removeEdgeProp id key => removeEdgePropTxn id key
  | .setEdgeType id ty => setEdgeTypeTxn id ty

/-- The transaction after a call, whether it returned or failed: the caller may go on either way. -/
def WriteOp.after (op : WriteOp) (write : WriteTxn base) : WriteTxn base :=
  match (op.call : WriteM base Unit) write with
  | .ok _ next => next
  | .error _ next => next

def WriteTxn.afterAll (write : WriteTxn base) (ops : List WriteOp) : WriteTxn base :=
  ops.foldl (fun write op => op.after write) write

end DrStrange.Graph
