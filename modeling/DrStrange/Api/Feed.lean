/-
**The change feed.**

Every method of a write transaction that returns records which node or edge it made, changed or
deleted. The buffer follows 256 entities; what happens to others only sets its flag. After the commit
the entries of an entity are folded into one change, and the record of each entity that was not
deleted is read back from the store: by then another transaction may have committed.
-/

import DrStrange.Api.Database
import DrStrange.Lib.Journal

namespace DrStrange.Graph

open Std Lib

variable {base : Tables} {α : Type}

/-! ### The buffer -/

/-- Whether a change is of a node or of an edge. -/
inductive ChangeKind where
  | node
  | edge
  deriving DecidableEq, Repr

/-- What happened to an entity in a committed transaction. -/
abbrev ChangeOp := Note

/-- A node or an edge, by its id. -/
abbrev Entity := ChangeKind × ℕ

/-- How many entities the feed of one commit follows. -/
def changeDetailCap : ℕ := 256

structure ChangeBuffer where
  entries : List (Entity × ChangeOp)
  tracked : List Entity
  overflowed : Bool

def ChangeBuffer.default : ChangeBuffer := ⟨[], [], false⟩

def ChangeBuffer.push (buffer : ChangeBuffer) (entity : Entity) (op : ChangeOp) : ChangeBuffer :=
  if entity ∈ buffer.tracked then { buffer with entries := buffer.entries ++ [(entity, op)] }
  else if buffer.tracked.length < changeDetailCap then
    { buffer with
      entries := buffer.entries ++ [(entity, op)]
      tracked := entity :: buffer.tracked }
  else { buffer with overflowed := true }

def ChangeBuffer.isEmpty (buffer : ChangeBuffer) : Bool :=
  buffer.entries.isEmpty && !buffer.overflowed

/-! ### Recording -/

/-- A write transaction with its buffer. -/
structure FeedTxn (base : Tables) where
  write : WriteTxn base
  changes : ChangeBuffer

/-- Methods that record. -/
abbrev FeedM (base : Tables) := EStateM Error (FeedTxn base)

/-- What a method does to the transaction proper. -/
def working (run : WriteM base α) : FeedM base α := fun feed =>
  match run feed.write with
  | .ok result write => .ok result { feed with write := write }
  | .error error write => .error error { feed with write := write }

def recordChange (entity : Entity) (op : ChangeOp) : FeedM base Unit :=
  modify fun feed => { feed with changes := feed.changes.push entity op }

/-- A method that records one change once it has returned. -/
def recording (run : WriteM base α) (change : α → Entity × ChangeOp) : FeedM base α := do
  let result ← working run
  recordChange (change result).1 (change result).2
  return result

/-- `create_node` and `create_node_with_key`. -/
def createNodeRecorded (key : Option String) (labels : List String) (props : Properties) :
    FeedM base NodeId :=
  recording (createNodeAs key labels props) fun id => ((.node, id), .created)

def createEdgeRecorded (src dst : NodeId) (ty : String) (props : Properties) : FeedM base EdgeId :=
  recording (createEdge src dst ty props) fun id => ((.edge, id), .created)

/-- `delete_node`: the edges it takes along are not recorded. -/
def deleteNodeRecorded (id : NodeId) : FeedM base Unit :=
  recording (deleteNodeTxn id) fun _ => ((.node, id), .deleted)

def deleteEdgeRecorded (id : EdgeId) : FeedM base Unit :=
  recording (deleteEdgeTxn id) fun _ => ((.edge, id), .deleted)

def setPropRecorded (id : NodeId) (key : String) (prop : PropDesc) : FeedM base Unit :=
  recording (setProp id key prop) fun _ => ((.node, id), .updated)

def removePropRecorded (id : NodeId) (key : String) : FeedM base Unit :=
  recording (removeProp id key) fun _ => ((.node, id), .updated)

def setLabelsRecorded (id : NodeId) (labels : List String) : FeedM base Unit :=
  recording (setLabels id labels) fun _ => ((.node, id), .updated)

def setEdgePropRecorded (id : EdgeId) (key : String) (prop : PropDesc) : FeedM base Unit :=
  recording (setEdgePropTxn id key prop) fun _ => ((.edge, id), .updated)

def removeEdgePropRecorded (id : EdgeId) (key : String) : FeedM base Unit :=
  recording (removeEdgePropTxn id key) fun _ => ((.edge, id), .updated)

def setEdgeTypeRecorded (id : EdgeId) (ty : String) : FeedM base Unit :=
  recording (setEdgeTypeTxn id ty) fun _ => ((.edge, id), .updated)

def setPropsRecorded (id : NodeId) : List (String × PropDesc) → FeedM base Unit
  | [] => return
  | (key, prop) :: props => do
    setPropRecorded id key prop
    setPropsRecorded id props

def mergeKeptRecorded (nodes : List BulkNode) : List (ℕ × NodeId) → FeedM base Unit
  | [] => return
  | (position, id) :: existing => do
    match nodes[position]? with
    | some node =>
      setPropsRecorded id node.props.toList
      if node.labels.isEmpty then mergeKeptRecorded nodes existing
      else
        setLabelsRecorded id node.labels
        mergeKeptRecorded nodes existing
    | none => mergeKeptRecorded nodes existing

/-- The nodes a load made, until the buffer has run over. -/
def recordCreated : List NodeId → FeedM base Unit
  | [] => return
  | id :: ids => do
    if (← get).changes.overflowed then return
    else
      recordChange (.node, id) .created
      recordCreated ids

/-- `bulk_upsert`: its edges are not recorded. -/
def bulkUpsertRecorded (nodes : List BulkNode) (edges : List BulkEdge) (onConflict : OnConflict) :
    FeedM base BulkStats := do
  let (stats, edgeIds) ← working (onTxn fun plane => bulkLoadIds plane nodes edges onConflict)
  working (modify fun write => { write with
    madeNodes := write.madeNodes ++ stats.created
    madeEdges := write.madeEdges ++ edgeIds })
  if onConflict = .update then
    mergeKeptRecorded nodes stats.existing
  recordCreated stats.created
  working (modify fun write => { write with
    counters := (edges.map BulkEdge.ty).foldl CounterDelta.edgeAdded
      ((madeLines nodes stats).foldl (fun delta line => delta.nodeAdded line.2.labels) write.counters)
    events := write.events ++ bulkEvents PropValue.asVector write.decls (madeLines nodes stats)
    kwEvents := write.kwEvents ++ bulkEvents PropValue.asText write.kwDecls (madeLines nodes stats) })
  return stats

/-- One method called. -/
def WriteOp.recorded : WriteOp → FeedM base Unit
  | .createNode labels props => discard (createNodeRecorded none labels props)
  | .createNodeWithKey key labels props => discard (createNodeRecorded (some key) labels props)
  | .createEdge src dst ty props => discard (createEdgeRecorded src dst ty props)
  | .bulkUpsert nodes edges onConflict => discard (bulkUpsertRecorded nodes edges onConflict)
  | .deleteNode id => deleteNodeRecorded id
  | .deleteEdge id => deleteEdgeRecorded id
  | .setProp id key prop => setPropRecorded id key prop
  | .removeProp id key => removePropRecorded id key
  | .setLabels id labels => setLabelsRecorded id labels
  | .setEdgeProp id key prop => setEdgePropRecorded id key prop
  | .removeEdgeProp id key => removeEdgePropRecorded id key
  | .setEdgeType id ty => setEdgeTypeRecorded id ty

/-- The transaction and its buffer after a method, whether it returned or failed. -/
def leaves (recorded : FeedM base α) (feed : FeedTxn base) : FeedTxn base :=
  match recorded feed with
  | .ok _ next => next
  | .error _ next => next

def FeedTxn.after (feed : FeedTxn base) (op : WriteOp) : FeedTxn base := leaves op.recorded feed

def FeedTxn.afterAll (feed : FeedTxn base) (ops : List WriteOp) : FeedTxn base :=
  ops.foldl FeedTxn.after feed

/-- The transaction of a list of method calls, with its buffer. -/
def Database.feedTxn (host : Host) (db : Database) (plane : PlaneId) (ops : List WriteOp) :
    FeedTxn db.tables :=
  FeedTxn.afterAll ⟨WriteTxn.begin db.tables plane (declared (vectorKind host) db.vectors plane)
    (declared (keywordKind host) db.keywords plane) db.madeNodes db.madeEdges, .default⟩ ops

/-! ### Change sets -/

/-- A property map without embeddings and without the properties that start with an underscore. -/
def sanitizedProperties (props : Properties) : Properties :=
  props.filter fun key prop => key.toList.head? ≠ some '_' && prop.value.asVector.isNone

/-- One change of a commit: with the record, if the entity was not deleted. -/
structure EntityChange where
  kind : ChangeKind
  op : ChangeOp
  id : ℕ
  labels : List String
  node : Option NodeRecord
  edge : Option EdgeRecord

/-- The changes of one commit. -/
structure ChangeSet where
  plane : PlaneId
  seq : ℕ
  changes : List EntityChange
  truncated : Bool

/-- The entries of each entity folded into one change or none, in the order in which the entities
were first seen. -/
def resolved (entries : List (Entity × ChangeOp)) : List (Entity × ChangeOp) :=
  (entries.map Prod.fst).eraseDups.filterMap fun entity =>
    (net entries entity).map fun op => (entity, op)

/-- One change, with the record a read finds. -/
def readChange (tables : Tables) (plane : PlaneId) : Entity × ChangeOp → Except Error EntityChange
  | ((kind, id), .deleted) => .ok ⟨kind, .deleted, id, [], none, none⟩
  | ((.node, id), op) => do
    match ← getNode tables plane id with
    | some node => return ⟨.node, op, id, node.labels,
        some { node with properties := sanitizedProperties node.properties }, none⟩
    | none => return ⟨.node, op, id, [], none, none⟩
  | ((.edge, id), op) => do
    match ← getEdge tables plane id with
    | some edge => return ⟨.edge, op, id, [], none,
        some { edge with properties := sanitizedProperties edge.properties }⟩
    | none => return ⟨.edge, op, id, [], none, none⟩

/-- What a transaction's buffer tells the observer, its records read from `tables`; nothing if
nothing is left of it. -/
def buildChangeSet (tables : Tables) (plane : PlaneId) (seq : ℕ) (buffered : ChangeBuffer) :
    Except Error (Option ChangeSet) :=
  if (resolved buffered.entries).isEmpty && !buffered.overflowed then .ok none
  else do
    let changes ← (resolved buffered.entries).mapM (readChange tables plane)
    return some ⟨plane, seq, changes, buffered.overflowed⟩

/-- What the observer is told of a commit, its records read from `tables`. -/
def notified (tables : Tables) (plane : PlaneId) (seq : ℕ) (buffered : ChangeBuffer) :
    Except Error (Option ChangeSet) :=
  if buffered.isEmpty then .ok none else buildChangeSet tables plane seq buffered

/-- What is published for a transaction that commits, if the store is read before the next one
does. -/
def Database.published (host : Host) (db : Database) (millis : ℤ) (plane : PlaneId)
    (ops : List WriteOp) : Except Error (Option ChangeSet) :=
  match (sealCommit millis : WriteM db.tables ℕ) (db.feedTxn host plane ops).write with
  | .error error _ => .error error
  | .ok seq sealed => notified sealed.txn.tables plane seq (db.feedTxn host plane ops).changes

/-! ### Recording changes nothing else -/

/-- How a method came out, without the buffer. -/
def unrecorded : EStateM.Result Error (FeedTxn base) α → EStateM.Result Error (WriteTxn base) α
  | .ok result feed => .ok result feed.write
  | .error error feed => .error error feed.write

/-- A method that records does to the transaction what it does without. -/
def Records (recorded : FeedM base α) (run : WriteM base α) : Prop :=
  ∀ feed, unrecorded (recorded feed) = run feed.write

variable {β : Type} {run : WriteM base α} {recorded : FeedM base α} {nodes : List BulkNode}
  {feed : FeedTxn base} {ops : List WriteOp}

theorem Records.working : Records (Graph.working run) run := by
  intro feed
  unfold Graph.working
  cases run feed.write <;> rfl

theorem Records.bind {rest : α → WriteM base β} {recordedRest : α → FeedM base β}
    (one : Records recorded run) (two : ∀ result, Records (recordedRest result) (rest result)) :
    Records (recorded >>= recordedRest) (run >>= rest) := by
  intro feed
  have first := one feed
  simp only [Bind.bind, EStateM.bind, ← first]
  cases recorded feed with
  | ok result next => exact two result next
  | error error next => rfl

theorem Records.pure {result : α} :
    Records (pure result : FeedM base α) (pure result : WriteM base α) :=
  fun _ => rfl

/-- What only records, before a method. -/
theorem Records.after {note : FeedM base Unit} (records : Records recorded run)
    (notes : Records note (Pure.pure ())) : Records (do note; recorded) run :=
  notes.bind fun _ => records

theorem Records.recordChange {entity : Entity} {op : ChangeOp} :
    Records (Graph.recordChange entity op : FeedM base Unit) (Pure.pure ()) :=
  fun _ => rfl

theorem Records.recording {change : α → Entity × ChangeOp} :
    Records (Graph.recording run change) run := by
  have whole : Records (Graph.recording run change) (run >>= Pure.pure) :=
    .bind .working fun _ => .after .pure .recordChange
  rwa [bind_pure] at whole

theorem Records.discard (records : Records recorded run) : Records (discard recorded) (discard run) :=
  records.bind fun _ => .pure

theorem setPropsRecorded_records {id : NodeId} {props : List (String × PropDesc)} :
    Records (setPropsRecorded id props : FeedM base Unit) (setProps id props) := by
  induction props with
  | nil => exact .pure
  | cons prop props ih => exact .bind .recording fun _ => ih

theorem mergeKeptRecorded_records {existing : List (ℕ × NodeId)} :
    Records (mergeKeptRecorded nodes existing : FeedM base Unit) (mergeKept nodes existing) := by
  induction existing with
  | nil => exact .pure
  | cons kept existing ih =>
    obtain ⟨position, id⟩ := kept
    rw [mergeKeptRecorded, mergeKept]
    cases nodes[position]? with
    | some node =>
      refine .bind setPropsRecorded_records fun _ => ?_
      split
      · exact ih
      · exact .bind .recording fun _ => ih
    | none => exact ih

theorem recordCreated_records {ids : List NodeId} :
    Records (recordCreated ids : FeedM base Unit) (pure ()) := by
  induction ids with
  | nil => exact .pure
  | cons id ids ih =>
    intro feed
    show unrecorded ((if feed.changes.overflowed then pure ()
      else do recordChange (.node, id) .created; recordCreated ids : FeedM base Unit) feed) = _
    split
    · rfl
    · exact ih.after .recordChange feed

theorem bulkUpsertRecorded_records {edges : List BulkEdge} {onConflict : OnConflict} :
    Records (bulkUpsertRecorded nodes edges onConflict : FeedM base _)
      (bulkUpsert nodes edges onConflict) := by
  refine .bind .working fun loaded => .bind .working fun _ => ?_
  have rest : Records (do
      recordCreated loaded.1.created
      working (modify fun write => { write with
        counters := (edges.map BulkEdge.ty).foldl CounterDelta.edgeAdded
          ((madeLines nodes loaded.1).foldl (fun delta line => delta.nodeAdded line.2.labels)
            write.counters)
        events := write.events ++
          bulkEvents PropValue.asVector write.decls (madeLines nodes loaded.1)
        kwEvents := write.kwEvents ++
          bulkEvents PropValue.asText write.kwDecls (madeLines nodes loaded.1) })
      return loaded.1 : FeedM base _) _ :=
    .after (.bind .working fun _ => .pure) recordCreated_records
  split
  · exact .bind mergeKeptRecorded_records fun _ => rest
  · exact rest

theorem WriteOp.recorded_records (op : WriteOp) :
    Records (op.recorded : FeedM base Unit) op.call := by
  cases op with
  | createNode | createNodeWithKey | createEdge => exact Records.recording.discard
  | bulkUpsert => exact bulkUpsertRecorded_records.discard
  | _ => exact Records.recording

/-- A call leaves the transaction as it does without a buffer. -/
theorem FeedTxn.after_write {op : WriteOp} : (feed.after op).write = op.after feed.write := by
  have same := op.recorded_records feed
  rw [FeedTxn.after, leaves, WriteOp.after, ← same]
  cases (op.recorded : FeedM base Unit) feed <;> rfl

theorem FeedTxn.afterAll_write : (feed.afterAll ops).write = feed.write.afterAll ops := by
  induction ops generalizing feed with
  | nil => rfl
  | cons op ops ih => exact ih.trans (congrArg (WriteTxn.afterAll · ops) feed.after_write)

theorem Database.feedTxn_write {host : Host} {db : Database} {plane : PlaneId} :
    (db.feedTxn host plane ops).write = db.writeTxn host plane ops :=
  FeedTxn.afterAll_write

end DrStrange.Graph
