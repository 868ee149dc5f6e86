/-
**A replica: batches that land as raw rows, and what is mirrored from them.**

A replicated batch carries the rows a master's transaction wrote, verbatim. A replica lands them in
its store, drops its record cache and brings both index registries in step from the landed rows: a
batch that touches a declaration has both rebuilt, and any other has each node whose row it wrote
taken out of every index and put back as the node reads now.
-/

import DrStrange.Lib.Guarded
import DrStrange.Api.AsOf
import DrStrange.Api.InStep

namespace DrStrange.Graph

open Std Lib ExtTreeMap

variable {α σ ε : Type}

/-! ### What a batch may have moved -/

/-- What a batch may have moved in the registries, by the keys of its rows alone. -/
structure ReplicatedIndexWork where
  /-- In the order of the batch, each once. -/
  nodes : List (PlaneId × NodeId)
  declarationsChanged : Bool
  droppedPlanes : List PlaneId

def ReplicatedIndexWork.empty : ReplicatedIndexWork := ⟨[], false, []⟩

/-- One row of the batch looked at. -/
def ReplicatedIndexWork.add (work : ReplicatedIndexWork) : Write → ReplicatedIndexWork
  | .node key _ => if key ∈ work.nodes then work else { work with nodes := work.nodes ++ [key] }
  | .vectorIndex _ _ | .keywordIndex _ _ => { work with declarationsChanged := true }
  | .plane id none => { work with droppedPlanes := work.droppedPlanes ++ [id] }
  | _ => work

def ReplicatedIndexWork.fromOps (ops : List Write) : ReplicatedIndexWork := ops.foldl .add .empty

def ReplicatedIndexWork.isEmpty (work : ReplicatedIndexWork) : Bool :=
  work.nodes.isEmpty && !work.declarationsChanged && work.droppedPlanes.isEmpty

/-! ### Mirroring -/

structure Registries where
  vectors : Registry VectorEntry
  keywords : Registry KeywordEntry

/-- A node taken out of every index of a registry. -/
def removeNode (kind : IndexKind α σ ε) (registry : Registry ε) (node : NodeId) : Registry ε :=
  registry.map fun _ entry => kind.remove entry node

/-- A record put into each index declared on its plane that it has the label and a value for. -/
def insertRecord (kind : IndexKind α σ ε) (registry : Registry ε) (plane : PlaneId)
    (record : NodeRecord) : Registry ε :=
  (declared kind registry plane).foldl (fun registry (label, property, _) =>
    if label ∈ record.labels then
      match indexed kind.read record.properties property with
      | some value => registry.modify (plane, label, property) fun entry =>
        kind.upsert entry record.id value
      | none => registry
    else registry) registry

def Registries.removeNode (host : Host) (registries : Registries) (node : NodeId) : Registries :=
  ⟨Graph.removeNode (vectorKind host) registries.vectors node,
    Graph.removeNode (keywordKind host) registries.keywords node⟩

def Registries.insertRecord (host : Host) (registries : Registries) (plane : PlaneId)
    (record : NodeRecord) : Registries :=
  ⟨Graph.insertRecord (vectorKind host) registries.vectors plane record,
    Graph.insertRecord (keywordKind host) registries.keywords plane record⟩

def Registries.dropPlane (registries : Registries) (plane : PlaneId) : Registries :=
  ⟨dropIndexes registries.vectors plane, dropIndexes registries.keywords plane⟩

/-- Nodes re-derived from the landed tables one after the other; a record that does not read back
ends it. -/
def mirrorNodes (host : Host) (tables : Tables) :
    List (PlaneId × NodeId) → Registries → Registries × Except Error Unit
  | [], registries => (registries, .ok ())
  | (plane, node) :: rest, registries =>
    let removed := registries.removeNode host node
    match getNode tables plane node with
    | .error error => (removed, .error error)
    | .ok none => mirrorNodes host tables rest removed
    | .ok (some record) => mirrorNodes host tables rest (removed.insertRecord host plane record)

/-- The indexes a rebuild has made when it ends, of itself or at an error. -/
def rebuiltSoFar (kind : IndexKind α σ ε) (tables : Tables) :
    List (PlaneId × String × String × σ) → Registry ε → Registry ε
  | [], registry => registry
  | (plane, label, property, setting) :: decls, registry =>
    match buildEntry kind tables registry plane label property setting with
    | .ok registry => rebuiltSoFar kind tables decls registry
    | .error _ => registry

/-- Both registries rebuilt, the vectors first. -/
def rebuildBoth (host : Host) (tables : Tables) (registries : Registries) :
    Registries × Except Error Unit :=
  match rebuildFrom (vectorKind host) tables with
  | .error error =>
    (⟨rebuiltSoFar (vectorKind host) tables (listIndexes tables.vectorIndexes) ∅,
      registries.keywords⟩, .error error)
  | .ok vectors =>
    match rebuildFrom (keywordKind host) tables with
    | .error error =>
      (⟨vectors, rebuiltSoFar (keywordKind host) tables (listIndexes tables.keywordIndexes) ∅⟩,
        .error error)
    | .ok keywords => (⟨vectors, keywords⟩, .ok ())

def mirrorReplicated (host : Host) (tables : Tables) (work : ReplicatedIndexWork)
    (registries : Registries) : Registries × Except Error Unit :=
  if work.isEmpty then (registries, .ok ())
  else if work.declarationsChanged then rebuildBoth host tables registries
  else mirrorNodes host tables work.nodes (work.droppedPlanes.foldl Registries.dropPlane registries)

/-! ### The record cache -/

/-- What the record cache keeps apart: records and adjacency, each under its plane. -/
inductive CacheKey where
  | node (plane : PlaneId) (id : NodeId)
  | edge (plane : PlaneId) (id : EdgeId)
  | adj (plane : PlaneId) (id : NodeId) (dir : Dir) (ty : Option String)
  deriving DecidableEq

inductive CachePayload where
  | node (record : NodeRecord)
  | edge (record : EdgeRecord)
  | adj (neighbors : List Neighbor)

/-- What a reader may put in: records that exist, adjacency always. -/
def Tables.payload (tables : Tables) : CacheKey → Option CachePayload
  | .node plane id =>
    match getNode tables plane id with
    | .ok (some record) => some (.node record)
    | _ => none
  | .edge plane id =>
    match getEdge tables plane id with
    | .ok (some record) => some (.edge record)
    | _ => none
  | .adj plane id dir ty => some (.adj (neighbors tables plane id dir ty))

/-- Snapshots, stamped with the commit sequence each shows. -/
def snapshots : Versions Tables CacheKey CachePayload := ⟨readCommitSeq, Tables.payload⟩

abbrev GraphCache := Guarded Tables CacheKey CachePayload

/-! ### The replica -/

structure Replica where
  cache : GraphCache
  committedSeq : ℕ
  registries : Registries
  /-- Of a batch that has landed and is not mirrored yet. -/
  work : Option ReplicatedIndexWork
  /-- Mirroring failed; the registries are rebuilt on the next open. -/
  diverged : Bool

def Replica.tables (replica : Replica) : Tables := replica.cache.current

/-- `NativeEngine::apply_replicated`, with the work read off the batch before. -/
def Replica.land (replica : Replica) (batch : Landed) : Except Error Replica :=
  let landed (tables : Tables) (seq : ℕ) : Replica := { replica with
    cache := replica.cache.publish tables
    committedSeq := seq
    work := some (.fromOps batch.writes) }
  if batch.writes.isEmpty then .ok (landed replica.tables replica.committedSeq)
  else if batch.seq ≤ replica.committedSeq then
    .error (.conflict
      (s!"cannot apply replicated batch {batch.seq}: this replica has already committed sequence " ++
        s!"{replica.committedSeq}; sequences must only advance (a full resync is needed)"))
  else .ok (landed (replica.tables.applyAll batch.writes) batch.seq)

/-- One step: of a reader, or of the one call of `apply_replicated` at a time. -/
inductive ReplicaStep where
  | read (step : CacheStep CacheKey)
  | land (batch : Landed)
  | advance
  | clear
  | mirror

/-- The replica after a step; a step that is not its turn changes nothing. -/
def Replica.after (host : Host) (replica : Replica) : ReplicaStep → Replica
  | .read step => { replica with cache := replica.cache.after snapshots step }
  | .land batch =>
    match replica.work with
    | none => orKeep replica (replica.land batch)
    | some _ => replica
  | .advance =>
    if replica.cache.turnover = .published then { replica with cache := replica.cache.advance }
    else replica
  | .clear =>
    if replica.cache.turnover = .advanced then { replica with cache := replica.cache.clear }
    else replica
  | .mirror =>
    match replica.work with
    | some work =>
      if replica.cache.turnover = .settled then
        let mirrored := mirrorReplicated host replica.tables work replica.registries
        { replica with
          registries := mirrored.1
          work := none
          diverged := replica.diverged || !mirrored.2.isOk }
      else replica
    | none => replica

def Replica.run (host : Host) (replica : Replica) (steps : List ReplicaStep) : Replica :=
  steps.foldl (Replica.after host) replica

/-- A replica that has just been opened: nobody has read it. -/
def Replica.opened (tables : Tables) (committedSeq : ℕ) (registries : Registries) : Replica :=
  ⟨.empty tables, committedSeq, registries, none, false⟩

end DrStrange.Graph
