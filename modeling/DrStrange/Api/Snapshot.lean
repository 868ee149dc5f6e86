/-
**Snapshots: a database dumped as frames, and restored from them.**

A dump names labels and edge types instead of their ids: a restore interns them again, in the order
of the stream. The ids of planes, nodes and edges, the id counters and the commit sequence are
landed as they were.
-/

import DrStrange.Api.Replica

namespace DrStrange.Graph

open Std Lib

variable {base : Tables}

/-- The five id counters of a manifest. -/
structure IdCounters where
  node : ℕ
  edge : ℕ
  plane : ℕ
  label : ℕ
  edgeType : ℕ

inductive Frame where
  | manifest (seq : ℕ) (counters : IdCounters)
  | plane (id : PlaneId) (name : String) (props : Properties)
  | node (plane : PlaneId) (id : NodeId) (key : Option String) (labels : List String)
      (props : Properties)
  | edge (plane : PlaneId) (id : EdgeId) (src dst : NodeId) (ty : String) (props : Properties)
  | vectorIndex (plane : PlaneId) (label property : String) (metric : Metric)
  | keywordIndex (plane : PlaneId) (label property : String) (language : Language)

/-- A dump: the frames of the graph, and the registries as they were. -/
structure Dump where
  frames : List Frame
  registries : Registries

/-! ### The dump -/

def readIdCounters (tables : Tables) : IdCounters where
  node := (tables.next .node).getD 1
  edge := (tables.next .edge).getD 1
  plane := (tables.next .plane).getD 1
  label := (tables.next .label).getD 1
  edgeType := (tables.next .edgeType).getD 1

def nodeFrames (tables : Tables) (plane : PlaneId) : List NodeId → Except Error (List Frame)
  | [] => .ok []
  | id :: ids => do
    let rest := nodeFrames tables plane ids
    match ← getNode tables plane id with
    | none => rest
    | some node =>
      return .node plane id node.externalKey node.labels node.properties :: (← rest)

def edgeFrames (tables : Tables) (plane : PlaneId) : List EdgeId → Except Error (List Frame)
  | [] => .ok []
  | id :: ids => do
    let rest := edgeFrames tables plane ids
    match ← getEdge tables plane id with
    | none => rest
    | some edge =>
      return .edge plane id edge.src edge.dst edge.ty edge.properties :: (← rest)

def planeFrames (tables : Tables) : List (PlaneId × String) → Except Error (List Frame)
  | [] => .ok []
  | (id, name) :: planes => do
    let some row := readPlane tables id | throw (.notFound s!"plane {id}")
    let nodes ← nodeFrames tables id (scanAll tables id)
    let edges ← edgeFrames tables id (scanEdges tables id)
    return .plane id name row.props :: nodes ++ edges ++ (← planeFrames tables planes)

/-- `Database::snapshot`. -/
def Database.snapshot (db : Database) : Except Error Dump := do
  let planes ← planeFrames db.tables (listPlanes db.tables)
  let vectors := (listVectorIndexes db.tables).map fun row =>
    Frame.vectorIndex row.1 row.2.1 row.2.2.1 row.2.2.2
  let keywords := (listKeywordIndexes db.tables).map fun row =>
    Frame.keywordIndex row.1 row.2.1 row.2.2.1 row.2.2.2
  return ⟨.manifest (readCommitSeq db.tables) (readIdCounters db.tables) ::
    planes ++ vectors ++ keywords, ⟨db.vectors, db.keywords⟩⟩

/-! ### The restore -/

def applyFrame : Frame → TxnM base Unit
  | .manifest _ _ => return
  | .plane id name props => writePlane id name props
  | .node plane id key labels props => insertNode plane id key labels props
  | .edge plane id src dst ty props => insertEdge plane id src dst ty props
  | .vectorIndex plane label property metric =>
    discard (declareVectorIndex plane label property metric)
  | .keywordIndex plane label property language =>
    discard (declareKeywordIndex plane label property language)

def applyFrames : List Frame → TxnM base Unit
  | [] => return
  | frame :: frames => do
    applyFrame frame
    applyFrames frames

/-- The last manifest of a stream. -/
def manifestOf (frames : List Frame) : Option (ℕ × IdCounters) :=
  frames.foldl (fun found frame => match frame with
    | .manifest seq counters => some (seq, counters)
    | _ => found) none

def setIdCounters (counters : IdCounters) : TxnM base Unit :=
  stageAll [.next .node counters.node, .next .edge counters.edge, .next .plane counters.plane,
    .next .label counters.label, .next .edgeType counters.edgeType]

/-- The counters of every plane, counted anew. -/
def recount : List (PlaneId × String) → TxnM base Unit
  | [] => return
  | (plane, _) :: planes => do
    match count (← view) plane with
    | .error error => throw error
    | .ok counted =>
      stage (.counters plane (some counted))
      recount planes

/-- The transaction of a restore. -/
def restoreFrames (frames : List Frame) : TxnM base Unit := do
  applyFrames frames
  match manifestOf frames with
  | none => throw (.corrupt "snapshot has no manifest")
  | some (seq, counters) =>
    setIdCounters counters
    stage (.commitSeq seq)
    recount (listPlanes (← view))

/-- `Database::restore`: into a database that holds nothing yet. The shipped registries carry the
sequence that has just been landed, so they are taken as they are. -/
def Database.restore (db : Database) (dump : Dump) : Except Error Database := do
  refuseNonEmpty db.tables
  match (restoreFrames dump.frames : TxnM db.tables Unit) (.start db.tables) with
  | .error error _ => throw error
  | .ok _ txn => return { db with
      tables := txn.tables
      vectors := dump.registries.vectors
      keywords := dump.registries.keywords }

end DrStrange.Graph
