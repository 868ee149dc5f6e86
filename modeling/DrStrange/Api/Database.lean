/-
**The database: one store, the live index registries, and the calls that change them.**

A call that writes takes the store's single write gate, so calls run one after the other: each
works on the tables the one before committed. A write transaction is a list of method calls that is
committed or dropped. A handle is the id of its
plane and nothing else, so `write` may name any plane.
-/

import DrStrange.Api.Registry

namespace DrStrange.Graph

open Std Lib

variable {base : Tables} {α : Type}

structure Database where
  tables : Tables
  vectors : Registry VectorEntry
  keywords : Registry KeywordEntry
  madeNodes : List NodeId
  madeEdges : List EdgeId

/-- `with_write`: what `run` returns and leaves, the commit sequence advanced and the time stamped;
nothing is committed if it fails. -/
def withWrite (tables : Tables) (millis : ℤ) (run : TxnM tables α) : Except Error (α × Tables) :=
  match (do
      let out ← run
      let _ ← bumpCommitSeq
      writeCommitTime millis
      return out : TxnM tables α) (.start tables) with
  | .ok out txn => .ok (out, txn.tables)
  | .error error _ => .error error

/-! ### Opening -/

/-- `catalog::count`: the counters of a plane, counted. -/
def countNodes (tables : Tables) (plane : PlaneId) :
    List NodeId → PlaneCounters → Except Error PlaneCounters
  | [], counters => .ok counters
  | id :: ids, counters => do
    match ← getNode tables plane id with
    | none => countNodes tables plane ids counters
    | some node =>
      countNodes tables plane ids { counters with
        nodes := counters.nodes + 1
        labels := node.labels.foldl (fun labels label =>
          labels.insert label (labels.getD label 0 + 1)) counters.labels }

def countEdges (tables : Tables) (plane : PlaneId) :
    List EdgeId → PlaneCounters → Except Error PlaneCounters
  | [], counters => .ok counters
  | id :: ids, counters => do
    match ← getEdge tables plane id with
    | none => countEdges tables plane ids counters
    | some edge =>
      countEdges tables plane ids { counters with
        edges := counters.edges + 1
        edgeTypes := counters.edgeTypes.insert edge.ty (counters.edgeTypes.getD edge.ty 0 + 1) }

def count (tables : Tables) (plane : PlaneId) : Except Error PlaneCounters := do
  let counters ← countNodes tables plane (scanAll tables plane) .zero
  countEdges tables plane (scanEdges tables plane) counters

/-- What a read shows to be missing: the format, or the counters of a plane. -/
def needsBootstrap (tables : Tables) : Bool :=
  tables.magic ≠ some magicBytes || tables.formatVersion ≠ some formatVersion ||
    (listPlanes tables).any fun plane => (tables.counters[plane.1]?).isNone

/-- The counters of the planes that have none, counted. -/
def backfill : List (PlaneId × String) → TxnM base Unit
  | [] => return
  | (plane, _) :: planes => do
    match (← view).counters[plane]? with
    | some _ => backfill planes
    | none =>
      match count (← view) plane with
      | .error error => throw error
      | .ok counted =>
        stage (.counters plane (some counted))
        backfill planes

def bootstrap : TxnM base Unit := do
  init
  backfill (listPlanes (← view))

/-- The tables of a store that is opened. -/
def openTables (tables : Tables) (millis : ℤ) : Except Error Tables :=
  if needsBootstrap tables then (withWrite tables millis bootstrap).map Prod.snd else .ok tables

/-- `init`: the store opened and both registries rebuilt from it. -/
def Database.openFrom (host : Host) (tables : Tables) (madeNodes : List NodeId)
    (madeEdges : List EdgeId) : Except Error Database := do
  let vectors ← rebuildFrom (vectorKind host) tables
  let keywords ← rebuildFrom (keywordKind host) tables
  return ⟨tables, vectors, keywords, madeNodes, madeEdges⟩

/-! ### Planes -/

/-- The deletes of a plane's counters and index declarations. -/
def planeMetaDeletes (tables : Tables) (plane : PlaneId) : List Write :=
  .counters plane none ::
    (((listVectorIndexes tables).filter fun row => row.1 = plane).map fun row =>
      .vectorIndex (indexRowKey plane row.2.1 row.2.2.1) none) ++
    (((listKeywordIndexes tables).filter fun row => row.1 = plane).map fun row =>
      .keywordIndex (indexRowKey plane row.2.1 row.2.2.1) none)

/-- `Database::drop_plane`: the plane's rows and what `meta` holds for it. -/
def dropPlaneRows (plane : PlaneId) : TxnM base Unit := do
  dropPlane plane
  stageAll (planeMetaDeletes (← view) plane)

/-! ### Calls -/

/-- What a caller asks of the database. -/
inductive Command where
  | createPlane (name : String) (props : Properties)
  | setPlaneProperties (plane : PlaneId) (props : Properties)
  | renamePlane (plane : PlaneId) (name : String)
  | dropPlane (plane : PlaneId)
  | ensureVectorIndex (plane : PlaneId) (label property : String) (metric : Metric)
  | ensureKeywordIndex (plane : PlaneId) (label property : String) (language : Language)
  | write (plane : PlaneId) (ops : List WriteOp) (committed : Bool)
  | reopen

/-- A transaction before its first call. -/
def Database.beginTxn (host : Host) (db : Database) (plane : PlaneId) : WriteTxn db.tables :=
  WriteTxn.begin db.tables plane (declared (vectorKind host) db.vectors plane)
    (declared (keywordKind host) db.keywords plane) db.madeNodes db.madeEdges

/-- The transaction of a list of method calls. -/
def Database.writeTxn (host : Host) (db : Database) (plane : PlaneId) (ops : List WriteOp) :
    WriteTxn db.tables :=
  (WriteTxn.begin db.tables plane (declared (vectorKind host) db.vectors plane)
    (declared (keywordKind host) db.keywords plane) db.madeNodes db.madeEdges).afterAll ops

/-- `WriteTxn::commit`: the store first, then both registries. -/
def Database.commit (host : Host) (db : Database) (write : WriteTxn db.tables) (millis : ℤ) :
    Except Error Database :=
  match (sealCommit millis : WriteM db.tables ℕ) write with
  | .error error _ => .error error
  | .ok _ sealed => .ok
      { tables := sealed.txn.tables
        vectors := applyEvents (vectorKind host) sealed.plane db.vectors sealed.events
        keywords := applyEvents (keywordKind host) sealed.plane db.keywords sealed.kwEvents
        madeNodes := sealed.madeNodes
        madeEdges := sealed.madeEdges }

/-- What `result` gives, or what there was if it failed. -/
def orKeep (old : α) : Except Error α → α
  | .ok new => new
  | .error _ => old

/-- The tables after a write that commits only if it succeeds. -/
def Database.written (db : Database) (millis : ℤ) (run : TxnM db.tables α) : Database :=
  orKeep db ((withWrite db.tables millis run).map fun out => { db with tables := out.2 })

/-- The database after a call at a given time. A call that fails leaves what it had committed until
then, which is nothing but for the index of a declaration that could not be built. -/
def Database.after (host : Host) (db : Database) (millis : ℤ) : Command → Database
  | .createPlane name props => db.written millis (Graph.createPlane name props)
  | .setPlaneProperties plane props => db.written millis (Graph.setPlaneProperties plane props)
  | .renamePlane plane name => db.written millis (Graph.renamePlane plane name)
  | .dropPlane plane => orKeep db do
      let (_, tables) ← withWrite db.tables millis (dropPlaneRows plane)
      return { db with
        tables := tables
        vectors := dropIndexes db.vectors plane
        keywords := dropIndexes db.keywords plane }
  | .ensureVectorIndex plane label property metric => orKeep db do
      let (_, tables) ← withWrite db.tables millis (declareVectorIndex plane label property metric)
      let vectors := buildEntry (vectorKind host) tables db.vectors plane label property metric
      return { db with tables := tables, vectors := orKeep db.vectors vectors }
  | .ensureKeywordIndex plane label property language => orKeep db do
      let (_, tables) ← withWrite db.tables millis
        (declareKeywordIndex plane label property language)
      let keywords := buildEntry (keywordKind host) tables db.keywords plane label property language
      return { db with tables := tables, keywords := orKeep db.keywords keywords }
  | .write plane ops committed =>
    if committed then orKeep db (db.commit host (db.writeTxn host plane ops) millis) else db
  | .reopen => orKeep db do
      let tables ← openTables db.tables millis
      return orKeep { db with tables := tables }
        (Database.openFrom host tables db.madeNodes db.madeEdges)

/-- Calls at given times, one after the other. -/
def Database.run (host : Host) (db : Database) (steps : List (ℤ × Command)) : Database :=
  steps.foldl (fun db step => db.after host step.1 step.2) db

/-- A store that holds nothing yet, before it is first opened. -/
def Database.blank : Database := ⟨.empty, ∅, ∅, [], []⟩

/-- A store opened for the first time. -/
def Database.new (host : Host) (millis : ℤ) : Database := Database.blank.after host millis .reopen

end DrStrange.Graph
