/-
**Metadata and containers: format, id allocation, dictionaries, planes.**

The base of the graph encoding. Counters start at one, the startup plane is plane zero, and ids of
nodes and edges come from batches that a transaction reserves. A name is interned once: the forward
row gives its id, the reverse row gives the name back.
-/

import DrStrange.Graph.Txn

namespace DrStrange.Graph

open Std Lib

variable {base : Tables}

/-- The format this build writes. -/
def formatVersion : ℕ := 2

/-- The oldest format this build can open. -/
def minSupportedVersion : ℕ := 2

def defaultPlaneName : String := "startup"

/-- `DRSG`. -/
def magicBytes : Bytes := [68, 82, 83, 71]

/-! ### Ids -/

/-- The next id of a counter. -/
def nextId (counter : Counter) : TxnM base ℕ := do
  let some id := (← view).next counter | throw (.corrupt "missing id counter")
  stage (.next counter (id + 1))
  return id

/-- Reserves `count` contiguous ids and returns the first. -/
def reserveIdBatch (counter : Counter) (count : ℕ) : TxnM base ℕ := do
  let some start := (← view).next counter | throw (.corrupt "missing id counter")
  stage (.next counter (start + count))
  return start

/-- Ids reserved by one meta write of the allocator. -/
def idBatchSize : ℕ := 64

/-- Reserved ids not handed out yet. -/
structure IdBatch where
  next : ℕ
  remaining : ℕ
  deriving DecidableEq, Repr

def IdBatch.default : IdBatch := ⟨0, 0⟩

/-- The next id of a batch, refilled if it is spent. -/
def IdBatch.take (batch : IdBatch) (counter : Counter) : TxnM base (ℕ × IdBatch) := do
  if batch.remaining = 0 then
    let start ← reserveIdBatch counter idBatchSize
    return (start, ⟨start + 1, idBatchSize - 1⟩)
  else
    return (batch.next, ⟨batch.next + 1, batch.remaining - 1⟩)

/-- The id batches of one write transaction. -/
structure IdAllocator where
  node : IdBatch
  edge : IdBatch
  deriving DecidableEq, Repr

def IdAllocator.new : IdAllocator := ⟨.default, .default⟩

/-! ### Dictionaries -/

/-- The counter that numbers a dictionary. -/
def Dict.counter : Dict → Counter
  | .label => .label
  | .edgeType => .edgeType

/-- The id of a name, interned if it is new. -/
def intern (dict : Dict) (name : String) : TxnM base ℕ := do
  match ((← view).dictIds dict)[name]? with
  | some id => return id
  | none =>
    let id ← nextId dict.counter
    if id < 2 ^ 32 then
      stage (.dictId dict name id)
      stage (.dictName dict id name)
      return id
    else
      throw (.invalidArgument "dictionary exhausted (u32)")

def internLabel (name : String) : TxnM base ℕ := intern .label name

def internEdgeType (name : String) : TxnM base ℕ := intern .edgeType name

/-- Labels interned in order. -/
def internLabels : List String → TxnM base (List ℕ)
  | [] => return []
  | name :: names => do
    let id ← internLabel name
    let ids ← internLabels names
    return id :: ids

/-- The id of a label, if it has been interned. -/
def lookupLabel (tables : Tables) (name : String) : Option ℕ := (tables.dictIds .label)[name]?

/-- The id of an edge type, if it has been interned. -/
def lookupEdgeType (tables : Tables) (name : String) : Option ℕ :=
  (tables.dictIds .edgeType)[name]?

/-- The name behind a label id. -/
def resolveLabel (tables : Tables) (id : ℕ) : Except Error String :=
  match (tables.dictNames .label)[id]? with
  | some name => .ok name
  | none => .error (.corrupt s!"dangling label id {id}")

/-! ### Planes -/

/-- Writes a plane record at an explicit id. -/
def writePlane (id : PlaneId) (name : String) (props : Properties) : TxnM base Unit := do
  if 2 ^ 32 ≤ name.utf8ByteSize then
    throw (.invalidArgument "plane name too long")
  else
    stage (.plane id (some ⟨name, props⟩))
    stage (.planeName name (some id))

/-- The plane of a name. -/
def planeIdByName (tables : Tables) (name : String) : Option PlaneId := tables.planeNames[name]?

/-- A new plane under a free name. -/
def createPlane (name : String) (props : Properties) : TxnM base PlaneId := do
  match planeIdByName (← view) name with
  | some _ => throw (.planeExists name)
  | none =>
    let id ← nextId .plane
    if id < 2 ^ 32 then
      writePlane id name props
      return id
    else
      throw (.invalidArgument "plane ids exhausted (u32)")

/-- The record of a plane. -/
def readPlane (tables : Tables) (id : PlaneId) : Option PlaneRecord := tables.planes[id]?

/-- Replaces a plane's properties, keeping its name. -/
def setPlaneProperties (id : PlaneId) (props : Properties) : TxnM base Unit := do
  match readPlane (← view) id with
  | none => throw (.notFound s!"plane {id}")
  | some row => writePlane id row.name props

/-- Renames a plane; its id stays. -/
def renamePlane (id : PlaneId) (newName : String) : TxnM base Unit := do
  if id = PlaneId.startup then
    throw (.invalidArgument "the startup plane cannot be renamed")
  else
    match readPlane (← view) id with
    | none => throw (.notFound s!"plane {id}")
    | some row =>
      if row.name = newName then
        return
      else
        match planeIdByName (← view) newName with
        | some _ => throw (.planeExists newName)
        | none =>
          stage (.planeName row.name none)
          writePlane id newName row.props

/-- The ids of a plane's nodes, ascending: a prefix scan of `nodes`. -/
def scanAll (tables : Tables) (plane : PlaneId) : List NodeId :=
  (tables.nodes.keys.filter fun key => key.1 = plane).map Prod.snd

/-- The rows of a table under the plane's prefix, deleted. -/
def deletePrefix {κ ν : Type} {cmp : PlaneId × κ → PlaneId × κ → Ordering} [TransCmp cmp]
    (map : ExtTreeMap (PlaneId × κ) ν cmp) (plane : PlaneId) (delete : PlaneId × κ → Write) :
    List Write :=
  (map.keys.filter fun key => key.1 = plane).map delete

/-- The deletes of a plane and every row under its prefix; `node_plane` has no plane prefix, so its
rows go by the ids of the plane's nodes. The property-index table is never written. -/
def planeDeletes (tables : Tables) (id : PlaneId) (name : String) : List Write :=
  (scanAll tables id).map (.nodePlane · none) ++
    deletePrefix tables.nodes id (.node · none) ++
    deletePrefix tables.edges id (.edge · none) ++
    deletePrefix (tables.adj .fwd) id (.adj .fwd · none) ++
    deletePrefix (tables.adj .rev) id (.adj .rev · none) ++
    deletePrefix tables.labelIdx id (.labelIdx · none) ++
    deletePrefix tables.extKeys id (.extKey · none) ++
    [.plane id none, .planeName name none]

/-- Deletes a plane and everything on it; an absent plane is no error. -/
def dropPlane (id : PlaneId) : TxnM base Unit := do
  if id = PlaneId.startup then
    throw (.invalidArgument "the startup plane always exists and cannot be dropped")
  else
    match readPlane (← view) id with
    | some row => stageAll (planeDeletes (← view) id row.name)
    | none => return

/-- All planes, ascending by id: a scan of `plane_names`, sorted. -/
def listPlanes (tables : Tables) : List (PlaneId × String) :=
  (tables.planeNames.toList.map fun row => (row.2, row.1)).mergeSort fun a b => a.1 ≤ b.1

/-! ### Index declarations -/

/-- The byte that ends the label in the key of a declaration. -/
def nul : Char := Char.ofNat 0

/-- `vindex_decl_key`, `kindex_decl_key`: the label, a NUL, the property. -/
def indexRowKey (plane : PlaneId) (label property : String) : IndexRowKey :=
  (plane, String.ofList (label.toList ++ nul :: property.toList))

/-- `parse_index_decl_key`: the names on both sides of the first NUL. -/
def parseIndexRowKey (key : IndexRowKey) : PlaneId × String × String :=
  (key.1, String.ofList (key.2.toList.takeWhile (· ≠ nul)),
    String.ofList (key.2.toList.dropWhile (· ≠ nul)).tail)

/-- Records a declaration and tells whether it is new; one with another setting is refused. -/
def declareIndex {σ : Type} [DecidableEq σ] (rows : Tables → ExtTreeMap IndexRowKey σ compare)
    (write : IndexRowKey → Option σ → Write) (refusal : String) (plane : PlaneId)
    (label property : String) (setting : σ) : TxnM base Bool := do
  match (rows (← view))[indexRowKey plane label property]? with
  | some current =>
    if current = setting then return false else throw (.invalidArgument refusal)
  | none =>
    stage (write (indexRowKey plane label property) (some setting))
    return true

def declareVectorIndex (plane : PlaneId) (label property : String) (metric : Metric) :
    TxnM base Bool :=
  declareIndex Tables.vectorIndexes Write.vectorIndex
    s!"vector index on {label}.{property} already exists with a different metric"
    plane label property metric

def declareKeywordIndex (plane : PlaneId) (label property : String) (language : Language) :
    TxnM base Bool :=
  declareIndex Tables.keywordIndexes Write.keywordIndex
    s!"keyword index on {label}.{property} already exists with a different language"
    plane label property language

/-- All declarations of one kind, in key order: plane, label, property and setting. -/
def listIndexes {σ : Type} (rows : ExtTreeMap IndexRowKey σ compare) :
    List (PlaneId × String × String × σ) :=
  rows.toList.map fun row =>
    ((parseIndexRowKey row.1).1, (parseIndexRowKey row.1).2.1, (parseIndexRowKey row.1).2.2, row.2)

def listVectorIndexes (tables : Tables) : List (PlaneId × String × String × Metric) :=
  listIndexes tables.vectorIndexes

def listKeywordIndexes (tables : Tables) : List (PlaneId × String × String × Language) :=
  listIndexes tables.keywordIndexes

/-! ### First open -/

/-- No step is known to this build. -/
def migrateStep (version : ℕ) : TxnM base Unit :=
  throw (.corrupt s!"no migration step from format v{version} — gap in the migration ladder (bug)")

/-- One step for each version between the stored format and this build's. -/
def migrate : List ℕ → TxnM base Unit
  | [] => return
  | version :: versions => do
    migrateStep version
    migrate versions

/-- First-open initialisation; checks magic and version of an existing database. -/
def init : TxnM base Unit := do
  match (← view).magic with
  | some magic =>
    if magic ≠ magicBytes then
      throw (.corrupt "not a dr-strange database (bad magic)")
    let some version := (← view).formatVersion | throw (.corrupt "missing format version")
    if formatVersion < version then
      throw (.corrupt
        (s!"database format v{version} is newer than this build supports (v{formatVersion}) — " ++
          "upgrade drsg to open it"))
    if version < minSupportedVersion then
      throw (.corrupt
        (s!"database format v{version} predates the oldest supported (v{minSupportedVersion}) and " ++
          "has no upgrade path"))
    migrate (List.range' version (formatVersion - version))
    if version ≠ formatVersion then
      stage (.formatVersion formatVersion)
  | none =>
    stage (.magic magicBytes)
    stage (.formatVersion formatVersion)
    stage (.next .node 1)
    stage (.next .edge 1)
    stage (.next .plane 1)
    stage (.next .label 1)
    stage (.next .edgeType 1)
    stage (.commitSeq 0)
    writePlane PlaneId.startup defaultPlaneName ∅

/-! ### The commit sequence -/

/-- The sequence of the last commit. -/
def readCommitSeq (tables : Tables) : ℕ := tables.commitSeq.getD 0

/-- Advances the commit sequence by one. -/
def bumpCommitSeq : TxnM base ℕ := do
  let next := readCommitSeq (← view) + 1
  stage (.commitSeq next)
  return next

/-- Stamps the commit. -/
def writeCommitTime (millis : ℤ) : TxnM base Unit := stage (.commitTime millis)

end DrStrange.Graph
