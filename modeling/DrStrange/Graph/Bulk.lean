/-
**The bulk loader.**

A load stages every node, then every edge, and only then writes the tables, each in one batch. Ids
come from one reservation for each kind: one id for every input line, of which the line of a kept
node leaves a hole. Names are interned through a cache that lives for one load, endpoints are
resolved against the keys of the load first and against the plane's own keys after that.
`bulk_load_edges` takes its endpoints as they are.
-/

import DrStrange.Graph.Node

namespace DrStrange.Graph

open Std Lib

variable {base : Tables}

/-- One node to load. -/
structure BulkNode where
  externalKey : Option String
  labels : List String
  props : Properties

/-- One edge to load, its ends named by key. -/
structure BulkEdge where
  srcKey : String
  dstKey : String
  ty : String
  props : Properties

/-- One edge to load, its ends named by id. -/
structure BulkEdgeById where
  src : NodeId
  dst : NodeId
  ty : String
  props : Properties

/-- What to do with a node whose key a live node already owns. -/
inductive OnConflict where
  | error
  | skip
  | update
  deriving DecidableEq, Repr

structure BulkStats where
  nodes : ℕ
  edges : ℕ
  nodeStart : ℕ
  nodeIds : List NodeId
  existing : List (ℕ × NodeId)
  deriving Repr

/-- The ids of the lines that made a node: those of the lines that are not kept. -/
def createdIds (nodeIds : List NodeId) (existing : List (ℕ × NodeId)) : List NodeId :=
  (nodeIds.zipIdx.filter fun entry => entry.2 ∉ existing.map Prod.fst).map Prod.fst

def BulkStats.created (stats : BulkStats) : List NodeId := createdIds stats.nodeIds stats.existing

/-- The names interned so far in one load. -/
abbrev NameCache := ExtTreeMap String ℕ compare

/-- Interns a name once in a load. -/
def internCached (dict : Dict) (cache : NameCache) (name : String) : TxnM base (ℕ × NameCache) := do
  match cache[name]? with
  | some id => return (id, cache)
  | none =>
    let id ← intern dict name
    return (id, cache.insert name id)

def internCachedAll (dict : Dict) (cache : NameCache) :
    List String → TxnM base (List ℕ × NameCache)
  | [] => return ([], cache)
  | name :: names => do
    let (id, cache) ← internCached dict cache name
    let (ids, cache) ← internCachedAll dict cache names
    return (id :: ids, cache)

/-- The node phase so far. The batches of the node tables are in input order. -/
structure StagedNodes where
  keyToId : ExtTreeMap String NodeId compare
  nodes : List (NodeKey × NodeRow)
  nodePlane : List (NodeId × PlaneId)
  labelIdx : List LabelKey
  extKeys : List ((PlaneId × String) × NodeId)
  nodeIds : List NodeId
  existing : List (ℕ × NodeId)

def StagedNodes.empty : StagedNodes := ⟨∅, [], [], [], [], [], []⟩

/-- A node whose key `owner` already holds: the owner keeps key and id. -/
def StagedNodes.keep (staged : StagedNodes) (position : ℕ) (key : String) (owner : NodeId) :
    StagedNodes :=
  { staged with
    keyToId := staged.keyToId.insert key owner
    nodeIds := staged.nodeIds ++ [owner]
    existing := staged.existing ++ [(position, owner)] }

/-- The key of a new node. -/
def StagedNodes.claim (staged : StagedNodes) (plane : PlaneId) (id : NodeId) :
    Option String → StagedNodes
  | some key =>
    { staged with
      keyToId := staged.keyToId.insert key id
      extKeys := staged.extKeys ++ [((plane, key), id)] }
  | none => staged

/-- The rows of a new node. -/
def StagedNodes.push (staged : StagedNodes) (plane : PlaneId) (id : NodeId) (row : NodeRow) :
    StagedNodes :=
  { staged with
    nodeIds := staged.nodeIds ++ [id]
    nodes := staged.nodes ++ [((plane, id), row)]
    nodePlane := staged.nodePlane ++ [(id, plane)]
    labelIdx := staged.labelIdx ++ row.labels.map fun label => (plane, label, id) }

/-- What the key of an input line means for it: free, owned by a live node, or refused. -/
def claimKey (tables : Tables) (plane : PlaneId) (onConflict : OnConflict)
    (staged : StagedNodes) : Option String → Except Error (Option (String × NodeId))
  | none => .ok none
  | some key =>
    if key ∈ staged.keyToId then
      .error (.conflict s!"duplicate external key '{key}' in bulk batch")
    else
      match nodeIdByExternalKey tables plane key with
      | none => .ok none
      | some owner =>
        if onConflict = .error then
          .error (.conflict s!"external key '{key}' already exists in plane {plane}")
        else
          .ok (some (key, owner))

/-- Stages the lines from `position` on; `start` is the first id of the reservation. -/
def stageNodesFrom (plane : PlaneId) (onConflict : OnConflict) (start : ℕ) :
    List BulkNode → ℕ → NameCache → StagedNodes → TxnM base StagedNodes
  | [], _, _, staged => return staged
  | node :: nodes, position, cache, staged => do
    match claimKey (← view) plane onConflict staged node.externalKey with
    | .error error => throw error
    | .ok (some (key, owner)) =>
      stageNodesFrom plane onConflict start nodes (position + 1) cache
        (staged.keep position key owner)
    | .ok none =>
      let id := start + position
      let (labels, cache) ← internCachedAll .label cache node.labels
      stageNodesFrom plane onConflict start nodes (position + 1) cache
        ((staged.claim plane id node.externalKey).push plane id
          ⟨node.externalKey, labels, node.props⟩)

/-- The node tables, each written as one batch; label index and keys are sorted first. -/
def StagedNodes.writes (staged : StagedNodes) : List Write :=
  (staged.nodes.map fun row => .node row.1 (some row.2)) ++
    (staged.nodePlane.map fun row => .nodePlane row.1 (some row.2)) ++
    ((staged.labelIdx.mergeSort fun a b => (compare a b).isLE).map
      fun key => .labelIdx key (some ())) ++
    ((staged.extKeys.mergeSort fun a b => (compare a.1 b.1).isLE).map
      fun row => .extKey row.1 (some row.2))

/-- The end of an edge: a key of this load, or one of the plane. -/
def resolve (tables : Tables) (plane : PlaneId) (keyToId : ExtTreeMap String NodeId compare)
    (key : String) : Except Error NodeId :=
  match keyToId[key]? with
  | some id => .ok id
  | none =>
    match nodeIdByExternalKey tables plane key with
    | some id => .ok id
    | none => .error (.notFound s!"bulk edge endpoint '{key}' not found")

/-- Stages the edges from `position` on. -/
def stageEdgesFrom (plane : PlaneId) (keyToId : ExtTreeMap String NodeId compare) (start : ℕ) :
    List BulkEdge → ℕ → NameCache → TxnM base (List (EdgeId × EdgeRow))
  | [], _, _ => return []
  | edge :: edges, position, cache => do
    match resolve (← view) plane keyToId edge.srcKey, resolve (← view) plane keyToId edge.dstKey with
    | .error error, _ => throw error
    | .ok _, .error error => throw error
    | .ok src, .ok dst =>
      let (ty, cache) ← internCached .edgeType cache edge.ty
      let rest ← stageEdgesFrom plane keyToId start edges (position + 1) cache
      return (start + position, ⟨src, dst, ty, edge.props⟩) :: rest

/-- The edge tables, each written as one batch; both adjacency tables are sorted first. -/
def bulkEdgeWrites (plane : PlaneId) (edges : List (EdgeId × EdgeRow)) : List Write :=
  (edges.map fun edge => .edge (plane, edge.1) (some edge.2)) ++
    [Side.fwd, Side.rev].flatMap fun side =>
      ((edges.map fun edge => edge.2.adjKey plane edge.1 side).mergeSort
        fun a b => (compare a b).isLE).map fun key => .adj side key (some ())

/-- Loads nodes, then edges, into a plane; also the ids the edges took, which `bulk_load` keeps to
itself. -/
def bulkLoadIds (plane : PlaneId) (nodes : List BulkNode) (edges : List BulkEdge)
    (onConflict : OnConflict) : TxnM base (BulkStats × List EdgeId) := do
  let nodeStart ← reserveIdBatch .node nodes.length
  let staged ← stageNodesFrom plane onConflict nodeStart nodes 0 ∅ .empty
  let edgeStart ← reserveIdBatch .edge edges.length
  let batches ← stageEdgesFrom plane staged.keyToId edgeStart edges 0 ∅
  stageAll staged.writes
  stageAll (bulkEdgeWrites plane batches)
  return (⟨staged.nodes.length, edges.length, nodeStart, staged.nodeIds, staged.existing⟩,
    batches.map Prod.fst)

def bulkLoad (plane : PlaneId) (nodes : List BulkNode) (edges : List BulkEdge)
    (onConflict : OnConflict) : TxnM base BulkStats :=
  Prod.fst <$> bulkLoadIds plane nodes edges onConflict

/-- Stages edges between ids from `position` on. -/
def stageEdgesById (start : ℕ) :
    List BulkEdgeById → ℕ → NameCache → TxnM base (List (EdgeId × EdgeRow))
  | [], _, _ => return []
  | edge :: edges, position, cache => do
    let (ty, cache) ← internCached .edgeType cache edge.ty
    let rest ← stageEdgesById start edges (position + 1) cache
    return (start + position, ⟨edge.src, edge.dst, ty, edge.props⟩) :: rest

/-- Writes edges whose ends are ids, which nothing checks; also the ids the edges took. -/
def bulkLoadEdges (plane : PlaneId) (edges : List BulkEdgeById) : TxnM base (ℕ × List EdgeId) := do
  let edgeStart ← reserveIdBatch .edge edges.length
  let batches ← stageEdgesById edgeStart edges 0 ∅
  stageAll (bulkEdgeWrites plane batches)
  return (edges.length, batches.map Prod.fst)

end DrStrange.Graph
