/-
**What a bulk load does.**

The staging loops are relations over the tables they end in: each input line either keeps a node
whose key is taken or makes a new one, and its names have ids by then (`StagesNodes`, `StagesEdges`).
What a load writes in one batch for each table is what inserting its nodes one after the other and
then its edges writes (`StagedNodes.Holds.applyAll`, `applyAll_bulkEdgeWrites`): the tables do not
share rows, and inside a table no two rows of a load disagree. So a load is a chain of inserts
(`bulkLoad_changes`).
-/

import DrStrange.Graph.Change

namespace DrStrange.Graph

open Std Lib ExtTreeMap Std.Do

set_option mvcgen.warning false

variable {base tables after before : Tables} {plane : PlaneId} {onConflict : OnConflict}
  {edges : List BulkEdge} {nodes : List BulkNode} {count : ℕ} {rows : List (NodeId × NodeRow)}
  {counter : Counter}

/-! ### One batch for each table -/

/-- The nodes of a load, inserted one after the other. -/
def insertNodes (tables : Tables) (plane : PlaneId) (rows : List (NodeId × NodeRow)) : Tables :=
  rows.foldl (fun tables row => tables.applyAll (nodeWrites plane row.1 row.2)) tables

/-- The edges of a load, inserted one after the other. -/
def insertEdges (tables : Tables) (plane : PlaneId) (rows : List (EdgeId × EdgeRow)) : Tables :=
  rows.foldl (fun tables row => tables.applyAll (edgeWrites plane row.1 row.2)) tables

/-- The key rows of nodes. -/
def keyRows (plane : PlaneId) (rows : List (NodeId × NodeRow)) :
    List ((PlaneId × String) × NodeId) :=
  rows.filterMap fun row => row.2.externalKey.map fun key => ((plane, key), row.1)

/-- The label entries of nodes. -/
def labelRows (plane : PlaneId) (rows : List (NodeId × NodeRow)) : List LabelKey :=
  rows.flatMap fun row => row.2.labels.map fun label => (plane, label, row.1)

/-- The batches of a load are those of its nodes in input order. -/
structure StagedNodes.Holds (staged : StagedNodes) (plane : PlaneId)
    (rows : List (NodeId × NodeRow)) : Prop where
  nodes : staged.nodes = rows.map fun row => ((plane, row.1), row.2)
  nodePlane : staged.nodePlane = rows.map fun row => (row.1, plane)
  labelIdx : staged.labelIdx = labelRows plane rows
  extKeys : staged.extKeys = keyRows plane rows

theorem insertNodes_eq {rows : List (NodeId × NodeRow)} :
    insertNodes tables plane rows =
      { tables with
        nodes := tables.nodes.writeAll (rows.map fun row => ((plane, row.1), some row.2))
        nodePlane := tables.nodePlane.writeAll (rows.map fun row => (row.1, some plane))
        labelIdx := tables.labelIdx.writeEach (labelRows plane rows) (some ())
        extKeys := tables.extKeys.writeAll
          ((keyRows plane rows).map fun row => (row.1, some row.2)) } := by
  induction rows generalizing tables with
  | nil => rfl
  | cons row rows ih =>
    have labels : labelRows plane (row :: rows) =
      (row.2.labels.map fun label => (plane, label, row.1)) ++ labelRows plane rows := rfl
    rw [insertNodes, List.foldl_cons, ← insertNodes, ih, applyAll_nodeWrites, labels,
      writeEach_append]
    cases owned : row.2.externalKey <;> simp [keyRows, owned, writeAll]

theorem insertEdges_eq {rows : List (EdgeId × EdgeRow)} :
    insertEdges tables plane rows =
      { tables with
        edges := tables.edges.writeAll (rows.map fun row => ((plane, row.1), some row.2))
        adj := fun side => (tables.adj side).writeEach
          (rows.map fun row => row.2.adjKey plane row.1 side) (some ()) } := by
  induction rows generalizing tables with
  | nil => rfl
  | cons row rows ih =>
    rw [insertEdges, List.foldl_cons, ← insertEdges, ih, applyAll_edgeWrites]
    rfl

/-- The edge batches of a load write what its edges write one after the other. -/
theorem applyAll_bulkEdgeWrites {rows : List (EdgeId × EdgeRow)} :
    tables.applyAll (bulkEdgeWrites plane rows) = insertEdges tables plane rows := by
  have records : tables.applyAll (rows.map fun row => .edge (plane, row.1) (some row.2)) =
      { tables with
        edges := tables.edges.writeAll (rows.map fun row => ((plane, row.1), some row.2)) } :=
    applyAll_rows (·.edges) (fun tables map => { tables with edges := map })
      (fun _ _ => rfl) (fun _ _ => rfl) (fun _ => rfl) (fun _ _ _ => rfl)
  have sorted : ∀ (keys : List AdjKey) (map : ExtTreeMap AdjKey Unit compare),
      map.writeEach (keys.mergeSort fun a b => (compare a b).isLE) (some ()) =
        map.writeEach keys (some ()) :=
    fun keys map => writeEach_perm (List.mergeSort_perm keys _).symm
  rw [bulkEdgeWrites, Tables.applyAll_append, records, insertEdges_eq]
  simp only [List.flatMap_cons, List.flatMap_nil, List.append_nil, Tables.applyAll_append,
    applyAll_adjWrites, sorted]
  congr 1
  funext side
  cases side <;> simp

/-- No two nodes of a load claim one key. -/
def KeysApart (rows : List (NodeId × NodeRow)) : Prop :=
  rows.Pairwise fun a b => ∀ key : String, a.2.externalKey = some key → b.2.externalKey ≠ some key

theorem KeysApart.nodup (apart : KeysApart rows) : ((keyRows plane rows).map Prod.fst).Nodup := by
  rw [List.Nodup, List.pairwise_map, keyRows, List.pairwise_filterMap]
  refine apart.imp ?_
  intro a b different first foundA second foundB same
  obtain ⟨key, claimed, rfl⟩ := Option.map_eq_some_iff.mp foundA
  obtain ⟨other, claims, rfl⟩ := Option.map_eq_some_iff.mp foundB
  cases same
  exact different _ claimed claims

/-- The node batches of a load write what its nodes write one after the other. -/
theorem StagedNodes.Holds.applyAll {staged : StagedNodes} {rows : List (NodeId × NodeRow)}
    (holds : staged.Holds plane rows) (apart : KeysApart rows) :
    tables.applyAll staged.writes = insertNodes tables plane rows := by
  have records : ∀ tables : Tables,
      tables.applyAll (staged.nodes.map fun row => .node row.1 (some row.2)) = { tables with
        nodes := tables.nodes.writeAll (staged.nodes.map fun row => (row.1, some row.2)) } :=
    fun tables => applyAll_rows (·.nodes) (fun tables map => { tables with nodes := map })
      (fun _ _ => rfl) (fun _ _ => rfl) (fun _ => rfl) (fun _ _ _ => rfl)
  have planes : ∀ tables : Tables,
      tables.applyAll (staged.nodePlane.map fun row => .nodePlane row.1 (some row.2)) =
        { tables with
          nodePlane := tables.nodePlane.writeAll
            (staged.nodePlane.map fun row => (row.1, some row.2)) } :=
    fun tables => applyAll_rows (·.nodePlane) (fun tables map => { tables with nodePlane := map })
      (fun _ _ => rfl) (fun _ _ => rfl) (fun _ => rfl) (fun _ _ _ => rfl)
  have keys : ∀ (tables : Tables) (rows : List ((PlaneId × String) × NodeId)),
      tables.applyAll (rows.map fun row => .extKey row.1 (some row.2)) = { tables with
        extKeys := tables.extKeys.writeAll (rows.map fun row => (row.1, some row.2)) } :=
    fun tables _ => applyAll_rows (·.extKeys) (fun tables map => { tables with extKeys := map })
      (fun _ _ => rfl) (fun _ _ => rfl) (fun _ => rfl) (fun _ _ _ => rfl)
  have sortedKeys : tables.extKeys.writeAll
      (((keyRows plane rows).mergeSort fun a b => (compare a.1 b.1).isLE).map
        fun row => (row.1, some row.2)) =
        tables.extKeys.writeAll ((keyRows plane rows).map fun row => (row.1, some row.2)) := by
    refine writeAll_perm ((List.mergeSort_perm _ _).symm.map _) ?_
    intro a memberA b memberB same
    obtain ⟨first, inFirst, rfl⟩ := List.mem_map.mp memberA
    obtain ⟨second, inSecond, rfl⟩ := List.mem_map.mp memberB
    rw [List.inj_on_of_nodup_map apart.nodup inFirst inSecond same]
  rw [StagedNodes.writes, Tables.applyAll_append, Tables.applyAll_append, Tables.applyAll_append,
    records, planes, applyAll_labelDeletes, keys, insertNodes_eq, holds.nodes, holds.nodePlane,
    holds.labelIdx, holds.extKeys]
  simp only [sortedKeys, writeEach_perm (List.mergeSort_perm (labelRows plane rows) _).symm,
    List.map_map, Function.comp_def]

/-! ### The staging loops -/

/-- The names a load has interned have the ids its cache gives them. -/
def Caches (tables : Tables) (dict : Dict) (cache : NameCache) : Prop :=
  ∀ (name : String) (id : ℕ), cache[name]? = some id → (tables.dictIds dict)[name]? = some id

theorem internCached_runs {dict : Dict} {cache : NameCache} {name : String} {before : Tables}
    (caches : Caches before dict cache) :
    Runs before (internCached dict cache name : TxnM base (ℕ × NameCache))
      (fun named after => Grows before after ∧ (after.dictIds dict)[name]? = some named.1 ∧
        Caches after dict named.2)
      (Grows before) := by
  have interns := @intern_runs base
  mvcgen [internCached, interns] <;> subst_vars
  next found _ => exact ⟨.refl, caches name _ found, caches⟩
  next id _ named =>
    refine ⟨named.1, named.2, ?_⟩
    intro other number found
    rw [getElem?_insert] at found
    split at found
    · rename_i same
      rw [← Option.some.inj found, ← Std.compare_eq_iff_eq.mp same]
      exact named.2
    · exact named.1.known (caches other number found)
  next => exact fun grows => grows

theorem internCachedAll_runs {dict : Dict} {cache : NameCache} {names : List String}
    {before : Tables} (caches : Caches before dict cache) :
    Runs before (internCachedAll dict cache names : TxnM base (List ℕ × NameCache))
      (fun named after => Grows before after ∧ after.Names dict names named.1 ∧
        Caches after dict named.2)
      (Grows before) := by
  induction names generalizing before cache with
  | nil =>
    mvcgen [internCachedAll]
    subst_vars
    exact ⟨.refl, .nil, caches⟩
  | cons name names ih =>
    have interns := @internCached_runs base dict
    mvcgen [internCachedAll, interns, ih] <;> subst_vars
    next => exact caches
    next first => exact first.2.2
    next first _ _ rest =>
      exact ⟨first.1.trans rest.1, .cons (rest.1.known first.2.1) rest.2.1, rest.2.2⟩
    next first _ _ => exact fun rest => first.1.trans rest
    next => exact fun grows => grows

/-- The lines of a load from `position` on, staged over tables that hold all their names. -/
inductive StagesNodes (tables : Tables) (plane : PlaneId) (onConflict : OnConflict) (start : ℕ) :
    ℕ → StagedNodes → List BulkNode → StagedNodes → Prop where
  | done {position : ℕ} {staged : StagedNodes} :
      StagesNodes tables plane onConflict start position staged [] staged
  | keep {position : ℕ} {staged final : StagedNodes} {node : BulkNode} {nodes : List BulkNode}
      {key : String} {owner : NodeId}
      (taken : claimKey tables plane onConflict staged node.externalKey = .ok (some (key, owner)))
      (rest : StagesNodes tables plane onConflict start (position + 1)
        (staged.keep position key owner) nodes final) :
      StagesNodes tables plane onConflict start position staged (node :: nodes) final
  | make {position : ℕ} {staged final : StagedNodes} {node : BulkNode} {nodes : List BulkNode}
      {labels : List ℕ}
      (free : claimKey tables plane onConflict staged node.externalKey = .ok none)
      (named : tables.Names .label node.labels labels)
      (rest : StagesNodes tables plane onConflict start (position + 1)
        ((staged.claim plane (start + position) node.externalKey).push plane (start + position)
          ⟨node.externalKey, labels, node.props⟩) nodes final) :
      StagesNodes tables plane onConflict start position staged (node :: nodes) final

/-- What a key means does not depend on names. -/
theorem Grows.claimKey (grows : Grows tables after) (staged : StagedNodes) (key : Option String) :
    claimKey after plane onConflict staged key = claimKey tables plane onConflict staged key := by
  rw [grows.records]
  rfl

theorem StagesNodes.grows {after : Tables} {start position : ℕ} {staged final : StagedNodes}
    {nodes : List BulkNode}
    (stages : StagesNodes tables plane onConflict start position staged nodes final)
    (grows : Grows tables after) :
    StagesNodes after plane onConflict start position staged nodes final := by
  induction stages with
  | done => exact .done
  | keep taken _ ih => exact .keep (by rwa [grows.claimKey]) ih
  | make free named _ ih => exact .make (by rwa [grows.claimKey]) (named.grows grows) ih

theorem stageNodesFrom_runs {start position : ℕ} {nodes : List BulkNode} {cache : NameCache}
    {staged : StagedNodes} {before : Tables} (caches : Caches before .label cache) :
    Runs before (stageNodesFrom plane onConflict start nodes position cache staged :
        TxnM base StagedNodes)
      (fun final after => Grows before after ∧
        StagesNodes after plane onConflict start position staged nodes final)
      (Grows before) := by
  induction nodes generalizing before position cache staged with
  | nil =>
    mvcgen [stageNodesFrom]
    subst_vars
    exact ⟨.refl, .done⟩
  | cons node nodes ih =>
    have interns := @internCachedAll_runs base .label
    mvcgen [stageNodesFrom, interns, ih] <;> subst_vars
    next => exact .refl
    next => exact caches
    next taken _ _ => exact fun grows stages => ⟨grows, .keep (by rwa [grows.claimKey]) stages⟩
    next => exact fun grows => grows
    next => exact caches
    next free _ _ _ named _ _ =>
      intro grows stages
      have free := (named.1.trans grows).claimKey staged node.externalKey ▸ free
      exact ⟨named.1.trans grows, .make free (named.2.1.grows grows) stages⟩
    next named _ _ => exact fun grows => named.1.trans grows
    next => exact fun _ _ _ kept => kept
    next => exact fun grows => grows

/-- The end of an edge does not depend on names. -/
theorem Grows.resolve (grows : Grows tables after) (keyToId : ExtTreeMap String NodeId compare)
    (key : String) :
    resolve after plane keyToId key = resolve tables plane keyToId key := by
  rw [grows.records]
  rfl

/-- The edges of a load from `position` on, over tables that hold all their types. -/
inductive StagesEdges (tables : Tables) (plane : PlaneId)
    (keyToId : ExtTreeMap String NodeId compare) (start : ℕ) :
    ℕ → List BulkEdge → List (EdgeId × EdgeRow) → Prop where
  | done {position : ℕ} : StagesEdges tables plane keyToId start position [] []
  | edge {position : ℕ} {edge : BulkEdge} {edges : List BulkEdge} {src dst : NodeId} {ty : ℕ}
      {rows : List (EdgeId × EdgeRow)}
      (source : resolve tables plane keyToId edge.srcKey = .ok src)
      (destination : resolve tables plane keyToId edge.dstKey = .ok dst)
      (named : (tables.dictIds .edgeType)[edge.ty]? = some ty)
      (rest : StagesEdges tables plane keyToId start (position + 1) edges rows) :
      StagesEdges tables plane keyToId start position (edge :: edges)
        ((start + position, ⟨src, dst, ty, edge.props⟩) :: rows)

theorem stageEdgesFrom_runs {start position : ℕ} {edges : List BulkEdge} {cache : NameCache}
    {keyToId : ExtTreeMap String NodeId compare} {before : Tables}
    (caches : Caches before .edgeType cache) :
    Runs before (stageEdgesFrom plane keyToId start edges position cache :
        TxnM base (List (EdgeId × EdgeRow)))
      (fun rows after => Grows before after ∧
        StagesEdges after plane keyToId start position edges rows)
      (Grows before) := by
  induction edges generalizing before position cache with
  | nil =>
    mvcgen [stageEdgesFrom]
    subst_vars
    exact ⟨.refl, .done⟩
  | cons edge edges ih =>
    have interns := @internCached_runs base .edgeType
    mvcgen [stageEdgesFrom, interns, ih] <;> subst_vars
    next => exact .refl
    next => exact .refl
    next => exact caches
    next named => exact named.2.2
    next destination source _ _ named _ _ rest =>
      have grows := named.1.trans rest.1
      exact ⟨grows, .edge (by rwa [grows.resolve]) (by rwa [grows.resolve])
        (rest.1.known named.2.1) rest.2⟩
    next named _ _ => exact fun grows => named.1.trans grows
    next => exact fun grows => grows

theorem Grows.reserved {start : ℕ} (reserved : tables.next counter = some start ∧
      after = tables.apply (.next counter (start + count))) : Grows tables after :=
  reserved.2 ▸ .single (.spent count reserved.1)

/-- A load that lands: it reserves ids for all nodes and stages them, does the same for the edges,
and then writes. -/
def BulkLoads (plane : PlaneId) (onConflict : OnConflict) (nodes : List BulkNode)
    (edges : List BulkEdge) (before : Tables) (result : BulkStats × List EdgeId) (after : Tables) :
    Prop :=
  ∃ nodeStart edgeStart nodesNamed named staged rows,
    before.next .node = some nodeStart ∧
    Grows (before.apply (.next .node (nodeStart + nodes.length))) nodesNamed ∧
    nodesNamed.next .edge = some edgeStart ∧
    Grows (nodesNamed.apply (.next .edge (edgeStart + edges.length))) named ∧
    StagesNodes named plane onConflict nodeStart 0 .empty nodes staged ∧
    StagesEdges named plane staged.keyToId edgeStart 0 edges rows ∧
    after = (named.applyAll staged.writes).applyAll (bulkEdgeWrites plane rows) ∧
    result = (⟨staged.nodes.length, edges.length, nodeStart, staged.nodeIds, staged.existing⟩,
      rows.map Prod.fst)

/-- A load that fails has written nothing but names and counters. -/
theorem bulkLoadIds_runs :
    Runs before (bulkLoadIds plane nodes edges onConflict : TxnM base (BulkStats × List EdgeId))
      (BulkLoads plane onConflict nodes edges before) (Grows before) := by
  have reserves := @reserveIdBatch_runs base
  have stagesNodes := @stageNodesFrom_runs base plane onConflict
  have stagesEdges := @stageEdgesFrom_runs base plane
  mvcgen [bulkLoadIds, reserves, stagesNodes, stagesEdges] <;> subst_vars
  next => simp [Caches]
  next => simp [Caches]
  next start _ reserved staged _ nodes edgeStart _ reserved' rows txn edges =>
    exact ⟨start, edgeStart, _, txn.tables, staged, rows, reserved.1, reserved.2 ▸ nodes.1,
      reserved'.1, reserved'.2 ▸ edges.1, nodes.2.grows ((Grows.reserved reserved').trans edges.1),
      edges.2, rfl, rfl⟩
  next reserved _ _ nodes _ _ reserved' _ _ =>
    exact fun grows =>
      (Grows.reserved reserved).trans (nodes.1.trans ((Grows.reserved reserved').trans grows))
  next reserved _ _ nodes _ _ =>
    exact fun same => same ▸ (Grows.reserved reserved).trans nodes.1
  next reserved _ _ => exact fun grows => (Grows.reserved reserved).trans grows
  next => exact fun same => same ▸ .refl

/-! ### What staging has found out -/

/-- The nodes staged so far: their ids are of the reservation, their keys were free and are theirs,
and a key of the load leads to one of them or to its owner. -/
structure Staging (tables : Tables) (plane : PlaneId) (start position : ℕ) (staged : StagedNodes)
    (rows : List (NodeId × NodeRow)) : Prop where
  holds : staged.Holds plane rows
  nodup : (rows.map Prod.fst).Nodup
  ids : ∀ row ∈ rows, row.1 ∈ Set.Ico start (start + position)
  claimed : ∀ row ∈ rows, ∀ key : String, row.2.externalKey = some key →
    staged.keyToId[key]? = some row.1
  free : ∀ row ∈ rows, takenKey tables plane row.2.externalKey = none
  known : ∀ (key : String) (id : NodeId), staged.keyToId[key]? = some id →
    id ∈ rows.map Prod.fst ∨ tables.extKeys[(plane, key)]? = some id
  named : ∀ row ∈ rows, ∃ names, tables.Names .label names row.2.labels
  count : staged.nodeIds.length = position
  earlier : ∀ entry ∈ staged.existing, entry.1 < position
  created : createdIds staged.nodeIds staged.existing = rows.map Prod.fst

variable {start position : ℕ} {staged final : StagedNodes} {rows : List (NodeId × NodeRow)}
  {keyToId : ExtTreeMap String NodeId compare} {key : Option String} {id owner : NodeId}
  {world : World} {result : BulkStats × List EdgeId} {existing : List (ℕ × NodeId)} {name : String}
  {row : NodeRow}

theorem Staging.empty : Staging tables plane start 0 .empty [] where
  holds := ⟨rfl, rfl, rfl, rfl⟩
  nodup := List.nodup_nil
  ids row member := nomatch member
  claimed row member := nomatch member
  free row member := nomatch member
  known key id found := by simp [StagedNodes.empty] at found
  named row member := nomatch member
  count := rfl
  earlier entry member := nomatch member
  created := rfl

/-- A line that keeps a node makes none. -/
theorem createdIds_keep {ids : List NodeId} :
    createdIds (ids ++ [owner]) (existing ++ [(ids.length, owner)]) = createdIds ids existing := by
  rw [createdIds, createdIds, List.zipIdx_append, List.filter_append]
  have others : ids.zipIdx.filter (fun entry =>
      entry.2 ∉ (existing ++ [(ids.length, owner)]).map Prod.fst) =
      ids.zipIdx.filter fun entry => entry.2 ∉ existing.map Prod.fst := by
    refine List.filter_congr fun entry member => ?_
    have below := List.snd_lt_of_mem_zipIdx member
    have apart : entry.2 ≠ ids.length := by omega
    simp [apart]
  rw [others]
  simp

/-- A line that is not kept makes a node. -/
theorem createdIds_make {ids : List NodeId} (earlier : ∀ entry ∈ existing, entry.1 < ids.length) :
    createdIds (ids ++ [id]) existing = createdIds ids existing ++ [id] := by
  have fresh : ids.length ∉ existing.map Prod.fst := by
    intro member
    obtain ⟨entry, inside, same⟩ := List.mem_map.mp member
    have below := earlier entry inside
    omega
  rw [createdIds, createdIds, List.zipIdx_append, List.filter_append, List.map_append]
  simp [fresh]

/-- A key that is free is new to the load and to the plane. -/
theorem claimKey_free (claim : claimKey tables plane onConflict staged key = .ok none) :
    (∀ name, key = some name → name ∉ staged.keyToId) ∧ takenKey tables plane key = none := by
  cases key with
  | none => exact ⟨nofun, rfl⟩
  | some name =>
    simp only [claimKey, takenKey] at claim ⊢
    split at claim
    · cases claim
    · rename_i fresh
      split at claim
      · rename_i absent
        exact ⟨fun _ same => Option.some.inj same ▸ fresh, by simp [absent]⟩
      · split at claim <;> cases claim

/-- A key that is kept is new to the load, and its owner's. -/
theorem claimKey_kept
    (claim : claimKey tables plane onConflict staged key = .ok (some (name, owner))) :
    key = some name ∧ name ∉ staged.keyToId ∧ tables.extKeys[(plane, name)]? = some owner ∧
      onConflict ≠ .error := by
  cases key with
  | none => cases claim
  | some other =>
    simp only [claimKey] at claim
    split at claim
    · cases claim
    · rename_i fresh
      split at claim
      · cases claim
      · rename_i owned
        split at claim
        · cases claim
        · rename_i allowed
          cases claim
          exact ⟨rfl, fresh, owned, allowed⟩

theorem Staging.keep {key : String} {owner : NodeId}
    (staging : Staging tables plane start position staged rows) (fresh : key ∉ staged.keyToId)
    (owned : tables.extKeys[(plane, key)]? = some owner) :
    Staging tables plane start (position + 1) (staged.keep position key owner) rows where
  holds := ⟨staging.holds.nodes, staging.holds.nodePlane, staging.holds.labelIdx,
    staging.holds.extKeys⟩
  nodup := staging.nodup
  ids row member := ⟨(staging.ids row member).1, Nat.lt_succ_of_lt (staging.ids row member).2⟩
  claimed row member name claims := by
    have held := staging.claimed row member name claims
    have apart : key ≠ name := by
      rintro rfl
      exact fresh (mem_of_getElem? held)
    simpa [StagedNodes.keep, getElem?_insert, apart] using held
  free := staging.free
  known name id found := by
    simp only [StagedNodes.keep, getElem?_insert, Std.compare_eq_iff_eq] at found
    split at found
    · rename_i same
      exact .inr (Option.some.inj found ▸ same ▸ owned)
    · exact staging.known name id found
  named := staging.named
  count := by simp [StagedNodes.keep, staging.count]
  earlier entry member := by
    rcases List.mem_append.mp member with old | single
    · exact Nat.lt_succ_of_lt (staging.earlier entry old)
    · rw [List.mem_singleton.mp single]
      exact Nat.lt_succ_self _
  created := by
    have kept : createdIds (staged.nodeIds ++ [owner])
        (staged.existing ++ [(staged.nodeIds.length, owner)]) = _ := createdIds_keep
    rw [staging.count, staging.created] at kept
    exact kept

/-- The batches of a load with one more node. -/
theorem StagedNodes.Holds.make {id : NodeId} {row : NodeRow} (holds : staged.Holds plane rows) :
    ((staged.claim plane id row.externalKey).push plane id row).Holds plane
      (rows ++ [(id, row)]) := by
  have keys : (staged.claim plane id row.externalKey).extKeys =
      keyRows plane rows ++ keyRows plane [(id, row)] := by
    cases owned : row.externalKey <;> simp [StagedNodes.claim, keyRows, owned, holds.extKeys]
  have rest : (staged.claim plane id row.externalKey).nodes = staged.nodes ∧
      (staged.claim plane id row.externalKey).nodePlane = staged.nodePlane ∧
      (staged.claim plane id row.externalKey).labelIdx = staged.labelIdx := by
    cases row.externalKey <;> exact ⟨rfl, rfl, rfl⟩
  refine ⟨?_, ?_, ?_, ?_⟩
  · simp [StagedNodes.push, rest, holds.nodes]
  · simp [StagedNodes.push, rest, holds.nodePlane]
  · simp [StagedNodes.push, rest, holds.labelIdx, labelRows]
  · rw [StagedNodes.push, keys]
    simp [keyRows]

theorem getElem?_claim :
    ((staged.claim plane id key).push plane id row).keyToId[name]? =
      if key = some name then some id else staged.keyToId[name]? := by
  cases key with
  | none => rfl
  | some key => simp [StagedNodes.claim, StagedNodes.push, getElem?_insert]

theorem Staging.make (staging : Staging tables plane start position staged rows) (row : NodeRow)
    (fresh : ∀ key, row.externalKey = some key → key ∉ staged.keyToId)
    (free : takenKey tables plane row.externalKey = none)
    {names : List String} (named : tables.Names .label names row.labels) :
    Staging tables plane start (position + 1)
      ((staged.claim plane (start + position) row.externalKey).push plane (start + position) row)
      (rows ++ [(start + position, row)]) where
  holds := staging.holds.make
  nodup := by
    rw [List.map_append, List.nodup_append]
    refine ⟨staging.nodup, List.nodup_singleton _, ?_⟩
    rintro id member _ single rfl
    obtain ⟨old, inside, rfl⟩ := List.mem_map.mp member
    have below := (staging.ids old inside).2
    exact absurd (List.mem_singleton.mp single) (by simpa using below.ne)
  ids other member := by
    rcases List.mem_append.mp member with old | single
    · exact ⟨(staging.ids other old).1, Nat.lt_succ_of_lt (staging.ids other old).2⟩
    · rw [List.mem_singleton.mp single]
      exact ⟨Nat.le_add_right _ _, Nat.lt_succ_self _⟩
  claimed other member key claims := by
    rw [getElem?_claim]
    rcases List.mem_append.mp member with old | single
    · have held := staging.claimed other old key claims
      rwa [if_neg fun same => fresh key same (mem_of_getElem? held)]
    · rw [List.mem_singleton.mp single] at claims ⊢
      rw [if_pos claims]
  free other member := by
    rcases List.mem_append.mp member with old | single
    · exact staging.free other old
    · rw [List.mem_singleton.mp single]
      exact free
  known key id found := by
    rw [getElem?_claim] at found
    split at found
    · exact .inl (by simp [Option.some.inj found])
    · refine (staging.known key id found).imp_left fun old => ?_
      rw [List.map_append]
      exact List.mem_append_left _ old
  named other member := by
    rcases List.mem_append.mp member with old | single
    · exact staging.named other old
    · rw [List.mem_singleton.mp single]
      exact ⟨names, named⟩
  count := by
    cases row.externalKey <;> simp [StagedNodes.claim, StagedNodes.push, staging.count]
  earlier entry member := by
    have old : entry ∈ staged.existing := by
      cases owned : row.externalKey <;> simpa [StagedNodes.claim, StagedNodes.push,
        owned] using member
    exact Nat.lt_succ_of_lt (staging.earlier entry old)
  created := by
    have more : createdIds (staged.nodeIds ++ [start + position]) staged.existing = _ :=
      createdIds_make (staging.count.symm ▸ staging.earlier)
    rw [List.map_append, ← staging.created, List.map_singleton, ← more]
    cases owned : row.externalKey <;> rfl

theorem StagesNodes.staging
    (stages : StagesNodes tables plane onConflict start position staged nodes final)
    (staging : Staging tables plane start position staged rows) :
    ∃ rows, Staging tables plane start (position + nodes.length) final rows := by
  induction stages generalizing rows with
  | done => exact ⟨rows, staging⟩
  | keep taken _ ih =>
    obtain ⟨-, fresh, owned, -⟩ := claimKey_kept taken
    rw [List.length_cons, Nat.add_comm _ 1, ← Nat.add_assoc]
    exact ih (staging.keep fresh owned)
  | make free named _ ih =>
    obtain ⟨fresh, unclaimed⟩ := claimKey_free free
    rw [List.length_cons, Nat.add_comm _ 1, ← Nat.add_assoc]
    exact ih (staging.make ⟨_, _, _⟩ fresh unclaimed named)

/-- No two nodes of a load have one key: a key leads to one node. -/
theorem Staging.keysApart (staging : Staging tables plane start position staged rows) :
    KeysApart rows := by
  have apart : rows.Pairwise fun a b => a.1 ≠ b.1 := List.pairwise_map.mp staging.nodup
  refine apart.imp_of_mem ?_
  intro a b memberA memberB different key claimsA claimsB
  have same := (staging.claimed a memberA key claimsA).symm.trans
    (staging.claimed b memberB key claimsB)
  exact different (Option.some.inj same)

/-! ### A load as a chain of inserts -/

/-- A node inserted leaves the keys of the others free. -/
theorem takenKey_inserted (free : takenKey tables plane key = none)
    (different : ∀ name : String, row.externalKey = some name → key ≠ some name) :
    takenKey (tables.applyAll (nodeWrites plane id row)) plane key = none := by
  rw [applyAll_nodeWrites]
  cases key with
  | none => rfl
  | some name =>
    cases owned : row.externalKey with
    | none => exact free
    | some other =>
      have apart : other ≠ name := by
        rintro rfl
        exact different other owned rfl
      simpa [takenKey, nodeIdByExternalKey, apart] using free

theorem insertNodes_changes {world : World} (apart : KeysApart rows)
    (nodup : (rows.map Prod.fst).Nodup) (inside : ∀ row ∈ rows, row.1 ∈ world.freeNodes)
    (free : ∀ row ∈ rows, takenKey world.tables plane row.2.externalKey = none)
    (named : ∀ row ∈ rows, ∀ label ∈ row.2.labels, label ∈ world.tables.dictNames .label) :
    Changes plane world { world with
      tables := insertNodes world.tables plane rows
      freeNodes := world.freeNodes \ {id | id ∈ rows.map Prod.fst}
      madeNodes := world.madeNodes ++ rows.map Prod.fst } := by
  induction rows generalizing world with
  | nil => simpa [insertNodes] using Relation.ReflTransGen.refl
  | cons row rows ih =>
    obtain ⟨fresh, nodup⟩ := List.nodup_cons.mp nodup
    obtain ⟨different, apart⟩ := List.pairwise_cons.mp apart
    have first : Change plane world { world with
        tables := world.tables.applyAll (nodeWrites plane row.1 row.2)
        freeNodes := world.freeNodes \ {row.1}
        madeNodes := world.madeNodes ++ [row.1] } :=
      .insertNode (inside row List.mem_cons_self) (free row List.mem_cons_self)
        (named row List.mem_cons_self)
    have names : (world.tables.applyAll (nodeWrites plane row.1 row.2)).dictNames =
        world.tables.dictNames := by rw [applyAll_nodeWrites]
    have rest := @ih { world with
        tables := world.tables.applyAll (nodeWrites plane row.1 row.2)
        freeNodes := world.freeNodes \ {row.1}
        madeNodes := world.madeNodes ++ [row.1] } apart nodup
      (fun other member => ⟨inside other (List.mem_cons_of_mem _ member), fun same =>
        fresh (List.mem_map.mpr ⟨other, member, same⟩)⟩)
      (fun other member => takenKey_inserted (free other (List.mem_cons_of_mem _ member))
        (different other member))
      (fun other member => names ▸ named other (List.mem_cons_of_mem _ member))
    have left : world.freeNodes \ {id | id ∈ (row :: rows).map Prod.fst} =
        (world.freeNodes \ {row.1}) \ {id | id ∈ rows.map Prod.fst} := by
      ext id
      simp [and_assoc]
    rw [left]
    simpa [insertNodes] using Relation.ReflTransGen.head first rest

theorem insertEdges_changes {world : World} {rows : List (EdgeId × EdgeRow)}
    (nodup : (rows.map Prod.fst).Nodup) (inside : ∀ row ∈ rows, row.1 ∈ world.freeEdges)
    (ends : ∀ row ∈ rows, (plane, row.2.src) ∈ world.tables.nodes ∧
      (plane, row.2.dst) ∈ world.tables.nodes)
    (named : ∀ row ∈ rows, row.2.ty ∈ world.tables.dictNames .edgeType) :
    Changes plane world { world with
      tables := insertEdges world.tables plane rows
      freeEdges := world.freeEdges \ {id | id ∈ rows.map Prod.fst}
      madeEdges := world.madeEdges ++ rows.map Prod.fst } := by
  induction rows generalizing world with
  | nil => simpa [insertEdges] using Relation.ReflTransGen.refl
  | cons row rows ih =>
    obtain ⟨fresh, nodup⟩ := List.nodup_cons.mp nodup
    have first : Change plane world { world with
        tables := world.tables.applyAll (edgeWrites plane row.1 row.2)
        freeEdges := world.freeEdges \ {row.1}
        madeEdges := world.madeEdges ++ [row.1] } :=
      .insertEdge (inside row List.mem_cons_self) (ends row List.mem_cons_self).1
        (ends row List.mem_cons_self).2 (named row List.mem_cons_self)
    have kept : (world.tables.applyAll (edgeWrites plane row.1 row.2)).nodes =
        world.tables.nodes := by rw [applyAll_edgeWrites]
    have names : (world.tables.applyAll (edgeWrites plane row.1 row.2)).dictNames =
        world.tables.dictNames := by rw [applyAll_edgeWrites]
    have rest := @ih { world with
        tables := world.tables.applyAll (edgeWrites plane row.1 row.2)
        freeEdges := world.freeEdges \ {row.1}
        madeEdges := world.madeEdges ++ [row.1] } nodup
      (fun other member => ⟨inside other (List.mem_cons_of_mem _ member), fun same =>
        fresh (List.mem_map.mpr ⟨other, member, same⟩)⟩)
      (fun other member => kept ▸ ends other (List.mem_cons_of_mem _ member))
      (fun other member => names ▸ named other (List.mem_cons_of_mem _ member))
    have left : world.freeEdges \ {id | id ∈ (row :: rows).map Prod.fst} =
        (world.freeEdges \ {row.1}) \ {id | id ∈ rows.map Prod.fst} := by
      ext id
      simp [and_assoc]
    rw [left]
    simpa [insertEdges] using Relation.ReflTransGen.head first rest

/-- The edges of a load have the ids of the reservation, one each. -/
theorem StagesEdges.ids {rows : List (EdgeId × EdgeRow)}
    (stages : StagesEdges tables plane keyToId start position edges rows) :
    rows.map Prod.fst = List.range' (start + position) edges.length := by
  induction stages with
  | done => rfl
  | edge _ _ _ _ ih =>
    rw [List.map_cons, ih, List.length_cons, List.range'_succ]
    rfl

/-- An end that resolves is a node of the load or of the plane. -/
theorem resolve_eq {key : String} (found : resolve tables plane keyToId key = .ok id) :
    keyToId[key]? = some id ∨ tables.extKeys[(plane, key)]? = some id := by
  simp only [resolve] at found
  split at found
  · cases found
    exact .inl ‹_›
  · split at found
    · cases found
      exact .inr ‹_›
    · cases found

/-- What the edges of a load lead to, and their types. -/
theorem StagesEdges.resolved {rows : List (EdgeId × EdgeRow)}
    (stages : StagesEdges tables plane keyToId start position edges rows) :
    ∀ row ∈ rows, (∃ key, resolve tables plane keyToId key = .ok row.2.src) ∧
      (∃ key, resolve tables plane keyToId key = .ok row.2.dst) ∧
      ∃ name : String, (tables.dictIds .edgeType)[name]? = some row.2.ty := by
  induction stages with
  | done => exact fun row member => nomatch member
  | edge source destination named _ ih =>
    rintro row (_ | ⟨_, member⟩)
    · exact ⟨⟨_, source⟩, ⟨_, destination⟩, _, named⟩
    · exact ih row member

/-- A node of the load is there once the nodes are written, and so is every older one. -/
theorem mem_insertNodes :
    (plane, id) ∈ (insertNodes tables plane rows).nodes ↔
      id ∈ rows.map Prod.fst ∨ (plane, id) ∈ tables.nodes := by
  induction rows generalizing tables with
  | nil => simp [insertNodes]
  | cons row rows ih =>
    rw [insertNodes, List.foldl_cons, ← insertNodes, ih, applyAll_nodeWrites]
    simp only [mem_write, List.map_cons, List.mem_cons]
    grind

/-- The end of an edge is there once the nodes of the load are written. -/
theorem Staging.end_mem {key : String} (exact : Exact tables)
    (staging : Staging tables plane start position staged rows)
    (found : resolve tables plane staged.keyToId key = .ok id) :
    (plane, id) ∈ (insertNodes tables plane rows).nodes := by
  rw [mem_insertNodes]
  have owned : tables.extKeys[(plane, key)]? = some id → (plane, id) ∈ tables.nodes := by
    intro held
    obtain ⟨row, present, -⟩ := (exact.extKeys plane key id).mp held
    exact mem_of_getElem? present
  rcases resolve_eq found with claimed | held
  · exact (staging.known key id claimed).imp_right owned
  · exact .inr (owned held)

/-- Two edges of a load have different ids. -/
theorem StagesEdges.nodup {rows : List (EdgeId × EdgeRow)}
    (stages : StagesEdges tables plane keyToId start position edges rows) :
    (rows.map Prod.fst).Nodup :=
  stages.ids ▸ List.nodup_range'

/-- Staged nodes and edges written over tables that have set their ids aside. -/
theorem Staging.changes {edgeStart : ℕ} {batches : List (EdgeId × EdgeRow)} (sound : world.Sound)
    (staging : Staging world.tables plane start nodes.length staged rows)
    (stages : StagesEdges world.tables plane staged.keyToId edgeStart 0 edges batches)
    (nodeIds : Set.Ico start (start + nodes.length) ⊆ world.freeNodes)
    (edgeIds : Set.Ico edgeStart (edgeStart + edges.length) ⊆ world.freeEdges) :
    Changes plane world
      { tables := (world.tables.applyAll staged.writes).applyAll (bulkEdgeWrites plane batches)
        freeNodes := world.freeNodes \ {id | id ∈ rows.map Prod.fst}
        freeEdges := world.freeEdges \ {id | id ∈ batches.map Prod.fst}
        madeNodes := world.madeNodes ++ rows.map Prod.fst
        madeEdges := world.madeEdges ++ batches.map Prod.fst } := by
  have exact := sound.tables.exact
  have apart := staging.keysApart
  have nodesIn := @insertNodes_changes plane rows world apart staging.nodup
    (fun row member => nodeIds (staging.ids row member)) staging.free (fun row member => by
      obtain ⟨names, known⟩ := staging.named row member
      exact known.mem (exact.dict .label))
  have names : (insertNodes world.tables plane rows).dictNames = world.tables.dictNames := by
    rw [insertNodes_eq]
  have edgesIn := @insertEdges_changes plane { world with
      tables := insertNodes world.tables plane rows
      freeNodes := world.freeNodes \ {id | id ∈ rows.map Prod.fst}
      madeNodes := world.madeNodes ++ rows.map Prod.fst } batches stages.nodup
    (fun row member => edgeIds (by
      have inside : row.1 ∈ batches.map Prod.fst := List.mem_map_of_mem member
      rw [stages.ids, List.mem_range'_1] at inside
      exact ⟨by omega, by omega⟩))
    (fun row member => by
      obtain ⟨⟨_, source⟩, ⟨_, destination⟩, -⟩ := stages.resolved row member
      exact ⟨staging.end_mem exact source, staging.end_mem exact destination⟩)
    (fun row member => by
      obtain ⟨-, -, name, found⟩ := stages.resolved row member
      exact names ▸ mem_of_getElem? ((exact.dict .edgeType name _).mp found))
  rw [staging.holds.applyAll apart, applyAll_bulkEdgeWrites]
  exact nodesIn.trans edgesIn

/-- Ids of a reservation are in it and nowhere before it. -/
theorem mem_reserved {free : Set ℕ} {ids : List ℕ} (below : ∀ id ∈ free, tables.Below counter id)
    (found : tables.next counter = some start)
    (inside : ∀ id ∈ ids, id ∈ Set.Ico start (start + count)) :
    ∀ id ∈ ids, id ∈ free ∪ Set.Ico start (start + count) ∧ id ∉ free :=
  fun id member => ⟨.inr (inside id member), fun held =>
    absurd (inside id member).1 (Nat.not_le.mpr ((below id held).lt found))⟩

theorem Staging.mem_ids (staging : Staging tables plane start count staged rows) :
    ∀ id ∈ rows.map Prod.fst, id ∈ Set.Ico start (start + count) :=
  List.forall_mem_map.mpr staging.ids

theorem StagesEdges.mem_ids {rows : List (EdgeId × EdgeRow)}
    (stages : StagesEdges tables plane keyToId start 0 edges rows) :
    ∀ id ∈ rows.map Prod.fst, id ∈ Set.Ico start (start + edges.length) := by
  intro id member
  rwa [stages.ids, List.mem_range'_1] at member

/-- A load is a chain of inserts. -/
theorem BulkLoads.changes (sound : world.Sound)
    (loads : BulkLoads plane onConflict nodes edges world.tables result after) :
    Changes plane world { world with
      tables := after
      madeNodes := world.madeNodes ++ result.1.created
      madeEdges := world.madeEdges ++ result.2 } := by
  obtain ⟨nodeStart, edgeStart, nodesNamed, named, staged, batches, foundNode, grewNodes, foundEdge,
    grewEdges, stagesNodes, stagesEdges, rfl, rfl⟩ := loads
  have first : Changes plane world _ := reservedNodes_changes foundNode grewNodes
  have chain := first.trans (reservedEdges_changes foundEdge grewEdges)
  obtain ⟨rows, staging⟩ := stagesNodes.staging Staging.empty
  rw [Nat.zero_add] at staging
  have inserted := Staging.changes (sound.changes chain) staging stagesEdges Set.subset_union_right
    Set.subset_union_right
  have created : (⟨staged.nodes.length, edges.length, nodeStart, staged.nodeIds, staged.existing⟩ :
      BulkStats).created = rows.map Prod.fst := staging.created
  have nodeIds := mem_reserved sound.tables.freeNodes foundNode staging.mem_ids
  have edgeIds := mem_reserved (sound.changes first).tables.freeEdges foundEdge stagesEdges.mem_ids
  rw [created]
  exact (chain.trans inserted).tail (Change.forget
    (fun id free => ⟨.inl free, fun member => (nodeIds id member).2 free⟩)
    fun id free => ⟨.inl free, fun member => (edgeIds id member).2 free⟩)

/-! ### A load and its ids -/

theorem Tables.Adds.insertNodes :
    tables.Adds (rows.map Prod.fst) [] (insertNodes tables plane rows) := by
  induction rows generalizing tables with
  | nil => exact .refl
  | cons row rows ih => exact Tables.Adds.insertNode.trans ih

theorem Tables.Adds.insertEdges {rows : List (EdgeId × EdgeRow)} :
    tables.Adds [] (rows.map Prod.fst) (insertEdges tables plane rows) := by
  induction rows generalizing tables with
  | nil => exact .refl
  | cons row rows ih => exact Tables.Adds.insertEdge.trans ih

/-- A load makes records under ids of its own, whatever they hold. -/
theorem BulkLoads.numbered (numbered : world.Numbered)
    (loads : BulkLoads plane onConflict nodes edges world.tables result after) :
    World.Numbered { world with
      tables := after
      madeNodes := world.madeNodes ++ result.1.created
      madeEdges := world.madeEdges ++ result.2 } := by
  obtain ⟨nodeStart, edgeStart, nodesNamed, named, staged, batches, foundNode, grewNodes, foundEdge,
    grewEdges, stagesNodes, stagesEdges, rfl, rfl⟩ := loads
  have first : Changes plane world _ := reservedNodes_changes foundNode grewNodes
  have reserved := numbered.changes (first.trans (reservedEdges_changes foundEdge grewEdges))
  obtain ⟨rows, staging⟩ := stagesNodes.staging Staging.empty
  rw [Nat.zero_add] at staging
  have created : (⟨staged.nodes.length, edges.length, nodeStart, staged.nodeIds, staged.existing⟩ :
      BulkStats).created = rows.map Prod.fst := staging.created
  rw [created, staging.holds.applyAll staging.keysApart, applyAll_bulkEdgeWrites]
  have adds : named.Adds (rows.map Prod.fst) (batches.map Prod.fst)
      (insertEdges (insertNodes named plane rows) plane batches) := by
    simpa using Tables.Adds.insertNodes.trans Tables.Adds.insertEdges
  exact reserved.adds adds staging.nodup
    (mem_reserved numbered.issued.freeNodes foundNode staging.mem_ids) stagesEdges.nodup
    (mem_reserved (numbered.changes first).issued.freeEdges foundEdge stagesEdges.mem_ids)
    Set.subset_union_left Set.subset_union_left

/-! ### Edges between ids -/

/-- The edges of a load from `position` on: their ids, and nothing of their ends. -/
theorem stageEdgesById_runs {position : ℕ} {edges : List BulkEdgeById} {cache : NameCache}
    {before : Tables} (caches : Caches before .edgeType cache) :
    Runs before (stageEdgesById start edges position cache : TxnM base (List (EdgeId × EdgeRow)))
      (fun rows after => Grows before after ∧
        rows.map Prod.fst = List.range' (start + position) edges.length)
      (Grows before) := by
  induction edges generalizing before position cache with
  | nil =>
    mvcgen [stageEdgesById]
    subst_vars
    exact ⟨.refl, rfl⟩
  | cons edge edges ih =>
    have interns := @internCached_runs base .edgeType
    mvcgen [stageEdgesById, interns, ih] <;> subst_vars
    next => exact caches
    next named => exact named.2.2
    next named _ _ rest =>
      refine ⟨named.1.trans rest.1, ?_⟩
      rw [List.map_cons, rest.2, List.length_cons, List.range'_succ]
      rfl
    next named _ _ => exact fun grows => named.1.trans grows
    next => exact fun grows => grows

/-- Edges between ids take the ids of one reservation, and write nothing under others. -/
theorem bulkLoadEdges_runs {edges : List BulkEdgeById} :
    Runs before (bulkLoadEdges plane edges : TxnM base (ℕ × List EdgeId))
      (fun result after => ∃ start named, before.next .edge = some start ∧
        Grows (before.apply (.next .edge (start + edges.length))) named ∧
        named.Adds [] result.2 after ∧ result.2 = List.range' start edges.length)
      (Grows before) := by
  have reserves := @reserveIdBatch_runs base
  have stages := @stageEdgesById_runs base
  mvcgen [bulkLoadEdges, reserves, stages] <;> subst_vars
  next => simp [Caches]
  next start _ reserved rows txn staged =>
    refine ⟨start, txn.tables, reserved.1, reserved.2 ▸ staged.1, ?_, staged.2⟩
    rw [Txn.stageAll_tables, applyAll_bulkEdgeWrites]
    exact .insertEdges
  next reserved _ _ => exact fun grows => (Grows.reserved reserved).trans grows
  next => exact fun same => same ▸ .refl

end DrStrange.Graph
