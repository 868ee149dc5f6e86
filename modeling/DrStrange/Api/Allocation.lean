/-
**Every way an id is handed out.**

Ids of nodes and edges come from the allocator of a write transaction, from the reservations of the
bulk loaders, and one at a time off the counter for code that calls the graph layer on the store's own
transaction (`GraphCall`). In whatever order, on whatever planes, committed or dropped, no id is
handed out twice (`ids_never_reused`). The argument is about ids alone (`World.Numbered`): loading
edges by id can leave ends that are no nodes, and ids stay apart over such tables too.
-/

import DrStrange.Api.Reachable

namespace DrStrange.Graph

open Std Lib ExtTreeMap

variable {base tables named : Tables} {α β : Type} {before : WriteTxn base} {plane : PlaneId}
  {host : Host} {millis : ℤ} {db : Database} {run : WriteM base α} {world : World}
  {edges : List BulkEdgeById}

/-! ### The code -/

/-- The writes of the graph layer to nodes and edges. -/
inductive GraphCall where
  | createNode (labels : List String) (props : Properties)
  | createNodeWithKey (key : String) (labels : List String) (props : Properties)
  | createEdge (src dst : NodeId) (ty : String) (props : Properties)
  | bulkLoad (nodes : List BulkNode) (edges : List BulkEdge) (onConflict : OnConflict)
  | bulkLoadEdges (edges : List BulkEdgeById)
  | deleteNode (id : NodeId)
  | deleteEdge (id : EdgeId)
  | setNodeProp (id : NodeId) (key : String) (prop : PropDesc)
  | removeNodeProp (id : NodeId) (key : String)
  | setNodeLabels (id : NodeId) (labels : List String)
  | setEdgeProp (id : EdgeId) (key : String) (prop : PropDesc)
  | removeEdgeProp (id : EdgeId) (key : String)
  | setEdgeType (id : EdgeId) (ty : String)

/-- Graph code with note taken of the nodes and edges it made. -/
def noting (run : PlaneId → TxnM base α) (made : α → List NodeId × List EdgeId) :
    WriteM base Unit := do
  let result ← onTxn run
  modify fun write => { write with
    madeNodes := write.madeNodes ++ (made result).1
    madeEdges := write.madeEdges ++ (made result).2 }

def GraphCall.call : GraphCall → WriteM base Unit
  | .createNode labels props =>
    noting (fun plane => Txn.createNode plane labels props) fun id => ([id], [])
  | .createNodeWithKey key labels props =>
    noting (fun plane => Txn.createNodeWithKey plane key labels props) fun id => ([id], [])
  | .createEdge src dst ty props =>
    noting (fun plane => Txn.createEdge plane src dst ty props) fun id => ([], [id])
  | .bulkLoad nodes edges onConflict =>
    noting (fun plane => bulkLoadIds plane nodes edges onConflict) fun loaded =>
      (loaded.1.created, loaded.2)
  | .bulkLoadEdges edges =>
    noting (fun plane => Graph.bulkLoadEdges plane edges) fun loaded => ([], loaded.2)
  | .deleteNode id => onTxn fun plane => Graph.deleteNode plane id
  | .deleteEdge id => onTxn fun plane => Graph.deleteEdge plane id
  | .setNodeProp id key prop => onTxn fun plane => Graph.setNodeProp plane id key prop
  | .removeNodeProp id key => onTxn fun plane => Graph.removeNodeProp plane id key
  | .setNodeLabels id labels => onTxn fun plane => Graph.setNodeLabels plane id labels
  | .setEdgeProp id key prop => onTxn fun plane => Graph.setEdgeProp plane id key prop
  | .removeEdgeProp id key => onTxn fun plane => Graph.removeEdgeProp plane id key
  | .setEdgeType id ty => onTxn fun plane => Graph.setEdgeType plane id ty

/-- A call inside a write transaction: one of its methods, or graph code on any plane. -/
inductive TxnCall where
  | method (op : WriteOp)
  | bulkLoadEdges (edges : List BulkEdgeById)
  | graph (plane : PlaneId) (call : GraphCall)

/-- A call on another plane. -/
def onPlane (plane : PlaneId) (run : WriteM base α) : WriteM base α := fun write =>
  match run { write with plane := plane } with
  | .ok result next => .ok result { next with plane := write.plane }
  | .error error next => .error error { next with plane := write.plane }

def TxnCall.call : TxnCall → WriteM base Unit
  | .method op => op.call
  | .bulkLoadEdges edges => discard (bulkLoadEdgesTxn edges)
  | .graph plane call => onPlane plane call.call

/-- The transaction after a call, whether it returned or failed. -/
def TxnCall.after (call : TxnCall) (write : WriteTxn base) : WriteTxn base :=
  match (call.call : WriteM base Unit) write with
  | .ok _ next => next
  | .error _ next => next

/-- How a transaction ends: committed by the API, committed as the store's own, or dropped. -/
inductive Ending where
  | commit
  | commitStore
  | drop

/-- A call of the database, or a transaction with whatever calls in it. -/
inductive Act where
  | command (command : Command)
  | write (plane : PlaneId) (calls : List TxnCall) (ending : Ending)

def WriteTxn.called (write : WriteTxn base) (calls : List TxnCall) : WriteTxn base :=
  calls.foldl (fun write call => call.after write) write

/-- The transaction of a list of calls. -/
def Database.calls (host : Host) (db : Database) (plane : PlaneId) (calls : List TxnCall) :
    WriteTxn db.tables :=
  (db.beginTxn host plane).called calls

/-- The database afterwards. The store's own commit stamps nothing and tells no index. -/
def Database.act (host : Host) (db : Database) (millis : ℤ) : Act → Database
  | .command command => db.after host millis command
  | .write plane calls .commit => orKeep db (db.commit host (db.calls host plane calls) millis)
  | .write plane calls .commitStore => { db with
      tables := (db.calls host plane calls).txn.tables
      madeNodes := (db.calls host plane calls).madeNodes
      madeEdges := (db.calls host plane calls).madeEdges }
  | .write _ _ .drop => db

/-- Acts at given times, one after the other. -/
def Database.acts (host : Host) (db : Database) (steps : List (ℤ × Act)) : Database :=
  steps.foldl (fun db step => db.act host step.1 step.2) db

/-! ### Calls -/

/-- An id off the counter, and a node written under it. -/
theorem World.Numbered.nextNode {after : Tables} {id : NodeId} {row : NodeRow}
    (numbered : world.Numbered) (found : world.tables.next .node = some id)
    (grows : Grows (world.tables.apply (.next .node (id + 1))) named)
    (written : after = named.applyAll (nodeWrites plane id row)) :
    World.Numbered { world with tables := after, madeNodes := world.madeNodes ++ [id] } := by
  have reserved := numbered.changes (reservedNodes_changes found grows : Changes plane world _)
  refine reserved.makeNode (.inr ⟨le_rfl, Nat.lt_succ_self id⟩) ?_ Set.subset_union_left written
  exact fun held => absurd ((numbered.issued.freeNodes id held).lt found) (Nat.lt_irrefl id)

theorem World.Numbered.nextEdge {after : Tables} {id : EdgeId} {row : EdgeRow}
    (numbered : world.Numbered) (found : world.tables.next .edge = some id)
    (grows : Grows (world.tables.apply (.next .edge (id + 1))) named)
    (written : after = named.applyAll (edgeWrites plane id row)) :
    World.Numbered { world with tables := after, madeEdges := world.madeEdges ++ [id] } := by
  have reserved := numbered.changes (reservedEdges_changes found grows : Changes plane world _)
  refine reserved.makeEdge (.inr ⟨le_rfl, Nat.lt_succ_self id⟩) ?_ Set.subset_union_left written
  exact fun held => absurd ((numbered.issued.freeEdges id held).lt found) (Nat.lt_irrefl id)

/-- Ids of one reservation, and edges written under them. -/
theorem World.Numbered.reserveEdges {after : Tables} {start count : ℕ} {ids : List EdgeId}
    (numbered : world.Numbered) (found : world.tables.next .edge = some start)
    (grows : Grows (world.tables.apply (.next .edge (start + count))) named)
    (adds : named.Adds [] ids after) (each : ids = List.range' start count) :
    World.Numbered { world with tables := after, madeEdges := world.madeEdges ++ ids } := by
  have reserved := numbered.changes (reservedEdges_changes found grows : Changes 0 world _)
  have inside : ∀ id ∈ ids, id ∈ Set.Ico start (start + count) := by
    intro id member
    rwa [each, List.mem_range'_1] at member
  simpa using reserved.adds adds List.nodup_nil (List.forall_mem_nil _) (each ▸ List.nodup_range')
    (mem_reserved numbered.issued.freeEdges found inside) subset_rfl Set.subset_union_left

/-- A call keeps ids apart, whether it returns or fails. -/
def KeepsIds (run : WriteM base α) : Prop :=
  ∀ before, before.world.Numbered →
    Does before run (fun _ after => after.world.Numbered) fun after => after.world.Numbered

theorem Keeps.ids (keeps : Keeps run) : KeepsIds run :=
  fun before numbered => (keeps before).mono (fun _ _ follows => follows.numbered numbered)
    fun _ follows => follows.numbered numbered

/-- Graph code that keeps ids apart once what it made is noted. -/
theorem noting_keepsIds {run : PlaneId → TxnM base α} {made : α → List NodeId × List EdgeId}
    {after : PlaneId → Tables → α → Tables → Prop}
    (triple : ∀ plane tables, Runs tables (run plane) (after plane tables) (Grows tables))
    (numbered : ∀ (plane : PlaneId) (world : World) (result : α) (next : Tables), world.Numbered →
      after plane world.tables result next → World.Numbered { world with
        tables := next
        madeNodes := world.madeNodes ++ (made result).1
        madeEdges := world.madeEdges ++ (made result).2 }) : KeepsIds (noting run made) := by
  intro before started
  refine ((onTxn_does (triple before.plane before.txn.tables)).mono (fun _ _ held => held) ?_).bind ?_
  · rintro _ ⟨txn, rfl, grows⟩
    exact started.grows grows
  · rintro result _ ⟨txn, rfl, held⟩
    exact numbered before.plane before.world result txn.tables started held

theorem createNodeImpl_keepsIds {key : Option String} {labels : List String} {props : Properties} :
    KeepsIds (noting (fun plane => createNodeImpl plane key labels props) fun id => ([id], []) :
      WriteM base Unit) := by
  refine noting_keepsIds (fun _ _ => createNodeImpl_runs) ?_
  rintro plane world id next started ⟨found, named, ids, grows, written⟩
  simpa using started.nextNode found grows written

theorem bulkLoadEdges_numbered {next : Tables} {ids : List EdgeId} (started : world.Numbered)
    (loads : ∃ start named, world.tables.next .edge = some start ∧
      Grows (world.tables.apply (.next .edge (start + edges.length))) named ∧
      named.Adds [] ids next ∧ ids = List.range' start edges.length) :
    World.Numbered { world with tables := next, madeEdges := world.madeEdges ++ ids } := by
  obtain ⟨start, named, found, grows, adds, each⟩ := loads
  exact started.reserveEdges found grows adds each

theorem GraphCall.keepsIds (call : GraphCall) : KeepsIds (call.call : WriteM base Unit) := by
  cases call with
  | createNode | createNodeWithKey => exact createNodeImpl_keepsIds
  | createEdge =>
    refine noting_keepsIds (fun _ _ => createEdge_runs) ?_
    rintro plane world id next started ⟨found, named, row, grows, written⟩
    simpa using started.nextEdge found grows written
  | bulkLoad =>
    exact noting_keepsIds (fun _ _ => bulkLoadIds_runs) fun _ _ _ _ started loads =>
      loads.numbered started
  | bulkLoadEdges =>
    refine noting_keepsIds (fun _ _ => bulkLoadEdges_runs) fun _ _ _ _ started loads => ?_
    simpa using bulkLoadEdges_numbered started loads
  | deleteNode => exact deleteNode_keeps.ids
  | deleteEdge => exact deleteEdge_keeps.ids
  | setNodeProp | removeNodeProp => exact updateNodeProps_keeps.ids
  | setNodeLabels => exact setNodeLabels_keeps.ids
  | setEdgeProp | removeEdgeProp => exact updateEdgeProps_keeps.ids
  | setEdgeType => exact setEdgeType_keeps.ids

theorem bulkLoadEdgesTxn_keepsIds : KeepsIds (bulkLoadEdgesTxn edges : WriteM base ℕ) := by
  intro before started
  refine ((onTxn_does bulkLoadEdges_runs).mono (fun _ _ held => held) ?_).bind ?_
  · rintro _ ⟨txn, rfl, grows⟩
    exact started.grows grows
  · rintro result _ ⟨txn, rfl, loads⟩
    exact bulkLoadEdges_numbered started loads

theorem KeepsIds.discard (keeps : KeepsIds run) : KeepsIds (discard run) :=
  fun before started => (keeps before started).bind fun _ _ numbered => numbered

/-- The plane of a transaction says nothing of its ids. -/
theorem KeepsIds.onPlane (keeps : KeepsIds run) : KeepsIds (onPlane plane run) := by
  intro before started
  have there := keeps { before with plane := plane } started
  rw [Does] at there ⊢
  rw [Graph.onPlane]
  cases ran : run { before with plane := plane } with
  | ok result next => rwa [ran] at there
  | error error next => rwa [ran] at there

theorem TxnCall.keepsIds (call : TxnCall) : KeepsIds (call.call : WriteM base Unit) := by
  cases call with
  | method op => exact op.keeps.ids
  | bulkLoadEdges edges => exact bulkLoadEdgesTxn_keepsIds.discard
  | graph plane call => exact call.keepsIds.onPlane

theorem TxnCall.after_numbered (call : TxnCall) (numbered : before.world.Numbered) :
    (call.after before).world.Numbered := by
  have keeps := call.keepsIds before numbered
  rw [Does] at keeps
  rw [TxnCall.after]
  cases ran : (call.call : WriteM base Unit) before with
  | ok _ write => rwa [ran] at keeps
  | error _ write => rwa [ran] at keeps

theorem WriteTxn.called_numbered {calls : List TxnCall} (numbered : before.world.Numbered) :
    (before.called calls).world.Numbered := by
  induction calls generalizing before with
  | nil => exact numbered
  | cons call calls ih => exact ih (call.after_numbered numbered)

/-! ### Steps -/

theorem Tables.Adds.sameGraph {after : Tables} (same : tables.SameGraph after) :
    tables.Adds [] [] after := by
  rw [same]
  exact ⟨rfl, rfl, fun _ member => .inl member, fun _ member => .inl member⟩

theorem Tables.Adds.withoutPlane : tables.Adds [] [] (tables.withoutPlane plane) := by
  rw [Tables.withoutPlane]
  split
  · exact ⟨rfl, rfl, fun _ member => .inl (mem_withoutPlane.mp member).2,
      fun _ member => .inl (mem_withoutPlane.mp member).2⟩
  · exact .refl

/-- What a transaction leaves when it commits: nothing stays in reserve. -/
theorem WriteTxn.ended_numbered (numbered : before.world.Numbered)
    (same : before.txn.tables.SameGraph tables) :
    World.Numbered ⟨tables, ∅, ∅, before.madeNodes, before.madeEdges⟩ := by
  have forgot : Changes 0 before.world _ :=
    .single (Change.forget (Set.empty_subset _) (Set.empty_subset _))
  exact (numbered.changes forgot).rows (.sameGraph same)

/-- Every call keeps ids apart, in tables however bad. -/
theorem Database.Step.numbered {command : Command} {next : Database} (numbered : db.world.Numbered)
    (step : Database.Step host millis db command next) : next.world.Numbered := by
  cases step with
  | refused => exact numbered
  | createPlane free found =>
    have spent : Grows db.world.tables _ := .single (.spent 1 found)
    exact (numbered.grows spent).rows
      ⟨rfl, rfl, fun _ member => .inl member, fun _ member => .inl member⟩
  | setPlaneProperties | renamePlane =>
    exact numbered.rows ⟨rfl, rfl, fun _ member => .inl member, fun _ member => .inl member⟩
  | keepName => exact numbered.rows (.sameGraph Tables.sameGraph_stamped)
  | dropPlane =>
    exact numbered.rows (Tables.Adds.withoutPlane.trans
      (.sameGraph (planeMetaDeletes_sameGraph.trans Tables.sameGraph_stamped)))
  | ensureVectorIndex declares | ensureKeywordIndex declares =>
    exact numbered.rows
      (.sameGraph ((declares.sameGraph fun _ _ _ => rfl).trans Tables.sameGraph_stamped))
  | @write plane ops =>
    have follows : (db.beginTxn host plane).Follows (db.writeTxn host plane ops) :=
      WriteTxn.afterAll_follows
    have written := follows.numbered (db.beginTxn_world ▸ numbered)
    exact WriteTxn.ended_numbered written ((db.writeTxn host plane ops).sealed_sameGraph millis)
  | reopen opened =>
    rcases openTables_ok opened with ⟨blank, -⟩ | ⟨-, kept⟩
    · exact nomatch blank.symm.trans numbered.magic
    · exact numbered.rows (.sameGraph kept.same)

theorem Database.act_numbered {act : Act} (numbered : db.world.Numbered) :
    (db.act host millis act).world.Numbered := by
  cases act with
  | command command => exact (Database.after_steps host millis db command).numbered numbered
  | write plane calls ending =>
    have ran : (db.calls host plane calls).world.Numbered :=
      WriteTxn.called_numbered (db.beginTxn_world ▸ numbered)
    cases ending with
    | commit =>
      obtain ⟨seq, txn, sealed, tables⟩ := sealCommit_eq (db.calls host plane calls) millis
      have same : (db.calls host plane calls).txn.tables.SameGraph txn.tables := by
        rw [tables]
        exact (db.calls host plane calls).sealed_sameGraph millis
      rw [Database.act, Database.commit, sealed]
      exact WriteTxn.ended_numbered ran same
    | commitStore => exact WriteTxn.ended_numbered ran .refl
    | drop => exact numbered

/-! ### Runs -/

theorem Database.acts_numbered {steps : List (ℤ × Act)} (numbered : db.world.Numbered) :
    (db.acts host steps).world.Numbered := by
  induction steps generalizing db with
  | nil => exact numbered
  | cons step steps ih => exact ih (Database.act_numbered numbered)

/-- **Ids are never reused**: no two records ever committed have one id, and every record in the
store is one of those committed. -/
theorem ids_never_reused (host : Host) (millis : ℤ) (steps : List (ℤ × Act)) :
    let db := (Database.new host millis).acts host steps
    (db.madeNodes.Nodup ∧ ∀ plane node, (plane, node) ∈ db.tables.nodes → node ∈ db.madeNodes) ∧
      (db.madeEdges.Nodup ∧ ∀ plane edge, (plane, edge) ∈ db.tables.edges → edge ∈ db.madeEdges) := by
  have sound : (Database.new host millis).Sound := Database.new_sound
  have started : (Database.new host millis).world.Numbered :=
    ⟨sound.world.issued, sound.recorded, sound.magic⟩
  have numbered : ((Database.new host millis).acts host steps).world.Numbered :=
    Database.acts_numbered started
  exact ⟨⟨numbered.issued.nodes.nodup, numbered.recorded.nodes⟩,
    numbered.issued.edges.nodup, numbered.recorded.edges⟩

/-- Ids off the counter, out of batches and out of reservations, with a transaction dropped and the
database reopened in between. -/
def everyWay : List (ℤ × Act) :=
  [(1, .write 0 [.graph 0 (.createNode [] ∅), .method (.createNode [] ∅)] .commitStore),
    (2, .write 0 [.method (.createNode [] ∅)] .drop),
    (3, .command .reopen),
    (4, .write 0 [.method (.bulkUpsert [⟨some "a", [], ∅⟩, ⟨none, [], ∅⟩] [] .error),
      .method (.deleteNode 1), .bulkLoadEdges [⟨2, 9, "t", ∅⟩], .graph 0 (.createEdge 2 2 "t" ∅)]
      .commit)]

example : ((Database.new ⟨1, fun _ _ => []⟩ 0).acts ⟨1, fun _ _ => []⟩ everyWay).madeNodes =
    [1, 2, 66, 67] := by decide +kernel

end DrStrange.Graph
