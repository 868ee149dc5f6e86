/-
**What a write transaction does to the tables, call by call.**

Every method is a chain of changes on the transaction's plane, whether it returns or fails
(`WriteOp.follows`): the ids its allocator has in reserve are the ids set aside, and what it makes
is noted. So what every change keeps, every transaction keeps.
-/

import DrStrange.Api.WriteTxn
import DrStrange.Graph.BulkSound

namespace DrStrange.Graph

open Std Lib ExtTreeMap

variable {base after tables : Tables} {α β : Type} {before : WriteTxn base} {plane : PlaneId}
  {id : ℕ} {failed : WriteTxn base → Prop} {batch rest : IdBatch} {labels : List String}
  {key ty : String} {read : Tables → PlaneId → Except Error α}
  {change : WriteTxn base → WriteTxn base} {middle : α → WriteTxn base → Prop}
  {update : Properties → Properties} {run : PlaneId → TxnM base α} {value : Option PropValue}
  {first : WriteM base α} {nodes : List BulkNode} {props : Properties} {counter : Counter}

/-! ### Rules -/

/-- From `before` a method either returns a result in a transaction with `after` or fails in one
with `failed`. -/
def Does (before : WriteTxn base) (run : WriteM base α) (after : α → WriteTxn base → Prop)
    (failed : WriteTxn base → Prop) : Prop :=
  match run before with
  | .ok result write => after result write
  | .error _ write => failed write

theorem Does.bind {rest : α → WriteM base β} {after : β → WriteTxn base → Prop}
    (one : Does before first middle failed)
    (two : ∀ result write, middle result write → Does write (rest result) after failed) :
    Does before (first >>= rest) after failed := by
  simp only [Does, Bind.bind, EStateM.bind] at *
  cases ran : first before with
  | ok result write => exact two result write (by simpa [ran] using one)
  | error error write => simpa [ran] using one

theorem Does.mono {run : WriteM base α} {after : α → WriteTxn base → Prop}
    {worse : WriteTxn base → Prop} (does : Does before run middle failed)
    (implies : ∀ result write, middle result write → after result write)
    (implies' : ∀ write, failed write → worse write) : Does before run after worse := by
  rw [Does] at *
  split
  · rename_i result write ran
    rw [ran] at does
    exact implies result write does
  · rename_i error write ran
    rw [ran] at does
    exact implies' write does

theorem Does.modify :
    Does before (modify change) (fun _ write => write = change before) failed := rfl

theorem Does.get :
    Does before (get : WriteM base _) (fun result write => result = before ∧ write = before)
      failed := ⟨rfl, rfl⟩

/-- Graph code changes what the transaction has staged and nothing else of it. -/
theorem onTxn_does {run : PlaneId → TxnM base α} {after : α → Tables → Prop}
    {failed : Tables → Prop} (triple : Runs before.txn.tables (run before.plane) after failed) :
    Does before (onTxn run)
      (fun result write => ∃ txn, write = { before with txn := txn } ∧ after result txn.tables)
      (fun write => ∃ txn, write = { before with txn := txn } ∧ failed txn.tables) := by
  obtain ⟨returns, fails⟩ := triple.outcome
  rw [Does, onTxn]
  cases ran : run before.plane before.txn with
  | ok result txn => exact ⟨txn, rfl, returns result txn ran⟩
  | error error txn => exact ⟨txn, rfl, fails error txn ran⟩

theorem reading_does :
    Does before (reading read)
      (fun result write => write = before ∧ read before.txn.tables before.plane = .ok result)
      (fun write => write = before) := by
  rw [Does, reading]
  cases ran : read before.txn.tables before.plane with
  | ok result => exact ⟨rfl, rfl⟩
  | error error => exact rfl

/-! ### Chains of changes -/

/-- The ids of a batch not handed out yet. -/
def IdBatch.range (batch : IdBatch) : Set ℕ := Set.Ico batch.next (batch.next + batch.remaining)

/-- What the transaction sees, has in reserve, and has made. -/
def WriteTxn.world (write : WriteTxn base) : World where
  tables := write.txn.tables
  freeNodes := write.ids.node.range
  freeEdges := write.ids.edge.range
  madeNodes := write.madeNodes
  madeEdges := write.madeEdges

/-- A transaction further on, on the same plane. -/
structure WriteTxn.Follows (before after : WriteTxn base) : Prop where
  plane : after.plane = before.plane
  changes : before.world.Sound → Changes before.plane before.world after.world
  numbered : before.world.Numbered → after.world.Numbered

theorem WriteTxn.Follows.refl {write : WriteTxn base} : write.Follows write :=
  ⟨rfl, fun _ => .refl, fun numbered => numbered⟩

/-- Changes that need no sound store. -/
theorem WriteTxn.Follows.of_changes {after : WriteTxn base} (plane : after.plane = before.plane)
    (changes : Changes before.plane before.world after.world) : before.Follows after :=
  ⟨plane, fun _ => changes, fun numbered => numbered.changes changes⟩

theorem WriteTxn.Follows.trans {first second third : WriteTxn base} (one : first.Follows second)
    (two : second.Follows third) : first.Follows third where
  plane := two.plane.trans one.plane
  changes sound :=
    (one.changes sound).trans (one.plane ▸ two.changes (sound.changes (one.changes sound)))
  numbered started := two.numbered (one.numbered started)

/-- A method goes on from the transaction it is called on. -/
def Keeps (run : WriteM base α) : Prop :=
  ∀ before, Does before run (fun _ => before.Follows) before.Follows

theorem Keeps.bind {rest : α → WriteM base β} (one : Keeps first)
    (two : ∀ result, Keeps (rest result)) : Keeps (first >>= rest) :=
  fun before => (one before).bind fun result write follows =>
    (two result write).mono (fun _ _ further => follows.trans further) fun _ further =>
      follows.trans further

theorem Keeps.pure {result : α} : Keeps (pure result : WriteM base _) :=
  fun _ => WriteTxn.Follows.refl

theorem Keeps.throw {error : Error} : Keeps (throw error : WriteM base α) :=
  fun _ => WriteTxn.Follows.refl

theorem Keeps.get : Keeps (get : WriteM base _) := fun _ => WriteTxn.Follows.refl

/-- What only touches counters and events changes no row. -/
theorem Keeps.modify (plane : ∀ write, (change write).plane = write.plane)
    (world : ∀ write, (change write).world = write.world) : Keeps (modify change) :=
  fun before => .of_changes (plane before) (world before ▸ .refl)

theorem Keeps.reading : Keeps (reading read : WriteM base _) :=
  fun _ => reading_does.mono (fun _ _ same => same.1 ▸ .refl) fun _ same => same ▸ .refl

/-- Graph code goes on if what it does is a chain of changes in a sound store, and keeps ids apart in
any. -/
theorem Keeps.onTxn {after : PlaneId → Tables → α → Tables → Prop}
    {failed : PlaneId → Tables → Tables → Prop}
    (triple : ∀ plane tables, Runs tables (run plane) (after plane tables) (failed plane tables))
    (changes : ∀ (plane : PlaneId) (world : World) (result : α) (next : Tables), world.Sound →
      after plane world.tables result next → Changes plane world { world with tables := next })
    (numbered : ∀ (plane : PlaneId) (world : World) (result : α) (next : Tables), world.Numbered →
      after plane world.tables result next → World.Numbered { world with tables := next })
    (changes' : ∀ (plane : PlaneId) (world : World) (next : Tables),
      failed plane world.tables next → Changes plane world { world with tables := next }) :
    Keeps (onTxn run) := by
  intro before
  refine (onTxn_does (triple before.plane before.txn.tables)).mono ?_ ?_
  · rintro result _ ⟨txn, rfl, held⟩
    exact ⟨rfl, fun sound => changes before.plane before.world result txn.tables sound held,
      fun started => numbered before.plane before.world result txn.tables started held⟩
  · rintro _ ⟨txn, rfl, held⟩
    exact .of_changes rfl (changes' before.plane before.world txn.tables held)

/-- Graph code that is a chain of changes in any store. -/
theorem Keeps.onTxn_any {after : PlaneId → Tables → α → Tables → Prop}
    {failed : PlaneId → Tables → Tables → Prop}
    (triple : ∀ plane tables, Runs tables (run plane) (after plane tables) (failed plane tables))
    (changes : ∀ (plane : PlaneId) (world : World) (result : α) (next : Tables),
      after plane world.tables result next → Changes plane world { world with tables := next })
    (changes' : ∀ (plane : PlaneId) (world : World) (next : Tables),
      failed plane world.tables next → Changes plane world { world with tables := next }) :
    Keeps (Graph.onTxn run) :=
  .onTxn triple (fun plane world result next _ held => changes plane world result next held)
    (fun plane world result next started held =>
      started.changes (changes plane world result next held)) changes'

/-! ### Ids -/

/-- The first id of a fresh batch, and the rest of it. -/
theorem range_fresh {start : ℕ} :
    insert start (⟨start + 1, idBatchSize - 1⟩ : IdBatch).range =
      Set.Ico start (start + idBatchSize) := by
  ext id
  simp only [IdBatch.range, idBatchSize, Set.mem_insert_iff, Set.mem_Ico]
  omega

/-- The next id of a batch, and the rest of it. -/
theorem range_taken (left : batch.remaining ≠ 0) :
    insert batch.next (⟨batch.next + 1, batch.remaining - 1⟩ : IdBatch).range = batch.range := by
  ext id
  simp only [IdBatch.range, Set.mem_insert_iff, Set.mem_Ico]
  omega

/-- A node id taken from a batch: it and the rest are set aside, and nothing else changes. -/
theorem takeNode_changes {world : World} (reserve : world.freeNodes = batch.range)
    (taken : batch.Takes .node world.tables (id, rest) after) :
    Changes plane world { world with tables := after, freeNodes := insert id rest.range } := by
  cases taken with
  | fresh _ found =>
    rw [range_fresh]
    exact .tail (.single (Change.reserveNodes found))
      (Change.forget Set.subset_union_right subset_rfl)
  | held left => rw [range_taken left, ← reserve]

theorem takeEdge_changes {world : World} (reserve : world.freeEdges = batch.range)
    (taken : batch.Takes .edge world.tables (id, rest) after) :
    Changes plane world { world with tables := after, freeEdges := insert id rest.range } := by
  cases taken with
  | fresh _ found =>
    rw [range_fresh]
    exact .tail (.single (Change.reserveEdges found))
      (Change.forget subset_rfl Set.subset_union_right)
  | held left => rw [range_taken left, ← reserve]

/-- The batch starts behind the id taken from it. -/
theorem IdBatch.Takes.notMem_range (taken : batch.Takes counter tables (id, rest) after) :
    id ∉ rest.range := by
  cases taken <;> exact fun inside => absurd inside.1 (Nat.not_succ_le_self _)

/-- Taking an id spends ids at most. -/
theorem IdBatch.Takes.grows (taken : batch.Takes counter tables (id, rest) after) :
    Grows tables after := by
  cases taken with
  | fresh _ found => exact .single (.spent idBatchSize found)
  | held => exact .refl

/-- A transaction that is where another is follows what that one follows. -/
theorem WriteTxn.Follows.of_tables {txn : Txn base} (same : txn.tables = before.txn.tables) :
    before.Follows { before with txn := txn } := by
  refine .of_changes rfl ?_
  rw [show ({ before with txn := txn } : WriteTxn base).world = before.world by
    simp [WriteTxn.world, same]]

theorem nextNodeId_does :
    Does before nextNodeId
      (fun id write => ∃ txn batch,
        write = { before with txn := txn, ids := { before.ids with node := batch } } ∧
        Grows before.txn.tables txn.tables ∧
        Changes before.plane before.world
          { write.world with freeNodes := insert id batch.range } ∧ id ∉ batch.range)
      (fun write => ∃ txn, write = { before with txn := txn } ∧
        txn.tables = before.txn.tables) := by
  refine Does.get.bind ?_
  rintro _ _ ⟨rfl, rfl⟩
  refine ((onTxn_does take_runs).mono (fun _ _ taken => taken) ?_).bind ?_
  · exact fun _ kept => kept
  rintro ⟨id, batch⟩ _ ⟨txn, rfl, taken⟩
  exact ⟨txn, batch, rfl, taken.grows, takeNode_changes rfl taken, taken.notMem_range⟩

theorem nextEdgeId_does :
    Does before nextEdgeId
      (fun id write => ∃ txn batch,
        write = { before with txn := txn, ids := { before.ids with edge := batch } } ∧
        Grows before.txn.tables txn.tables ∧
        Changes before.plane before.world
          { write.world with freeEdges := insert id batch.range } ∧ id ∉ batch.range)
      (fun write => ∃ txn, write = { before with txn := txn } ∧
        txn.tables = before.txn.tables) := by
  refine Does.get.bind ?_
  rintro _ _ ⟨rfl, rfl⟩
  refine ((onTxn_does take_runs).mono (fun _ _ taken => taken) ?_).bind ?_
  · exact fun _ kept => kept
  rintro ⟨id, batch⟩ _ ⟨txn, rfl, taken⟩
  exact ⟨txn, batch, rfl, taken.grows, takeEdge_changes rfl taken, taken.notMem_range⟩

/-! ### Methods -/

theorem createNodeAs_keeps {key : Option String} :
    Keeps (createNodeAs key labels props : WriteM base _) := by
  intro before
  refine (nextNodeId_does.mono (fun _ _ taken => taken) ?_).bind ?_
  · rintro _ ⟨txn, rfl, same⟩
    exact .of_tables same
  rintro id _ ⟨txn, batch, rfl, -, taken, apart⟩
  refine ((onTxn_does insertNode_runs).mono (fun _ _ inserted => inserted) ?_).bind ?_
  · rintro _ ⟨after, rfl, grows⟩
    exact .of_changes rfl (taken.trans
      (grows.changes.tail (Change.forget (Set.subset_insert id _) subset_rfl)))
  · rintro _ _ ⟨after, rfl, unclaimed, named, ids, grows, known, written⟩
    refine ⟨rfl, fun sound => taken.trans ?_, fun started =>
      ((started.changes taken).grows grows).makeNode (Set.mem_insert id _) apart
        (Set.subset_insert id _) written⟩
    have inserted := insertNode_changes (sound.changes taken) (Set.mem_insert id _) unclaimed grows
      known written
    refine inserted.tail (Change.forget ?_ subset_rfl)
    exact fun other inside => ⟨.inr inside, fun same => apart (same ▸ inside)⟩

theorem createEdge_keeps {src dst : NodeId} :
    Keeps (createEdge src dst ty props : WriteM base _) := by
  intro before
  refine (nextEdgeId_does.mono (fun _ _ taken => taken) ?_).bind ?_
  · rintro _ ⟨txn, rfl, same⟩
    exact .of_tables same
  rintro id _ ⟨txn, batch, rfl, -, taken, apart⟩
  refine ((onTxn_does insertEdge_runs).mono (fun _ _ inserted => inserted) ?_).bind ?_
  · rintro _ ⟨after, rfl, grows⟩
    exact .of_changes rfl (taken.trans
      (grows.changes.tail (Change.forget subset_rfl (Set.subset_insert id _))))
  · rintro _ _ ⟨after, rfl, source, destination, named, number, grows, known, written⟩
    refine ⟨rfl, fun sound => taken.trans ?_, fun started =>
      ((started.changes taken).grows grows).makeEdge (Set.mem_insert id _) apart
        (Set.subset_insert id _) written⟩
    have inserted := insertEdge_changes (sound.changes taken) written (Set.mem_insert id _) source
      destination grows known
    refine inserted.tail (Change.forget subset_rfl ?_)
    exact fun other inside => ⟨.inr inside, fun same => apart (same ▸ inside)⟩

theorem deleteNode_keeps {id : NodeId} :
    Keeps (onTxn fun plane => deleteNode plane id : WriteM base _) :=
  .onTxn (fun _ _ => deleteNode_runs)
    (by
      rintro plane world _ next sound (⟨-, rfl⟩ | ⟨row, found, rfl⟩)
      · exact .refl
      · exact deleteNode_changes sound found)
    (by
      rintro plane world _ next started (⟨-, rfl⟩ | ⟨row, found, rfl⟩)
      · exact started
      · exact started.deleteNode found)
    (fun _ _ _ failed => failed.elim)

theorem deleteEdge_keeps {id : EdgeId} :
    Keeps (onTxn fun plane => deleteEdge plane id : WriteM base _) :=
  .onTxn_any (fun _ _ => deleteEdge_runs)
    (by
      rintro plane world _ next rfl
      exact .single (Change.removeEdge id))
    (fun _ _ _ failed => failed.elim)

theorem updateNodeProps_keeps {id : NodeId} :
    Keeps (onTxn fun plane => updateNodeProps plane id update : WriteM base _) :=
  .onTxn_any (fun _ _ => updateNodeProps_runs)
    (by
      rintro plane world _ next ⟨row, found, rfl⟩
      exact .single (Change.rewriteNode _ found))
    (fun _ _ _ failed => failed.1 ▸ .refl)

theorem updateEdgeProps_keeps {id : EdgeId} :
    Keeps (onTxn fun plane => updateEdgeProps plane id update : WriteM base _) :=
  .onTxn_any (fun _ _ => updateEdgeProps_runs)
    (by
      rintro plane world _ next ⟨row, found, rfl⟩
      exact .single (Change.rewriteEdge _ found))
    (fun _ _ _ same => same ▸ .refl)

theorem setNodeLabels_keeps {id : NodeId} :
    Keeps (onTxn fun plane => setNodeLabels plane id labels : WriteM base _) :=
  .onTxn (fun _ _ => setNodeLabels_runs)
    (by
      rintro plane world _ next sound ⟨row, named, ids, found, grows, known, rfl⟩
      exact relabel_changes sound found grows known)
    (by
      rintro plane world _ next started ⟨row, named, ids, found, grows, -, rfl⟩
      exact (started.grows grows).rows (.relabel (grows.nodes_eq ▸ found)))
    (fun _ _ _ grows => grows.changes)

theorem setEdgeType_keeps {id : EdgeId} :
    Keeps (onTxn fun plane => setEdgeType plane id ty : WriteM base _) :=
  .onTxn (fun _ _ => setEdgeType_runs)
    (by
      rintro plane world _ next sound ⟨row, named, number, found, grows, known, rfl⟩
      exact retype_changes sound found grows known)
    (by
      rintro plane world _ next started ⟨row, named, number, found, grows, -, rfl⟩
      exact (started.grows grows).rows (.retype (grows.edges_eq ▸ found)))
    (fun _ _ _ grows => grows.changes)

theorem countRemoved_keeps {ids : List EdgeId} : Keeps (countRemoved ids : WriteM base _) := by
  induction ids with
  | nil => exact .pure
  | cons id ids ih =>
    refine .bind .reading fun found => ?_
    cases found with
    | some edge =>
      refine .bind (.modify (fun _ => rfl) fun _ => rfl) fun _ => ?_
      exact ih
    | none => exact ih

theorem countNode_keeps {id : NodeId} : Keeps (countNode id : WriteM base _) := by
  refine .bind .reading fun found => ?_
  cases found with
  | some node =>
    exact .bind .reading fun _ => .bind countRemoved_keeps fun _ =>
      .modify (fun _ => rfl) fun _ => rfl
  | none => exact .pure

theorem deleteNodeTxn_keeps {id : NodeId} : Keeps (deleteNodeTxn id : WriteM base _) :=
  .bind countNode_keeps fun _ => .bind deleteNode_keeps fun _ =>
    .modify (fun _ => rfl) fun _ => rfl

theorem deleteEdgeTxn_keeps {id : EdgeId} : Keeps (deleteEdgeTxn id : WriteM base _) := by
  refine .bind .reading fun found => ?_
  cases found with
  | some edge => exact .bind (.modify (fun _ => rfl) fun _ => rfl) fun _ => deleteEdge_keeps
  | none => exact deleteEdge_keeps

theorem recordPropEvent_keeps {id : NodeId} :
    Keeps (recordPropEvent id key value : WriteM base _) := by
  refine .bind .get fun write => ?_
  split
  · refine .bind .reading fun found => ?_
    cases found with
    | some node => exact .modify (fun _ => rfl) fun _ => rfl
    | none => exact .pure
  · exact .pure

theorem recordKwPropEvent_keeps {id : NodeId} :
    Keeps (recordKwPropEvent id key value : WriteM base _) := by
  refine .bind .get fun write => ?_
  split
  · refine .bind .reading fun found => ?_
    cases found with
    | some node => exact .modify (fun _ => rfl) fun _ => rfl
    | none => exact .pure
  · exact .pure

theorem setProp_keeps {id : NodeId} {prop : PropDesc} :
    Keeps (setProp id key prop : WriteM base _) :=
  .bind updateNodeProps_keeps fun _ => .bind recordPropEvent_keeps fun _ => recordKwPropEvent_keeps

theorem removeProp_keeps {id : NodeId} : Keeps (removeProp id key : WriteM base _) :=
  .bind updateNodeProps_keeps fun _ => .bind recordPropEvent_keeps fun _ => recordKwPropEvent_keeps

theorem setLabels_keeps {id : NodeId} : Keeps (setLabels id labels : WriteM base _) := by
  refine .bind .reading fun found => ?_
  cases found with
  | some node => exact .bind setNodeLabels_keeps fun _ => .modify (fun _ => rfl) fun _ => rfl
  | none => exact .throw

theorem setEdgeTypeTxn_keeps {id : EdgeId} : Keeps (setEdgeTypeTxn id ty : WriteM base _) := by
  refine .bind .reading fun found => ?_
  cases found with
  | some edge =>
    dsimp only
    split
    · exact .bind (.modify (fun _ => rfl) fun _ => rfl) fun _ => setEdgeType_keeps
    · exact setEdgeType_keeps
  | none => exact setEdgeType_keeps

theorem setProps_keeps {id : NodeId} {props : List (String × PropDesc)} :
    Keeps (setProps id props : WriteM base _) := by
  induction props with
  | nil => exact .pure
  | cons prop props ih => exact .bind setProp_keeps fun _ => ih

theorem mergeKept_keeps {existing : List (ℕ × NodeId)} :
    Keeps (mergeKept nodes existing : WriteM base _) := by
  induction existing with
  | nil => exact .pure
  | cons kept existing ih =>
    obtain ⟨position, id⟩ := kept
    rw [mergeKept]
    split
    · refine .bind setProps_keeps fun _ => ?_
      split
      · exact ih
      · exact .bind setLabels_keeps fun _ => ih
    · exact ih

theorem bulkUpsert_keeps {edges : List BulkEdge} {onConflict : OnConflict} :
    Keeps (bulkUpsert nodes edges onConflict : WriteM base _) := by
  intro before
  refine ((onTxn_does bulkLoadIds_runs).mono (fun _ _ loaded => loaded) ?_).bind ?_
  · rintro _ ⟨txn, rfl, grows⟩
    exact .of_changes rfl grows.changes
  · rintro ⟨stats, edgeIds⟩ _ ⟨txn, rfl, loads⟩
    have loaded : before.Follows { before with
        txn := txn
        madeNodes := before.madeNodes ++ stats.created
        madeEdges := before.madeEdges ++ edgeIds } :=
      ⟨rfl, fun sound => loads.changes sound, fun started => loads.numbered started⟩
    refine Does.modify.bind ?_
    rintro _ _ rfl
    refine Does.mono ?_ (fun _ _ further => loaded.trans further) fun _ further =>
      loaded.trans further
    refine (?_ : Keeps _) _
    split
    · exact .bind mergeKept_keeps fun _ =>
        .bind (.modify (fun _ => rfl) fun _ => rfl) fun _ => .pure
    · exact .bind (.modify (fun _ => rfl) fun _ => rfl) fun _ => .pure

/-- A result that is not used. -/
theorem Keeps.discard {run : WriteM base α} (keeps : Keeps run) : Keeps (discard run) :=
  keeps.bind fun _ => .pure

/-- Every method goes on from the transaction it is called on. -/
theorem WriteOp.keeps (op : WriteOp) : Keeps (op.call : WriteM base _) := by
  cases op with
  | createNode | createNodeWithKey => exact createNodeAs_keeps.discard
  | createEdge => exact createEdge_keeps.discard
  | bulkUpsert => exact bulkUpsert_keeps.discard
  | deleteNode => exact deleteNodeTxn_keeps
  | deleteEdge => exact deleteEdgeTxn_keeps
  | setProp => exact setProp_keeps
  | removeProp => exact removeProp_keeps
  | setLabels => exact setLabels_keeps
  | setEdgeProp | removeEdgeProp => exact updateEdgeProps_keeps
  | setEdgeType => exact setEdgeTypeTxn_keeps

/-- What holds however a method comes out holds after it. -/
theorem WriteOp.after_does {op : WriteOp} {post : WriteTxn base → Prop}
    (does : Does before (op.call : WriteM base Unit) (fun _ => post) post) :
    post (op.after before) := by
  rw [Does] at does
  rw [WriteOp.after]
  cases ran : (op.call : WriteM base Unit) before with
  | ok _ write => rwa [ran] at does
  | error _ write => rwa [ran] at does

theorem WriteOp.follows (op : WriteOp) : before.Follows (op.after before) :=
  WriteOp.after_does (op.keeps before)

theorem WriteTxn.afterAll_follows {ops : List WriteOp} : before.Follows (before.afterAll ops) := by
  induction ops generalizing before with
  | nil => exact .refl
  | cons op ops ih => exact op.follows.trans ih

end DrStrange.Graph
