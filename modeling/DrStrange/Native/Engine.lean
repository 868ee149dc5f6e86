/-
**The native engine as a state machine.**

One step is one thing another thread can observe, or one file-system step a crash can fall between:
opening and dropping readers, staging, the append to the log, the publish, each stage of a flush and
each stage of a compaction. The write gate is the phase: every phase but `idle` holds it.

`Engine.step` is deterministic and partial; `none` is a step that cannot be taken here (the gate is
held, no transaction is open). What the environment decides (whether a write fails and how far it
got, where a crash cuts) is in the action.
-/

import DrStrange.Native.Merge
import DrStrange.Native.Txn
import DrStrange.Native.Wal

namespace DrStrange.Native

open Std Versioned

/-- More runs than this are merged into one. -/
def compactionTrigger : ℕ := 4

/-- The codec of the log, and when a memtable is flushed. -/
structure Config where
  codec : WalCodec
  flushThreshold : ℕ

/-! ### The directory -/

/-- The run files `sst-<n>` of the directory, and the temporary ones beside them, which no listing
reads. -/
structure Directory where
  files : ExtTreeMap ℕ Run compare
  temps : ExtTreeMap ℕ Run compare

/-- `sst::list`: the runs by ascending number. -/
def Directory.list (dir : Directory) : List Sst :=
  dir.files.toList.map fun (number, run) => { run with number := number }

/-- `sst::next_number`. -/
def Directory.nextNumber (dir : Directory) : ℕ := (dir.files.toList.map Prod.fst).foldl max 0 + 1

/-- `open_sst`. -/
def Directory.openSst (dir : Directory) (number : ℕ) : Option Sst :=
  dir.files[number]?.map fun run => { run with number := number }

/-- The first half of `write_sorted`: the whole file under its temporary name. -/
def Directory.writeTemp (dir : Directory) (number : ℕ) (run : Run) : Directory :=
  { dir with temps := dir.temps.insert number run }

/-- The second half: the rename, which replaces a file of that name. -/
def Directory.rename (dir : Directory) (number : ℕ) : Option Directory :=
  dir.temps[number]?.map fun run =>
    { files := dir.files.insert number run, temps := dir.temps.erase number }

def Directory.unlink (dir : Directory) (number : ℕ) : Directory :=
  { dir with files := dir.files.erase number }

/-- `sst::write`: the memtable as a run. -/
def Store.flushRun (store : Store) : Run :=
  ⟨.v2, store.committedSeq, store.mem.toList, Memtable.sorted_toList store.mem⟩

/-- The entries of a readable stream. -/
def readable (items : List Item) : List Entry := items.filterMap fun item => item.toOption

theorem readable_map_ok (entries : List Entry) : readable (entries.map .ok) = entries := by
  induction entries with
  | nil => rfl
  | cons entry entries ih =>
    show entry :: readable (entries.map .ok) = entry :: entries
    rw [ih]

/-- The merge of the runs after the version GC. -/
def compactedEntries (runs : List Sst) (minSnapshot : ℕ) : List Entry :=
  readable (gcVersions (mergeRuns (runs.map fun sst => sst.entries.map .ok)) minSnapshot)

/-- What compaction writes, over readable runs. -/
theorem compactedEntries_spec (runs : List Sst) (minSnapshot : ℕ) :
    Sorted (compactedEntries runs minSnapshot) ∧
      Reclaimed .del minSnapshot (merged (runs.reverse.map fun sst => sst.source))
        (entrySource (compactedEntries runs minSnapshot)) := by
  obtain ⟨merge, merges, sorted, source⟩ := mergeRuns_ok (runs.map fun sst => sst.entries)
    fun run member => by
      obtain ⟨sst, -, rfl⟩ := List.mem_map.mp member
      exact sst.sorted
  obtain ⟨kept, swept, inOrder, reclaimed⟩ := gcVersions_ok merge sorted minSnapshot
  have kept_eq : compactedEntries runs minSnapshot = kept := by
    rw [List.map_map] at merges
    rw [compactedEntries, show (runs.map fun sst => sst.entries.map (Except.ok : Entry → Item)) =
      runs.map ((fun run => run.map Except.ok) ∘ fun sst => sst.entries) from rfl, merges, swept,
      readable_map_ok]
  rw [kept_eq]
  refine ⟨inOrder, ?_⟩
  rw [source, ← List.map_reverse, List.map_map] at reclaimed
  exact reclaimed

/-- The run a compaction writes, stamped with the newest sequence any input held. -/
def compactedRun (runs : List Sst) (committedSeq minSnapshot : ℕ) : Run :=
  ⟨.v2, (runs.map fun sst => sst.maxSeq).max?.getD committedSeq, compactedEntries runs minSnapshot,
    (compactedEntries_spec runs minSnapshot).1⟩

/-! ### The state -/

/-- Where the holder of the write gate stands. -/
inductive Phase where
  /-- Nobody holds the gate. -/
  | idle
  /-- A write transaction is open. -/
  | writing (txn : WriteTxn)
  /-- `durable_commit` is about to append its record. -/
  | logging (seq : ℕ) (ops : Ops)
  /-- The record is durable, not yet published. -/
  | logged (seq : ℕ) (ops : Ops)
  /-- Published; `maybe_flush` is next. -/
  | flushing
  | flushTemp (number : ℕ)
  | flushRenamed (number : ℕ)
  /-- Run in, memtable out; the log still holds the flushed records. -/
  | flushSwapped
  /-- The log is cut to length 0, the cursor not yet moved. -/
  | walCut
  | walSought
  /-- `maybe_compact` is next. -/
  | compacting
  | captured (runs : List Sst) (committedSeq next : ℕ)
  | floored (runs : List Sst) (committedSeq next minSnapshot : ℕ)
  | mergedTemp (runs : List Sst) (next minSnapshot : ℕ)
  | mergedRenamed (runs : List Sst) (next minSnapshot : ℕ)
  /-- The merged run is in; `left` are the files still to be unlinked, in the order of the loop. -/
  | unlinking (old : List Sst) (minSnapshot : ℕ) (left : List ℕ)

/-- The engine: memory, log, directory, and the phase of its writer. -/
structure Engine where
  store : Store
  wal : Wal
  dir : Directory
  phase : Phase
  /-- Live read snapshots: snapshot to reader count. -/
  readers : ExtTreeMap ℕ ℕ compare
  /-- The read transactions that are open. -/
  reads : List ReadTxn
  /-- The retention window in commits; `0` is unbounded. -/
  retainCommits : ℕ
  readOnly : Bool

/-! ### Readers and retention -/

def retentionFloor (retainCommits committedSeq : ℕ) : ℕ :=
  if retainCommits = 0 then 0 else committedSeq - retainCommits

/-- The oldest sequence any live reader can still observe, lowered by retention. -/
def Engine.minSnapshot (engine : Engine) (committedSeq : ℕ) : ℕ :=
  min (min ((engine.readers.toList.head?.map Prod.fst).getD committedSeq) committedSeq)
    (retentionFloor engine.retainCommits committedSeq)

/-- Count the snapshot and open the transaction, under the store read lock. -/
def Engine.register (engine : Engine) (snapshot : ℕ) : Engine :=
  { engine with
    readers := engine.readers.insert snapshot (engine.readers.getD snapshot 0 + 1)
    reads := engine.reads ++ [⟨snapshot⟩] }

/-- A reader at the last commit. -/
def Engine.beginRead (engine : Engine) : Engine := engine.register engine.store.committedSeq

/-- A reader at an older commit that the window still covers. -/
def Engine.beginReadAt (engine : Engine) (snapshot : ℕ) : Except Error Engine :=
  let committed := engine.store.committedSeq
  if committed < snapshot then
    .error (.invalidArgument s!"cannot read as of {snapshot}: the latest commit is {committed}")
  else
    let floor := retentionFloor engine.retainCommits committed
    if snapshot < floor then
      .error (.invalidArgument
        (s!"cannot read as of {snapshot}: older than the retained history " ++
          s!"(oldest retained commit is {floor})"))
    else .ok (engine.register snapshot)

/-- `Drop for NativeReadTxn`, for the open transaction at `index`. -/
def Engine.dropRead (engine : Engine) (index : ℕ) : Option Engine :=
  engine.reads[index]?.map fun txn =>
    let readers := match engine.readers[txn.snapshot]? with
      | none => engine.readers
      | some count =>
        if count - 1 = 0 then engine.readers.erase txn.snapshot
        else engine.readers.insert txn.snapshot (count - 1)
    { engine with readers := readers, reads := engine.reads.eraseIdx index }

def Engine.setRetention (engine : Engine) (keepCommits : Option ℕ) : Engine :=
  { engine with retainCommits := keepCommits.getD 0 }

/-! ### Writers -/

def Engine.beginWriteUnchecked (engine : Engine) : Option Engine :=
  match engine.phase with
  | .idle => some { engine with phase := .writing ⟨engine.store.committedSeq, ∅⟩ }
  | _ => none

def Engine.beginWrite (engine : Engine) : Option Engine :=
  if engine.readOnly then none else engine.beginWriteUnchecked

/-- One staging call of the open transaction. -/
def Engine.call (engine : Engine) (call : Call) : Option Engine :=
  match engine.phase with
  | .writing txn =>
    (match call with
      | .put table key value => some (txn.put table key value)
      | .delete table key => some (txn.delete table key)
      | .deletePrefix table start => txn.deletePrefix engine.store table start).map
    fun txn => { engine with phase := .writing txn }
  | _ => none

/-- Drops the open transaction. -/
def Engine.dropWrite (engine : Engine) : Option Engine :=
  match engine.phase with
  | .writing _ => some { engine with phase := .idle }
  | _ => none

/-- `commit_at_least`, and with floor `0` the plain `commit`. -/
def Engine.commit (engine : Engine) (floor : ℕ) : Option Engine :=
  match engine.phase with
  | .writing txn =>
    some { engine with
      phase := if txn.buf.isEmpty then .idle else .logging (max (txn.snapshot + 1) floor) txn.buf }
  | _ => none

/-- One raw table write of a replicated batch. -/
structure ReplicatedOp where
  table : TableId
  key : Bytes
  value : Option Bytes

/-- A commit of another store. -/
structure ReplicatedBatch where
  seq : ℕ
  ops : List ReplicatedOp

def ReplicatedBatch.staged (batch : ReplicatedBatch) : Ops :=
  batch.ops.foldl (fun ops op => ops.insert ⟨op.table.index, op.key⟩ (op.value.elim .del .put)) ∅

/-- `apply_replicated` up to its `durable_commit`. Sequences must only advance. -/
def Engine.applyReplicated (engine : Engine) (batch : ReplicatedBatch) :
    Option (Except Error Engine) :=
  match engine.phase with
  | .idle =>
    if batch.ops.isEmpty then some (.ok engine)
    else if batch.seq ≤ engine.store.committedSeq then
      some (.error (.conflict
        (s!"cannot apply replicated batch {batch.seq}: this replica has already committed " ++
          s!"sequence {engine.store.committedSeq}; sequences must only advance " ++
          "(a full resync is needed)")))
    else some (.ok { engine with phase := .logging batch.seq batch.staged })
  | _ => none

/-- An append fails once the file has taken this many bytes more; where it takes them all, it is the
sync that fails. -/
structure Fault where
  accepted : ℕ
  deriving DecidableEq, Repr

/-- Append, flush and sync. A fault ends the commit with an error, and so does an oversize batch. -/
def Engine.append (codec : WalCodec) (engine : Engine) (fault : Option Fault) : Option Engine :=
  match engine.phase with
  | .logging seq ops =>
    match walRecord codec (Batch.toWal ⟨seq, ops⟩), fault with
    | .error _, _ => some { engine with phase := .idle }
    | .ok record, none =>
      some { engine with wal := engine.wal.append record, phase := .logged seq ops }
    | .ok record, some fault => some { engine with
        wal := engine.wal.appendFailed record fault.accepted, phase := .idle }
  | _ => none

def Store.publish (store : Store) (seq : ℕ) (ops : Ops) : Store :=
  { ops.foldl (fun store user op => store.stamp seq user op) store with committedSeq := seq }

def Engine.publish (engine : Engine) : Option Engine :=
  match engine.phase with
  | .logged seq ops => some { engine with store := engine.store.publish seq ops, phase := .flushing }
  | _ => none

/-! ### Maintenance -/

/-- `maybe_flush` does nothing below the threshold. -/
def Engine.flushDue (threshold : ℕ) (engine : Engine) : Bool :=
  !(engine.store.memBytes < threshold || engine.store.mem.isEmpty)

/-- The swap of a flush: run in, memtable out. -/
def Store.swapFlushed (store : Store) (number : ℕ) (sst : Sst) : Store :=
  { store with nextSst := number + 1, ssts := store.ssts ++ [sst], mem := ∅, memBytes := 0 }

/-- The swap of a compaction: the merged run for the first `count` runs. -/
def Store.swapCompacted (store : Store) (count next : ℕ) (merged : Sst) : Store :=
  { store with ssts := merged :: store.ssts.drop count, nextSst := next + 1 }

/-- The next step of `maybe_flush` and `maybe_compact`. -/
def Engine.maintain (threshold : ℕ) (engine : Engine) : Option Engine :=
  match engine.phase with
  | .flushing =>
    if engine.flushDue threshold then
      let number := engine.store.nextSst
      some { engine with
        dir := engine.dir.writeTemp number engine.store.flushRun, phase := .flushTemp number }
    else some { engine with phase := .compacting }
  | .flushTemp number =>
    (engine.dir.rename number).map fun dir => { engine with dir, phase := .flushRenamed number }
  | .flushRenamed number =>
    (engine.dir.openSst number).map fun sst =>
      { engine with store := engine.store.swapFlushed number sst, phase := .flushSwapped }
  | .flushSwapped =>
    some { engine with
      wal := ⟨(engine.wal.file.write engine.wal.buf).setLen 0, []⟩, phase := .walCut }
  | .walCut =>
    some { engine with
      wal := { engine.wal with file := engine.wal.file.seek 0 }, phase := .walSought }
  | .walSought => some { engine with phase := .compacting }
  | .compacting =>
    if engine.store.ssts.length ≤ compactionTrigger then some { engine with phase := .idle }
    else some { engine with
      phase := .captured engine.store.ssts engine.store.committedSeq engine.store.nextSst }
  | .captured runs committedSeq next =>
    some { engine with phase := .floored runs committedSeq next (engine.minSnapshot committedSeq) }
  | .floored runs committedSeq next minSnapshot =>
    some { engine with
      dir := engine.dir.writeTemp next (compactedRun runs committedSeq minSnapshot)
      phase := .mergedTemp runs next minSnapshot }
  | .mergedTemp runs next minSnapshot =>
    (engine.dir.rename next).map fun dir =>
      { engine with dir, phase := .mergedRenamed runs next minSnapshot }
  | .mergedRenamed runs next minSnapshot =>
    (engine.dir.openSst next).map fun merged =>
      { engine with
        store := engine.store.swapCompacted runs.length next merged
        phase := .unlinking (engine.store.ssts.take runs.length) minSnapshot
          ((engine.store.ssts.take runs.length).reverse.map fun sst => sst.number) }
  | .unlinking old minSnapshot (number :: left) =>
    some { engine with
      dir := engine.dir.unlink number, phase := .unlinking old minSnapshot left }
  | .unlinking _ _ [] => some { engine with phase := .idle }
  | _ => none

/-- The next step of maintenance fails: the error is logged and the commit is still `Ok`. The seek
after the cut and the steps that touch no file cannot fail. -/
def Engine.maintenanceFails (threshold : ℕ) (engine : Engine) : Option Engine :=
  match engine.phase with
  | .flushing => if engine.flushDue threshold then some { engine with phase := .idle } else none
  | .flushTemp _ | .flushRenamed _ | .flushSwapped | .walSought | .floored .. | .mergedTemp ..
  | .mergedRenamed .. | .unlinking .. => some { engine with phase := .idle }
  | _ => none

/-! ### Opening -/

/-- `open_with_options`: list the runs, replay the log, cut it to its valid prefix. -/
def openEngine (codec : WalCodec) (dir : Directory) (walBytes : Bytes) (readOnly : Bool) : Engine :=
  let ssts := dir.list
  let store : Store := ⟨∅, 0, (ssts.map fun sst => sst.maxSeq).foldl max 0, ssts, dir.nextNumber⟩
  let (store, valid) := replay codec walBytes store
  { store, dir
    wal := ⟨((⟨walBytes, walBytes.length⟩ : LogFile).setLen valid).seek valid, []⟩
    phase := .idle
    readers := ∅
    reads := []
    retainCommits := 0
    readOnly }

/-- A fresh directory. -/
def Engine.fresh (codec : WalCodec) (readOnly : Bool) : Engine :=
  openEngine codec ⟨∅, ∅⟩ [] readOnly

/-- The record `durable_commit` is about to append. -/
def Engine.pendingRecord (codec : WalCodec) (engine : Engine) : Bytes :=
  match engine.phase with
  | .logging seq ops => (walRecord codec (Batch.toWal ⟨seq, ops⟩)).toOption.getD []
  | _ => []

/-- The process ends here and the directory is opened again. Of the bytes on their way to the log,
those in the buffer and those of the record being appended, the first `cut` arrive. A clean close is
the case that all of the buffer arrives. -/
def Engine.crash (codec : WalCodec) (engine : Engine) (cut : ℕ) (readOnly : Bool) : Engine :=
  let arriving := (engine.wal.buf ++ engine.pendingRecord codec).take cut
  openEngine codec engine.dir (engine.wal.file.write arriving).bytes readOnly

/-! ### One step -/

/-- What can happen next. -/
inductive Action where
  | beginRead
  | beginReadAt (snapshot : ℕ)
  | dropRead (index : ℕ)
  | setRetention (keepCommits : Option ℕ)
  | beginWrite
  | beginWriteUnchecked
  | call (call : Call)
  | dropWrite
  | commit (floor : ℕ)
  | applyReplicated (batch : ReplicatedBatch)
  | append (fault : Option Fault)
  | publish
  | maintain
  | maintenanceFails
  | crash (cut : ℕ) (readOnly : Bool)

/-- One step, if it can be taken. -/
def Engine.step (config : Config) (engine : Engine) : Action → Option Engine
  | .beginRead => some engine.beginRead
  | .beginReadAt snapshot =>
    match engine.beginReadAt snapshot with
    | .ok engine => some engine
    | .error _ => some engine
  | .dropRead index => engine.dropRead index
  | .setRetention keepCommits => some (engine.setRetention keepCommits)
  | .beginWrite => engine.beginWrite
  | .beginWriteUnchecked => engine.beginWriteUnchecked
  | .call call => engine.call call
  | .dropWrite => engine.dropWrite
  | .commit floor => engine.commit floor
  | .applyReplicated batch =>
    (engine.applyReplicated batch).map fun outcome => outcome.toOption.getD engine
  | .append fault => engine.append config.codec fault
  | .publish => engine.publish
  | .maintain => engine.maintain config.flushThreshold
  | .maintenanceFails => engine.maintenanceFails config.flushThreshold
  | .crash cut readOnly => some (engine.crash config.codec cut readOnly)

end DrStrange.Native
