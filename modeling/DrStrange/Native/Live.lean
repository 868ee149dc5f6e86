/-
**A live engine keeps its invariant, whatever it does next.**

One lemma for each kind of step, and `LiveInv.step` for all of them: readers come and go, a
transaction stages and commits or is dropped, an append may fail, every stage of a flush and of a
compaction may be reached or may fail. Only a crash is left out; it ends the life this module is
about.
-/

import DrStrange.Native.Trace

namespace DrStrange.Native

open Std Versioned

variable {config : Config} {trace : Trace} {engine : Engine} {codec : WalCodec} {dir : Directory}
  {threshold number : ℕ} {run : Run}

/-! ### Readers -/

theorem LiveInv.register (inv : LiveInv trace) {snapshot : ℕ} (above : trace.floor ≤ snapshot)
    (pending : trace.engine.phase.pendingFloor ≤ snapshot) :
    LiveInv { trace with engine := trace.engine.register snapshot } where
  store := inv.store
  counted := inv.counted.register snapshot
  reads := by
    intro txn member
    rcases List.mem_append.mp member with old | new
    · exact inv.reads txn old
    · rw [List.mem_singleton.mp new]
      exact ⟨above, pending⟩
  pending := inv.pending
  phase := inv.phase

theorem LiveInv.dropRead (inv : LiveInv trace) {index : ℕ}
    (stepped : trace.engine.dropRead index = some engine) : LiveInv { trace with engine } := by
  have counted := inv.counted.dropRead stepped
  rw [Engine.dropRead, Option.map_eq_some_iff] at stepped
  obtain ⟨txn, -, rfl⟩ := stepped
  exact ⟨inv.store, counted, fun other member => inv.reads other (List.mem_of_mem_eraseIdx member),
    inv.pending, inv.phase⟩

/-! ### Writers -/

/-- A step of the gate's holder that leaves store and readers alone. -/
theorem LiveInv.enter (inv : LiveInv trace) {acked : List Batch} {flight : Option Batch}
    {calls : List Call} (store : engine.store = trace.engine.store)
    (readers : engine.readers = trace.engine.readers) (reads : engine.reads = trace.engine.reads)
    (pending : engine.phase.pendingFloor = 0)
    (phase : PhaseInv ⟨engine, trace.history, acked, flight, calls, trace.floor⟩) :
    LiveInv ⟨engine, trace.history, acked, flight, calls, trace.floor⟩ where
  store := by
    show StoreInv engine.store trace.history trace.floor
    rw [store]
    exact inv.store
  counted := by
    intro snapshot
    show engine.readers.getD snapshot 0 = (engine.reads.map ReadTxn.snapshot).count snapshot
    rw [readers, reads]
    exact inv.counted snapshot
  reads := by
    intro txn member
    have old : txn ∈ trace.engine.reads := reads ▸ member
    exact ⟨(inv.reads txn old).1, pending ▸ Nat.zero_le _⟩
  pending := pending ▸ Nat.zero_le _
  phase := phase

theorem LiveInv.beginWriteUnchecked (inv : LiveInv trace)
    (stepped : trace.engine.beginWriteUnchecked = some engine) :
    LiveInv { trace with engine, calls := [] } := by
  unfold Engine.beginWriteUnchecked at stepped
  split at stepped
  · obtain rfl := Option.some.inj stepped
    refine inv.enter rfl rfl rfl rfl ⟨rfl, fun user member => ?_, WriteTxn.shows_nil _ _⟩
    exact absurd member (by simp)
  · cases stepped

theorem known_insert {ops : Ops} (known : Known ops) (table : TableId) (key : Bytes) (op : Op) :
    Known (ops.insert ⟨table.index, key⟩ op) := by
  intro user member
  rcases ExtTreeMap.mem_insert.mp member with same | old
  · exact ⟨table, by rw [← Std.compare_eq_iff_eq.mp same]⟩
  · exact known user old

theorem known_stageTombstones {buf : Ops} (known : Known buf) (table : TableId)
    (victims : ExtTreeMap Bytes Bytes compare) : Known (stageTombstones table victims buf) := by
  intro user member
  rw [← ExtTreeMap.isSome_getElem?_iff_mem, stageTombstones_getElem?] at member
  split_ifs at member with victim
  · exact ⟨table, victim.1⟩
  · exact known user (ExtTreeMap.isSome_getElem?_iff_mem.mp member)

/-- A transaction after one of its calls. -/
theorem LiveInv.call (inv : LiveInv trace) {engine : Engine} {call : Call}
    (stepped : trace.engine.call call = some engine) :
    LiveInv { trace with engine, calls := trace.calls ++ [call] } := by
  unfold Engine.call at stepped
  split at stepped
  · rename_i txn phase
    have held := inv.phase
    rw [PhaseInv, phase] at held
    obtain ⟨snapshot, known, shows_⟩ := held
    have based := inv.store.based inv.store.floorLow
    rw [← snapshot] at based
    cases call with
    | put table key value =>
      obtain rfl := Option.some.inj stepped
      exact inv.enter rfl rfl rfl rfl
        ⟨snapshot, known_insert known table key _, shows_.put table key value⟩
    | delete table key =>
      obtain rfl := Option.some.inj stepped
      exact inv.enter rfl rfl rfl rfl
        ⟨snapshot, known_insert known table key _, shows_.delete table key⟩
    | deletePrefix table start =>
      rw [snapshot] at based
      obtain ⟨after, staged, same, now⟩ := WriteTxn.Shows.deletePrefix
        (snapshot.symm ▸ based : Based trace.engine.store txn.snapshot _) shows_ table start
      simp only [staged, Option.map_some, Option.some.injEq] at stepped
      obtain rfl := stepped
      refine inv.enter rfl rfl rfl rfl ⟨same.trans snapshot, ?_, now⟩
      rw [WriteTxn.deletePrefix, Option.map_eq_some_iff] at staged
      obtain ⟨victims, -, rfl⟩ := staged
      refine known_stageTombstones (fun user member => known user ?_) table victims
      exact ExtTreeMap.mem_of_mem_filter member
  · cases stepped

theorem LiveInv.dropWrite (inv : LiveInv trace) (stepped : trace.engine.dropWrite = some engine) :
    LiveInv { trace with engine } := by
  unfold Engine.dropWrite at stepped
  split at stepped
  · obtain rfl := Option.some.inj stepped
    exact inv.enter rfl rfl rfl rfl trivial
  · cases stepped

theorem LiveInv.commit (inv : LiveInv trace) {floor : ℕ}
    (stepped : trace.engine.commit floor = some engine) :
    LiveInv { trace with engine, flight := engine.phase.batch? } := by
  unfold Engine.commit at stepped
  split at stepped
  · rename_i txn phase
    have held := inv.phase
    rw [PhaseInv, phase] at held
    obtain ⟨snapshot, known, -⟩ := held
    obtain rfl := Option.some.inj stepped
    by_cases empty : txn.buf.isEmpty
    · simp only [empty, if_true]
      exact inv.enter rfl rfl rfl rfl trivial
    · simp only [empty]
      refine inv.enter rfl rfl rfl rfl ⟨?_, known, rfl⟩
      show trace.engine.store.committedSeq < max (txn.snapshot + 1) floor
      rw [snapshot]
      exact Nat.lt_of_lt_of_le (Nat.lt_succ_self _) (le_max_left _ _)
  · cases stepped

theorem known_staged (batch : ReplicatedBatch) : Known batch.staged := by
  have fold : ∀ (ops : List ReplicatedOp) (start : Ops), Known start →
      Known (ops.foldl (fun ops op => ops.insert ⟨op.table.index, op.key⟩ (op.value.elim .del .put))
        start) := by
    intro ops
    induction ops with
    | nil => exact fun start known => known
    | cons op ops ih => exact fun start known => ih _ (known_insert known _ _ _)
  exact fold batch.ops ∅ fun user member => absurd member (by simp)

theorem LiveInv.applyReplicated (inv : LiveInv trace) {outcome : Except Error Engine}
    {batch : ReplicatedBatch} (stepped : trace.engine.applyReplicated batch = some outcome) :
    let engine := outcome.toOption.getD trace.engine
    LiveInv { trace with engine, flight := engine.phase.batch? } := by
  unfold Engine.applyReplicated at stepped
  split at stepped
  · rename_i phase
    have still : ∀ flight, LiveInv { trace with flight } := fun flight =>
      inv.enter rfl rfl rfl (by rw [phase]; rfl) (by rw [PhaseInv, phase]; trivial)
    split_ifs at stepped with empty old
    · obtain rfl := Option.some.inj stepped
      exact still _
    · obtain rfl := Option.some.inj stepped
      exact still _
    · obtain rfl := Option.some.inj stepped
      exact inv.enter rfl rfl rfl rfl ⟨Nat.not_le.mp old, known_staged batch, rfl⟩
  · cases stepped

theorem LiveInv.append (inv : LiveInv trace) {fault : Option Fault}
    (stepped : trace.engine.append codec fault = some engine) :
    LiveInv { trace with engine, flight := engine.phase.batch? } := by
  unfold Engine.append at stepped
  split at stepped
  · rename_i seq ops phase
    have held := inv.phase
    rw [PhaseInv, phase] at held
    split at stepped <;> obtain rfl := Option.some.inj stepped
    · exact inv.enter rfl rfl rfl rfl trivial
    · exact inv.enter rfl rfl rfl rfl ⟨held.1, held.2.1, rfl⟩
    · exact inv.enter rfl rfl rfl rfl trivial
  · cases stepped

theorem LiveInv.publish (inv : LiveInv trace) (stepped : trace.engine.publish = some engine) :
    LiveInv { trace with engine, history := trace.history ++ trace.flight.toList } := by
  unfold Engine.publish at stepped
  split at stepped
  · rename_i seq ops phase
    have held := inv.phase
    rw [PhaseInv, phase] at held
    obtain ⟨advances, known, flight⟩ := held
    obtain rfl := Option.some.inj stepped
    simp only [flight, Option.toList_some]
    have store := inv.store.publish ⟨seq, ops⟩ advances known
    exact ⟨store, inv.counted, fun txn member => ⟨(inv.reads txn member).1, Nat.zero_le _⟩,
      Nat.zero_le _, trivial⟩
  · cases stepped

/-! ### Maintenance -/

/-- A run opened under the number it was just renamed to is the run that was written. -/
theorem Directory.openSst_eq {sst : Sst} (held : dir.files[number]? = some run)
    (opened : dir.openSst number = some sst) :
    sst = { run with number := number } := by
  rw [Directory.openSst, held, Option.map_some, Option.some.injEq] at opened
  exact opened.symm

theorem Directory.rename_eq {after : Directory} (held : dir.temps[number]? = some run)
    (renamed : dir.rename number = some after) :
    after = { files := dir.files.insert number run, temps := dir.temps.erase number } := by
  rw [Directory.rename, held, Option.map_some, Option.some.injEq] at renamed
  exact renamed.symm

theorem compactedRun_reclaimed (runs : List Sst) (committedSeq minSnapshot : ℕ) :
    Reclaimed .del minSnapshot (merged (runs.reverse.map fun sst => sst.source))
      (compactedRun runs committedSeq minSnapshot).source :=
  (compactedEntries_spec runs minSnapshot).2

theorem LiveInv.maintain (inv : LiveInv trace)
    (stepped : trace.engine.maintain threshold = some engine) :
    LiveInv (trace.follow codec .maintain engine) := by
  have held := inv.phase
  have floors := inv.reads
  have low := inv.pending
  unfold Engine.maintain at stepped
  unfold Trace.follow Trace.reclaim
  rw [PhaseInv] at held
  cases phase : trace.engine.phase <;> simp only [phase] at stepped held floors low ⊢
  case flushing =>
    split_ifs at stepped with due <;> obtain rfl := Option.some.inj stepped
    · exact inv.enter rfl rfl rfl rfl ⟨rfl, ExtTreeMap.getElem?_insert_self⟩
    · exact inv.enter rfl rfl rfl rfl trivial
  case flushTemp =>
    obtain ⟨dir, renamed, rfl⟩ := Option.map_eq_some_iff.mp stepped
    obtain rfl := Directory.rename_eq held.2 renamed
    exact inv.enter rfl rfl rfl rfl ⟨held.1, ExtTreeMap.getElem?_insert_self⟩
  case flushRenamed =>
    obtain ⟨sst, opened, rfl⟩ := Option.map_eq_some_iff.mp stepped
    obtain rfl := Directory.openSst_eq held.2 opened
    refine ⟨inv.store.swapFlushed rfl _, inv.counted, fun txn member => ?_, Nat.zero_le _, trivial⟩
    exact ⟨(inv.reads txn member).1, Nat.zero_le _⟩
  case compacting =>
    split_ifs at stepped with few <;> obtain rfl := Option.some.inj stepped
    · exact inv.enter rfl rfl rfl rfl trivial
    · exact inv.enter rfl rfl rfl rfl ⟨rfl, rfl, rfl⟩
  case captured =>
    obtain rfl := Option.some.inj stepped
    refine ⟨inv.store, inv.counted, fun txn member => ?_, ?_, held⟩
    · exact ⟨(inv.reads txn member).1, inv.counted.minSnapshot_le member _⟩
    · exact (Engine.minSnapshot_le_committed _ _).trans (Nat.le_of_eq held.2.1)
  case floored =>
    obtain rfl := Option.some.inj stepped
    refine ⟨inv.store, inv.counted, floors, low, held.1, held.2.2, ?_⟩
    rw [← held.2.1]
    exact ExtTreeMap.getElem?_insert_self
  case mergedTemp =>
    obtain ⟨dir, renamed, rfl⟩ := Option.map_eq_some_iff.mp stepped
    obtain rfl := Directory.rename_eq held.2.2 renamed
    exact ⟨inv.store, inv.counted, floors, low, held.1, held.2.1, ExtTreeMap.getElem?_insert_self⟩
  case mergedRenamed =>
    -- The readers that were open when the snapshot was taken, and those opened since, are above it.
    obtain ⟨merged, opened, rfl⟩ := Option.map_eq_some_iff.mp stepped
    obtain rfl := Directory.openSst_eq held.2.2 opened
    obtain ⟨rfl, -, -⟩ := held
    refine ⟨inv.store.swapCompacted (compactedRun_reclaimed _ _ _) low _, inv.counted,
      fun txn member => ⟨?_, Nat.zero_le _⟩, Nat.zero_le _, trivial⟩
    exact max_le (floors txn member).1 (floors txn member).2
  case unlinking old minSnapshot left =>
    cases left <;> obtain rfl := Option.some.inj stepped <;>
      exact inv.enter rfl rfl rfl rfl trivial
  case flushSwapped | walCut | walSought =>
    obtain rfl := Option.some.inj stepped
    exact inv.enter rfl rfl rfl rfl trivial
  all_goals cases stepped

theorem LiveInv.maintenanceFails (inv : LiveInv trace)
    (stepped : trace.engine.maintenanceFails threshold = some engine) :
    LiveInv { trace with engine, acked := trace.history, flight := none } := by
  have failed : engine = { trace.engine with phase := .idle } := by
    unfold Engine.maintenanceFails at stepped
    split at stepped
    · split_ifs at stepped
      exact (Option.some.inj stepped).symm
    all_goals first
      | exact (Option.some.inj stepped).symm
      | cases stepped
  subst failed
  exact inv.enter rfl rfl rfl rfl trivial

/-! ### Every step -/

/-- **A live engine keeps its invariant.** -/
theorem LiveInv.step (inv : LiveInv trace) {action : Action} {after : Trace}
    (alive : action.isCrash = false) (promised : trace.Promised action)
    (stepped : trace.step config action = some after) : LiveInv after := by
  obtain ⟨engine, moved, rfl⟩ := Option.map_eq_some_iff.mp stepped
  cases action with
  | beginRead =>
    obtain rfl := Option.some.inj moved
    exact inv.register inv.store.floorLow inv.pending
  | beginReadAt snapshot =>
    rw [Engine.step] at moved
    rw [Trace.Promised] at promised
    cases opened : trace.engine.beginReadAt snapshot with
    | error e =>
      rw [opened] at moved
      obtain rfl := Option.some.inj moved
      exact inv
    | ok next =>
      rw [opened] at moved promised
      obtain rfl := Option.some.inj moved
      have registered : next = trace.engine.register snapshot := by
        unfold Engine.beginReadAt at opened
        simp only at opened
        split_ifs at opened
        exact (Except.ok.inj opened).symm
      obtain ⟨above, pending⟩ := promised rfl
      rw [registered]
      exact inv.register above pending
  | dropRead index => exact inv.dropRead moved
  | setRetention keepCommits =>
    obtain rfl := Option.some.inj moved
    exact ⟨inv.store, inv.counted, inv.reads, inv.pending, inv.phase⟩
  | beginWrite =>
    rw [Engine.step, Engine.beginWrite] at moved
    split_ifs at moved
    exact inv.beginWriteUnchecked moved
  | beginWriteUnchecked => exact inv.beginWriteUnchecked moved
  | call call => exact inv.call moved
  | dropWrite => exact inv.dropWrite moved
  | commit floor => exact inv.commit moved
  | applyReplicated batch =>
    obtain ⟨outcome, applied, rfl⟩ := Option.map_eq_some_iff.mp moved
    exact inv.applyReplicated applied
  | append fault => exact inv.append moved
  | publish => exact inv.publish moved
  | maintain => exact inv.maintain moved
  | maintenanceFails => exact inv.maintenanceFails moved
  | crash cut readOnly => cases alive

end DrStrange.Native
