/-
**No version is newer than the committed sequence.**

Whatever a run of the engine does, torn appends, failed maintenance and crashes at any cut included,
no version in the memtable or in a run is stamped above the committed sequence of the store. So a
transaction that commits one past its snapshot uncovers nothing but its own ops.

The invariant follows the sequences through the files: a run holds nothing above its own `maxSeq`,
and the run a flush or a compaction is about to open was written under the gate it still holds.
-/

import DrStrange.Native.Engine

namespace DrStrange.Native

open Std Versioned

/-- The states the engine can be in: any actions, from a fresh directory. -/
def Engine.Reachable (config : Config) (engine : Engine) : Prop :=
  ∃ readOnly, Relation.ReflTransGen
    (fun before after : Engine => ∃ action, before.step config action = some after)
    (Engine.fresh config.codec readOnly) engine

/-! ### The bounds -/

/-- No version of the source is newer than `bound`. -/
def UpTo (bound : ℕ) (source : Source UserKey Op) : Prop :=
  ∀ user seq op, source user seq = some op → seq ≤ bound

variable {source : Source UserKey Op} {bound : ℕ}

theorem UpTo.mono {low high : ℕ} (upTo : UpTo low source) (le : low ≤ high) : UpTo high source :=
  fun user seq op found => (upTo user seq op found).trans le

/-- Past the bound a source shows what it shows at the bound. -/
theorem UpTo.visible_eq {snapshot : ℕ} (upTo : UpTo bound source) (past : bound ≤ snapshot)
    (user : UserKey) :
    visible source user snapshot = visible source user bound := by
  refine visible_of_le past fun seq above => ?_
  cases found : source user seq with
  | none => rfl
  | some op => exact absurd (upTo user seq op found) (Nat.not_le.mpr above)

/-- A run holds nothing above the sequence in its footer. -/
def Run.Stamped (run : Run) : Prop := UpTo run.maxSeq run.source

/-- Nothing is newer than the last commit. -/
structure Store.Stamped (store : Store) : Prop where
  mem : UpTo store.committedSeq (memSource store.mem)
  ssts : ∀ sst ∈ store.ssts, sst.toRun.Stamped ∧ sst.maxSeq ≤ store.committedSeq

/-- What the holder of the gate has in hand is no newer than the store. -/
def Engine.InHand (engine : Engine) : Prop :=
  let committed := engine.store.committedSeq
  match engine.phase with
  | .writing txn => txn.snapshot = committed
  | .logging seq _ | .logged seq _ => committed ≤ seq
  | .flushTemp number | .mergedTemp _ number _ =>
    ∀ run, engine.dir.temps[number]? = some run → run.maxSeq ≤ committed
  | .flushRenamed number | .mergedRenamed _ number _ =>
    ∀ run, engine.dir.files[number]? = some run → run.maxSeq ≤ committed
  | .captured runs seq _ | .floored runs seq _ _ =>
    seq ≤ committed ∧ ∀ sst ∈ runs, sst.toRun.Stamped ∧ sst.maxSeq ≤ committed
  | _ => True

/-- The files of a directory, and its temporary ones. -/
structure Directory.Stamped (dir : Directory) : Prop where
  files : ∀ (number : ℕ) (run : Run), dir.files[number]? = some run → run.Stamped
  temps : ∀ (number : ℕ) (run : Run), dir.temps[number]? = some run → run.Stamped

structure Engine.Stamped (engine : Engine) : Prop where
  store : engine.store.Stamped
  dir : engine.dir.Stamped
  inHand : engine.InHand

/-! ### The store -/

variable {store : Store} {dir after : Directory} {sst : Sst} {seq number : ℕ}

theorem Store.Stamped.swapFlushed (stamped : store.Stamped) (run : sst.toRun.Stamped)
    (low : sst.maxSeq ≤ store.committedSeq) (number : ℕ) :
    (store.swapFlushed number sst).Stamped := by
  refine ⟨?_, fun other member => ?_⟩
  · intro user seq op found
    rw [Store.swapFlushed, memSource_eq, ExtTreeMap.getElem?_empty] at found
    cases found
  · rcases List.mem_append.mp member with old | new
    · exact stamped.ssts other old
    · rw [List.mem_singleton.mp new]
      exact ⟨run, low⟩

theorem Store.Stamped.swapCompacted (stamped : store.Stamped) (run : sst.toRun.Stamped)
    (low : sst.maxSeq ≤ store.committedSeq) (count next : ℕ) :
    (store.swapCompacted count next sst).Stamped := by
  refine ⟨stamped.mem, fun other member => ?_⟩
  rcases List.mem_cons.mp member with rfl | old
  · exact ⟨run, low⟩
  · exact stamped.ssts other (List.mem_of_mem_drop old)

theorem Store.Stamped.publish (stamped : store.Stamped) (ops : Ops)
    (advances : store.committedSeq ≤ seq) : (store.publish seq ops).Stamped := by
  obtain ⟨-, ssts, -⟩ := store.foldl_stamp_frame seq ops
  refine ⟨fun user at_ op found => ?_, fun sst member => ?_⟩
  · have found : memSource (ops.foldl (fun store user op => store.stamp seq user op) store).mem
        user at_ = some op := found
    rw [store.foldl_stamp_mem] at found
    split_ifs at found with here
    · exact here.symm.le
    · exact (stamped.mem user at_ op found).trans advances
  · have member : sst ∈ store.ssts := ssts ▸ member
    exact ⟨(stamped.ssts sst member).1, (stamped.ssts sst member).2.trans advances⟩

/-- One op of a replayed record. -/
theorem Store.stamp_upTo (upTo : UpTo bound (memSource store.mem)) (low : seq ≤ bound)
    (user : UserKey) (op : Op) :
    UpTo bound (memSource (store.stamp seq user op).mem) := by
  intro other at_ value found
  rw [Store.stamp, memSource_eq, ExtTreeMap.getElem?_insert] at found
  split_ifs at found with here
  · exact (congrArg MemKey.seq (Std.compare_eq_iff_eq.mp here)).symm.le.trans low
  · exact upTo other at_ value ((memSource_eq _ _ _).trans found)

theorem Store.Stamped.replayBatch (stamped : store.Stamped) (batch : WalBatch) :
    (store.replayBatch batch).Stamped ∧
      store.committedSeq ≤ (store.replayBatch batch).committedSeq := by
  -- The ops of the record leave everything but the memtable as it is.
  have fold : ∀ (ops : List WalOp) (store : Store) (bound : ℕ), batch.seq ≤ bound →
      UpTo bound (memSource store.mem) →
      let after := ops.foldl (fun store op =>
        store.stamp batch.seq ⟨op.table, op.key⟩ (op.value.elim .del .put)) store
      UpTo bound (memSource after.mem) ∧ after.ssts = store.ssts ∧
        after.committedSeq = store.committedSeq := by
    intro ops
    induction ops with
    | nil => exact fun store bound _ upTo => ⟨upTo, rfl, rfl⟩
    | cons op ops ih =>
      intro store bound low upTo
      exact ih _ bound low (store.stamp_upTo upTo low _ _)
  obtain ⟨mem, ssts, committed⟩ := fold batch.ops store (max store.committedSeq batch.seq)
    (le_max_right _ _) (stamped.mem.mono (le_max_left _ _))
  have after : (store.replayBatch batch).committedSeq = max store.committedSeq batch.seq := by
    rw [Store.replayBatch, ← committed]
  refine ⟨⟨?_, fun sst member => ?_⟩, ?_⟩
  · rw [after]
    exact mem
  · have member : sst ∈ store.ssts := ssts ▸ member
    rw [after]
    exact ⟨(stamped.ssts sst member).1, (stamped.ssts sst member).2.trans (le_max_left _ _)⟩
  · rw [after]
    exact le_max_left _ _

theorem Store.Stamped.replay (stamped : store.Stamped) (codec : WalCodec) (bytes : Bytes) :
    (replay codec bytes store).1.Stamped := by
  have fold : ∀ (batches : List WalBatch) (store : Store), store.Stamped →
      (batches.foldl Store.replayBatch store).Stamped := by
    intro batches
    induction batches with
    | nil => exact fun store stamped => stamped
    | cons batch batches ih => exact fun store stamped => ih _ (stamped.replayBatch batch).1
  exact fold _ store stamped

/-! ### The directory -/

theorem Directory.Stamped.writeTemp (stamped : dir.Stamped) {run : Run} (written : run.Stamped)
    (number : ℕ) : (dir.writeTemp number run).Stamped := by
  refine ⟨stamped.files, fun other held found => ?_⟩
  rw [Directory.writeTemp, ExtTreeMap.getElem?_insert] at found
  split_ifs at found
  · rw [← Option.some.inj found]
    exact written
  · exact stamped.temps other held found

theorem Directory.Stamped.rename (stamped : dir.Stamped) (renamed : dir.rename number = some after) :
    after.Stamped := by
  obtain ⟨run, held, rfl⟩ := Option.map_eq_some_iff.mp renamed
  refine ⟨fun other kept found => ?_, fun other kept found => ?_⟩
  · rw [ExtTreeMap.getElem?_insert] at found
    split_ifs at found
    · rw [← Option.some.inj found]
      exact stamped.temps number run held
    · exact stamped.files other kept found
  · rw [ExtTreeMap.getElem?_erase] at found
    split_ifs at found
    exact stamped.temps other kept found

theorem Directory.Stamped.unlink (stamped : dir.Stamped) (number : ℕ) :
    (dir.unlink number).Stamped := by
  refine ⟨fun other held found => ?_, stamped.temps⟩
  rw [Directory.unlink, ExtTreeMap.getElem?_erase] at found
  split_ifs at found
  exact stamped.files other held found

/-- A renamed file is the temporary one. -/
theorem Directory.rename_files (renamed : dir.rename number = some after) :
    after.files[number]? = dir.temps[number]? := by
  obtain ⟨run, held, rfl⟩ := Option.map_eq_some_iff.mp renamed
  rw [ExtTreeMap.getElem?_insert_self, held]

theorem Directory.Stamped.list (stamped : dir.Stamped) (member : sst ∈ dir.list) :
    sst.toRun.Stamped := by
  obtain ⟨⟨number, run⟩, listed, rfl⟩ := List.mem_map.mp member
  exact stamped.files number run (ExtTreeMap.mem_toList_iff_getElem?_eq_some.mp listed)

theorem flushRun_stamped (stamped : store.Stamped) : store.flushRun.Stamped :=
  stamped.mem

theorem compactedRun_stamped {runs : List Sst} {committed : ℕ}
    (stamped : ∀ sst ∈ runs, sst.toRun.Stamped ∧ sst.maxSeq ≤ committed) (low : seq ≤ committed)
    (minSnapshot : ℕ) :
    (compactedRun runs seq minSnapshot).Stamped ∧
      (compactedRun runs seq minSnapshot).maxSeq ≤ committed := by
  have top : ∀ sst ∈ runs, sst.maxSeq ≤ (compactedRun runs seq minSnapshot).maxSeq := by
    intro sst member
    have listed : sst.maxSeq ∈ runs.map fun sst => sst.maxSeq := List.mem_map_of_mem member
    show sst.maxSeq ≤ (runs.map fun sst => sst.maxSeq).max?.getD seq
    cases found : (runs.map fun sst => sst.maxSeq).max? with
    | none =>
      rw [List.max?_eq_none_iff.mp found] at listed
      cases listed
    | some most => exact (List.max?_eq_some_iff.mp found).2 _ listed
  refine ⟨fun user at_ op found => ?_, ?_⟩
  · have inside := (compactedEntries_spec runs minSnapshot).2.within user at_ op found
    obtain ⟨source, member, held⟩ := exists_of_merged inside
    obtain ⟨sst, listed, rfl⟩ := List.mem_map.mp member
    have listed := List.mem_reverse.mp listed
    exact ((stamped sst listed).1 user at_ op held).trans (top sst listed)
  · show (runs.map fun sst => sst.maxSeq).max?.getD seq ≤ committed
    cases found : (runs.map fun sst => sst.maxSeq).max? with
    | none => exact low
    | some most =>
      obtain ⟨sst, listed, same⟩ := List.mem_map.mp (List.max?_mem found)
      rw [Option.getD_some, ← same]
      exact (stamped sst listed).2

/-! ### Every step -/

theorem openEngine_stamped (codec : WalCodec) (stamped : dir.Stamped) (bytes : Bytes)
    (readOnly : Bool) : (openEngine codec dir bytes readOnly).Stamped := by
  refine ⟨?_, stamped, trivial⟩
  refine Store.Stamped.replay ⟨?_, fun sst member => ⟨stamped.list member, ?_⟩⟩ codec bytes
  · intro user seq op found
    rw [memSource_eq, ExtTreeMap.getElem?_empty] at found
    cases found
  · have fold : ∀ (numbers : List ℕ) (start : ℕ), start ≤ numbers.foldl max start ∧
        ∀ number ∈ numbers, number ≤ numbers.foldl max start := by
      intro numbers
      induction numbers with
      | nil => exact fun start => ⟨le_rfl, nofun⟩
      | cons first numbers ih =>
        intro start
        obtain ⟨above, each⟩ := ih (max start first)
        refine ⟨(le_max_left _ _).trans above, fun number member => ?_⟩
        rcases List.mem_cons.mp member with rfl | later
        · exact (le_max_right _ _).trans above
        · exact each number later
    exact (fold _ 0).2 _ (List.mem_map_of_mem member)

section Steps

variable {engine after : Engine} {threshold : ℕ}

theorem Engine.Stamped.maintain (stamped : engine.Stamped)
    (stepped : engine.maintain threshold = some after) : after.Stamped := by
  have held := stamped.inHand
  unfold Engine.maintain at stepped
  unfold Engine.InHand at held
  cases phase : engine.phase <;> simp only [phase] at stepped held
  case flushing =>
    split_ifs at stepped with due <;> obtain rfl := Option.some.inj stepped
    · refine ⟨stamped.store, stamped.dir.writeTemp (flushRun_stamped stamped.store) _,
        fun run found => ?_⟩
      rw [Directory.writeTemp, ExtTreeMap.getElem?_insert_self] at found
      rw [← Option.some.inj found]
      exact le_rfl
    · exact ⟨stamped.store, stamped.dir, trivial⟩
  case flushTemp number =>
    obtain ⟨dir, renamed, rfl⟩ := Option.map_eq_some_iff.mp stepped
    refine ⟨stamped.store, stamped.dir.rename renamed, fun run found => ?_⟩
    exact held run ((Directory.rename_files renamed).symm.trans found)
  case flushRenamed number =>
    obtain ⟨sst, opened, rfl⟩ := Option.map_eq_some_iff.mp stepped
    obtain ⟨run, found, rfl⟩ := Option.map_eq_some_iff.mp opened
    exact ⟨stamped.store.swapFlushed (stamped.dir.files number run found) (held run found) _,
      stamped.dir, trivial⟩
  case compacting =>
    split_ifs at stepped with few <;> obtain rfl := Option.some.inj stepped
    · exact ⟨stamped.store, stamped.dir, trivial⟩
    · exact ⟨stamped.store, stamped.dir, le_rfl, stamped.store.ssts⟩
  case captured =>
    obtain rfl := Option.some.inj stepped
    exact ⟨stamped.store, stamped.dir, held⟩
  case floored runs seq next minSnapshot =>
    obtain rfl := Option.some.inj stepped
    obtain ⟨written, low⟩ := compactedRun_stamped held.2 held.1 minSnapshot
    refine ⟨stamped.store, stamped.dir.writeTemp written _, fun run found => ?_⟩
    rw [Directory.writeTemp, ExtTreeMap.getElem?_insert_self] at found
    rw [← Option.some.inj found]
    exact low
  case mergedTemp runs next minSnapshot =>
    obtain ⟨dir, renamed, rfl⟩ := Option.map_eq_some_iff.mp stepped
    refine ⟨stamped.store, stamped.dir.rename renamed, fun run found => ?_⟩
    exact held run ((Directory.rename_files renamed).symm.trans found)
  case mergedRenamed runs next minSnapshot =>
    obtain ⟨merged, opened, rfl⟩ := Option.map_eq_some_iff.mp stepped
    obtain ⟨run, found, rfl⟩ := Option.map_eq_some_iff.mp opened
    exact ⟨stamped.store.swapCompacted (stamped.dir.files next run found) (held run found) _ _,
      stamped.dir, trivial⟩
  case unlinking old minSnapshot left =>
    cases left with
    | nil =>
      obtain rfl := Option.some.inj stepped
      exact ⟨stamped.store, stamped.dir, trivial⟩
    | cons number left =>
      obtain rfl := Option.some.inj stepped
      exact ⟨stamped.store, stamped.dir.unlink number, trivial⟩
  case flushSwapped | walCut | walSought =>
    obtain rfl := Option.some.inj stepped
    exact ⟨stamped.store, stamped.dir, trivial⟩
  all_goals cases stepped

theorem Engine.Stamped.maintenanceFails (stamped : engine.Stamped)
    (stepped : engine.maintenanceFails threshold = some after) : after.Stamped := by
  have failed : after = { engine with phase := .idle } := by
    unfold Engine.maintenanceFails at stepped
    split at stepped
    · split_ifs at stepped
      exact (Option.some.inj stepped).symm
    all_goals first
      | exact (Option.some.inj stepped).symm
      | cases stepped
  rw [failed]
  exact ⟨stamped.store, stamped.dir, trivial⟩

/-- A staging call keeps the snapshot of its transaction. -/
theorem WriteTxn.deletePrefix_snapshot {txn staged : WriteTxn} {table : TableId} {start : Bytes}
    (done : txn.deletePrefix store table start = some staged) :
    staged.snapshot = txn.snapshot := by
  obtain ⟨victims, -, rfl⟩ := Option.map_eq_some_iff.mp done
  rfl

theorem Engine.Stamped.call (stamped : engine.Stamped) {call : Call}
    (stepped : engine.call call = some after) : after.Stamped := by
  have held := stamped.inHand
  unfold Engine.call at stepped
  unfold Engine.InHand at held
  split at stepped
  · rename_i txn phase
    simp only [phase] at held
    obtain ⟨staged, done, rfl⟩ := Option.map_eq_some_iff.mp stepped
    refine ⟨stamped.store, stamped.dir, ?_⟩
    show staged.snapshot = engine.store.committedSeq
    cases call with
    | put table key value =>
      rw [← Option.some.inj done]
      exact held
    | delete table key =>
      rw [← Option.some.inj done]
      exact held
    | deletePrefix table start => exact (WriteTxn.deletePrefix_snapshot done).trans held
  · cases stepped

theorem Engine.Stamped.commit (stamped : engine.Stamped) {floor : ℕ}
    (stepped : engine.commit floor = some after) : after.Stamped := by
  have held := stamped.inHand
  unfold Engine.commit at stepped
  unfold Engine.InHand at held
  split at stepped
  · rename_i txn phase
    simp only [phase] at held
    obtain rfl := Option.some.inj stepped
    refine ⟨stamped.store, stamped.dir, ?_⟩
    by_cases empty : txn.buf.isEmpty
    · simp only [Engine.InHand, empty, if_true]
    · simp only [Engine.InHand, empty]
      show engine.store.committedSeq ≤ max (txn.snapshot + 1) floor
      rw [held]
      exact (Nat.le_succ _).trans (le_max_left _ _)
  · cases stepped

theorem Engine.Stamped.append (stamped : engine.Stamped) {codec : WalCodec} {fault : Option Fault}
    (stepped : engine.append codec fault = some after) : after.Stamped := by
  have held := stamped.inHand
  unfold Engine.append at stepped
  unfold Engine.InHand at held
  split at stepped
  · rename_i seq ops phase
    simp only [phase] at held
    split at stepped <;> obtain rfl := Option.some.inj stepped
    · exact ⟨stamped.store, stamped.dir, trivial⟩
    · exact ⟨stamped.store, stamped.dir, held⟩
    · exact ⟨stamped.store, stamped.dir, trivial⟩
  · cases stepped

theorem Engine.Stamped.publish (stamped : engine.Stamped)
    (stepped : engine.publish = some after) : after.Stamped := by
  have held := stamped.inHand
  unfold Engine.publish at stepped
  unfold Engine.InHand at held
  split at stepped
  · rename_i seq ops phase
    simp only [phase] at held
    obtain rfl := Option.some.inj stepped
    exact ⟨stamped.store.publish ops held, stamped.dir, trivial⟩
  · cases stepped

theorem Engine.Stamped.applyReplicated (stamped : engine.Stamped) {outcome : Except Error Engine}
    {batch : ReplicatedBatch} (stepped : engine.applyReplicated batch = some outcome) :
    (outcome.toOption.getD engine).Stamped := by
  unfold Engine.applyReplicated at stepped
  split at stepped
  · split_ifs at stepped with empty old <;> obtain rfl := Option.some.inj stepped
    · exact stamped
    · exact stamped
    · exact ⟨stamped.store, stamped.dir, (Nat.not_le.mp old).le⟩
  · cases stepped

theorem Engine.Stamped.beginWriteUnchecked (stamped : engine.Stamped)
    (stepped : engine.beginWriteUnchecked = some after) : after.Stamped := by
  unfold Engine.beginWriteUnchecked at stepped
  split at stepped
  · obtain rfl := Option.some.inj stepped
    exact ⟨stamped.store, stamped.dir, rfl⟩
  · cases stepped

/-- **No step stamps a version above the committed sequence.** -/
theorem Engine.Stamped.step {config : Config} (stamped : engine.Stamped) {action : Action}
    (stepped : engine.step config action = some after) : after.Stamped := by
  cases action with
  | beginRead =>
    obtain rfl := Option.some.inj stepped
    exact ⟨stamped.store, stamped.dir, stamped.inHand⟩
  | beginReadAt snapshot =>
    rw [Engine.step] at stepped
    split at stepped <;> obtain rfl := Option.some.inj stepped
    · rename_i opened
      unfold Engine.beginReadAt at opened
      simp only at opened
      split_ifs at opened
      cases opened
      exact ⟨stamped.store, stamped.dir, stamped.inHand⟩
    · exact stamped
  | dropRead index =>
    obtain ⟨txn, -, rfl⟩ := Option.map_eq_some_iff.mp stepped
    exact ⟨stamped.store, stamped.dir, stamped.inHand⟩
  | setRetention keepCommits =>
    obtain rfl := Option.some.inj stepped
    exact ⟨stamped.store, stamped.dir, stamped.inHand⟩
  | beginWrite =>
    rw [Engine.step, Engine.beginWrite] at stepped
    split_ifs at stepped
    exact stamped.beginWriteUnchecked stepped
  | beginWriteUnchecked => exact stamped.beginWriteUnchecked stepped
  | call call => exact stamped.call stepped
  | dropWrite =>
    rw [Engine.step] at stepped
    unfold Engine.dropWrite at stepped
    split at stepped
    · obtain rfl := Option.some.inj stepped
      exact ⟨stamped.store, stamped.dir, trivial⟩
    · cases stepped
  | commit floor => exact stamped.commit stepped
  | applyReplicated batch =>
    obtain ⟨outcome, applied, rfl⟩ := Option.map_eq_some_iff.mp stepped
    exact stamped.applyReplicated applied
  | append fault => exact stamped.append stepped
  | publish => exact stamped.publish stepped
  | maintain => exact stamped.maintain stepped
  | maintenanceFails => exact stamped.maintenanceFails stepped
  | crash cut readOnly =>
    obtain rfl := Option.some.inj stepped
    exact openEngine_stamped config.codec stamped.dir _ readOnly

end Steps

theorem Engine.Reachable.stamped {config : Config} {engine : Engine}
    (reachable : engine.Reachable config) : engine.Stamped := by
  obtain ⟨readOnly, steps⟩ := reachable
  induction steps with
  | refl =>
    refine openEngine_stamped config.codec ⟨fun number run found => ?_, fun number run found => ?_⟩
      [] readOnly <;>
      (rw [ExtTreeMap.getElem?_empty] at found; cases found)
  | tail _ step ih =>
    obtain ⟨action, stepped⟩ := step
    exact ih.step stepped

end DrStrange.Native
