/-
**Reopening the directory: what survives a crash.**

`Trace.Sound` names the steps this module follows: an append made to a clean log that, if it fails,
leaves less than a whole record in the file; maintenance that fails anywhere but between two unlinks;
a reader opened where the history is still kept; and a crash anywhere, unless it falls between two
unlinks of a compaction whose remaining files bring a reclaimed key back (`Resurrects`), or what the
buffer gets to the file makes the record of a failed append whole.

Every such step keeps the store and the directory in order (`Kept.step`). For a crash this says that
the reopened store shows the published batches and, of the commit under way, all or nothing.
-/

import DrStrange.Native.Disk

namespace DrStrange.Native

open Std Versioned

/-! ### Sound steps -/

/-- The batches a reopen would replay from these bytes. -/
def replayedBatches (codec : WalCodec) (bytes : Bytes) : List WalBatch :=
  (readRecords codec bytes.length bytes).1

variable {codec : WalCodec} {batches : List Batch} {engine : Engine} {bytes : Bytes}

theorem Logged.replayedBatches {torn : Bytes} (logged : Logged codec batches bytes)
    (stops : readRecord codec torn = none) :
    replayedBatches codec (bytes ++ torn) = batches.map Batch.toWal := by
  have enough : batches.length ≤ (bytes ++ torn).length := logged.length_le.trans (by simp)
  rw [Native.replayedBatches, logged.readRecords stops enough]

/-- A compaction is between two unlinks, and a key it has dropped with its tombstone has its put in
a file that is still there, its tombstone in one that is gone, and no record in the log. -/
def Resurrects (codec : WalCodec) (engine : Engine) : Prop :=
  match engine.phase with
  | .unlinking old minSnapshot left => ∃ user value,
      (∀ batch ∈ replayedBatches codec engine.wal.file.bytes, ∀ op ∈ batch.ops,
        (⟨op.table, op.key⟩ : UserKey) ≠ user) ∧
      Dead .del (merged (old.reverse.map fun sst => sst.source)) minSnapshot user ∧
      firstVisible ((old.filter fun sst => sst.number ∈ left).reverse.map fun sst => sst.source) user
        engine.store.committedSeq = some (.put value)
  | _ => False

/-- The append starts on a record boundary and, if it fails, it fails before the sync. -/
def Engine.SoundAppend (codec : WalCodec) (engine : Engine) (fault : Option Fault) : Prop :=
  ∀ seq ops record, engine.phase = .logging seq ops →
    walRecord codec (Batch.toWal ⟨seq, ops⟩) = .ok record →
    WalClean codec engine.wal ∧ ∀ failed, fault = some failed → failed.accepted < record.length

/-- What arrives of the buffer completes no record. -/
def Engine.StaysTorn (codec : WalCodec) (engine : Engine) (cut : ℕ) : Prop :=
  replayedBatches codec (engine.wal.file.write (engine.wal.buf.take cut)).bytes =
    replayedBatches codec engine.wal.file.bytes

/-- Of the bytes on their way, a crash keeps no failed record whole, and nothing of the record that is
being appended to a log that is not clean. -/
def Engine.SoundCut (codec : WalCodec) (engine : Engine) (cut : ℕ) : Prop :=
  engine.StaysTorn codec cut ∧ ∀ seq ops, engine.phase = .logging seq ops →
    WalClean codec engine.wal ∨ cut ≤ engine.wal.buf.length

theorem Engine.staysTorn_of_drained (drained : engine.wal.buf = []) (cut : ℕ) :
    engine.StaysTorn codec cut := by
  rw [Engine.StaysTorn, drained, List.take_nil]
  rfl

theorem WalClean.soundCut (clean : WalClean codec engine.wal) (cut : ℕ) :
    engine.SoundCut codec cut :=
  ⟨Engine.staysTorn_of_drained clean.1 cut, fun _ _ _ => Or.inl clean⟩

def Trace.Sound (codec : WalCodec) (trace : Trace) : Action → Prop
  | .append fault => trace.engine.SoundAppend codec fault
  | .maintenanceFails => trace.engine.phase.unlinks = false
  | .crash cut _ => ¬ Resurrects codec trace.engine ∧ trace.engine.SoundCut codec cut
  | action => trace.Promised action

theorem Trace.Sound.promised {trace : Trace} {action : Action} (sound : trace.Sound codec action) :
    trace.Promised action := by
  cases action <;> first | exact sound | trivial

/-! ### Steps of a live engine -/

section Live

variable {config : Config} {trace : Trace} {engine : Engine} {threshold : ℕ}

theorem DiskInv.append (disk : DiskInv codec trace) {fault : Option Fault}
    (sound : trace.engine.SoundAppend codec fault)
    (stepped : trace.engine.append codec fault = some engine) :
    DiskInv codec { trace with engine, flight := engine.phase.batch? } := by
  unfold Engine.append at stepped
  split at stepped
  · rename_i seq ops phase
    obtain ⟨earlier, unflushed, torn, wal⟩ := disk.wal
    obtain ⟨below, extra, files⟩ := disk.files
    rw [phase] at wal files
    split at stepped
    · obtain rfl := Option.some.inj stepped
      exact disk.enter ⟨rfl, rfl, rfl⟩ (by rw [phase]; exact ⟨rfl, rfl⟩) (by rw [phase]; rfl)
        ⟨rfl, rfl, rfl⟩ (Or.inl rfl)
    · rename_i record made
      obtain rfl := Option.some.inj stepped
      obtain ⟨clean, -⟩ := sound seq ops record phase made
      exact ⟨⟨earlier, unflushed, [], wal.append (wal.torn_eq_nil clean) made⟩, below, extra,
        files.enter rfl rfl⟩
    · rename_i record failed made
      obtain rfl := Option.some.inj stepped
      obtain ⟨clean, short⟩ := sound seq ops record phase made
      obtain ⟨kept, left⟩ := wal.appendFailed (wal.torn_eq_nil clean) made (short _ rfl)
      exact ⟨⟨earlier, unflushed, _, left⟩, below, extra, files.enter rfl rfl⟩
  · cases stepped

theorem DiskInv.publish (disk : DiskInv codec trace) (live : LiveInv trace)
    (stepped : trace.engine.publish = some engine) :
    DiskInv codec { trace with engine, history := trace.history ++ trace.flight.toList } := by
  unfold Engine.publish at stepped
  split at stepped
  · rename_i seq ops phase
    have held := live.phase
    rw [PhaseInv, phase] at held
    obtain ⟨advances, known, flight⟩ := held
    have ascending := (live.store.publish ⟨seq, ops⟩ advances known).ascending
    obtain ⟨earlier, unflushed, torn, wal⟩ := disk.wal
    obtain ⟨below, extra, files⟩ := disk.files
    rw [phase] at wal files
    obtain rfl := Option.some.inj stepped
    simp only [flight, Option.toList_some]
    exact ⟨⟨earlier, _, torn, wal.publish ascending⟩, below, extra,
      files.publish rfl ⟨seq, ops⟩ advances ascending⟩
  · cases stepped

theorem DiskInv.maintain (disk : DiskInv codec trace) (live : LiveInv trace)
    (stepped : trace.engine.maintain threshold = some engine) :
    DiskInv codec (trace.follow codec .maintain engine) := by
  have held := live.phase
  have low := live.pending
  obtain ⟨earlier, unflushed, torn, wal⟩ := disk.wal
  obtain ⟨below, extra, files⟩ := disk.files
  unfold Engine.maintain at stepped
  unfold Trace.follow Trace.reclaim
  rw [PhaseInv] at held
  cases phase : trace.engine.phase <;> simp only [phase] at stepped held low wal files ⊢
  case flushing =>
    split_ifs at stepped with due <;> obtain rfl := Option.some.inj stepped <;>
      exact disk.enter ⟨rfl, rfl, rfl⟩ (by rw [phase]; exact ⟨rfl, rfl⟩) (by rw [phase]; rfl)
        ⟨rfl, rfl, rfl⟩ (Or.inr (by rw [phase]; rfl))
  case flushTemp =>
    obtain ⟨dir, renamed, rfl⟩ := Option.map_eq_some_iff.mp stepped
    obtain ⟨rfl, temp⟩ := held
    obtain rfl := Directory.rename_eq temp renamed
    exact ⟨⟨earlier, unflushed, torn, wal.enter rfl rfl rfl rfl (Or.inr rfl)⟩, _, _,
      files.flushRenamed live.store rfl rfl _⟩
  case flushRenamed =>
    obtain ⟨sst, opened, rfl⟩ := Option.map_eq_some_iff.mp stepped
    obtain ⟨number_eq, file⟩ := held
    have same := Directory.openSst_eq file opened
    refine ⟨⟨_, _, torn, wal.swapFlushed (by rw [same]; rfl)⟩, _, _,
      files.swapFlushed number_eq (by rw [← number_eq]; exact file) same⟩
  case flushSwapped =>
    obtain rfl := Option.some.inj stepped
    exact ⟨⟨_, _, _, wal.cutLog⟩, below, extra, files.enter rfl rfl⟩
  case walCut =>
    obtain rfl := Option.some.inj stepped
    exact ⟨⟨_, _, _, wal.seek⟩, below, extra, files.enter rfl rfl⟩
  case compacting =>
    split_ifs at stepped with few <;> obtain rfl := Option.some.inj stepped <;>
      exact disk.enter ⟨rfl, rfl, rfl⟩ (by rw [phase]; exact ⟨rfl, rfl⟩) (by rw [phase]; rfl)
        ⟨rfl, rfl, rfl⟩ (Or.inr (by rw [phase]; rfl))
  case mergedTemp =>
    obtain ⟨dir, renamed, rfl⟩ := Option.map_eq_some_iff.mp stepped
    obtain ⟨rfl, rfl, temp⟩ := held
    obtain rfl := Directory.rename_eq temp renamed
    exact ⟨⟨earlier, unflushed, torn, wal.enter rfl rfl rfl rfl (Or.inr rfl)⟩, _, _,
      files.mergedRenamed live.store rfl rfl _ _⟩
  case mergedRenamed runs next minSnapshot =>
    obtain ⟨merged, opened, rfl⟩ := Option.map_eq_some_iff.mp stepped
    obtain ⟨rfl, rfl, file⟩ := held
    have same := Directory.openSst_eq file opened
    have top : (∃ sst ∈ trace.engine.store.ssts, sst.maxSeq = trace.engine.store.committedSeq) →
        merged.maxSeq = trace.engine.store.committedSeq := by
      rw [same]
      exact (compactedRun_maxSeq trace.engine.store.ssts minSnapshot fun sst member =>
        files.maxSeq sst (List.mem_append_left _ (List.mem_append_right _ member))).2
    rw [List.take_length]
    exact ⟨⟨earlier, unflushed, torn, wal.swapCompacted top _⟩, _, _,
      files.swapCompacted live.store rfl file same low _⟩
  case unlinking old minSnapshot left =>
    cases left with
    | nil =>
      obtain rfl := Option.some.inj stepped
      exact ⟨⟨earlier, unflushed, torn, wal.enter rfl rfl rfl rfl (Or.inr rfl)⟩, _, _, files.unlinked⟩
    | cons number left =>
      obtain rfl := Option.some.inj stepped
      obtain ⟨fewer, unlinked⟩ := files.unlink
      exact ⟨⟨earlier, unflushed, torn, wal.enter rfl rfl rfl rfl (Or.inr rfl)⟩, fewer, [], unlinked⟩
  case walSought | captured | floored =>
    obtain rfl := Option.some.inj stepped
    exact disk.enter ⟨rfl, rfl, rfl⟩ (by rw [phase]; exact ⟨rfl, rfl⟩) (by rw [phase]; rfl)
      ⟨rfl, rfl, rfl⟩ (Or.inr (by rw [phase]; rfl))
  all_goals cases stepped

theorem DiskInv.maintenanceFails (disk : DiskInv codec trace)
    (linked : trace.engine.phase.unlinks = false)
    (stepped : trace.engine.maintenanceFails threshold = some engine) :
    DiskInv codec { trace with engine, acked := trace.history, flight := none } := by
  have uncut : trace.engine.phase.logCut = false ∧ trace.engine.phase.durable = [] ∧
      engine = { trace.engine with phase := .idle } := by
    unfold Engine.maintenanceFails at stepped
    cases phase : trace.engine.phase <;> simp only [phase] at stepped
    case flushing =>
      split_ifs at stepped
      exact ⟨rfl, rfl, (Option.some.inj stepped).symm⟩
    all_goals first
      | exact ⟨rfl, rfl, (Option.some.inj stepped).symm⟩
      | cases stepped
  obtain ⟨cut, durable, rfl⟩ := uncut
  exact disk.enter ⟨rfl, rfl, rfl⟩ ⟨cut, linked⟩ durable.symm ⟨rfl, rfl, rfl⟩ (Or.inl rfl)

theorem DiskInv.step (disk : DiskInv config.codec trace) (live : LiveInv trace) {action : Action}
    (alive : action.isCrash = false) (sound : trace.Sound config.codec action) {after : Trace}
    (stepped : trace.step config action = some after) : DiskInv config.codec after := by
  obtain ⟨engine, moved, rfl⟩ := Option.map_eq_some_iff.mp stepped
  -- Opening, staging and closing a transaction touch no file.
  have quiet : ∀ phase acked flight calls, trace.engine.phase.logCut = false →
      trace.engine.phase.unlinks = false → trace.engine.phase.durable = [] →
      phase.durable = [] → phase.logCut = false ∧ phase.memOut = false ∧ phase.unlinks = false →
      phase.buffers = true → DiskInv config.codec ⟨{ trace.engine with phase }, trace.history,
        acked, flight, calls,
        trace.floor⟩ :=
    fun phase acked flight calls cut linked before durable after buffers =>
      disk.enter ⟨rfl, rfl, rfl⟩ ⟨cut, linked⟩ (durable.trans before.symm) after (Or.inl buffers)
  have began : trace.engine.beginWriteUnchecked = some engine →
      DiskInv config.codec { trace with engine, calls := [] } := by
    intro moved
    rw [Engine.beginWriteUnchecked] at moved
    cases phase : trace.engine.phase <;> simp only [phase, reduceCtorEq] at moved
    obtain rfl := Option.some.inj moved
    exact quiet _ _ _ _ (by rw [phase]; rfl) (by rw [phase]; rfl) (by rw [phase]; rfl) rfl
      ⟨rfl, rfl, rfl⟩ rfl
  cases action with
  | beginRead =>
    obtain rfl := Option.some.inj moved
    exact ⟨disk.wal, disk.files⟩
  | beginReadAt snapshot =>
    rw [Engine.step] at moved
    have frame : engine = trace.engine ∨ engine = trace.engine.register snapshot := by
      unfold Engine.beginReadAt at moved
      simp only at moved
      split_ifs at moved <;> simp only [Option.some.injEq] at moved
      · exact Or.inl moved.symm
      · exact Or.inl moved.symm
      · exact Or.inr moved.symm
    rcases frame with rfl | rfl <;> exact ⟨disk.wal, disk.files⟩
  | dropRead index =>
    obtain ⟨txn, -, rfl⟩ := Option.map_eq_some_iff.mp moved
    exact ⟨disk.wal, disk.files⟩
  | setRetention keepCommits =>
    obtain rfl := Option.some.inj moved
    exact ⟨disk.wal, disk.files⟩
  | beginWrite =>
    rw [Engine.step, Engine.beginWrite] at moved
    split_ifs at moved
    exact began moved
  | beginWriteUnchecked => exact began moved
  | call call =>
    rw [Engine.step, Engine.call] at moved
    cases phase : trace.engine.phase <;> simp only [phase, reduceCtorEq] at moved
    obtain ⟨txn, -, rfl⟩ := Option.map_eq_some_iff.mp moved
    exact quiet _ _ _ _ (by rw [phase]; rfl) (by rw [phase]; rfl) (by rw [phase]; rfl) rfl
      ⟨rfl, rfl, rfl⟩ rfl
  | dropWrite =>
    rw [Engine.step, Engine.dropWrite] at moved
    cases phase : trace.engine.phase <;> simp only [phase, reduceCtorEq] at moved
    obtain rfl := Option.some.inj moved
    exact quiet _ _ _ _ (by rw [phase]; rfl) (by rw [phase]; rfl) (by rw [phase]; rfl) rfl
      ⟨rfl, rfl, rfl⟩ rfl
  | commit floor =>
    rw [Engine.step, Engine.commit] at moved
    cases phase : trace.engine.phase <;> simp only [phase, reduceCtorEq] at moved
    obtain rfl := Option.some.inj moved
    split_ifs <;> exact quiet _ _ _ _ (by rw [phase]; rfl) (by rw [phase]; rfl)
      (by rw [phase]; rfl) rfl ⟨rfl, rfl, rfl⟩ rfl
  | applyReplicated batch =>
    rw [Engine.step, Engine.applyReplicated] at moved
    cases phase : trace.engine.phase <;>
      simp only [phase, Option.map_none, reduceCtorEq] at moved
    split_ifs at moved <;> obtain rfl := Option.some.inj moved
    · exact ⟨disk.wal, disk.files⟩
    · exact ⟨disk.wal, disk.files⟩
    · exact quiet _ _ _ _ (by rw [phase]; rfl) (by rw [phase]; rfl) (by rw [phase]; rfl) rfl
        ⟨rfl, rfl, rfl⟩ rfl
  | append fault => exact disk.append sound moved
  | publish => exact disk.publish live moved
  | maintain => exact disk.maintain live moved
  | maintenanceFails => exact disk.maintenanceFails sound moved
  | crash cut readOnly => cases alive

end Live

/-! ### The log after a crash -/

section Crash

variable {codec : WalCodec} {trace : Trace} {earlier unflushed history before : List Batch}
  {torn records : Bytes} {cut snapshot : ℕ} {runs : List Sst} {user : UserKey} {dir : Directory}

/-- Some of the buffer arrives and completes no record: still whole records, and at most a torn one
behind them. -/
theorem WalInv.arriving
    (inv : WalInv codec trace.engine.phase trace.engine.store trace.engine.wal trace.history earlier
      unflushed torn) (stays : trace.engine.StaysTorn codec cut) :
    ∃ records tail, (trace.engine.wal.file.write (trace.engine.wal.buf.take cut)).bytes =
        records ++ tail ∧
      Logged codec (earlier ++ unflushed ++ trace.engine.phase.durable) records ∧
      Torn codec tail := by
  obtain ⟨records, rest, logged, bytes, split, stops⟩ := inv.records
  cases position : trace.engine.phase.logCut with
  | true =>
    obtain ⟨-, empty⟩ := inv.cut position
    rw [empty, List.take_nil]
    exact ⟨records, rest, bytes, logged, stops⟩
  | false =>
    have written : (trace.engine.wal.file.write (trace.engine.wal.buf.take cut)).bytes =
        records ++ (rest ++ trace.engine.wal.buf.take cut) := by
      rw [LogFile.write_at_end (inv.cursor position), bytes, List.append_assoc]
    refine ⟨records, rest ++ trace.engine.wal.buf.take cut, written, logged, ?_⟩
    have start : rest ++ trace.engine.wal.buf.take cut <+: torn := by
      rw [split]
      exact (List.prefix_append_right_inj rest).mpr (List.take_prefix _ _)
    rcases inv.torn with nothing | ⟨batch, record, made, inside⟩
    · rw [nothing] at start
      exact Or.inl (List.prefix_nil.mp start)
    · refine Or.inr ⟨_, record, made, start.trans inside, ?_⟩
      refine (start.trans inside).length_le.lt_of_ne fun same => ?_
      -- A whole record would be replayed.
      have one_more := (logged.concat made).replayedBatches readRecord_nil
      rw [Engine.StaysTorn, written, (start.trans inside).eq_of_length same, bytes,
        logged.replayedBatches stops.readRecord] at stays
      rw [List.append_nil, stays, List.map_append] at one_more
      have lengths := congrArg List.length one_more
      simp at lengths

/-- Outside an append nothing but the buffer is on its way, and what is durable survives. -/
theorem crash_quiet (live : LiveInv trace)
    (quiet : ∀ seq ops, trace.engine.phase ≠ .logging seq ops) :
    trace.engine.pendingRecord codec = [] ∧
      trace.survivors codec cut = trace.engine.phase.durable := by
  have held := live.phase
  rw [PhaseInv] at held
  unfold Engine.pendingRecord Trace.survivors Trace.survives
  cases phase : trace.engine.phase <;> simp only [phase] at held ⊢
  case logging seq ops => exact absurd phase (quiet seq ops)
  case logged seq ops =>
    rw [held.2.2]
    exact ⟨trivial, rfl⟩
  all_goals exact ⟨trivial, rfl⟩

/-- **The log after a crash** holds what it held, and of the commit under way all or nothing. -/
theorem WalInv.crash (live : LiveInv trace)
    (wal : WalInv codec trace.engine.phase trace.engine.store trace.engine.wal trace.history earlier
      unflushed torn)
    (sound : trace.engine.SoundCut codec cut) :
    ∃ records tail, (trace.engine.wal.file.write
        ((trace.engine.wal.buf ++ trace.engine.pendingRecord codec).take cut)).bytes =
          records ++ tail ∧
      Logged codec (earlier ++ unflushed ++ trace.survivors codec cut) records ∧
      Torn codec tail := by
  by_cases quiet : ∀ seq ops, trace.engine.phase ≠ .logging seq ops
  · have arrives : trace.engine.pendingRecord codec = [] ∧
        trace.survivors codec cut = trace.engine.phase.durable := crash_quiet live quiet
    rw [arrives.1, arrives.2, List.append_nil]
    exact wal.arriving sound.1
  push Not at quiet
  obtain ⟨seq, ops, phase⟩ := quiet
  have flight : trace.flight = some ⟨seq, ops⟩ := by
    have held := live.phase
    rw [PhaseInv, phase] at held
    exact held.2.2
  have durable : trace.engine.phase.durable = [] := by rw [phase]; rfl
  have lost : trace.survives codec cut = false → ∃ records tail,
        (trace.engine.wal.file.write (trace.engine.wal.buf.take cut)).bytes = records ++ tail ∧
        Logged codec (earlier ++ unflushed ++ trace.survivors codec cut) records ∧
        Torn codec tail := by
    intro gone
    have none : trace.survivors codec cut = trace.engine.phase.durable := by
      rw [durable, Trace.survivors, gone]
      rfl
    rw [none]
    exact wal.arriving sound.1
  cases made : walRecord codec (Batch.toWal ⟨seq, ops⟩) with
  | error e =>
    have gone : trace.survives codec cut = false := by
      rw [Trace.survives, phase]
      simp only [made]
    have nothing : trace.engine.pendingRecord codec = [] := by
      rw [Engine.pendingRecord, phase]
      simp only [made]
      rfl
    rw [nothing, List.append_nil]
    exact lost gone
  | ok record =>
    have pending : trace.engine.pendingRecord codec = record := by
      rw [Engine.pendingRecord, phase]
      simp only [made]
      rfl
    have reaches : trace.survives codec cut =
        decide (trace.engine.wal.buf.length + record.length ≤ cut) := by
      rw [Trace.survives, phase]
      simp only [made]
    rw [pending]
    rcases sound.2 seq ops phase with clean | short
    · obtain ⟨records, rest, logged, bytes, split, -⟩ := wal.records
      rw [wal.torn_eq_nil clean] at split
      obtain ⟨rfl, empty⟩ := List.append_eq_nil_iff.mp split.symm
      have atEnd := wal.cursor (by rw [phase]; rfl)
      rw [durable, List.append_nil] at logged
      rw [empty, List.nil_append, LogFile.write_at_end atEnd, bytes, List.append_nil]
      rw [empty, List.length_nil, Nat.zero_add] at reaches
      by_cases whole : record.length ≤ cut
      · refine ⟨records ++ record, [], ?_, ?_, Or.inl rfl⟩
        · rw [List.take_of_length_le whole, List.append_nil]
        · rw [Trace.survivors, reaches, decide_eq_true whole, flight]
          exact logged.concat made
      · refine ⟨records, record.take cut, rfl, ?_,
          Or.inr ⟨_, record, made, List.take_prefix _ _, ?_⟩⟩
        · rw [Trace.survivors, reaches, decide_eq_false whole, if_neg Bool.false_ne_true,
            List.append_nil]
          exact logged
        · rw [List.length_take]
          exact (min_le_left _ _).trans_lt (Nat.not_le.mp whole)
    · have length := walRecord_length made
      have gone : trace.survives codec cut = false := by
        rw [reaches]
        exact decide_eq_false (by omega)
      rw [List.take_append_of_le_length short]
      exact lost gone

/-! ### The store a reopen builds -/

/-- A store opened over these runs and these logged batches. -/
structure Reopened (dir : Directory) (runs : List Sst) (batches : List Batch) (records : Bytes)
    (engine : Engine) : Prop where
  ssts : engine.store.ssts = runs
  nextSst : engine.store.nextSst = dir.nextNumber
  mem : memSource engine.store.mem = recorded (logOf batches)
  wal : engine.wal = ⟨⟨records, records.length⟩, []⟩
  dir : engine.dir = dir
  idle : engine.phase = .idle ∧ engine.readers = ∅ ∧ engine.reads = []
  batchesLow : ∀ batch ∈ batches, batch.seq ≤ engine.store.committedSeq
  runsLow : ∀ sst ∈ runs, sst.maxSeq ≤ engine.store.committedSeq
  top : (∃ batch ∈ batches, batch.seq = engine.store.committedSeq) ∨
    (∃ sst ∈ runs, sst.maxSeq = engine.store.committedSeq) ∨ engine.store.committedSeq = 0

theorem openEngine_reopened {tail : Bytes} (holds : Holds dir runs)
    (split : bytes = records ++ tail) (logged : Logged codec batches records)
    (stops : Torn codec tail) (ascending : Ascending (logOf batches)) (readOnly : Bool) :
    Reopened dir runs batches records (openEngine codec dir bytes readOnly) := by
  subst split
  let start : Store := ⟨∅, 0, (runs.map fun sst => sst.maxSeq).foldl max 0, runs, dir.nextNumber⟩
  have replayed : replay codec (records ++ tail) start =
      ((batches.map Batch.toWal).foldl Store.replayBatch start, records.length) :=
    logged.replay stops.readRecord start
  have store := replayBatches ascending (rfl : start.mem = ∅)
  have opened : openEngine codec dir (records ++ tail) readOnly =
      { store := (batches.map Batch.toWal).foldl Store.replayBatch start
        dir
        wal := ⟨((⟨records ++ tail, (records ++ tail).length⟩ : LogFile).setLen
          records.length).seek records.length, []⟩
        phase := .idle, readers := ∅, reads := [], retainCommits := 0, readOnly } := by
    rw [openEngine, holds.list]
    simp only
    rw [replayed]
  have batchesLow := foldl_max_spec (batches.map Batch.seq) start.committedSeq
  have runsLow := foldl_max_spec (runs.map fun sst => sst.maxSeq) 0
  rw [← store.committedSeq] at batchesLow
  rw [opened]
  refine ⟨store.ssts, store.nextSst, store.mem, ?_, rfl, ⟨rfl, rfl, rfl⟩, ?_, ?_, ?_⟩
  · simp [LogFile.setLen, LogFile.seek]
  · exact fun batch member => batchesLow.2.1 _ (List.mem_map_of_mem member)
  · exact fun sst member => (runsLow.2.1 _ (List.mem_map_of_mem member)).trans batchesLow.1
  · rcases batchesLow.2.2 with same | inside
    · rcases runsLow.2.2 with zero | run
      · exact Or.inr (Or.inr (same.trans zero))
      · obtain ⟨sst, member, newest⟩ := List.mem_map.mp run
        exact Or.inr (Or.inl ⟨sst, member, newest.trans same.symm⟩)
    · obtain ⟨batch, member, newest⟩ := List.mem_map.mp inside
      exact Or.inl ⟨batch, member, newest⟩

/-- The files of a reopened directory are its runs. -/
theorem Reopened.disk (reopened : Reopened dir runs batches records engine) (holds : Holds dir runs)
    (logged : Logged codec batches records) (covered : history = before ++ batches) (floor : ℕ) :
    DiskInv codec ⟨engine, history, history, none, [], floor⟩ := by
  have idle := reopened.idle.1
  refine ⟨⟨[], batches, [], ?_⟩, [], [], ?_⟩
  · show WalInv codec engine.phase engine.store engine.wal history [] batches []
    rw [idle, reopened.wal]
    refine ⟨⟨records, [], ?_, (List.append_nil _).symm, rfl, Or.inl rfl⟩, Or.inl rfl, Or.inl rfl,
      fun _ => rfl, nofun, ⟨before, covered⟩, reopened.mem, nofun, ?_⟩
    · rw [List.nil_append, show Phase.idle.durable = [] from rfl, List.append_nil]
      exact logged
    · rw [reopened.ssts]
      exact reopened.top
  · show FilesInv engine.phase engine.store engine.dir history floor [] []
    rw [idle, reopened.dir]
    refine ⟨?_, ?_, nofun, nofun, nofun, nofun, ?_, rfl⟩
    · rw [List.nil_append, List.append_nil, reopened.ssts]
      exact holds
    · rw [List.nil_append, reopened.ssts, reopened.nextSst]
      exact fun sst member => holds.nextNumber_gt member
    · rw [List.nil_append, List.append_nil, reopened.ssts]
      exact reopened.runsLow

/-! ### What the reopened store shows -/

/-- The batches that survive extend the history as a publish would have. -/
theorem survivors_spec (live : LiveInv trace) :
    Ascending (logOf (trace.history ++ trace.survivors codec cut)) ∧
      ∀ batch ∈ trace.survivors codec cut, Known batch.ops := by
  have none : trace.survivors codec cut = [] →
      Ascending (logOf (trace.history ++ trace.survivors codec cut)) ∧
        ∀ batch ∈ trace.survivors codec cut, Known batch.ops := by
    intro empty
    rw [empty, List.append_nil]
    exact ⟨live.store.ascending, nofun⟩
  have some_ : ∀ seq ops, trace.engine.store.committedSeq < seq ∧ Known ops ∧
      trace.flight = some ⟨seq, ops⟩ →
      Ascending (logOf (trace.history ++ trace.survivors codec cut)) ∧
        ∀ batch ∈ trace.survivors codec cut, Known batch.ops := by
    rintro seq ops ⟨advances, known, flight⟩
    by_cases survives : trace.survives codec cut = true
    · rw [Trace.survivors, if_pos survives, flight, Option.toList_some]
      refine ⟨(live.store.publish ⟨seq, ops⟩ advances known).ascending, fun batch member => ?_⟩
      rw [List.mem_singleton.mp member]
      exact known
    · exact none (if_neg survives)
  have held := live.phase
  rw [PhaseInv] at held
  cases phase : trace.engine.phase <;> simp only [phase] at held
  case logging seq ops => exact some_ seq ops held
  case logged seq ops => exact some_ seq ops held
  all_goals
    refine none (if_neg ?_)
    rw [Trace.survives, phase]
    exact Bool.false_ne_true

/-- A key that no replayed batch writes is in no batch behind the runs. -/
theorem unseen_of_replayed {survivors : List Batch}
    (split : history = before ++ (earlier ++ unflushed))
    (ascending : Ascending (logOf (history ++ survivors)))
    (unseen : visible (recorded (logOf (earlier ++ unflushed ++ survivors))) user snapshot = none) :
    visible (recorded (logOf unflushed)) user snapshot = none ∧
      visible (recorded (logOf (history ++ survivors))) user snapshot =
        visible (recorded (logOf history)) user snapshot := by
  have tail : Ascending (logOf (earlier ++ unflushed ++ survivors)) := by
    rw [split, List.append_assoc, logOf_append] at ascending
    exact (List.pairwise_append.mp ascending).2.1
  have front : Ascending (logOf (earlier ++ unflushed)) := by
    rw [logOf_append] at tail
    exact (List.pairwise_append.mp tail).1
  rw [visible_eq_none_iff] at unseen
  have both : ∀ seq, seq ≤ snapshot → recorded (logOf unflushed) user seq = none ∧
      recorded (logOf survivors) user seq = none := by
    intro seq low
    have missing := unseen seq low
    rw [logOf_append, recorded_append _ _ _ _ (logOf_append _ _ ▸ tail).apart,
      Option.or_eq_none_iff, logOf_append,
      recorded_append _ _ _ _ (logOf_append _ _ ▸ front).apart, Option.or_eq_none_iff] at missing
    exact ⟨missing.1.2, missing.2⟩
  refine ⟨visible_eq_none_iff.mpr fun seq low => (both seq low).1, visible_congr fun seq low => ?_⟩
  rw [logOf_append, recorded_append _ _ _ _ (logOf_append _ _ ▸ ascending).apart, (both seq low).2,
    Option.or_none]

section Files

variable {phase : Phase} {store : Store} {dir : Directory} {history : List Batch}
  {floor minSnapshot : ℕ} {below extra old : List Sst} {left : List ℕ}

/-- Runs that are part of the history, each layered over those before it. -/
structure Stacked (history : List Batch) (runs : List Sst) : Prop where
  within : ∀ sst ∈ runs, Within sst.source (recorded (logOf history))
  layered : runs.Pairwise fun older newer => Layered older.source newer.source

/-- Outside the unlinks, the files show what the store shows. -/
theorem FilesInv.linked (files : FilesInv phase store dir history floor below extra)
    (live : StoreInv store history floor) (linked : phase.unlinks = false) :
    Stacked history (below ++ store.ssts ++ extra) ∧
      Exact history floor (memSource store.mem)
        ((below ++ store.ssts ++ extra).reverse.map fun sst => sst.source) := by
  obtain rfl := files.below.below_eq_nil linked
  rw [List.nil_append]
  refine ⟨⟨fun sst member => ?_, ?_⟩, fun user snapshot above unseen => ?_⟩
  · rcases List.mem_append.mp member with run | leftover
    · exact live.within sst run
    · exact files.within sst leftover
  · refine List.pairwise_append.mpr ⟨live.layered, ?_, fun run member sst leftover =>
      files.layered sst leftover run member⟩
    -- All leftovers carry one number, so there is at most one.
    refine List.Pairwise.imp_of_mem (fun {a b} inA inB less => ?_)
      (List.pairwise_append.mp files.holds.ordered).2.1
    rw [files.only a inA, files.only b inB] at less
    exact absurd less (Nat.lt_irrefl _)
  · rw [List.reverse_append, List.map_append, firstVisible_append]
    cases seen : firstVisible (extra.reverse.map fun sst => sst.source) user snapshot with
    | none =>
      rw [Option.none_or]
      exact live.exact user snapshot above unseen
    | some op =>
      obtain ⟨source, member, found⟩ := exists_of_firstVisible seen
      obtain ⟨sst, inside, rfl⟩ := List.mem_map.mp member
      exact files.transparent sst (List.mem_reverse.mp inside) user snapshot op above unseen found

/-- The old files that are still there. -/
theorem FilesInv.below_eq_filter
    (files : FilesInv (.unlinking old minSnapshot left) store dir history floor below extra) :
    below = old.filter fun sst => sst.number ∈ left := by
  obtain ⟨-, ⟨gone, rfl⟩, rfl, ordered, -⟩ := files.below
  have kept : ∀ sst ∈ below, decide (sst.number ∈ below.reverse.map fun sst => sst.number) = true :=
    fun sst member => decide_eq_true (List.mem_map_of_mem (List.mem_reverse.mpr member))
  have dropped : ∀ sst ∈ gone,
      ¬ decide (sst.number ∈ below.reverse.map fun sst => sst.number) = true := by
    intro sst member listed
    obtain ⟨other, inside, same⟩ := List.mem_map.mp (of_decide_eq_true listed)
    have less := (List.pairwise_append.mp ordered).2.2 other (List.mem_reverse.mp inside) sst member
    exact absurd same (Nat.ne_of_lt less)
  rw [List.filter_append, List.filter_eq_self.mpr kept, List.filter_eq_nil_iff.mpr dropped,
    List.append_nil]

theorem FilesInv.unlinking
    (files : FilesInv (.unlinking old minSnapshot left) store dir history floor below extra)
    (live : StoreInv store history floor) : Stacked history (below ++ store.ssts ++ extra) := by
  obtain ⟨rfl, start, -, -, layered, within, -, run, ssts, reclaimed⟩ := files.below
  have inside : ∀ sst ∈ below, sst ∈ old := fun sst member => start.subset member
  rw [List.append_nil]
  refine ⟨fun sst member => ?_, List.pairwise_append.mpr
    ⟨layered.sublist start.sublist, live.layered, fun sst member newer same => ?_⟩⟩
  · rcases List.mem_append.mp member with early | run
    · exact within sst (inside sst early)
    · exact live.within sst run
  · rw [ssts] at same
    rw [List.mem_singleton.mp same]
    exact reclaimed.layered.mono (within_merged_stack within (inside sst member))

/-- Between two unlinks a key reads as before, from the latest commit on, unless the compaction has
dropped it and the files left show its put. -/
theorem FilesInv.unlinking_value
    (files : FilesInv (.unlinking old minSnapshot left) store dir history floor below extra)
    (live : StoreInv store history floor) (above : store.committedSeq ≤ snapshot)
    (unseen : visible (memSource store.mem) user snapshot = none) :
    value (firstVisible ((below ++ store.ssts ++ extra).reverse.map fun sst => sst.source) user
        snapshot) = value (visible (recorded (logOf history)) user snapshot) ↔
      ¬ (Dead .del (merged (old.reverse.map fun sst => sst.source)) minSnapshot user ∧
        ∃ value, firstVisible (below.reverse.map fun sst => sst.source) user store.committedSeq =
          some (.put value)) := by
  obtain ⟨rfl, start, -, -, layered, within, low, run, ssts, reclaimed⟩ := files.below
  have single : firstVisible ([run].reverse.map fun sst : Sst => sst.source) user snapshot =
      visible run.source user snapshot := by simp [firstVisible]
  have stack : firstVisible ((below ++ store.ssts ++ []).reverse.map fun sst : Sst => sst.source)
      user snapshot = (visible run.source user snapshot).or
        (firstVisible (below.reverse.map fun sst => sst.source) user snapshot) := by
    rw [List.append_nil, ssts, List.reverse_append, List.map_append, firstVisible_append, single]
  have shown : value (visible run.source user snapshot) =
      value (visible (recorded (logOf history)) user snapshot) := by
    rw [← live.exact user snapshot (live.floorLow.trans above) unseen, Store.stack, ssts, single]
  have latest : firstVisible (below.reverse.map fun sst => sst.source) user snapshot =
      firstVisible (below.reverse.map fun sst => sst.source) user store.committedSeq := by
    refine firstVisible_of_le above fun source member seq past => ?_
    obtain ⟨sst, inside, rfl⟩ := List.mem_map.mp member
    cases found : sst.source user seq with
    | none => rfl
    | some op =>
      obtain ⟨batch, listed, same, -⟩ := exists_of_recorded
        (within sst (start.subset (List.mem_reverse.mp inside)) _ _ _ found)
      obtain ⟨published, member, rfl⟩ := List.mem_map.mp listed
      exact absurd (same ▸ live.bounded published member) (Nat.not_le.mpr past)
  rw [stack, ← shown, latest]
  by_cases dead : Dead .del (merged (old.reverse.map fun sst => sst.source)) minSnapshot user
  · rw [reclaimed.visible_of_dead dead, Option.none_or]
    cases firstVisible (below.reverse.map fun sst => sst.source) user store.committedSeq with
    | none => exact iff_of_true rfl (by rintro ⟨_, _, ⟨⟩⟩)
    | some op =>
      cases op with
      | del => exact iff_of_true rfl (by rintro ⟨_, _, ⟨⟩⟩)
      | put found => exact iff_of_false (by rintro ⟨⟩) fun hidden => hidden ⟨dead, found, rfl⟩
  · have same := reclaimed.visible_of_not_dead dead (low.trans above)
    refine iff_of_true ?_ fun both => dead both.1
    cases seen : visible run.source user snapshot with
    | some op => rw [Option.some_or]
    | none =>
      rw [seen, eq_comm, visible_eq_none_iff] at same
      have empty : firstVisible (below.reverse.map fun sst => sst.source) user snapshot = none := by
        refine firstVisible_eq_none_iff.mpr fun source member => visible_eq_none_iff.mpr ?_
        obtain ⟨sst, inside, rfl⟩ := List.mem_map.mp member
        intro seq upto
        cases found : sst.source user seq with
        | none => rfl
        | some op =>
          have whole := within_merged_stack within
            (start.subset (List.mem_reverse.mp inside)) _ _ _ found
          rw [same seq upto] at whole
          cases whole
      rw [← latest, empty, Option.none_or]

end Files

/-- The runs, the log and the sequence a crash leaves to the reopen. -/
structure Crashed (codec : WalCodec) (trace : Trace) (cut : ℕ) (engine : Engine)
    (runs : List Sst) (batches : List Batch) (records : Bytes) : Prop where
  reopened : Reopened trace.engine.dir runs batches records engine
  holds : Holds trace.engine.dir runs
  logged : Logged codec batches records
  covered : ∃ before, trace.history ++ trace.survivors codec cut = before ++ batches
  committed : trace.engine.store.committedSeq ≤ engine.store.committedSeq
  bounded : ∀ batch ∈ trace.history ++ trace.survivors codec cut,
    batch.seq ≤ engine.store.committedSeq

theorem DiskInv.crashed (live : LiveInv trace)
    (wal : WalInv codec trace.engine.phase trace.engine.store trace.engine.wal trace.history earlier
      unflushed torn) {below extra : List Sst}
    (files : FilesInv trace.engine.phase trace.engine.store trace.engine.dir trace.history
      trace.floor below extra)
    (sound : trace.engine.SoundCut codec cut) (readOnly : Bool) :
    ∃ records, Crashed codec trace cut (trace.engine.crash codec cut readOnly)
      (below ++ trace.engine.store.ssts ++ extra)
      (earlier ++ unflushed ++ trace.survivors codec cut) records := by
  obtain ⟨records, tail, bytes, logged, stops⟩ := wal.crash live sound
  obtain ⟨before, split⟩ := wal.history
  have covered : trace.history ++ trace.survivors codec cut =
      before ++ (earlier ++ unflushed ++ trace.survivors codec cut) := by
    rw [split, List.append_assoc]
  have ascending : Ascending (logOf (earlier ++ unflushed ++ trace.survivors codec cut)) := by
    have whole : Ascending (logOf (trace.history ++ trace.survivors codec cut)) :=
      (survivors_spec live).1
    rw [covered, logOf_append] at whole
    exact (List.pairwise_append.mp whole).2.1
  have reopened := openEngine_reopened files.holds bytes logged stops ascending readOnly
  have committed : trace.engine.store.committedSeq ≤
      (trace.engine.crash codec cut readOnly).store.committedSeq := by
    rcases wal.top with ⟨batch, member, newest⟩ | ⟨sst, member, newest⟩ | zero
    · rw [← newest]
      exact reopened.batchesLow batch (List.mem_append_left _ (List.mem_append_right _ member))
    · rw [← newest]
      exact reopened.runsLow sst (List.mem_append_left _ (List.mem_append_right _ member))
    · rw [zero]
      exact Nat.zero_le _
  refine ⟨records, reopened, files.holds, logged, ⟨before, covered⟩, committed,
    fun batch member => ?_⟩
  rcases List.mem_append.mp member with old | survivor
  · exact (live.store.bounded batch old).trans committed
  · exact reopened.batchesLow batch (List.mem_append_right _ survivor)

theorem Crashed.store {floor : ℕ} (crashed : Crashed codec trace cut engine runs batches records)
    (live : LiveInv trace) (stacked : Stacked trace.history runs)
    (low : floor ≤ engine.store.committedSeq)
    (exact_ : Exact (trace.history ++ trace.survivors codec cut) floor (recorded (logOf batches))
      (runs.reverse.map fun sst => sst.source)) :
    StoreInv engine.store (trace.history ++ trace.survivors codec cut) floor := by
  have spec : Ascending (logOf (trace.history ++ trace.survivors codec cut)) ∧
      ∀ batch ∈ trace.survivors codec cut, Known batch.ops := survivors_spec live
  obtain ⟨before, covered⟩ := crashed.covered
  refine ⟨spec.1, crashed.bounded, fun batch member => ?_, ?_, ?_, ?_, ?_, low⟩
  · rcases List.mem_append.mp member with old | survivor
    · exact live.store.known batch old
    · exact spec.2 batch survivor
  · rw [crashed.reopened.mem]
    exact ⟨logOf before, logOf batches, by rw [covered, logOf_append], rfl⟩
  · rw [crashed.reopened.ssts]
    intro sst member user seq op found
    rw [logOf_append, recorded_append _ _ _ _ (logOf_append _ _ ▸ spec.1).apart,
      stacked.within sst member _ _ _ found, Option.some_or]
  · rw [crashed.reopened.ssts]
    exact stacked.layered
  · rw [crashed.reopened.mem, Store.stack, crashed.reopened.ssts]
    exact exact_

theorem WalInv.soundCut
    (inv : WalInv codec trace.engine.phase trace.engine.store trace.engine.wal trace.history earlier
      unflushed torn) (past : trace.engine.phase.buffers = false) (cut : ℕ) :
    trace.engine.SoundCut codec cut := by
  have drained := inv.drained.resolve_left (by rw [past]; exact Bool.false_ne_true)
  refine ⟨Engine.staysTorn_of_drained drained cut, fun seq ops logging => ?_⟩
  rw [logging] at past
  cases past

/-- The batches a reopen replays are those the invariant speaks of. -/
theorem WalInv.replayedBatches {phase : Phase} {store : Store} {wal : Wal}
    (inv : WalInv codec phase store wal history earlier unflushed torn) :
    replayedBatches codec wal.file.bytes =
      (earlier ++ unflushed ++ phase.durable).map Batch.toWal := by
  obtain ⟨records, rest, logged, bytes, split, stops⟩ := inv.records
  rw [bytes, logged.replayedBatches stops.readRecord]

/-- No record writes the key. -/
theorem silent_iff (ascending : Ascending (logOf batches))
    (past : ∀ batch ∈ batches, batch.seq ≤ snapshot) :
    (∀ batch ∈ batches.map Batch.toWal, ∀ op ∈ batch.ops, (⟨op.table, op.key⟩ : UserKey) ≠ user) ↔
      visible (recorded (logOf batches)) user snapshot = none := by
  have ops : ∀ batch : Batch,
      (∀ op ∈ batch.toWal.ops, (⟨op.table, op.key⟩ : UserKey) ≠ user) ↔ batch.ops[user]? = none := by
    intro batch
    constructor
    · intro other
      cases found : batch.ops[user]? with
      | none => rfl
      | some op =>
        have listed := ExtTreeMap.mem_toList_iff_getElem?_eq_some.mpr found
        exact absurd rfl (other _ (List.mem_map_of_mem listed))
    · intro missing op member same
      obtain ⟨⟨key, held⟩, listed, rfl⟩ := List.mem_map.mp member
      obtain rfl : key = user := same
      rw [ExtTreeMap.mem_toList_iff_getElem?_eq_some.mp listed] at missing
      cases missing
  rw [List.forall_mem_map, visible_eq_none_iff]
  simp only [ops]
  constructor
  · intro missing seq _
    cases found : recorded (logOf batches) user seq with
    | none => rfl
    | some op =>
      obtain ⟨entry, member, -, wrote⟩ := exists_of_recorded found
      obtain ⟨batch, inside, rfl⟩ := List.mem_map.mp member
      exact absurd (wrote.symm.trans (missing batch inside)) nofun
  · intro missing batch member
    have wrote := ascending.recorded_of_mem (List.mem_map_of_mem member) user
    exact wrote.symm.trans (missing batch.seq (past batch member))

end Crash

end DrStrange.Native
