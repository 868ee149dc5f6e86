/-
**Commit and flush are crash-safe.**

In a run whose appends succeed, the log holds whole records at every step (`WalClean.step`), so a
crash may cut the record being appended at any byte, or fall between any two steps of a flush, and
may find the leftovers of flushes that failed before it. The reopened store shows the acknowledged
batches and, of the one under way, all or nothing.
-/

import DrStrange.Native.Durability

namespace DrStrange.Native

open Std Versioned

/-- The log ends with a whole record, and the next append starts there. -/
def AtBoundary (codec : WalCodec) (wal : Wal) : Prop :=
  WalClean codec wal ∧ wal.file.cursor = wal.file.bytes.length

/-- Appends succeed, no unlink fails, and a crash falls outside the unlinks of a compaction. Flushes
may fail at any step. -/
def Trace.Smooth (trace : Trace) : Action → Prop
  | .append fault => fault = none
  | .maintenanceFails | .crash _ _ => trace.engine.phase.unlinks = false
  | action => trace.Promised action

variable {codec : WalCodec} {trace : Trace}

theorem WalInv.clean {phase : Phase} {store : Store} {wal : Wal}
    {history earlier unflushed : List Batch}
    (inv : WalInv codec phase store wal history earlier unflushed []) : WalClean codec wal := by
  obtain ⟨records, rest, logged, bytes, split, -⟩ := inv.records
  obtain ⟨rfl, empty⟩ := List.append_eq_nil_iff.mp split.symm
  refine ⟨empty, earlier ++ unflushed ++ phase.durable, ?_⟩
  rw [bytes, List.append_nil]
  exact logged

section Smooth

variable {config : Config} {trace after : Trace} {action : Action}

theorem Trace.Smooth.sound (smooth : trace.Smooth action) (clean : WalClean codec trace.engine.wal) :
    trace.Sound codec action := by
  cases action with
  | append fault =>
    obtain rfl : fault = none := smooth
    exact fun _ _ _ _ _ => ⟨clean, nofun⟩
  | crash cut readOnly =>
    have linked : trace.engine.phase.unlinks = false := smooth
    refine ⟨fun back => ?_, clean.soundCut cut⟩
    unfold Resurrects at back
    cases phase : trace.engine.phase <;> simp only [phase] at back
    rw [phase] at linked
    cases linked
  | _ => exact smooth

/-- The log a crash leaves, reopened. -/
theorem Kept.crash_boundary (kept : Kept codec trace) {cut : ℕ} {readOnly : Bool}
    (sound : trace.Sound codec (.crash cut readOnly)) :
    AtBoundary codec (trace.engine.crash codec cut readOnly).wal := by
  obtain ⟨earlier, unflushed, torn, wal⟩ := kept.disk.wal
  obtain ⟨below, extra, files⟩ := kept.disk.files
  obtain ⟨records, crashed⟩ := DiskInv.crashed kept.live wal files sound.2 readOnly
  rw [crashed.reopened.wal]
  exact ⟨⟨rfl, _, crashed.logged⟩, rfl⟩

/-- The steps other than an append, a crash and those of a flush leave the log alone. -/
theorem Engine.step_wal {engine : Engine} (moved : trace.engine.step config action =
    some engine) (other : ∀ fault, action ≠ .append fault) (alive : action.isCrash = false)
    (kept : action = .maintain → trace.engine.phase.memOut = false) :
    engine.wal = trace.engine.wal := by
  have began : trace.engine.beginWriteUnchecked = some engine → engine.wal = trace.engine.wal := by
    intro moved
    rw [Engine.beginWriteUnchecked] at moved
    split at moved
    · rw [← Option.some.inj moved]
    · cases moved
  cases action with
  | beginRead | setRetention keepCommits => rw [← Option.some.inj moved]; rfl
  | beginReadAt snapshot =>
    rw [Engine.step, Engine.beginReadAt] at moved
    simp only at moved
    split_ifs at moved <;> rw [← Option.some.inj moved]
    rfl
  | dropRead index =>
    obtain ⟨txn, -, rfl⟩ := Option.map_eq_some_iff.mp moved
    rfl
  | beginWrite =>
    rw [Engine.step, Engine.beginWrite] at moved
    split_ifs at moved
    exact began moved
  | beginWriteUnchecked => exact began moved
  | call call =>
    rw [Engine.step, Engine.call] at moved
    split at moved
    · obtain ⟨txn, -, rfl⟩ := Option.map_eq_some_iff.mp moved
      rfl
    · cases moved
  | dropWrite | commit floor | publish =>
    simp only [Engine.step, Engine.dropWrite, Engine.commit, Engine.publish] at moved
    split at moved
    · rw [← Option.some.inj moved]
    · cases moved
  | applyReplicated batch =>
    rw [Engine.step, Engine.applyReplicated] at moved
    split at moved
    · split_ifs at moved <;> rw [← Option.some.inj moved] <;> rfl
    · cases moved
  | append fault => exact absurd rfl (other fault)
  | maintain =>
    rw [Engine.step] at moved
    unfold Engine.maintain at moved
    have silent := kept rfl
    cases phase : trace.engine.phase <;> rw [phase] at silent <;>
      simp only [phase, reduceCtorEq] at moved
    case flushing | compacting =>
      split_ifs at moved <;> rw [← Option.some.inj moved]
    case flushTemp | flushRenamed | mergedTemp | mergedRenamed =>
      obtain ⟨found, -, rfl⟩ := Option.map_eq_some_iff.mp moved
      rfl
    case unlinking old minSnapshot left =>
      cases left <;> rw [← Option.some.inj moved]
    case flushSwapped | walCut => cases silent
    all_goals rw [← Option.some.inj moved]
  | maintenanceFails =>
    rw [Engine.step] at moved
    unfold Engine.maintenanceFails at moved
    cases phase : trace.engine.phase <;> simp only [phase, reduceCtorEq] at moved
    case flushing =>
      split_ifs at moved
      rw [← Option.some.inj moved]
    all_goals rw [← Option.some.inj moved]
  | crash cut readOnly => cases alive

/-- **The log stays clean** as long as appends succeed. -/
theorem WalClean.step (clean : WalClean config.codec trace.engine.wal)
    (kept : Kept config.codec trace) {action : Action} (smooth : trace.Smooth action)
    (stepped : trace.step config action = some after) :
    WalClean config.codec after.engine.wal := by
  obtain ⟨engine, moved, rfl⟩ := Option.map_eq_some_iff.mp stepped
  have follows : (trace.follow config.codec action engine).engine = engine := by
    cases action <;> rfl
  rw [follows]
  obtain ⟨earlier, unflushed, torn, wal⟩ := kept.disk.wal
  have whole := wal.torn_eq_nil clean
  by_cases appends : ∃ fault, action = .append fault
  · obtain ⟨fault, rfl⟩ := appends
    obtain rfl : fault = none := smooth
    rw [Engine.step, Engine.append] at moved
    split at moved
    · rename_i seq ops phase
      rw [phase] at wal
      cases made : walRecord config.codec (Batch.toWal ⟨seq, ops⟩) <;> rw [made] at moved <;>
        rw [← Option.some.inj moved]
      · exact clean
      · exact (wal.append whole made).clean
    · cases moved
  by_cases crashes : action.isCrash = true
  · cases action with
    | crash cut readOnly =>
      obtain rfl := Option.some.inj moved
      exact (kept.crash_boundary (smooth.sound clean)).1
    | _ => cases crashes
  by_cases out : action = .maintain ∧ trace.engine.phase.memOut = true
  · obtain ⟨rfl, cutting⟩ := out
    rw [Engine.step] at moved
    unfold Engine.maintain at moved
    cases phase : trace.engine.phase <;> rw [phase] at cutting wal <;> first
      | (cases cutting; done)
      | (simp only [phase] at moved; rw [← Option.some.inj moved])
    · exact wal.cutLog.clean
    · rw [whole] at wal
      exact wal.seek.clean
  · rw [Engine.step_wal moved (fun fault same => appends ⟨fault, same⟩)
      (Bool.eq_false_iff.mpr crashes)
      fun maintains => Bool.eq_false_iff.mpr fun cutting => out ⟨maintains, cutting⟩]
    exact clean

/-- What a smooth run keeps. -/
theorem smooth_run (run : Trace.Run config Trace.Smooth trace) :
    Kept config.codec trace ∧ WalClean config.codec trace.engine.wal ∧ AckInv trace := by
  obtain ⟨readOnly, moves⟩ := run
  induction moves with
  | refl => exact ⟨Kept.fresh config.codec readOnly, ⟨rfl, [], rfl⟩, ⟨rfl, rfl⟩⟩
  | tail _ move ih =>
    obtain ⟨action, smooth, stepped⟩ := move
    obtain ⟨kept, clean, acked⟩ := ih
    exact ⟨kept.step (smooth.sound clean) stepped, clean.step kept smooth stepped,
      acked.step kept.live stepped⟩

end Smooth

/-- What a reader opened now answers. -/
def Engine.Shows (engine : Engine) (map : KvMap) : Prop :=
  Answers ((⟨engine.store.committedSeq⟩ : ReadTxn).get engine.store)
    ((⟨engine.store.committedSeq⟩ : ReadTxn).range engine.store) map

theorem LiveInv.shows_fold (live : LiveInv trace) : trace.engine.Shows (foldAll trace.history) := by
  rw [← stateAt_of_forall_le live.store.bounded]
  exact live.store.reader_answers live.store.floorLow

/-- The history is the acknowledged batches, with or without the one under way. -/
theorem AckInv.history_cases (acked : AckInv trace) :
    trace.history = trace.acked ∨ trace.history = trace.acked ++ trace.flight.toList := by
  unfold AckInv at acked
  split at acked
  · exact Or.inl acked.1.symm
  · exact Or.inl acked.1.symm
  · exact Or.inl acked.symm
  · exact Or.inl acked.symm
  · exact Or.inr acked.1

/-- Only an append or a publish that is still to come adds the batch under way. -/
theorem AckInv.recovered_cases (acked : AckInv trace) (codec : WalCodec) (cut : ℕ) :
    trace.history ++ trace.survivors codec cut = trace.acked ∨
      trace.history ++ trace.survivors codec cut = trace.acked ++ trace.flight.toList := by
  by_cases survives : trace.survives codec cut = true
  · have logs : trace.acked = trace.history := by
      unfold AckInv at acked
      unfold Trace.survives at survives
      cases phase : trace.engine.phase <;> simp only [phase] at acked survives <;>
        first | exact acked | cases survives
    rw [Trace.survivors, if_pos survives, logs]
    exact Or.inr rfl
  · rw [Trace.survivors, if_neg survives, List.append_nil]
    exact acked.history_cases

/-- **Commit and flush are crash-safe.** In every state of a run whose appends succeed, the store
shows the acknowledged batches, with or without the one under way. After a crash outside the unlinks
of a compaction the reopened store does so too, no batch twice, and the log ends at a record
boundary. -/
theorem crash_keeps_acknowledged {config : Config} {trace after : Trace}
    (run : Trace.Run config Trace.Smooth trace) {cut : ℕ} {readOnly : Bool}
    (outside : trace.engine.phase.unlinks = false)
    (crashed : trace.step config (.crash cut readOnly) = some after) :
    (∃ live ∈ [trace.acked, trace.acked ++ trace.flight.toList], trace.engine.Shows (foldAll live)) ∧
    (∃ recovered ∈ [trace.acked, trace.acked ++ trace.flight.toList],
      after.engine.Shows (foldAll recovered) ∧ (recovered.map Batch.seq).Pairwise (· < ·)) ∧
    AtBoundary config.codec after.engine.wal := by
  obtain ⟨kept, clean, acked⟩ := smooth_run run
  have smooth : trace.Smooth (.crash cut readOnly) := outside
  have sound := smooth.sound clean
  have reopened := kept.step sound crashed
  obtain rfl := Option.some.inj crashed
  refine ⟨⟨trace.history, ?_, kept.live.shows_fold⟩,
    ⟨trace.history ++ trace.survivors config.codec cut, ?_, reopened.live.shows_fold, ?_⟩,
    kept.crash_boundary sound⟩
  · rcases acked.history_cases with same | same <;> rw [same] <;> simp
  · rcases acked.recovered_cases config.codec cut with same | same <;> rw [same] <;> simp
  · have ascending := reopened.live.store.ascending
    rw [Ascending, logOf, List.pairwise_map] at ascending
    rw [List.pairwise_map]
    exact ascending

def Trace.smooth (trace : Trace) : Action → Bool
  | .append fault => fault.isNone
  | .maintenanceFails | .crash _ _ => !trace.engine.phase.unlinks
  | .beginReadAt _ => false
  | _ => true

theorem Trace.smooth_spec (trace : Trace) (action : Action) (passed : trace.smooth action = true) :
    trace.Smooth action := by
  cases action with
  | append fault => exact Option.isNone_iff_eq_none.mp passed
  | maintenanceFails => exact Bool.not_inj passed
  | crash cut readOnly => exact Bool.not_inj passed
  | beginReadAt snapshot => cases passed
  | _ => trivial

/-- A flush fails once its run is renamed in, and the next commit is about to append. -/
def failedFlush : List Action :=
  commitOf (.put .nodes [1] [7]) ++ [.maintain, .maintain, .maintenanceFails] ++
    [.beginWrite, .call (.put .nodes [2] [9]), .commit 0]

def failedFlushTrace : Trace := Trace.reached eagerConfig Trace.smooth failedFlush

/-- The record is cut after five bytes. -/
theorem crash_keeps_acknowledged_torn :
    ∃ recovered ∈ [failedFlushTrace.acked, failedFlushTrace.acked ++ failedFlushTrace.flight.toList],
      ((Engine.crash postcardCodec failedFlushTrace.engine 5 false).Shows (foldAll recovered) ∧
        (recovered.map Batch.seq).Pairwise (· < ·)) := by
  have run : Trace.Run eagerConfig Trace.Smooth failedFlushTrace :=
    Trace.reached_run Trace.smooth_spec (by decide)
  have crashed : failedFlushTrace.step eagerConfig (.crash 5 false) = some
      (failedFlushTrace.follow postcardCodec (.crash 5 false)
        (failedFlushTrace.engine.crash postcardCodec 5 false)) := rfl
  exact (crash_keeps_acknowledged run (by decide) crashed).2.1

end DrStrange.Native
