/-
**Runs with reopens.**

`Kept` is everything a run of sound steps keeps: the live store shows its history, and the directory
holds what a reopen needs. A crash is a step like any other here (`Kept.crash`), so the runs of this
module go on after it.
-/

import DrStrange.Native.Recovery

namespace DrStrange.Native

open Std Versioned

/-- What every sound step keeps. -/
structure Kept (codec : WalCodec) (trace : Trace) : Prop where
  live : LiveInv trace
  disk : DiskInv codec trace

section Steps

variable {config : Config} {codec : WalCodec} {trace after : Trace} {cut : ℕ}

/-- A reopened engine has no readers, and nobody holds its gate. -/
theorem LiveInv.reopened {engine : Engine} {history : List Batch} {floor : ℕ}
    (store : StoreInv engine.store history floor)
    (idle : engine.phase = .idle ∧ engine.readers = ∅ ∧ engine.reads = []) :
    LiveInv ⟨engine, history, history, none, [], floor⟩ := by
  obtain ⟨phase, readers, reads⟩ := idle
  refine ⟨store, fun snapshot => ?_, ?_, ?_, ?_⟩
  · show engine.readers.getD snapshot 0 = (engine.reads.map ReadTxn.snapshot).count snapshot
    rw [readers, reads]
    simp
  · show ∀ txn ∈ engine.reads, _
    rw [reads]
    nofun
  · show engine.phase.pendingFloor ≤ _
    rw [phase]
    exact Nat.zero_le _
  · unfold PhaseInv
    simp only [phase]

theorem Phase.exists_of_unlinks {phase : Phase} (unlinks : phase.unlinks = true) :
    ∃ old minSnapshot left, phase = .unlinking old minSnapshot left := by
  cases phase <;> first | exact ⟨_, _, _, rfl⟩ | cases unlinks

theorem Trace.crashFloor_linked (linked : trace.engine.phase.unlinks = false) (reopened : Engine) :
    trace.crashFloor reopened = trace.floor := by
  unfold Trace.crashFloor
  cases phase : trace.engine.phase <;> first | rfl | (rw [phase] at linked; cases linked)

section Shown

variable {earlier unflushed : List Batch} {torn : Bytes} {below extra : List Sst}
  (live : LiveInv trace)
  (wal : WalInv codec trace.engine.phase trace.engine.store trace.engine.wal trace.history earlier
    unflushed torn)
  (files : FilesInv trace.engine.phase trace.engine.store trace.engine.dir trace.history trace.floor
    below extra)

include live wal files

/-- Outside the unlinks the directory shows the history from the floor on. -/
theorem exact_of_linked (linked : trace.engine.phase.unlinks = false) :
    Exact (trace.history ++ trace.survivors codec cut) trace.floor
      (recorded (logOf (earlier ++ unflushed ++ trace.survivors codec cut)))
      ((below ++ trace.engine.store.ssts ++ extra).reverse.map fun sst => sst.source) := by
  obtain ⟨before, split⟩ := wal.history
  intro user snapshot above unseen
  obtain ⟨memory, history⟩ := unseen_of_replayed split (survivors_spec live).1 unseen
  rw [history]
  refine (files.linked live.store linked).2 user snapshot above ?_
  rw [wal.mem]
  exact memory

/-- Between two unlinks it shows the history from the latest commit on, unless a key comes back. -/
theorem exact_of_unlinking (unlinks : trace.engine.phase.unlinks = true)
    (sound : ¬ Resurrects codec trace.engine) {committed : ℕ}
    (low : trace.engine.store.committedSeq ≤ committed) :
    Exact (trace.history ++ trace.survivors codec cut) committed
      (recorded (logOf (earlier ++ unflushed ++ trace.survivors codec cut)))
      ((below ++ trace.engine.store.ssts ++ extra).reverse.map fun sst => sst.source) := by
  obtain ⟨before, split⟩ := wal.history
  obtain ⟨old, minSnapshot, left, phase⟩ := Phase.exists_of_unlinks unlinks
  have gone : trace.survivors codec cut = [] := by
    refine (crash_quiet live fun seq ops logging => ?_).2.trans (by rw [phase]; rfl)
    rw [phase] at logging
    cases logging
  have replayed := wal.replayedBatches
  rw [phase] at files replayed
  intro user snapshot above unseen
  obtain ⟨memory, history⟩ := unseen_of_replayed split (survivors_spec live).1 unseen
  have late : ∀ batch ∈ earlier ++ unflushed, batch.seq ≤ snapshot := by
    intro batch member
    refine (live.store.bounded batch ?_).trans (low.trans above)
    rw [split]
    exact List.mem_append_right _ member
  have ascending : Ascending (logOf (earlier ++ unflushed)) := by
    have stretch := live.store.ascending
    rw [split, logOf_append] at stretch
    exact (List.pairwise_append.mp stretch).2.1
  rw [history]
  refine (files.unlinking_value live.store (low.trans above)
    (by rw [wal.mem]; exact memory)).mpr fun ⟨dead, value, shows_⟩ => sound ?_
  rw [gone, List.append_nil] at unseen
  unfold Resurrects
  rw [phase]
  refine ⟨user, value, ?_, dead, ?_⟩
  · rw [replayed, show (Phase.unlinking old minSnapshot left).durable = [] from rfl, List.append_nil]
    exact (silent_iff ascending late).mpr unseen
  · rw [← files.below_eq_filter]
    exact shows_

end Shown

/-- **A crash keeps the invariant**: the reopened store shows the published batches and, of the
commit under way, all or nothing. -/
theorem Kept.crash (kept : Kept codec trace) {readOnly : Bool}
    (sound : trace.Sound codec (.crash cut readOnly)) :
    Kept codec (trace.follow codec (.crash cut readOnly)
      (trace.engine.crash codec cut readOnly)) := by
  obtain ⟨live, disk⟩ := kept
  obtain ⟨earlier, unflushed, torn, wal⟩ := disk.wal
  obtain ⟨below, extra, files⟩ := disk.files
  obtain ⟨records, crashed⟩ := DiskInv.crashed live wal files sound.2 readOnly
  obtain ⟨before, covered⟩ := crashed.covered
  have store : StoreInv (trace.engine.crash codec cut readOnly).store
      (trace.history ++ trace.survivors codec cut)
      (trace.crashFloor (trace.engine.crash codec cut readOnly)) := by
    cases unlinks : trace.engine.phase.unlinks with
    | false =>
      rw [Trace.crashFloor_linked unlinks]
      exact crashed.store live (files.linked live.store unlinks).1
        (live.store.floorLow.trans crashed.committed) (exact_of_linked live wal files unlinks)
    | true =>
      obtain ⟨old, minSnapshot, left, phase⟩ := Phase.exists_of_unlinks unlinks
      have stacked : Stacked trace.history (below ++ trace.engine.store.ssts ++ extra) :=
        FilesInv.unlinking (phase ▸ files) live.store
      rw [Trace.crashFloor, phase]
      exact crashed.store live stacked le_rfl
        (exact_of_unlinking live wal files unlinks sound.1 crashed.committed)
  exact ⟨LiveInv.reopened store crashed.reopened.idle,
    crashed.reopened.disk crashed.holds crashed.logged covered _⟩

/-- **One sound step.** -/
theorem Kept.step (kept : Kept config.codec trace) {action : Action}
    (sound : trace.Sound config.codec action) (stepped : trace.step config action = some after) :
    Kept config.codec after := by
  cases alive : action.isCrash with
  | false =>
    exact ⟨kept.live.step alive sound.promised stepped, kept.disk.step kept.live alive sound stepped⟩
  | true =>
    cases action with
    | crash cut readOnly =>
      obtain rfl := Option.some.inj stepped
      exact kept.crash sound
    | _ => cases alive

theorem Kept.fresh (codec : WalCodec) (readOnly : Bool) :
    Kept codec (Trace.fresh codec readOnly) := by
  have holds : Holds ⟨∅, ∅⟩ [] := ⟨List.Pairwise.nil, fun number run => by simp⟩
  have logged : Logged codec [] [] := rfl
  have reopened : Reopened ⟨∅, ∅⟩ [] [] [] (Engine.fresh codec readOnly) :=
    openEngine_reopened holds (List.append_nil []).symm logged (Or.inl rfl) List.Pairwise.nil readOnly
  exact ⟨LiveInv.fresh codec readOnly, reopened.disk holds logged (List.append_nil []).symm 0⟩

/-- **Runs of sound steps.** -/
theorem Kept.run {allowed : Trace → Action → Prop}
    (sound : ∀ trace action, allowed trace action → trace.Sound config.codec action)
    (run : Trace.Run config allowed trace) : Kept config.codec trace := by
  obtain ⟨readOnly, moves⟩ := run
  induction moves with
  | refl => exact Kept.fresh config.codec readOnly
  | tail _ move ih =>
    obtain ⟨action, permitted, stepped⟩ := move
    exact ih.step (sound _ action permitted) stepped

end Steps

/-! ### Which commits have returned -/

/-- Outside a commit everything published has been acknowledged. From the publish on, the commit under
way is the last of the history. -/
def AckInv (trace : Trace) : Prop :=
  match trace.engine.phase with
  | .idle | .writing _ => trace.acked = trace.history ∧ trace.flight = none
  | .logging .. | .logged .. => trace.acked = trace.history
  | _ => trace.history = trace.acked ++ trace.flight.toList ∧ trace.flight.isSome

theorem AckInv.step {config : Config} {trace after : Trace} (inv : AckInv trace)
    (live : LiveInv trace) {action : Action} (stepped : trace.step config action = some after) :
    AckInv after := by
  obtain ⟨engine, moved, rfl⟩ := Option.map_eq_some_iff.mp stepped
  have began : trace.engine.beginWriteUnchecked = some engine →
      AckInv { trace with engine, calls := [] } := by
    intro moved
    rw [Engine.beginWriteUnchecked] at moved
    cases phase : trace.engine.phase <;> simp only [phase, reduceCtorEq] at moved
    obtain rfl := Option.some.inj moved
    rw [AckInv, phase] at inv
    exact inv
  cases action with
  | beginRead =>
    obtain rfl := Option.some.inj moved
    exact inv
  | beginReadAt snapshot =>
    rw [Engine.step] at moved
    have phase : engine.phase = trace.engine.phase := by
      unfold Engine.beginReadAt at moved
      simp only at moved
      split_ifs at moved <;> obtain rfl := Option.some.inj moved <;> rfl
    unfold AckInv
    simp only [Trace.follow, phase]
    exact inv
  | dropRead index =>
    obtain ⟨txn, -, rfl⟩ := Option.map_eq_some_iff.mp moved
    exact inv
  | setRetention keepCommits =>
    obtain rfl := Option.some.inj moved
    exact inv
  | beginWrite =>
    rw [Engine.step, Engine.beginWrite] at moved
    split_ifs at moved
    exact began moved
  | beginWriteUnchecked => exact began moved
  | call call =>
    rw [Engine.step, Engine.call] at moved
    cases phase : trace.engine.phase <;> simp only [phase, reduceCtorEq] at moved
    obtain ⟨txn, -, rfl⟩ := Option.map_eq_some_iff.mp moved
    rw [AckInv, phase] at inv
    exact inv
  | dropWrite =>
    rw [Engine.step, Engine.dropWrite] at moved
    cases phase : trace.engine.phase <;> simp only [phase, reduceCtorEq] at moved
    obtain rfl := Option.some.inj moved
    rw [AckInv, phase] at inv
    exact inv
  | commit floor =>
    rw [Engine.step, Engine.commit] at moved
    cases phase : trace.engine.phase <;> simp only [phase, reduceCtorEq] at moved
    rw [AckInv, phase] at inv
    obtain rfl := Option.some.inj moved
    unfold AckInv Trace.follow
    cases staged : (WriteTxn.buf _).isEmpty
    · exact inv.1
    · exact ⟨inv.1, rfl⟩
  | applyReplicated batch =>
    rw [Engine.step, Engine.applyReplicated] at moved
    cases phase : trace.engine.phase <;>
      simp only [phase, Option.map_none, reduceCtorEq] at moved
    rw [AckInv, phase] at inv
    have still : AckInv { trace with flight := trace.engine.phase.batch? } := by
      rw [AckInv, phase]
      exact ⟨inv.1, rfl⟩
    split_ifs at moved <;> obtain rfl := Option.some.inj moved
    · exact still
    · exact still
    · exact inv.1
  | append fault =>
    rw [Engine.step, Engine.append] at moved
    cases phase : trace.engine.phase <;> simp only [phase, reduceCtorEq] at moved
    rw [AckInv, phase] at inv
    split at moved <;> obtain rfl := Option.some.inj moved
    · exact ⟨inv, rfl⟩
    · exact inv
    · exact ⟨inv, rfl⟩
  | publish =>
    rw [Engine.step, Engine.publish] at moved
    have held := live.phase
    cases phase : trace.engine.phase <;> simp only [phase, reduceCtorEq] at moved
    rw [AckInv, phase] at inv
    rw [PhaseInv, phase] at held
    obtain rfl := Option.some.inj moved
    refine ⟨by rw [Trace.follow, inv], ?_⟩
    show trace.flight.isSome
    rw [held.2.2]
    rfl
  | maintain =>
    rw [Engine.step] at moved
    unfold Engine.maintain at moved
    rw [AckInv] at inv
    cases phase : trace.engine.phase <;> simp only [phase, reduceCtorEq] at moved inv
    case flushing | compacting =>
      split_ifs at moved <;> obtain rfl := Option.some.inj moved <;>
        first | exact inv | exact ⟨rfl, rfl⟩
    case flushTemp | flushRenamed | mergedTemp | mergedRenamed =>
      obtain ⟨found, -, rfl⟩ := Option.map_eq_some_iff.mp moved
      exact inv
    case unlinking old minSnapshot left =>
      cases left <;> obtain rfl := Option.some.inj moved
      · exact ⟨rfl, rfl⟩
      · exact inv
    all_goals
      obtain rfl := Option.some.inj moved
      exact inv
  | maintenanceFails =>
    have idle : engine.phase = .idle := by
      rw [Engine.step] at moved
      unfold Engine.maintenanceFails at moved
      cases phase : trace.engine.phase <;> simp only [phase, reduceCtorEq] at moved
      case flushing =>
        split_ifs at moved
        rw [← Option.some.inj moved]
      all_goals rw [← Option.some.inj moved]
    unfold AckInv
    simp only [Trace.follow, idle]
    exact ⟨trivial, trivial⟩
  | crash cut readOnly =>
    obtain rfl := Option.some.inj moved
    exact ⟨rfl, rfl⟩

end DrStrange.Native
