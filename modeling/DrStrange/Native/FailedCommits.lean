/-
**What a failed commit leaves behind.**

After an error the engine neither rewinds the log nor empties the buffer, and the next commit takes
the same sequence. As long as a failed append fails before the sync, nothing is appended behind what
it left, and no more of the buffer reaches the file than leaves its record torn, a reopen shows
exactly the acknowledged batches.

The conditions matter. A record that is whole in the file when the sync fails comes back on the next
open, and one that the buffer still holds comes back with the next commit.
-/

import DrStrange.Native.CrashSafety

namespace DrStrange.Native

open Std Versioned

/-- Appends start on a record boundary and fail before the sync if they fail. The store is reopened
between commits, and what the buffer gets to the file then completes no record. -/
def Trace.Contained (codec : WalCodec) (trace : Trace) : Action → Prop
  | .append fault => trace.engine.SoundAppend codec fault
  | .maintenanceFails => trace.engine.phase.unlinks = false
  | .crash cut _ => trace.engine.phase = .idle ∧ trace.engine.StaysTorn codec cut
  | action => trace.Promised action

/-- Any append may fail, at any byte. -/
def Trace.Faulty (trace : Trace) : Action → Prop
  | .append _ => True
  | .maintenanceFails => trace.engine.phase.unlinks = false
  | .crash _ _ => trace.engine.phase = .idle
  | action => trace.Promised action

section Contained

variable {config : Config} {codec : WalCodec} {trace after : Trace}

theorem Trace.Contained.sound {action : Action} (contained : trace.Contained codec action) :
    trace.Sound codec action := by
  cases action with
  | crash cut readOnly =>
    obtain ⟨idle, stays⟩ := contained
    refine ⟨fun back => ?_, stays, fun seq ops logging => ?_⟩
    · unfold Resurrects at back
      rw [idle] at back
      exact back
    · rw [idle] at logging
      cases logging
  | _ => exact contained

theorem contained_run (run : Trace.Run config (Trace.Contained config.codec) trace) :
    Kept config.codec trace ∧ AckInv trace := by
  obtain ⟨readOnly, moves⟩ := run
  induction moves with
  | refl => exact ⟨Kept.fresh config.codec readOnly, rfl, rfl⟩
  | tail _ move ih =>
    obtain ⟨action, contained, stepped⟩ := move
    exact ⟨ih.1.step contained.sound stepped, ih.2.step ih.1.live stepped⟩

/-- Between commits nothing is under way, so nothing but the acknowledged batches survives. -/
theorem AckInv.recovered_of_idle (acked : AckInv trace) (idle : trace.engine.phase = .idle)
    (codec : WalCodec) (cut : ℕ) :
    trace.history ++ trace.survivors codec cut = trace.acked := by
  rw [AckInv, idle] at acked
  rw [Trace.survivors, acked.2, acked.1]
  split_ifs <;> exact List.append_nil _

/-- **A reopen after contained failures shows exactly the acknowledged batches.** -/
theorem reopen_shows_acknowledged (run : Trace.Run config (Trace.Contained config.codec) trace)
    (idle : trace.engine.phase = .idle) {cut : ℕ} (stays : trace.engine.StaysTorn config.codec cut)
    {readOnly : Bool} (reopened : trace.step config (.crash cut readOnly) = some after) :
    after.engine.Shows (foldAll trace.acked) := by
  obtain ⟨kept, acked⟩ := contained_run run
  have contained : trace.Contained config.codec (.crash cut readOnly) := ⟨idle, stays⟩
  have live := (kept.step contained.sound reopened).live
  obtain rfl := Option.some.inj reopened
  rw [← acked.recovered_of_idle idle config.codec cut]
  exact live.shows_fold

end Contained

instance (codec : WalCodec) (engine : Engine) (cut : ℕ) : Decidable (engine.StaysTorn codec cut) :=
  inferInstanceAs (Decidable (_ = _))

/-- Enough to see that a step is contained: the log is empty when an append starts. -/
def Trace.contained (codec : WalCodec) (trace : Trace) : Action → Bool
  | .append fault => trace.engine.wal.buf.isEmpty && trace.engine.wal.file.bytes.isEmpty &&
      fault.all fun failed => failed.accepted < (trace.engine.pendingRecord codec).length
  | .maintenanceFails => !trace.engine.phase.unlinks
  | .crash cut _ => trace.engine.phase.isIdle && decide (trace.engine.StaysTorn codec cut)
  | .beginReadAt _ => false
  | _ => true

theorem Phase.eq_idle_of_isIdle {phase : Phase} (idle : phase.isIdle = true) : phase = .idle := by
  cases phase <;> first | rfl | cases idle

theorem Trace.contained_spec (codec : WalCodec) (trace : Trace) (action : Action)
    (passed : trace.contained codec action = true) : trace.Contained codec action := by
  cases action with
  | append fault =>
    rw [Trace.contained, Bool.and_eq_true, Bool.and_eq_true, List.isEmpty_iff, List.isEmpty_iff]
      at passed
    obtain ⟨⟨buffer, empty⟩, short⟩ := passed
    intro seq ops record phase made
    refine ⟨⟨buffer, [], empty⟩, fun failed same => ?_⟩
    have pending : trace.engine.pendingRecord codec = record := by
      rw [Engine.pendingRecord, phase]
      simp only [made]
      rfl
    rw [same, pending] at short
    exact of_decide_eq_true short
  | maintenanceFails => exact Bool.not_inj passed
  | crash cut readOnly =>
    rw [Trace.contained, Bool.and_eq_true] at passed
    exact ⟨Phase.eq_idle_of_isIdle passed.1, of_decide_eq_true passed.2⟩
  | beginReadAt snapshot => cases passed
  | _ => trivial

/-- A transaction with one put, up to its append. -/
def stagedPut (key value : Bytes) : List Action :=
  [.beginWrite, .call (.put .nodes key value), .commit 0]

/-- The flush of a record of 16 bytes fails after five. -/
def failedPut (key value : Bytes) : List Action := stagedPut key value ++ [.append (some ⟨5⟩)]

/-- The store is reopened with three bytes more in its log, and the next commit goes through. -/
def tornThenReopened : List Action :=
  failedPut [1] [7] ++ [.crash 3 false] ++ commitOf (.put .nodes [2] [9]) ++ flushSteps ++ [.maintain]

def tornThenReopenedTrace : Trace :=
  Trace.reached eagerConfig (Trace.contained postcardCodec) tornThenReopened

theorem reopen_shows_acknowledged_torn :
    (⟨1⟩ : ReadTxn).get (tornThenReopenedTrace.engine.crash postcardCodec 0 false).store .nodes [2] =
      some [9] ∧
    (⟨1⟩ : ReadTxn).get (tornThenReopenedTrace.engine.crash postcardCodec 0 false).store .nodes [1] =
      none := by
  have run : Trace.Run eagerConfig (Trace.Contained postcardCodec) tornThenReopenedTrace :=
    Trace.reached_run (Trace.contained_spec postcardCodec) (by decide +kernel)
  have idle : tornThenReopenedTrace.engine.phase = .idle :=
    Phase.eq_idle_of_isIdle (by decide +kernel)
  have stays : tornThenReopenedTrace.engine.StaysTorn postcardCodec 0 := by decide +kernel
  have reopened : tornThenReopenedTrace.step eagerConfig (.crash 0 false) = some
      (tornThenReopenedTrace.follow postcardCodec (.crash 0 false)
        (tornThenReopenedTrace.engine.crash postcardCodec 0 false)) := rfl
  have answers := (reopen_shows_acknowledged run idle stays reopened).get
  have committed :
      (tornThenReopenedTrace.engine.crash postcardCodec 0 false).store.committedSeq = 1 := by
    decide +kernel
  constructor
  · rw [← committed]
    exact (answers .nodes [2]).trans (by decide +kernel)
  · rw [← committed]
    exact (answers .nodes [1]).trans (by decide +kernel)

/-! ### Failures that are not contained -/

/-- Nothing is flushed. -/
def lazyConfig : Config := ⟨postcardCodec, 1000⟩

def Trace.faulty (trace : Trace) : Action → Bool
  | .maintenanceFails => !trace.engine.phase.unlinks
  | .crash _ _ => trace.engine.phase.isIdle
  | .beginReadAt _ => false
  | _ => true

theorem Trace.faulty_spec (trace : Trace) (action : Action) (passed : trace.faulty action = true) :
    trace.Faulty action := by
  cases action with
  | maintenanceFails => exact Bool.not_inj passed
  | crash cut readOnly => exact Phase.eq_idle_of_isIdle passed
  | beginReadAt snapshot => cases passed
  | _ => trivial

/-- The whole record is in the file when the sync fails. -/
def failedSync : Trace :=
  Trace.reached lazyConfig Trace.faulty (stagedPut [1] [7] ++ [.append (some ⟨16⟩)])

/-- The next commit takes the rest of the failed record along. -/
def commitBehindFailed : Trace :=
  Trace.reached lazyConfig Trace.faulty
    (failedPut [1] [7] ++ commitOf (.put .nodes [2] [9]) ++ [.maintain, .maintain])

/-- **A batch whose commit failed is back**, with nothing done since and behind the next commit. -/
theorem reopen_shows_failed :
    (Trace.Run lazyConfig Trace.Faulty failedSync ∧ failedSync.engine.phase = .idle ∧
      ¬ (failedSync.engine.crash postcardCodec 0 false).Shows (foldAll failedSync.acked)) ∧
    Trace.Run lazyConfig Trace.Faulty commitBehindFailed ∧ commitBehindFailed.engine.phase = .idle ∧
      ¬ (commitBehindFailed.engine.crash postcardCodec 0 false).Shows
        (foldAll commitBehindFailed.acked) := by
  refine ⟨⟨Trace.reached_run Trace.faulty_spec (by decide +kernel),
    Phase.eq_idle_of_isIdle (by decide +kernel), fun shows_ => ?_⟩,
    Trace.reached_run Trace.faulty_spec (by decide +kernel),
    Phase.eq_idle_of_isIdle (by decide +kernel), fun shows_ => ?_⟩ <;>
  · have back := shows_.get .nodes [1]
    revert back
    decide +kernel

end DrStrange.Native
