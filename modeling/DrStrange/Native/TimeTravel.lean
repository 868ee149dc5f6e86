/-
**Reading as of a past commit.**

`begin_read_at` compares the snapshot with the retention window in force now. What is still in the
runs was decided by the windows in force at the compactions of the past, and a reopen forgets the
window altogether. A reader at or above every snapshot a compaction has reclaimed from, or is about
to, reads exactly the commits up to its own; below that it may be accepted and read less.
-/

import DrStrange.Native.CrashSafety

namespace DrStrange.Native

open Std Versioned

variable {engine : Engine} {snapshot : ℕ}

/-- An accepted reader is registered at its snapshot, over the same store. -/
theorem Engine.beginReadAt_ok {after : Engine} (opened : engine.beginReadAt snapshot = .ok after) :
    after = engine.register snapshot ∧ snapshot ≤ engine.store.committedSeq ∧
      retentionFloor engine.retainCommits engine.store.committedSeq ≤ snapshot := by
  unfold Engine.beginReadAt at opened
  simp only at opened
  split_ifs at opened with future old
  exact ⟨(Except.ok.inj opened).symm, Nat.not_lt.mp future, Nat.not_lt.mp old⟩

/-- A refused reader is in the future, or older than the window in force. -/
theorem Engine.beginReadAt_error {e : Error} (refused : engine.beginReadAt snapshot = .error e) :
    engine.store.committedSeq < snapshot ∨
      snapshot < retentionFloor engine.retainCommits engine.store.committedSeq := by
  unfold Engine.beginReadAt at refused
  simp only at refused
  split_ifs at refused with future old
  · exact Or.inl future
  · exact Or.inr old

/-- **Time travel is exact at and above what compactions have reclaimed.** In every run whose accepted
readers are, every open reader reads the fold of the batches up to its snapshot; and so does the next
one, or it is refused for a snapshot outside the window. -/
theorem time_travel_exact {config : Config} {trace : Trace}
    (run : Trace.Run config Trace.Smooth trace) :
    (∀ txn ∈ trace.engine.reads, Answers (txn.get trace.engine.store) (txn.range trace.engine.store)
      (stateAt trace.history txn.snapshot)) ∧
    ∀ snapshot, trace.Promised (.beginReadAt snapshot) →
      match trace.engine.beginReadAt snapshot with
      | .ok engine => ⟨snapshot⟩ ∈ engine.reads ∧
          Answers ((⟨snapshot⟩ : ReadTxn).get engine.store)
            ((⟨snapshot⟩ : ReadTxn).range engine.store)
            (stateAt trace.history snapshot)
      | .error _ => trace.engine.store.committedSeq < snapshot ∨
          snapshot < retentionFloor trace.engine.retainCommits trace.engine.store.committedSeq := by
  obtain ⟨kept, -, -⟩ := smooth_run run
  refine ⟨fun txn member => kept.live.store.reader_answers (kept.live.reads txn member).1,
    fun snapshot promised => ?_⟩
  cases opened : trace.engine.beginReadAt snapshot with
  | error e => exact Engine.beginReadAt_error opened
  | ok engine =>
    obtain ⟨rfl, -, -⟩ := Engine.beginReadAt_ok opened
    rw [Trace.Promised, opened] at promised
    have reader : (⟨snapshot⟩ : ReadTxn) ∈ (trace.engine.register snapshot).reads :=
      List.mem_append_right _ (List.mem_singleton.mpr rfl)
    exact ⟨reader, kept.live.store.reader_answers (promised rfl).1⟩

/-- Five commits under a window of two, each flushed, the first key written twice; the last flush is
followed by a compaction, and then the window is lifted. -/
def widenedWindow : List Action :=
  [.setRetention (some 2)] ++ commitOf (.put .nodes [1] [7]) ++ flushSteps ++ [.maintain] ++
    commitOf (.put .nodes [1] [8]) ++ flushSteps ++ [.maintain] ++
    commitOf (.put .nodes [2] [7]) ++ flushSteps ++ [.maintain] ++
    commitOf (.put .nodes [3] [7]) ++ flushSteps ++ [.maintain] ++
    commitOf (.put .nodes [4] [7]) ++ flushSteps ++ List.replicate 11 .maintain ++
    [.setRetention none]

def widenedWindowTrace : Trace := Trace.reached eagerConfig Trace.smooth widenedWindow

theorem widenedWindow_run : Trace.Run eagerConfig Trace.Smooth widenedWindowTrace :=
  Trace.reached_run Trace.smooth_spec (by with_unfolding_all decide)

/-- At the snapshot the compaction reclaimed from, the reader is exact. -/
theorem time_travel_exact_at_floor :
    (⟨3⟩ : ReadTxn).get widenedWindowTrace.engine.store .nodes [1] = some [8] := by
  have promised : widenedWindowTrace.Promised (.beginReadAt 3) :=
    fun _ => ⟨by decide, by decide⟩
  have exact_ := (time_travel_exact widenedWindow_run).2 3 promised
  cases opened : widenedWindowTrace.engine.beginReadAt 3 with
  | error e =>
    have accepted : (widenedWindowTrace.engine.beginReadAt 3).isOk = true := by decide
    rw [opened] at accepted
    cases accepted
  | ok engine =>
    rw [opened] at exact_
    obtain ⟨rfl, -, -⟩ := Engine.beginReadAt_ok opened
    exact (exact_.2.get .nodes [1]).trans (by decide)

/-- Below it the reader is accepted, and misses a value the first commit wrote. -/
theorem time_travel_reads_reclaimed :
    Trace.Run eagerConfig Trace.Smooth widenedWindowTrace ∧
      (widenedWindowTrace.engine.beginReadAt 1).isOk = true ∧
      (⟨1⟩ : ReadTxn).get widenedWindowTrace.engine.store .nodes [1] = none ∧
      (stateAt widenedWindowTrace.history 1).get .nodes [1] = some [7] :=
  ⟨widenedWindow_run, by decide, by decide, by decide⟩

end DrStrange.Native
