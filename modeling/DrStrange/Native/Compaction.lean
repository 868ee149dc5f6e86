/-
**A crash inside a compaction.**

The merged run drops a key together with its tombstone while the old runs are still on disk, and the
unlinks go from the newest run to the oldest. So a crash between two of them can find the put of a
dropped key without the tombstone that hid it. Everywhere else in `maybe_compact`, and for every
other key, the reopened store reads as it did when the compaction began: `compaction_crash_iff` says
when exactly.
-/

import DrStrange.Native.CrashSafety

namespace DrStrange.Native

open Std Versioned

def Phase.inCompaction : Phase → Bool
  | .compacting | .captured .. | .floored .. | .mergedTemp .. | .mergedRenamed .. | .unlinking .. =>
    true
  | _ => false

/-- What happens inside `maybe_compact`: its own steps, and readers and retention changes beside it.
-/
def Trace.Inside (trace : Trace) : Action → Prop
  | .maintain => trace.engine.phase.inCompaction = true
  | .beginRead | .dropRead _ | .setRetention _ => True
  | .beginReadAt snapshot => trace.Promised (.beginReadAt snapshot)
  | _ => False

/-- A reader opened now answers as one opened before. -/
structure SameReads (before after : Engine) : Prop where
  committedSeq : after.store.committedSeq = before.store.committedSeq
  get : ∀ table key, (⟨after.store.committedSeq⟩ : ReadTxn).get after.store table key =
    (⟨before.store.committedSeq⟩ : ReadTxn).get before.store table key
  range : ∀ table start stop, rangeValid start stop = true →
    (⟨after.store.committedSeq⟩ : ReadTxn).range after.store table start stop =
      (⟨before.store.committedSeq⟩ : ReadTxn).range before.store table start stop

section Inside

variable {config : Config} {start trace after : Trace} {codec : WalCodec} {action : Action}

theorem Trace.Inside.sound (inside : trace.Inside action) : trace.Sound codec action := by
  cases action <;> first | exact inside | trivial

/-- A compaction publishes nothing. -/
theorem Trace.Inside.frame (inside : trace.Inside action)
    (stepped : trace.step config action = some after) :
    after.history = trace.history ∧
      after.engine.store.committedSeq = trace.engine.store.committedSeq := by
  obtain ⟨engine, moved, rfl⟩ := Option.map_eq_some_iff.mp stepped
  cases action with
  | beginRead | setRetention keepCommits =>
    obtain rfl := Option.some.inj moved
    exact ⟨rfl, rfl⟩
  | dropRead index =>
    obtain ⟨txn, -, rfl⟩ := Option.map_eq_some_iff.mp moved
    exact ⟨rfl, rfl⟩
  | beginReadAt snapshot =>
    rw [Engine.step, Engine.beginReadAt] at moved
    simp only at moved
    split_ifs at moved <;> obtain rfl := Option.some.inj moved <;> exact ⟨rfl, rfl⟩
  | maintain =>
    refine ⟨rfl, ?_⟩
    show engine.store.committedSeq = _
    have compacts : trace.engine.phase.inCompaction = true := inside
    rw [Engine.step] at moved
    unfold Engine.maintain at moved
    cases phase : trace.engine.phase <;> rw [phase] at compacts <;> simp only [phase] at moved
    case compacting =>
      split_ifs at moved <;> rw [← Option.some.inj moved]
    case captured | floored => rw [← Option.some.inj moved]
    case mergedTemp | mergedRenamed =>
      obtain ⟨found, -, rfl⟩ := Option.map_eq_some_iff.mp moved
      rfl
    case unlinking old minSnapshot left =>
      cases left <;> rw [← Option.some.inj moved]
    all_goals cases compacts
  | _ => cases inside

/-- What a compaction keeps, up to any point inside it. -/
theorem inside_run (kept : Kept config.codec start)
    (inside : Relation.ReflTransGen (Trace.Moves config Trace.Inside) start trace) :
    Kept config.codec trace ∧ trace.history = start.history ∧
      trace.engine.store.committedSeq = start.engine.store.committedSeq := by
  induction inside with
  | refl => exact ⟨kept, rfl, rfl⟩
  | tail _ move ih =>
    obtain ⟨action, inside, stepped⟩ := move
    obtain ⟨history, committed⟩ := inside.frame stepped
    exact ⟨ih.1.step inside.sound stepped, history.trans ih.2.1, committed.trans ih.2.2⟩

theorem Engine.Shows.sameReads {before after : Engine} {map : KvMap} (first : before.Shows map)
    (second : after.Shows map) (committedSeq : after.store.committedSeq = before.store.committedSeq) :
    SameReads before after where
  committedSeq := committedSeq
  get := fun table key => (second.get table key).trans (first.get table key).symm
  range := fun table start stop valid =>
    (second.range table start stop valid).trans (first.range table start stop valid).symm

/-- Nothing under way: the reopened store is at the committed sequence. -/
theorem Crashed.committed_eq {cut : ℕ} {engine : Engine} {runs : List Sst} {batches : List Batch}
    {records : Bytes} (crashed : Crashed codec trace cut engine runs batches records)
    (live : LiveInv trace) (gone : trace.survivors codec cut = [])
    (low : ∀ sst ∈ runs, sst.maxSeq ≤ trace.engine.store.committedSeq) :
    engine.store.committedSeq = trace.engine.store.committedSeq := by
  refine Nat.le_antisymm ?_ crashed.committed
  obtain ⟨before, covered⟩ := crashed.covered
  rw [gone, List.append_nil] at covered
  rcases crashed.reopened.top with ⟨batch, member, newest⟩ | ⟨sst, member, newest⟩ | zero
  · rw [← newest]
    refine live.store.bounded batch ?_
    rw [covered]
    exact List.mem_append_right _ member
  · rw [← newest]
    exact low sst member
  · rw [zero]
    exact Nat.zero_le _

/-- A key that comes back reads differently. -/
theorem Resurrects.get_ne (kept : Kept codec trace) (back : Resurrects codec trace.engine) (cut : ℕ)
    (readOnly : Bool) :
    ∃ table key, (⟨trace.engine.store.committedSeq⟩ : ReadTxn).get
      (trace.engine.crash codec cut readOnly).store table key ≠
        (foldAll trace.history).get table key := by
  obtain ⟨live, disk⟩ := kept
  obtain ⟨earlier, unflushed, torn, wal⟩ := disk.wal
  obtain ⟨below, extra, files⟩ := disk.files
  have replayed := wal.replayedBatches
  unfold Resurrects at back
  cases phase : trace.engine.phase <;> simp only [phase] at back
  case unlinking old minSnapshot left =>
  obtain ⟨user, found, silent, dead, shows_⟩ := back
  have quiet : ∀ seq ops, trace.engine.phase ≠ .logging seq ops := by
    rw [phase]
    nofun
  have gone : trace.survivors codec cut = [] := (crash_quiet live quiet).2.trans (by rw [phase]; rfl)
  obtain ⟨records, crashed⟩ := DiskInv.crashed live wal files
    (wal.soundCut (by rw [phase]; rfl) cut) readOnly
  obtain ⟨before, split⟩ := wal.history
  rw [phase] at files replayed
  rw [replayed, show (Phase.unlinking old minSnapshot left).durable = [] from rfl,
    List.append_nil] at silent
  rw [← files.below_eq_filter] at shows_
  have low : ∀ batch ∈ earlier ++ unflushed, batch.seq ≤ trace.engine.store.committedSeq := by
    intro batch member
    refine live.store.bounded batch ?_
    rw [split]
    exact List.mem_append_right _ member
  have ascending : Ascending (logOf (earlier ++ unflushed)) := by
    have stretch := live.store.ascending
    rw [split, logOf_append] at stretch
    exact (List.pairwise_append.mp stretch).2.1
  have unseen := (silent_iff ascending low).mp silent
  have memory : visible (memSource trace.engine.store.mem) user trace.engine.store.committedSeq =
      none := by
    have published : Ascending (logOf (trace.history ++ [])) := by
      rw [List.append_nil]
      exact live.store.ascending
    rw [wal.mem]
    exact (unseen_of_replayed split published (by rw [List.append_nil]; exact unseen)).1
  have differs := mt (files.unlinking_value live.store le_rfl memory).mp
    (not_not.mpr ⟨dead, found, shows_⟩)
  -- The key is of a table, since a batch has put it.
  obtain ⟨table, known⟩ : ∃ table : TableId, user.table = table.index := by
    obtain ⟨source, member, seen⟩ := exists_of_firstVisible shows_
    obtain ⟨sst, inside, rfl⟩ := List.mem_map.mp member
    obtain ⟨seq, -, held, -⟩ := exists_of_visible seen
    have within := (files.unlinking live.store).within sst
      (List.mem_append_left _ (List.mem_append_left _ (List.mem_reverse.mp inside))) _ _ _ held
    obtain ⟨entry, listed, -, wrote⟩ := exists_of_recorded within
    obtain ⟨batch, published, rfl⟩ := List.mem_map.mp listed
    exact live.store.known batch published user (ExtTreeMap.mem_iff_isSome_getElem?.mpr (by
      rw [show batch.ops[user]? = some (.put found) from wrote]
      rfl))
  obtain ⟨byte, key⟩ := user
  obtain rfl : byte = table.index := known
  refine ⟨table, key, fun same => differs ?_⟩
  rw [gone, List.append_nil] at crashed
  rw [← stateAt_of_forall_le live.store.bounded, KvMap.get, stateAt_getElem? live.store.ascending,
    ReadTxn.get, committedGet_eq, Store.sources, crashed.reopened.mem, crashed.reopened.ssts,
    firstVisible_cons_of_none unseen] at same
  exact same

/-- **A crash inside a compaction changes what the store shows exactly when a reclaimed key comes
back.** `start` is where the compaction begins, or any point inside it before the crash. -/
theorem compaction_crash_iff (reached : Trace.Run config (Trace.Sound config.codec) start)
    (inside : Relation.ReflTransGen (Trace.Moves config Trace.Inside) start trace)
    (crashes : trace.engine.phase.inCompaction = true) {cut : ℕ} {readOnly : Bool}
    (crashed : trace.step config (.crash cut readOnly) = some after) :
    SameReads start.engine after.engine ↔ ¬ Resurrects config.codec trace.engine := by
  have began := Kept.run (fun _ _ => id) reached
  obtain ⟨kept, history, committed⟩ := inside_run began inside
  have quiet : ∀ seq ops, trace.engine.phase ≠ .logging seq ops := by
    intro seq ops logging
    rw [logging] at crashes
    cases crashes
  have gone : trace.survivors config.codec cut = [] := by
    refine (crash_quiet kept.live quiet).2.trans ?_
    cases phase : trace.engine.phase <;> first | rfl | (rw [phase] at crashes; cases crashes)
  obtain ⟨earlier, unflushed, torn, wal⟩ := kept.disk.wal
  have past : trace.engine.phase.buffers = false := by
    cases phase : trace.engine.phase <;> first | rfl | (rw [phase] at crashes; cases crashes)
  have settled : (trace.engine.crash config.codec cut readOnly).store.committedSeq =
      trace.engine.store.committedSeq := by
    obtain ⟨below, extra, files⟩ := kept.disk.files
    obtain ⟨records, opened⟩ := DiskInv.crashed kept.live wal files (wal.soundCut past cut) readOnly
    exact opened.committed_eq kept.live gone files.maxSeq
  have before : start.engine.Shows (foldAll trace.history) := by
    rw [history]
    exact began.live.shows_fold
  constructor
  · intro same back
    obtain ⟨table, key, differs⟩ := back.get_ne kept cut readOnly
    obtain rfl := Option.some.inj crashed
    refine differs ?_
    rw [← settled]
    exact (same.get table key).trans (before.get table key)
  · intro still
    have sound : trace.Sound config.codec (.crash cut readOnly) :=
      ⟨still, wal.soundCut past cut⟩
    have live := (kept.step sound crashed).live
    obtain rfl := Option.some.inj crashed
    have shows_ := live.shows_fold
    rw [show (trace.follow config.codec (.crash cut readOnly)
      (trace.engine.crash config.codec cut readOnly)).history =
        trace.history ++ trace.survivors config.codec cut from rfl, gone, List.append_nil] at shows_
    exact before.sameReads shows_ (settled.trans committed)

end Inside

/-! ### A deleted key that comes back -/

theorem smooth_run_sound {config : Config} {trace : Trace}
    (run : Trace.Run config Trace.Smooth trace) :
    Trace.Run config (Trace.Sound config.codec) trace := by
  obtain ⟨readOnly, moves⟩ := run
  refine ⟨readOnly, ?_⟩
  induction moves with
  | refl => exact .refl
  | tail before move ih =>
    obtain ⟨action, smooth, stepped⟩ := move
    obtain ⟨-, clean, -⟩ := smooth_run ⟨readOnly, before⟩
    exact ih.tail ⟨action, smooth.sound clean, stepped⟩

def Trace.inside (trace : Trace) : Action → Bool
  | .maintain => trace.engine.phase.inCompaction
  | _ => false

theorem Trace.inside_spec (trace : Trace) (action : Action) (passed : trace.inside action = true) :
    trace.Inside action := by
  cases action <;> first | exact passed | cases passed

/-- Five commits, each flushed: a put, its delete, and three more puts, with a retention window of one
commit. -/
def deletedKey : List Action :=
  [.setRetention (some 1)] ++ commitOf (.put .nodes [1] [7]) ++ flushSteps ++ [.maintain] ++
    commitOf (.delete .nodes [1]) ++ flushSteps ++ [.maintain] ++
    commitOf (.put .nodes [2] [7]) ++ flushSteps ++ [.maintain] ++
    commitOf (.put .nodes [3] [7]) ++ flushSteps ++ [.maintain] ++
    commitOf (.put .nodes [4] [7]) ++ flushSteps

def deletedKeyTrace : Trace := Trace.reached eagerConfig Trace.smooth deletedKey

/-- All but the oldest run unlinked. -/
def oneLeftTrace : Trace :=
  (deletedKeyTrace.run eagerConfig Trace.inside (List.replicate 9 .maintain)).getD deletedKeyTrace

theorem deletedKey_reaches :
    Trace.Run eagerConfig (Trace.Sound postcardCodec) deletedKeyTrace ∧
      deletedKeyTrace.engine.phase = .compacting ∧
      Relation.ReflTransGen (Trace.Moves eagerConfig Trace.Inside) deletedKeyTrace oneLeftTrace ∧
      oneLeftTrace.engine.phase.inCompaction = true := by
  have taken : (deletedKeyTrace.run eagerConfig Trace.inside
      (List.replicate 9 .maintain)).isSome := by
    decide
  refine ⟨smooth_run_sound (Trace.reached_run Trace.smooth_spec (by decide)), ?_, ?_, by decide⟩
  · have begins : (match deletedKeyTrace.engine.phase with
        | .compacting => true
        | _ => false) = true := by decide
    cases phase : deletedKeyTrace.engine.phase <;> rw [phase] at begins <;> first
      | rfl
      | cases begins
  · obtain ⟨after, same⟩ := Option.isSome_iff_exists.mp taken
    rw [oneLeftTrace, same]
    exact Trace.run_moves Trace.inside_spec same

/-- **The deleted key comes back.** -/
theorem compaction_crash_brings_key_back :
    Trace.Run eagerConfig (Trace.Sound postcardCodec) deletedKeyTrace ∧
      deletedKeyTrace.engine.phase = .compacting ∧
      Relation.ReflTransGen (Trace.Moves eagerConfig Trace.Inside) deletedKeyTrace oneLeftTrace ∧
      oneLeftTrace.engine.phase.inCompaction = true ∧
      (⟨5⟩ : ReadTxn).get deletedKeyTrace.engine.store .nodes [1] = none ∧
      (⟨5⟩ : ReadTxn).get (oneLeftTrace.engine.crash postcardCodec 0 false).store .nodes [1] =
        some [7] ∧
      ¬ SameReads deletedKeyTrace.engine (oneLeftTrace.engine.crash postcardCodec 0 false) := by
  obtain ⟨run, begins, inside, crashes⟩ := deletedKey_reaches
  refine ⟨run, begins, inside, crashes, by decide, by decide, fun same => ?_⟩
  have get := same.get .nodes [1]
  revert get
  decide

theorem compaction_crash_iff_key_back : Resurrects postcardCodec oneLeftTrace.engine := by
  obtain ⟨run, -, inside, crashes⟩ := deletedKey_reaches
  have crashed : oneLeftTrace.step eagerConfig (.crash 0 false) = some
      (oneLeftTrace.follow postcardCodec (.crash 0 false)
        (oneLeftTrace.engine.crash postcardCodec 0 false)) := rfl
  by_contra still
  have get := ((compaction_crash_iff run inside crashes crashed).mpr still).get .nodes [1]
  revert get
  decide

end DrStrange.Native
