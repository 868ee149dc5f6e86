/-
**Resolving a past point to a snapshot.**

A commit lands as one batch at a storage sequence of its own. Most batches carry two marks, the graph
commit sequence and the wall-clock time, and every storage sequence is a snapshot that shows the
marks of the last batch at or below it. A point of the past, a commit sequence or a time, is
resolved by a binary search for the last snapshot of the retained window whose mark is not after it.

The search presumes that the marks never decrease. A clock that is set back, a restore of a source
with a lower sequence and a batch replicated from a master with another clock each make them
decrease. A history is resolved exactly, under every window and after each of its commits, just in
case none of its commits does (`as_of_exact`).
-/

import DrStrange.Lib.Bisect
import DrStrange.Native.Engine
import DrStrange.Api.Reachable

namespace DrStrange.Graph

open Std Lib ExtTreeMap

variable {history : List Landed} {keep snapshot : ℕ} {tables : Tables} {landing : Landing}
  {landings : List Landing} {writes : List Write}

/-! ### Histories -/

/-- One batch of the log: the storage sequence it landed at, and the rows it wrote. -/
structure Landed where
  seq : ℕ
  writes : List Write

def committedSeq (history : List Landed) : ℕ := (history.getLast?.map Landed.seq).getD 0

/-- What a snapshot shows: the batches at or below it, in the order they landed. -/
def tablesAt (history : List Landed) (snapshot : ℕ) : Tables :=
  Tables.empty.applyAll ((history.filter fun landed => landed.seq ≤ snapshot).flatMap Landed.writes)

/-- What the latest commit shows. -/
def tablesNow (history : List Landed) : Tables := tablesAt history (committedSeq history)

/-- A row that is the commit sequence or the commit time. -/
def Write.isMark : Write → Bool
  | .commitSeq _ | .commitTime _ => true
  | _ => false

/-- The rows a closure over a write transaction stages: it has no way to the two marks. -/
abbrev GraphWrites := {writes : List Write // ∀ write ∈ writes, write.isMark = false}

/-- A commit that is asked for. -/
inductive Landing where
  /-- `with_write` and `with_write_bootstrap`, at a reading of the clock. -/
  | withWrite (writes : GraphWrites) (millis : ℤ)
  | withWriteUnstamped (writes : GraphWrites)
  /-- `restore`: the frames and the id counters, the source's sequence, the recounted rows. -/
  | restore (frames : GraphWrites) (seq : ℕ) (counts : GraphWrites)
  | applyReplicated (batch : Landed)

/-- The batch of a transaction that asks to land at `floor` or above, if it has staged anything. -/
def commitAtLeast (history : List Landed) (floor : ℕ) (writes : List Write) : Option Landed :=
  if writes.isEmpty then none else some ⟨max (committedSeq history + 1) floor, writes⟩

def refuseNonEmpty (tables : Tables) : Except Error Unit :=
  (listPlanes tables).forM fun (plane, name) => do
    if name ≠ defaultPlaneName then
      throw (.invalidArgument "restore target is not empty (extra planes present)")
    if !(scanAll tables plane).isEmpty then
      throw (.invalidArgument "restore target is not empty (nodes present)")

/-- The batch a commit lands, if it lands one. -/
def Landing.batch (history : List Landed) : Landing → Option Landed
  | .withWrite writes millis =>
    let staged := (tablesNow history).applyAll writes.val
    commitAtLeast history 0
      (writes.val ++ [.commitSeq (readCommitSeq staged + 1), .commitTime millis])
  | .withWriteUnstamped writes => commitAtLeast history 0 writes.val
  | .restore frames seq counts =>
    match refuseNonEmpty (tablesNow history) with
    | .ok () => commitAtLeast history seq (frames.val ++ [.commitSeq seq] ++ counts.val)
    | .error _ => none
  | .applyReplicated batch =>
    if batch.writes.isEmpty then none
    else if batch.seq ≤ committedSeq history then none
    else some batch

def land (history : List Landed) (landing : Landing) : List Landed :=
  history ++ (landing.batch history).toList

def landAll (landings : List Landing) : List Landed := landings.foldl land []

/-! ### Resolution -/

/-- The least `i64`. -/
def i64Min : ℤ := -2 ^ 63

/-- A snapshot with no stamp counts as infinitely old. -/
def recordedTime (tables : Tables) : ℤ := tables.commitTime.getD i64Min

/-- A past point to read the graph at. -/
inductive AsOf where
  | seq (target : ℕ)
  | time (target : ℤ)

/-- The oldest and the latest snapshot that may be read, under a window of `keep` commits. -/
def snapshotWindow (history : List Landed) (keep : ℕ) : ℕ × ℕ :=
  (Native.retentionFloor keep (committedSeq history), committedSeq history)

/-- `with_read_at`: the tables at a snapshot, if it is in the window. -/
def readAt (history : List Landed) (keep snapshot : ℕ) : Except Error Tables :=
  let committed := committedSeq history
  if committed < snapshot then
    .error (.invalidArgument s!"cannot read as of {snapshot}: the latest commit is {committed}")
  else
    let floor := Native.retentionFloor keep committed
    if snapshot < floor then
      .error (.invalidArgument
        (s!"cannot read as of {snapshot}: older than the retained history " ++
          s!"(oldest retained commit is {floor})"))
    else .ok (tablesAt history snapshot)

def searchAtOrBefore {V : Type} [LinearOrder V] (floor latest : ℕ) (target : V) (kind : String)
    (probe : ℕ → Except Error V) : Except Error ℕ := do
  if target < (← probe floor) then
    throw (.invalidArgument
      (s!"requested {kind} is older than the retained history " ++
        "(raise retention or pick a more recent point)"))
  bisect (fun snapshot => do return decide ((← probe snapshot) ≤ target)) floor latest

def resolveAsOf (history : List Landed) (keep : ℕ) (point : AsOf) : Except Error ℕ :=
  let (floor, latest) := snapshotWindow history keep
  match point with
  | .seq target =>
    searchAtOrBefore floor latest target "commit sequence" fun snapshot =>
      readCommitSeq <$> readAt history keep snapshot
  | .time target =>
    searchAtOrBefore floor latest target "timestamp" fun snapshot =>
      recordedTime <$> readAt history keep snapshot

/-! ### What a resolution is for -/

/-- The tables carry a mark at or before the point. -/
def AsOf.Covers (tables : Tables) : AsOf → Prop
  | .seq target => readCommitSeq tables ≤ target
  | .time target => recordedTime tables ≤ target

/-- The snapshots of the window whose mark is at or before the point. -/
def candidates (history : List Landed) (keep : ℕ) (point : AsOf) : Set ℕ :=
  {snapshot | snapshot ∈ Set.Icc (snapshotWindow history keep).1 (snapshotWindow history keep).2 ∧
    point.Covers (tablesAt history snapshot)}

/-- The point resolves to the greatest candidate, and to an error when there is none. -/
def Resolves (history : List Landed) (keep : ℕ) (point : AsOf) : Prop :=
  match resolveAsOf history keep point with
  | .ok snapshot => IsGreatest (candidates history keep point) snapshot
  | .error _ => candidates history keep point = ∅

/-- Neither mark of the tables is before the other's. -/
structure Tables.NotBefore (after before : Tables) : Prop where
  commitSeq : readCommitSeq before ≤ readCommitSeq after
  commitTime : recordedTime before ≤ recordedTime after

/-- The commit does not set a mark back. -/
def Landing.Forward (history : List Landed) : Landing → Prop
  | .withWrite _ millis => recordedTime (tablesNow history) ≤ millis
  | .withWriteUnstamped _ => True
  | .restore _ seq _ =>
    refuseNonEmpty (tablesNow history) = .ok () → readCommitSeq (tablesNow history) ≤ seq
  | .applyReplicated batch =>
    committedSeq history < batch.seq →
      ((tablesNow history).applyAll batch.writes).NotBefore (tablesNow history)

/-! ### The marks a batch leaves -/

theorem Tables.NotBefore.refl : tables.NotBefore tables := ⟨le_rfl, le_rfl⟩

theorem Tables.NotBefore.trans {first second third : Tables} (one : second.NotBefore first)
    (two : third.NotBefore second) : third.NotBefore first :=
  ⟨one.commitSeq.trans two.commitSeq, one.commitTime.trans two.commitTime⟩

theorem apply_unmarked (tables : Tables) {write : Write} (unmarked : write.isMark = false) :
    (tables.apply write).commitSeq = tables.commitSeq ∧
      (tables.apply write).commitTime = tables.commitTime := by
  cases write <;> first | exact ⟨rfl, rfl⟩ | cases unmarked

theorem applyAll_unmarked (tables : Tables) (unmarked : ∀ write ∈ writes, write.isMark = false) :
    readCommitSeq (tables.applyAll writes) = readCommitSeq tables ∧
      recordedTime (tables.applyAll writes) = recordedTime tables := by
  induction writes generalizing tables with
  | nil => exact ⟨rfl, rfl⟩
  | cons write writes ih =>
    obtain ⟨seq, time⟩ := ih (tables.apply write) fun other member =>
      unmarked other (List.mem_cons_of_mem _ member)
    obtain ⟨seqKept, timeKept⟩ := apply_unmarked tables (unmarked _ List.mem_cons_self)
    rw [Tables.applyAll_cons, seq, time]
    unfold readCommitSeq recordedTime
    rw [seqKept, timeKept]
    exact ⟨rfl, rfl⟩

/-- A stamped write leaves the next sequence and the reading of the clock. -/
theorem applyAll_stamped (tables : Tables) (writes : GraphWrites) (millis : ℤ) :
    tables.applyAll (writes.val ++
        [.commitSeq (readCommitSeq (tables.applyAll writes.val) + 1), .commitTime millis]) =
      (tables.applyAll writes.val).stamped millis := by
  rw [Tables.applyAll_append]
  rfl

/-- A restore leaves the source's sequence, and the time as it was. -/
theorem applyAll_restored (tables : Tables) (frames counts : GraphWrites) (seq : ℕ) :
    readCommitSeq (tables.applyAll (frames.val ++ [.commitSeq seq] ++ counts.val)) = seq ∧
      recordedTime (tables.applyAll (frames.val ++ [.commitSeq seq] ++ counts.val)) =
        recordedTime tables := by
  rw [Tables.applyAll_append, Tables.applyAll_append, (applyAll_unmarked _ counts.property).1,
    (applyAll_unmarked _ counts.property).2]
  exact ⟨rfl, (applyAll_unmarked _ frames.property).2⟩

theorem mem_commitAtLeast {floor : ℕ} {batch : Landed} :
    batch ∈ commitAtLeast history floor writes ↔
      writes ≠ [] ∧ batch = ⟨max (committedSeq history + 1) floor, writes⟩ := by
  unfold commitAtLeast
  cases writes with
  | nil => simp
  | cons write writes => simp [eq_comm]

theorem mem_applyReplicated {batch landed : Landed} :
    landed ∈ (Landing.applyReplicated batch).batch history ↔
      batch.writes ≠ [] ∧ committedSeq history < batch.seq ∧ landed = batch := by
  show landed ∈ (if batch.writes.isEmpty then none
    else if batch.seq ≤ committedSeq history then none else some batch) ↔ _
  by_cases staged : batch.writes = []
  · simp [staged]
  · by_cases later : committedSeq history < batch.seq
    · rw [if_neg (by simpa using staged), if_neg later.not_ge, Option.mem_some_iff]
      exact ⟨fun same => ⟨staged, later, same.symm⟩, fun ⟨_, _, same⟩ => same.symm⟩
    · simp [later]

theorem mem_restore {frames counts : GraphWrites} {seq : ℕ} {batch : Landed} :
    batch ∈ (Landing.restore frames seq counts).batch history ↔
      refuseNonEmpty (tablesNow history) = .ok () ∧
        batch = ⟨max (committedSeq history + 1) seq,
          frames.val ++ [.commitSeq seq] ++ counts.val⟩ := by
  show batch ∈ (match refuseNonEmpty (tablesNow history) with
    | .ok () => commitAtLeast history seq (frames.val ++ [Write.commitSeq seq] ++ counts.val)
    | .error _ => none) ↔ _
  cases refuseNonEmpty (tablesNow history) with
  | error _ => simp
  | ok _ =>
    rw [mem_commitAtLeast]
    exact ⟨fun landed => ⟨rfl, landed.2⟩, fun landed => ⟨by simp, landed.2⟩⟩

/-- **A commit is forward just in case the batch it lands sets no mark back.** -/
theorem Landing.forward_iff :
    landing.Forward history ↔ ∀ batch ∈ landing.batch history,
      ((tablesNow history).applyAll batch.writes).NotBefore (tablesNow history) := by
  cases landing with
  | withWrite writes millis =>
    obtain ⟨seq, -⟩ := applyAll_unmarked (tablesNow history) writes.property
    have stamped := applyAll_stamped (tablesNow history) writes millis
    constructor
    · intro later batch landed
      obtain ⟨-, rfl⟩ := mem_commitAtLeast.mp landed
      simp only
      rw [stamped]
      refine ⟨?_, later⟩
      show _ ≤ readCommitSeq ((tablesNow history).applyAll writes.val) + 1
      omega
    · intro kept
      have last := (kept _ (mem_commitAtLeast.mpr ⟨by simp, rfl⟩)).commitTime
      simp only at last
      rw [stamped] at last
      exact last
  | withWriteUnstamped writes =>
    refine ⟨fun _ batch landed => ?_, fun _ => trivial⟩
    obtain ⟨-, rfl⟩ := mem_commitAtLeast.mp landed
    obtain ⟨seq, time⟩ := applyAll_unmarked (tablesNow history) writes.property
    exact ⟨seq.ge, time.ge⟩
  | restore frames seq counts =>
    obtain ⟨left, time⟩ := applyAll_restored (tablesNow history) frames counts seq
    constructor
    · intro above batch landed
      obtain ⟨accepted, rfl⟩ := mem_restore.mp landed
      exact ⟨left.symm ▸ above accepted, time.ge⟩
    · intro kept accepted
      exact left ▸ (kept _ (mem_restore.mpr ⟨accepted, rfl⟩)).commitSeq
  | applyReplicated batch =>
    constructor
    · intro kept landed member
      obtain ⟨-, later, rfl⟩ := mem_applyReplicated.mp member
      exact kept later
    · intro kept later
      by_cases staged : batch.writes = []
      · rw [staged]
        exact .refl
      · exact kept batch (mem_applyReplicated.mpr ⟨staged, later, rfl⟩)

/-! ### Snapshots after one more batch -/

theorem Landing.later {batch : Landed} (landed : batch ∈ landing.batch history) :
    committedSeq history < batch.seq := by
  cases landing with
  | withWrite writes millis =>
    obtain ⟨-, rfl⟩ := mem_commitAtLeast.mp landed
    exact Nat.lt_of_succ_le (le_max_left _ _)
  | withWriteUnstamped writes =>
    obtain ⟨-, rfl⟩ := mem_commitAtLeast.mp landed
    exact Nat.lt_of_succ_le (le_max_left _ _)
  | restore frames seq counts =>
    obtain ⟨-, rfl⟩ := mem_restore.mp landed
    exact Nat.lt_of_succ_le (le_max_left _ _)
  | applyReplicated batch =>
    obtain ⟨-, later, rfl⟩ := mem_applyReplicated.mp landed
    exact later

theorem committedSeq_concat {batch : Landed} : committedSeq (history ++ [batch]) = batch.seq := by
  unfold committedSeq
  simp

theorem tablesAt_concat {batch : Landed} :
    tablesAt (history ++ [batch]) snapshot =
      if batch.seq ≤ snapshot then (tablesAt history snapshot).applyAll batch.writes
      else tablesAt history snapshot := by
  unfold tablesAt
  rw [List.filter_append, List.flatMap_append, Tables.applyAll_append]
  by_cases reached : batch.seq ≤ snapshot
  · simp [reached]
  · simp [reached]

/-- No batch is above the committed sequence. -/
def Ordered (history : List Landed) : Prop := ∀ landed ∈ history, landed.seq ≤ committedSeq history

/-- From the latest commit on, every snapshot shows it. -/
theorem Ordered.tablesAt_late (ordered : Ordered history) (late : committedSeq history ≤ snapshot) :
    tablesAt history snapshot = tablesNow history := by
  unfold tablesNow tablesAt
  rw [List.filter_eq_self.mpr fun landed member => decide_eq_true ((ordered _ member).trans late),
    List.filter_eq_self.mpr fun landed member => decide_eq_true (ordered _ member)]

theorem Ordered.concat {batch : Landed} (ordered : Ordered history)
    (later : committedSeq history < batch.seq) : Ordered (history ++ [batch]) := by
  intro landed member
  rw [committedSeq_concat]
  rcases List.mem_append.mp member with old | new
  · exact (ordered _ old).trans later.le
  · rw [List.mem_singleton.mp new]

/-- Later snapshots show later marks. -/
def Rising (history : List Landed) : Prop :=
  ∀ early late, early ≤ late → (tablesAt history late).NotBefore (tablesAt history early)

theorem Rising.now (rising : Rising history) (ordered : Ordered history) :
    (tablesNow history).NotBefore (tablesAt history snapshot) := by
  rcases le_total snapshot (committedSeq history) with before | after
  · exact rising _ _ before
  · rw [ordered.tablesAt_late after]
    exact .refl

/-- **A batch that sets no mark back keeps the marks rising.** -/
theorem Rising.concat {batch : Landed} (rising : Rising history) (ordered : Ordered history)
    (later : committedSeq history < batch.seq)
    (kept : ((tablesNow history).applyAll batch.writes).NotBefore (tablesNow history)) :
    Rising (history ++ [batch]) := by
  intro early late order
  rw [tablesAt_concat, tablesAt_concat]
  by_cases reached : batch.seq ≤ late
  · rw [if_pos reached, ordered.tablesAt_late (later.le.trans reached)]
    by_cases both : batch.seq ≤ early
    · rw [if_pos both, ordered.tablesAt_late (later.le.trans both)]
      exact .refl
    · rw [if_neg both]
      exact (rising.now ordered).trans kept
  · rw [if_neg reached, if_neg fun both => reached (both.trans order)]
    exact rising _ _ order

theorem landAll_concat :
    landAll (landings ++ [landing]) = land (landAll landings) landing := List.foldl_concat _ _ _ _

/-- No commit of the history sets a mark back. -/
def AllForward (landings : List Landing) : Prop :=
  ∀ past landing, past ++ [landing] <+: landings → landing.Forward (landAll past)

theorem ordered_landAll (landings : List Landing) : Ordered (landAll landings) := by
  induction landings using List.reverseRecOn with
  | nil => exact nofun
  | append_singleton landings landing ih =>
    rw [landAll_concat]
    unfold land
    cases landed : landing.batch (landAll landings) with
    | none =>
      rw [Option.toList_none, List.append_nil]
      exact ih
    | some batch => exact ih.concat (Landing.later landed)

theorem AllForward.rising (forward : AllForward landings) : Rising (landAll landings) := by
  induction landings using List.reverseRecOn with
  | nil => exact fun _ _ _ => .refl
  | append_singleton landings landing ih =>
    have rest := ih fun past landing started =>
      forward past landing (started.trans (List.prefix_append _ _))
    have kept := Landing.forward_iff.mp (forward landings landing (List.prefix_refl _))
    rw [landAll_concat]
    unfold land
    cases landed : landing.batch (landAll landings) with
    | none =>
      rw [Option.toList_none, List.append_nil]
      exact rest
    | some batch =>
      exact rest.concat (ordered_landAll landings) (Landing.later landed) (kept batch landed)

/-! ### The search -/

theorem floor_le_latest : (snapshotWindow history keep).1 ≤ (snapshotWindow history keep).2 := by
  unfold snapshotWindow Native.retentionFloor
  split <;> omega

/-- A snapshot of the window can be read. -/
theorem readAt_window
    (inside : snapshot ∈ Set.Icc (snapshotWindow history keep).1 (snapshotWindow history keep).2) :
    readAt history keep snapshot = .ok (tablesAt history snapshot) := by
  obtain ⟨first, last⟩ := inside
  unfold snapshotWindow at first last
  unfold readAt
  simp only
  rw [if_neg last.not_gt, if_neg first.not_gt]

section Search

variable {V : Type} [LinearOrder V] {mark : Tables → V} {target oldest : V} {kind : String}
  {floor latest : ℕ} {probe : ℕ → Except Error V}

/-- A window whose oldest mark is past the target is refused, whatever follows. -/
theorem searchAtOrBefore_old (kind : String) (latest : ℕ) (probed : probe floor = .ok oldest)
    (old : target < oldest) :
    ∃ message, searchAtOrBefore floor latest target kind probe =
      .error (.invalidArgument message) := by
  unfold searchAtOrBefore
  rw [probed]
  show ∃ message, (if target < oldest then _ else _) = _
  rw [if_pos old]
  exact ⟨_, rfl⟩

theorem searchAtOrBefore_start (probed : probe floor = .ok oldest) (start : oldest ≤ target) :
    searchAtOrBefore floor latest target kind probe =
      bisect (fun snapshot => do return decide ((← probe snapshot) ≤ target)) floor latest := by
  conv_lhs => unfold searchAtOrBefore
  rw [probed]
  show (if target < oldest then _ else _) = _
  rw [if_neg start.not_gt]

/-- The probe of `resolve_as_of` for a mark. -/
def markAt (history : List Landed) (keep : ℕ) (mark : Tables → V) (snapshot : ℕ) : Except Error V :=
  mark <$> readAt history keep snapshot

omit [LinearOrder V] in
theorem markAt_window
    (inside : snapshot ∈ Set.Icc (snapshotWindow history keep).1 (snapshotWindow history keep).2) :
    markAt history keep mark snapshot = .ok (mark (tablesAt history snapshot)) := by
  unfold markAt
  rw [readAt_window inside]
  rfl

/-- The snapshots of the window at which a mark is at or before the target. -/
def markedBy (history : List Landed) (keep : ℕ) (mark : Tables → V) (target : V) : Set ℕ :=
  {snapshot | snapshot ∈ Set.Icc (snapshotWindow history keep).1 (snapshotWindow history keep).2 ∧
    mark (tablesAt history snapshot) ≤ target}

/-- The search for a mark finds the last of these snapshots, and fails when there is none. -/
def Finds (history : List Landed) (keep : ℕ) (mark : Tables → V) (target : V) (kind : String) :
    Prop :=
  match searchAtOrBefore (snapshotWindow history keep).1 (snapshotWindow history keep).2 target kind
    (markAt history keep mark) with
  | .ok snapshot => IsGreatest (markedBy history keep mark target) snapshot
  | .error _ => markedBy history keep mark target = ∅

/-- **Where the mark rises, the search finds the last snapshot at or before the target.** -/
theorem finds_of_rising (rising : ∀ early late, early ≤ late →
    mark (tablesAt history early) ≤ mark (tablesAt history late)) :
    Finds history keep mark target kind := by
  unfold Finds
  have oldest : markAt history keep mark (snapshotWindow history keep).1 = _ :=
    markAt_window ⟨le_rfl, floor_le_latest⟩
  rcases lt_or_ge target (mark (tablesAt history (snapshotWindow history keep).1)) with old | start
  · obtain ⟨message, refused⟩ := searchAtOrBefore_old kind _ oldest old
    rw [refused]
    refine Set.eq_empty_of_forall_notMem fun snapshot ⟨inside, marked⟩ => ?_
    exact (old.trans_le (rising _ _ inside.1)).not_ge marked
  · have answers : ∀ mid, (snapshotWindow history keep).1 ≤ mid →
        mid ≤ (snapshotWindow history keep).2 →
          (do return decide ((← markAt history keep mark mid) ≤ target) : Except Error Bool) =
            .ok (decide (mark (tablesAt history mid) ≤ target)) := by
      intro mid first last
      rw [markAt_window ⟨first, last⟩]
      rfl
    obtain ⟨found, ends, greatest⟩ := bisect_spec answers
      (fun early late _ order _ marked => (rising early late order).trans marked)
      floor_le_latest start
    rw [searchAtOrBefore_start oldest start, ends]
    exact greatest

/-- **A batch that sets a mark back is missed**: the snapshot before it is past the target. -/
theorem Ordered.mark_kept {batch : Landed} (ordered : Ordered history)
    (later : committedSeq history < batch.seq) (finds : Finds (history ++ [batch]) 1 mark
      (mark ((tablesNow history).applyAll batch.writes)) kind) :
    mark (tablesNow history) ≤ mark ((tablesNow history).applyAll batch.writes) := by
  have window : snapshotWindow (history ++ [batch]) 1 = (batch.seq - 1, batch.seq) := by
    unfold snapshotWindow
    rw [committedSeq_concat]
    rfl
  have before : tablesAt (history ++ [batch]) (batch.seq - 1) = tablesNow history := by
    rw [tablesAt_concat, if_neg (by omega), ordered.tablesAt_late (by omega)]
  have after : tablesAt (history ++ [batch]) batch.seq =
      (tablesNow history).applyAll batch.writes := by
    rw [tablesAt_concat, if_pos le_rfl, ordered.tablesAt_late later.le]
  by_contra back
  have oldest : markAt (history ++ [batch]) 1 mark (snapshotWindow (history ++ [batch]) 1).1 =
      .ok (mark (tablesNow history)) := by
    rw [markAt_window ⟨le_rfl, floor_le_latest⟩, window, before]
  obtain ⟨message, refused⟩ := searchAtOrBefore_old kind
    (snapshotWindow (history ++ [batch]) 1).2 oldest (lt_of_not_ge back)
  unfold Finds at finds
  rw [refused] at finds
  have last : batch.seq ∈ markedBy (history ++ [batch]) 1 mark
      (mark ((tablesNow history).applyAll batch.writes)) := by
    unfold markedBy
    rw [window]
    exact ⟨⟨Nat.sub_le _ _, le_rfl⟩, (congrArg mark after).le⟩
  exact Set.eq_empty_iff_forall_notMem.mp finds _ last

end Search

theorem Rising.resolves (rising : Rising history) (point : AsOf) : Resolves history keep point := by
  cases point with
  | seq target => exact finds_of_rising fun early late order => (rising early late order).commitSeq
  | time target => exact finds_of_rising fun early late order => (rising early late order).commitTime

/-- **A past point resolves to the last commit that is not after it**, and to an error when the window
has none, under every window and after every commit of a history, just in case no commit of it sets
the sequence or the time back. -/
theorem as_of_exact (landings : List Landing) :
    (∀ past, past <+: landings → ∀ keep point, Resolves (landAll past) keep point) ↔
      ∀ past landing, past ++ [landing] <+: landings → landing.Forward (landAll past) := by
  constructor
  · intro resolves past landing started
    refine Landing.forward_iff.mpr fun batch landed => ?_
    have found := resolves _ started 1
    rw [landAll_concat, land, show landing.batch (landAll past) = some batch from landed,
      Option.toList_some] at found
    have ordered := ordered_landAll past
    exact ⟨ordered.mark_kept (Landing.later landed) (found (.seq _)),
      ordered.mark_kept (Landing.later landed) (found (.time _))⟩
  · intro forward past started keep point
    refine Rising.resolves (AllForward.rising fun first landing earlier => ?_) point
    exact forward first landing (earlier.trans started)

/-- Two commits, the clock set back between them. -/
def clockSetBack : List Landing := [.withWrite ⟨[], nofun⟩ 10, .withWrite ⟨[], nofun⟩ 5]

/-- The time of the second resolves to the snapshot before the first. -/
theorem clock_set_back_missed :
    resolveAsOf (landAll clockSetBack) 0 (.time 5) = .ok 0 ∧
      2 ∈ candidates (landAll clockSetBack) 0 (.time 5) ∧
      ¬ Resolves (landAll clockSetBack) 0 (.time 5) := by
  have zero : resolveAsOf (landAll clockSetBack) 0 (.time 5) = .ok 0 := by with_unfolding_all decide
  have two : 2 ∈ candidates (landAll clockSetBack) 0 (.time 5) :=
    ⟨by decide, show recordedTime _ ≤ 5 by decide⟩
  refine ⟨zero, two, fun resolves => ?_⟩
  unfold Resolves at resolves
  rw [zero] at resolves
  exact absurd (resolves.2 two) (by decide)

end DrStrange.Graph
