/-
**Runs of the engine, with their history.**

`Trace` carries beside the engine what an observer of its runs would write down: the batches in the
order they were published, those whose commit has returned `Ok`, the batch of the commit under way,
the calls of the open write transaction, and the highest snapshot any compaction has reclaimed from.
None of it is read by the engine.

`LiveInv` is what every run keeps while the process lives: the store shows its history from the floor
on, every open reader is at or above the floor, and the holder of the gate stands where its phase
says (`LiveInv.step`). Files are read in it only where the code reads them, after the rename of a
run it has just written.
-/

import DrStrange.Native.Visibility

namespace DrStrange.Native

open Std Versioned

/-- An engine and what has been asked of it so far. -/
structure Trace where
  engine : Engine
  /-- Published, in order. -/
  history : List Batch
  /-- Those whose commit returned `Ok`. -/
  acked : List Batch
  /-- The commit under way. -/
  flight : Option Batch
  /-- The calls of the open write transaction. -/
  calls : List Call
  /-- No snapshot below this is promised any more. -/
  floor : ℕ

/-- The batch a commit under way carries, before it is published. -/
def Phase.batch? : Phase → Option Batch
  | .logging seq ops | .logged seq ops => some ⟨seq, ops⟩
  | _ => none

def Phase.isIdle : Phase → Bool
  | .idle => true
  | _ => false

/-- The record of the commit under way is in the log after a crash at `cut`. -/
def Trace.survives (codec : WalCodec) (trace : Trace) (cut : ℕ) : Bool :=
  match trace.engine.phase with
  | .logged _ _ => true
  | .logging seq ops =>
    match walRecord codec (Batch.toWal ⟨seq, ops⟩) with
    | .ok record => trace.engine.wal.buf.length + record.length ≤ cut
    | .error _ => false
  | _ => false

/-- The batch under way, if a crash at `cut` keeps it. -/
def Trace.survivors (codec : WalCodec) (trace : Trace) (cut : ℕ) : List Batch :=
  if trace.survives codec cut then trace.flight.toList else []

/-- The floor after a step of maintenance: the swap of a compaction gives up what lies below its
snapshot. -/
def Trace.reclaim (trace : Trace) : ℕ :=
  match trace.engine.phase with
  | .mergedRenamed _ _ minSnapshot => max trace.floor minSnapshot
  | _ => trace.floor

/-- The floor after a crash. A compaction that dies between its unlinks leaves no promise about the
past. -/
def Trace.crashFloor (trace : Trace) (reopened : Engine) : ℕ :=
  match trace.engine.phase with
  | .unlinking .. => reopened.store.committedSeq
  | _ => trace.floor

/-- The trace after the engine has taken a step. -/
def Trace.follow (codec : WalCodec) (trace : Trace) (action : Action) (engine : Engine) : Trace :=
  match action with
  | .beginWrite | .beginWriteUnchecked => { trace with engine, calls := [] }
  | .call call => { trace with engine, calls := trace.calls ++ [call] }
  | .commit _ | .applyReplicated _ | .append _ => { trace with engine, flight := engine.phase.batch? }
  | .publish => { trace with engine, history := trace.history ++ trace.flight.toList }
  | .maintain =>
    { trace with
      engine
      floor := trace.reclaim
      acked := if engine.phase.isIdle then trace.history else trace.acked
      flight := if engine.phase.isIdle then none else trace.flight }
  | .maintenanceFails => { trace with engine, acked := trace.history, flight := none }
  | .crash cut _ =>
    let recovered := trace.history ++ trace.survivors codec cut
    { engine
      history := recovered
      acked := recovered
      flight := none
      calls := []
      floor := trace.crashFloor engine }
  | _ => { trace with engine }

def Trace.step (config : Config) (trace : Trace) (action : Action) : Option Trace :=
  (trace.engine.step config action).map (trace.follow config.codec action)

def Trace.fresh (codec : WalCodec) (readOnly : Bool) : Trace :=
  ⟨Engine.fresh codec readOnly, [], [], none, [], 0⟩

/-! ### Open readers -/

/-- The reader counts are the open transactions, counted. -/
def Counted (engine : Engine) : Prop :=
  ∀ snapshot, engine.readers.getD snapshot 0 = (engine.reads.map ReadTxn.snapshot).count snapshot

variable {engine : Engine}

theorem Counted.register (counted : Counted engine) (snapshot : ℕ) :
    Counted (engine.register snapshot) := by
  intro other
  simp only [Engine.register, List.map_append, List.map_cons, List.map_nil, List.count_append]
  rw [ExtTreeMap.getD_insert]
  by_cases same : snapshot = other
  · subst same
    rw [if_pos (Std.compare_eq_iff_eq.mpr rfl), counted]
    simp
  · rw [if_neg (by rw [Std.compare_eq_iff_eq]; exact same), counted]
    simp [same]

theorem Counted.dropRead {after : Engine} {index : ℕ} (counted : Counted engine)
    (dropped : engine.dropRead index = some after) : Counted after := by
  rw [Engine.dropRead, Option.map_eq_some_iff] at dropped
  obtain ⟨txn, held, rfl⟩ := dropped
  intro other
  have total := counted other
  obtain ⟨inside, at_⟩ := List.getElem?_eq_some_iff.mp held
  have removed := ((List.getElem_cons_eraseIdx_perm inside).map ReadTxn.snapshot).count_eq other
  rw [at_, List.map_cons, List.count_cons] at removed
  have own := counted txn.snapshot
  have positive : 0 < (engine.reads.map ReadTxn.snapshot).count txn.snapshot :=
    List.count_pos_iff.mpr (List.mem_map_of_mem (List.mem_of_getElem? held))
  cases found : engine.readers[txn.snapshot]? with
  | none =>
    rw [ExtTreeMap.getD_eq_getD_getElem?, found, Option.getD_none] at own
    omega
  | some count =>
    rw [ExtTreeMap.getD_eq_getD_getElem?, found, Option.getD_some] at own
    simp only
    by_cases same : txn.snapshot = other
    · subst same
      rw [if_pos (by simp)] at removed
      by_cases last : count - 1 = 0
      · rw [if_pos last, ExtTreeMap.getD_erase_self]
        omega
      · rw [if_neg last, ExtTreeMap.getD_insert_self]
        omega
    · have different : ¬ compare txn.snapshot other = .eq := by
        rw [Std.compare_eq_iff_eq]
        exact same
      rw [if_neg (by simpa using same)] at removed
      by_cases last : count - 1 = 0
      · rw [if_pos last, ExtTreeMap.getD_erase, if_neg different]
        omega
      · rw [if_neg last, ExtTreeMap.getD_insert, if_neg different]
        omega

/-- No open reader is below the snapshot a compaction reclaims from. -/
theorem Counted.minSnapshot_le (counted : Counted engine) {txn : ReadTxn}
    (member : txn ∈ engine.reads) (committedSeq : ℕ) :
    engine.minSnapshot committedSeq ≤ txn.snapshot := by
  have total := counted txn.snapshot
  have positive : 0 < (engine.reads.map ReadTxn.snapshot).count txn.snapshot :=
    List.count_pos_iff.mpr (List.mem_map_of_mem member)
  have held : (engine.readers[txn.snapshot]?).isSome := by
    cases found : engine.readers[txn.snapshot]? with
    | none =>
      rw [ExtTreeMap.getD_eq_getD_getElem?, found, Option.getD_none] at total
      omega
    | some count => rfl
  obtain ⟨count, found⟩ := Option.isSome_iff_exists.mp held
  have listed := ExtTreeMap.mem_toList_iff_getElem?_eq_some.mpr found
  rw [Engine.minSnapshot]
  refine (min_le_left _ _).trans ((min_le_left _ _).trans ?_)
  cases order : engine.readers.toList with
  | nil =>
    rw [order] at listed
    cases listed
  | cons first rest =>
    rw [order] at listed
    rcases List.mem_cons.mp listed with rfl | later
    · exact le_rfl
    · have ordered := ExtTreeMap.ordered_keys_toList (t := engine.readers)
      rw [order] at ordered
      have less := (List.pairwise_cons.mp ordered).1 _ later
      exact Nat.le_of_lt (Nat.compare_eq_lt.mp less)

theorem Engine.minSnapshot_le_committed (engine : Engine) (committedSeq : ℕ) :
    engine.minSnapshot committedSeq ≤ committedSeq :=
  (min_le_left _ _).trans (min_le_right _ _)

/-! ### The invariant of a live engine -/

/-- The snapshot a compaction under way will reclaim from. -/
def Phase.pendingFloor : Phase → ℕ
  | .floored _ _ _ minSnapshot | .mergedTemp _ _ minSnapshot | .mergedRenamed _ _ minSnapshot =>
    minSnapshot
  | _ => 0

/-- What the holder of the gate has established so far. -/
def PhaseInv (trace : Trace) : Prop :=
  let engine := trace.engine
  let store := engine.store
  match engine.phase with
  | .writing txn => txn.snapshot = store.committedSeq ∧ Known txn.buf ∧
      txn.Shows (stateAt trace.history store.committedSeq) trace.calls
  | .logging seq ops | .logged seq ops =>
    store.committedSeq < seq ∧ Known ops ∧ trace.flight = some ⟨seq, ops⟩
  | .flushTemp number => number = store.nextSst ∧ engine.dir.temps[number]? = some store.flushRun
  | .flushRenamed number => number = store.nextSst ∧ engine.dir.files[number]? = some store.flushRun
  | .captured runs committedSeq next =>
    runs = store.ssts ∧ committedSeq = store.committedSeq ∧ next = store.nextSst
  | .floored runs committedSeq next _ =>
    runs = store.ssts ∧ committedSeq = store.committedSeq ∧ next = store.nextSst
  | .mergedTemp runs next minSnapshot => runs = store.ssts ∧ next = store.nextSst ∧
      engine.dir.temps[next]? = some (compactedRun runs store.committedSeq minSnapshot)
  | .mergedRenamed runs next minSnapshot => runs = store.ssts ∧ next = store.nextSst ∧
      engine.dir.files[next]? = some (compactedRun runs store.committedSeq minSnapshot)
  | _ => True

/-- What every step keeps in memory. -/
structure LiveInv (trace : Trace) : Prop where
  store : StoreInv trace.engine.store trace.history trace.floor
  counted : Counted trace.engine
  reads : ∀ txn ∈ trace.engine.reads, trace.floor ≤ txn.snapshot ∧
    trace.engine.phase.pendingFloor ≤ txn.snapshot
  pending : trace.engine.phase.pendingFloor ≤ trace.engine.store.committedSeq
  phase : PhaseInv trace

/-- The reader a step opens is one the invariant promises something about: `begin_read_at` is at or
above every snapshot a compaction has reclaimed from, or is about to. -/
def Trace.Promised (trace : Trace) : Action → Prop
  | .beginReadAt snapshot => (trace.engine.beginReadAt snapshot).isOk →
      trace.floor ≤ snapshot ∧ trace.engine.phase.pendingFloor ≤ snapshot
  | _ => True

def Action.isCrash : Action → Bool
  | .crash _ _ => true
  | _ => false

end DrStrange.Native
