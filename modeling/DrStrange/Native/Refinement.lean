/-
**The engine refines the versioned map.**

Every reader reads the fold of the batches up to its snapshot, and a write transaction reads that
fold with its own calls applied, after any run of the engine: transactions that commit or are
dropped, readers that come and go, flushes, compactions, failed appends and failed maintenance, in
any order the gate allows.
-/

import DrStrange.Native.Live
import DrStrange.Native.Postcard

namespace DrStrange.Native

open Std Versioned

/-! ### Runs -/

/-- A step that is allowed where it is taken. -/
def Trace.Moves (config : Config) (allowed : Trace → Action → Prop) (before after : Trace) : Prop :=
  ∃ action, allowed before action ∧ before.step config action = some after

/-- A run of allowed steps from a fresh directory. -/
def Trace.Run (config : Config) (allowed : Trace → Action → Prop) (trace : Trace) : Prop :=
  ∃ readOnly, Relation.ReflTransGen (Trace.Moves config allowed)
    (Trace.fresh config.codec readOnly) trace

/-- Take the actions one after the other, each only where `check` lets it pass. -/
def Trace.run (config : Config) (check : Trace → Action → Bool) (trace : Trace) :
    List Action → Option Trace
  | [] => some trace
  | action :: actions =>
    if check trace action then
      (trace.step config action).bind fun after => after.run config check actions
    else none

variable {allowed : Trace → Action → Prop} {check : Trace → Action → Bool} {actions : List Action}
  {config : Config} {trace : Trace}

theorem Trace.run_moves (sound : ∀ trace action, check trace action = true → allowed trace action)
    {before after : Trace} (ran : before.run config check actions = some after) :
    Relation.ReflTransGen (Trace.Moves config allowed) before after := by
  induction actions generalizing before with
  | nil =>
    obtain rfl := Option.some.inj ran
    exact .refl
  | cons action actions ih =>
    rw [Trace.run] at ran
    split_ifs at ran with passed
    obtain ⟨next, stepped, rest⟩ := Option.bind_eq_some_iff.mp ran
    exact .head ⟨action, sound before action passed, stepped⟩ (ih rest)

/-- The trace at the end of a run from a fresh directory. -/
def Trace.reached (config : Config) (check : Trace → Action → Bool) (actions : List Action) : Trace :=
  ((Trace.fresh config.codec false).run config check actions).getD (Trace.fresh config.codec false)

theorem Trace.reached_run (sound : ∀ trace action, check trace action = true → allowed trace action)
    (taken : ((Trace.fresh config.codec false).run config check actions).isSome) :
    Trace.Run config allowed (Trace.reached config check actions) := by
  obtain ⟨after, same⟩ := Option.isSome_iff_exists.mp taken
  have ends : Trace.reached config check actions = after := by
    rw [Trace.reached, same]
    rfl
  rw [ends]
  exact ⟨false, Trace.run_moves sound same⟩

/-! ### A fresh directory -/

theorem LiveInv.fresh (codec : WalCodec) (readOnly : Bool) :
    LiveInv (Trace.fresh codec readOnly) := by
  refine ⟨⟨List.Pairwise.nil, nofun, nofun, ?_, nofun, List.Pairwise.nil, ?_, le_rfl⟩, ?_, nofun,
    le_rfl, trivial⟩
  · show Recent (memSource ∅) (logOf [])
    rw [memSource_empty]
    exact Recent.nil _
  · intro user snapshot _ _
    show value none = value (visible (recorded (logOf [])) user snapshot)
    rw [visible_eq_none_iff.mpr fun _ _ => rfl]
  · intro snapshot
    show ExtTreeMap.getD ∅ snapshot 0 = 0
    simp

/-! ### Reads of a live engine -/

/-- The process lives on, and readers are opened at the latest commit. -/
def Action.lives : Action → Bool
  | .crash _ _ | .beginReadAt _ => false
  | _ => true

def Trace.Lives (_ : Trace) (action : Action) : Prop := action.lives = true

theorem Trace.Lives.promised {action : Action} (lives : trace.Lives action) :
    action.isCrash = false ∧ trace.Promised action := by
  cases action <;> cases lives <;> exact ⟨rfl, trivial⟩

theorem LiveInv.run {config : Config} {trace : Trace} (run : Trace.Run config Trace.Lives trace) :
    LiveInv trace := by
  obtain ⟨readOnly, moves⟩ := run
  induction moves with
  | refl => exact LiveInv.fresh config.codec readOnly
  | tail _ move ih =>
    obtain ⟨action, lives, stepped⟩ := move
    exact ih.step lives.promised.1 lives.promised.2 stepped

/-- What a reader answers: every `get`, and every `range` whose bounds are in order. -/
structure Answers (get : TableId → Bytes → Option Bytes)
    (range : TableId → Bytes → Option Bytes → Option (List (Bytes × Bytes))) (map : KvMap) :
    Prop where
  get : ∀ table key, get table key = map.get table key
  range : ∀ table start stop, rangeValid start stop = true →
    range table start stop = some (map.range table start stop)

theorem StoreInv.reader_answers {store : Store} {history : List Batch} {floor : ℕ}
    (inv : StoreInv store history floor) {txn : ReadTxn} (above : floor ≤ txn.snapshot) :
    Answers (txn.get store) (txn.range store) (stateAt history txn.snapshot) where
  get := ReadTxn.get_of_based (inv.based above)
  range := fun table _ _ valid => ReadTxn.range_of_based (inv.based above) table valid

theorem LiveInv.writer_answers (inv : LiveInv trace) {txn : WriteTxn}
    (phase : trace.engine.phase = .writing txn) :
    Answers (txn.get trace.engine.store) (txn.range trace.engine.store)
      (trace.calls.foldl KvMap.call (stateAt trace.history txn.snapshot)) := by
  have held := inv.phase
  rw [PhaseInv, phase] at held
  obtain ⟨snapshot, -, shows_⟩ := held
  rw [← snapshot] at shows_
  have based := inv.store.based (inv.store.floorLow.trans (Nat.le_of_eq snapshot.symm))
  exact ⟨WriteTxn.get_of_shows based shows_, fun table _ _ valid =>
    WriteTxn.range_of_shows based shows_ table valid⟩

/-- **The engine refines the versioned map.** After any run, the batches stand in sequence order,
every open reader reads the fold of those up to its snapshot, and an open write transaction reads
the fold at its snapshot with its own calls applied. -/
theorem engine_refines_history {config : Config} {trace : Trace}
    (run : Trace.Run config Trace.Lives trace) :
    (trace.history.map Batch.seq).Pairwise (· < ·) ∧
    (∀ txn ∈ trace.engine.reads, Answers (txn.get trace.engine.store) (txn.range trace.engine.store)
      (stateAt trace.history txn.snapshot)) ∧
    ∀ txn, trace.engine.phase = .writing txn →
      Answers (txn.get trace.engine.store) (txn.range trace.engine.store)
        (trace.calls.foldl KvMap.call (stateAt trace.history txn.snapshot)) := by
  have inv := LiveInv.run run
  refine ⟨?_, fun txn member => ?_, fun txn phase => ?_⟩
  · have ascending := inv.store.ascending
    rw [Ascending, logOf, List.pairwise_map] at ascending
    rw [List.pairwise_map]
    exact ascending
  · exact inv.store.reader_answers (inv.reads txn member).1
  · exact inv.writer_answers phase

/-- Every commit is flushed at once. -/
def eagerConfig : Config := ⟨postcardCodec, 1⟩

/-- One transaction with one call, up to its publish. -/
def commitOf (call : Call) : List Action :=
  [.beginWrite, .call call, .commit 0, .append none, .publish]

/-- A flush that is due, in all its steps. -/
def flushSteps : List Action := List.replicate 6 .maintain

/-- A key is written, a reader opens, the key is deleted and flushed, a writer stages over it. -/
def readerOverDelete : List Action :=
  commitOf (.put .nodes [1] [7]) ++ flushSteps ++ [.maintain, .beginRead] ++
    commitOf (.delete .nodes [1]) ++ flushSteps ++
    [.maintain, .beginWrite, .call (.put .nodes [2] [9])]

def readerOverDeleteTrace : Trace :=
  Trace.reached eagerConfig (fun _ action => action.lives) readerOverDelete

theorem readerOverDelete_run : Trace.Run eagerConfig Trace.Lives readerOverDeleteTrace :=
  Trace.reached_run (fun _ _ => id) (by decide)

theorem engine_refines_history_over_delete :
    (⟨1⟩ : ReadTxn) ∈ readerOverDeleteTrace.engine.reads ∧
      (⟨1⟩ : ReadTxn).get readerOverDeleteTrace.engine.store .nodes [1] = some [7] ∧
      (stateAt readerOverDeleteTrace.history 1).get .nodes [1] = some [7] := by
  have opened : (⟨1⟩ : ReadTxn) ∈ readerOverDeleteTrace.engine.reads := by decide
  have folded : (stateAt readerOverDeleteTrace.history 1).get .nodes [1] = some [7] := by
    decide
  refine ⟨opened, ?_, folded⟩
  rw [((engine_refines_history readerOverDelete_run).2.1 _ opened).get]
  exact folded

end DrStrange.Native
