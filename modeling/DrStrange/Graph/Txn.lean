/-
**Write transactions as the graph code sees them.**

A transaction reads the tables with its own staged writes on top, and what it commits is the list
of staged writes. `Txn` carries that as a field, so a transaction whose view is not its staged
writes over the tables it began from cannot be built. Graph functions run in `TxnM`: they may fail,
and a failure keeps what was staged before it, because the caller decides whether to commit.

`Runs` is the triple of such a function from given tables: what holds of the result and the tables
coming out, and of the tables a failure leaves.
-/

import DrStrange.Graph.Types

namespace DrStrange.Graph

open Std Std.Do

set_option mvcgen.warning false

/-- An open write transaction over `base`. -/
structure Txn (base : Tables) where
  tables : Tables
  staged : List Write
  shows : tables = base.applyAll staged

variable {base : Tables} {α : Type} {writes : List Write}

def Txn.start (base : Tables) : Txn base := ⟨base, [], rfl⟩

def Txn.stageAll (txn : Txn base) (writes : List Write) : Txn base :=
  ⟨txn.tables.applyAll writes, txn.staged ++ writes, by rw [Tables.applyAll_append, ← txn.shows]⟩

@[simp]
theorem Txn.stageAll_tables {txn : Txn base} :
    (txn.stageAll writes).tables = txn.tables.applyAll writes := rfl

/-- Graph code over a write transaction. -/
abbrev TxnM (base : Tables) := EStateM Error (Txn base)

/-- The tables as the transaction sees them. -/
def view : TxnM base Tables := return (← get).tables

/-- Rows staged one after the other. -/
def stageAll (writes : List Write) : TxnM base Unit := modify fun txn => txn.stageAll writes

/-- One row staged. -/
def stage (write : Write) : TxnM base Unit := stageAll [write]

/-! ### Triples -/

/-- From the tables `before` the function either returns a result with `after` or fails in tables
with `failed`. -/
abbrev Runs (before : Tables) (run : TxnM base α) (after : α → Tables → Prop)
    (failed : Tables → Prop) : Prop :=
  ⦃fun txn => ⌜txn.tables = before⌝⦄ run
  ⦃post⟨fun result txn => ⌜after result txn.tables⌝, fun _ txn => ⌜failed txn.tables⌝⟩⦄

@[spec]
theorem view_spec {post : PostCond Tables (.except Error (.arg (Txn base) .pure))} :
    ⦃fun txn => post.1 txn.tables txn⦄ (view : TxnM base Tables) ⦃post⦄ := by
  mvcgen [view]

@[spec]
theorem stageAll_spec {post : PostCond Unit (.except Error (.arg (Txn base) .pure))} :
    ⦃fun txn => post.1 () (txn.stageAll writes)⦄ (stageAll writes : TxnM base Unit) ⦃post⦄ := by
  mvcgen [stageAll]

/-- What a triple says of one run. -/
theorem Runs.outcome {run : TxnM base α} {after : α → Tables → Prop} {failed : Tables → Prop}
    {txn : Txn base} (triple : Runs txn.tables run after failed) :
    (∀ result next, run txn = .ok result next → after result next.tables) ∧
      ∀ error next, run txn = .error error next → failed next.tables := by
  have ends := triple txn rfl
  simp only [WP.wp, PredTrans.apply, EStateM.run] at ends
  constructor
  · intro result next ran
    simpa [ran] using ends
  · intro error next ran
    simpa [ran] using ends

/-- Two triples of one function, together. -/
theorem Runs.and {before : Tables} {run : TxnM base α} {after after' : α → Tables → Prop}
    {failed failed' : Tables → Prop} (one : Runs before run after failed)
    (two : Runs before run after' failed') :
    Runs before run (fun result tables => after result tables ∧ after' result tables)
      (fun tables => failed tables ∧ failed' tables) := by
  rintro txn rfl
  obtain ⟨returns, fails⟩ := one.outcome
  obtain ⟨returns', fails'⟩ := two.outcome
  simp only [WP.wp, PredTrans.apply, EStateM.run]
  cases ran : run txn with
  | ok result next => exact ⟨returns result next ran, returns' result next ran⟩
  | error error next => exact ⟨fails error next ran, fails' error next ran⟩

end DrStrange.Graph
