/-
**What the engine is for: a map, and its state after each commit.**

The abstract side of the native engine. A committed transaction is a batch of ops; the state at a
sequence is the fold of the batches up to it into an empty map (`stateAt`). Nothing here knows of
memtables, runs or logs.

`stateAt_getElem?` reads that fold as the newest recorded version of a key, which is the form in
which the layers below answer.
-/

import DrStrange.Lib.TreeMap
import DrStrange.Native.Read

namespace DrStrange.Native

open Std Versioned

/-- The contents of all tables. -/
abbrev KvMap := ExtTreeMap UserKey Bytes compare

/-- One op applied. -/
def KvMap.apply (map : KvMap) (user : UserKey) : Op → KvMap
  | .put value => map.insert user value
  | .del => map.erase user

/-- A batch of ops applied. -/
def KvMap.applyOps (map : KvMap) (ops : Ops) : KvMap := ops.foldl KvMap.apply map

def KvMap.get (map : KvMap) (table : TableId) (key : Bytes) : Option Bytes :=
  map[(⟨table.index, key⟩ : UserKey)]?

/-- The pairs of `[start, stop)` of one table, in key order. -/
def KvMap.range (map : KvMap) (table : TableId) (start : Bytes) (stop : Option Bytes) :
    List (Bytes × Bytes) :=
  (map.toList.filter fun pair => pair.1.table = table.index && inRange start stop pair.1.key).map
    fun pair => (pair.1.key, pair.2)

theorem KvMap.apply_getElem? (map : KvMap) (user other : UserKey) (op : Op) :
    (map.apply user op)[other]? = if user = other then op.intoValue else map[other]? := by
  cases op with
  | put value => simp [KvMap.apply, Op.intoValue, ExtTreeMap.getElem?_insert]
  | del => simp [KvMap.apply, Op.intoValue, ExtTreeMap.getElem?_erase]

theorem KvMap.applyOps_getElem? (map : KvMap) (ops : Ops) (user : UserKey) :
    (map.applyOps ops)[user]? = ops[user]?.elim map[user]? Op.intoValue := by
  refine ExtTreeMap.foldl_observe (fun map : KvMap => map[user]?) Op.intoValue user ?_ ?_
  · exact fun map op => by rw [KvMap.apply_getElem?, if_pos rfl]
  · exact fun map other op different => by rw [KvMap.apply_getElem?, if_neg different]

/-- A map that holds the pairs of a range lists them as the range does. -/
theorem KvMap.toList_eq_range {map : KvMap} {table : TableId} {start : Bytes}
    {stop : Option Bytes} {out : ExtTreeMap Bytes Bytes compare}
    (same : ∀ key, out[key]? = if inRange start stop key then map.get table key else none) :
    out.toList = map.range table start stop := by
  refine ExtTreeMap.toList_eq_of_pairwise ?_ fun key value => ?_
  · -- Inside one table the order of the map is the order of the keys.
    rw [KvMap.range, List.pairwise_map, List.pairwise_filter]
    refine ExtTreeMap.ordered_keys_toList.imp fun {a b} less inA inB => ?_
    rw [Bool.and_eq_true, decide_eq_true_eq] at inA inB
    rw [UserKey.compare_lt_iff, inA.1, inB.1, compare_self] at less
    rcases less with absurd | ⟨-, keys⟩
    · cases absurd
    · exact keys
  · rw [same, KvMap.range, List.mem_map]
    constructor
    · rintro ⟨⟨⟨byte, other⟩, held⟩, member, pair⟩
      obtain ⟨rfl, rfl⟩ := Prod.mk.inj pair
      obtain ⟨listed, inside⟩ := List.mem_filter.mp member
      rw [Bool.and_eq_true, decide_eq_true_eq] at inside
      have found := ExtTreeMap.mem_toList_iff_getElem?_eq_some.mp listed
      obtain ⟨rfl, inside⟩ := inside
      rw [if_pos inside]
      exact found
    · intro found
      by_cases inside : inRange start stop key
      · rw [if_pos inside] at found
        refine ⟨(⟨table.index, key⟩, value), List.mem_filter.mpr ⟨?_, by simp [inside]⟩, rfl⟩
        exact ExtTreeMap.mem_toList_iff_getElem?_eq_some.mpr found
      · rw [if_neg inside] at found
        cases found

/-! ### The state at a sequence -/

/-- A committed transaction. -/
structure Batch where
  seq : ℕ
  ops : Ops

/-- All batches up to the snapshot, folded in commit order into an empty map. -/
def stateAt (history : List Batch) (snapshot : ℕ) : KvMap :=
  (history.filter fun batch => batch.seq ≤ snapshot).foldl (fun map batch => map.applyOps batch.ops) ∅

/-- All batches, folded in commit order into an empty map. -/
def foldAll (history : List Batch) : KvMap :=
  history.foldl (fun map batch => map.applyOps batch.ops) ∅

variable {history : List Batch}

/-- From the last batch on, the state is the fold of them all. -/
theorem stateAt_of_forall_le {snapshot : ℕ} (bounded : ∀ batch ∈ history, batch.seq ≤ snapshot) :
    stateAt history snapshot = foldAll history := by
  rw [stateAt, foldAll, List.filter_eq_self.mpr fun batch member =>
    decide_eq_true (bounded batch member)]

/-- A history as a log of versions. -/
def logOf (history : List Batch) : Log UserKey Op :=
  history.map fun batch => (batch.seq, fun user => batch.ops[user]?)

theorem logOf_append (first second : List Batch) :
    logOf (first ++ second) = logOf first ++ logOf second := List.map_append

/-- **The fold of the batches is the newest version of every key.** -/
theorem stateAt_getElem? (ascending : Ascending (logOf history)) (snapshot : ℕ) (user : UserKey) :
    (stateAt history snapshot)[user]? =
      (visible (recorded (logOf history)) user snapshot).bind Op.intoValue := by
  induction history using List.reverseRecOn with
  | nil =>
    have unseen : visible (recorded (logOf [])) user snapshot = none :=
      visible_eq_none_iff.mpr fun _ _ => rfl
    rw [unseen]
    rfl
  | append_singleton history batch ih =>
    have older : Ascending (logOf history) := by
      rw [logOf_append] at ascending
      exact (List.pairwise_append.mp ascending).1
    rw [logOf_append] at ascending ⊢
    rw [show logOf [batch] = [(batch.seq, fun user => batch.ops[user]?)] from rfl] at ascending ⊢
    rw [visible_recorded_concat ascending, stateAt, List.filter_append, List.foldl_append]
    have rest := ih older
    rw [stateAt] at rest
    by_cases reached : batch.seq ≤ snapshot
    · rw [if_pos reached, List.filter_cons_of_pos (by simpa using reached), List.filter_nil,
        List.foldl_cons, List.foldl_nil, KvMap.applyOps_getElem?, rest]
      show _ = (batch.ops[user]?.or _).bind Op.intoValue
      cases batch.ops[user]? <;> rfl
    · rw [if_neg reached, List.filter_cons_of_neg (by simpa using reached), List.filter_nil,
        List.foldl_nil, rest]

end DrStrange.Native
