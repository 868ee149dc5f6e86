/-
**The native engine's data: tables, keys, versions, runs and the store.**

A version is stamped with the sequence of the transaction that wrote it. A memtable and a run keep
their versions in one order, `(table, key, seq DESC)`, so that the versions of a key stand
together, newest first. Sequences are natural numbers: the counter of the code is a `u64` that one
commit advances by one.

`Run` is the content of one SST file as it reads back, `Sst` an open file: its content and the
number in its name. That the entries of a run are in order is a field of the structure, so every
scan below may rely on it.
-/

import DrStrange.Basic
import DrStrange.Lib.Versioned

namespace DrStrange.Native

open Std Versioned

/-- The logical tables of the graph encoding. -/
inductive TableId where
  | metadata
  | planes
  | planeNames
  | nodes
  | edges
  | adjFwd
  | adjRev
  | labelIdx
  | extKeys
  | propIdx
  | nodePlane
  deriving DecidableEq, Repr

/-- `TableId::ALL`, in the order the table bytes are assigned. -/
def TableId.all : List TableId :=
  [.metadata, .planes, .planeNames, .nodes, .edges, .adjFwd, .adjRev, .labelIdx, .extKeys,
    .propIdx, .nodePlane]

/-- The byte of a table: its position in `TableId.all`. -/
def TableId.index (table : TableId) : UInt8 := (TableId.all.idxOf table).toUInt8

/-- A write of one key: a value, or a tombstone. -/
inductive Op where
  | put (value : Bytes)
  | del
  deriving DecidableEq, Repr

/-- How a read reports an op: a tombstone is an absent key. -/
def Op.intoValue : Op → Option Bytes
  | .put value => some value
  | .del => none

/-- The bytes the op's value takes in the memtable. -/
def Op.valueLen : Op → ℕ
  | .put value => value.length
  | .del => 0

/-! ### Keys and their order -/

/-- A key of one table. -/
structure UserKey where
  table : UInt8
  key : Bytes
  deriving DecidableEq, Repr

instance : Ord UserKey := ⟨fun a b => (compare a.table b.table).then (compare a.key b.key)⟩

instance : TransOrd UserKey :=
  inferInstanceAs (TransCmp (compareLex (compareOn UserKey.table) (compareOn UserKey.key)))

instance : LawfulEqOrd UserKey where
  eq_of_compare {a b} same := by
    cases a
    cases b
    obtain ⟨table, key⟩ := Ordering.then_eq_eq.mp same
    rw [Std.compare_eq_iff_eq] at table key
    exact congr (congrArg UserKey.mk table) key

/-- One version of a key. -/
structure MemKey where
  user : UserKey
  seq : ℕ
  deriving DecidableEq, Repr

/-- `Reverse(seq)`: the versions of a key stand newest first. -/
instance : Ord MemKey := ⟨fun a b => (compare a.user b.user).then (compare b.seq a.seq)⟩

instance : TransOrd MemKey :=
  inferInstanceAs (TransCmp (compareLex (compareOn MemKey.user) fun a b => compareOn MemKey.seq b a))

instance : LawfulEqOrd MemKey where
  eq_of_compare {a b} same := by
    cases a
    cases b
    obtain ⟨user, seq⟩ := Ordering.then_eq_eq.mp same
    rw [Std.compare_eq_iff_eq] at user seq
    exact congr (congrArg MemKey.mk user) seq.symm

theorem MemKey.compare_lt_iff {a b : MemKey} :
    compare a b = .lt ↔ compare a.user b.user = .lt ∨ a.user = b.user ∧ b.seq < a.seq := by
  show (compare a.user b.user).then (compare b.seq a.seq) = .lt ↔ _
  rw [Ordering.then_eq_lt, Std.compare_eq_iff_eq, Nat.compare_eq_lt]

theorem UserKey.compare_lt_iff {a b : UserKey} :
    compare a b = .lt ↔
      compare a.table b.table = .lt ∨ a.table = b.table ∧ compare a.key b.key = .lt := by
  show (compare a.table b.table).then (compare a.key b.key) = .lt ↔ _
  rw [Ordering.then_eq_lt, Std.compare_eq_iff_eq]

/-! ### Entries in order -/

abbrev Entry := MemKey × Op

/-- Strictly ascending in `(table, key, seq DESC)`. -/
def Sorted (entries : List Entry) : Prop := entries.Pairwise fun a b => compare a.1 b.1 = .lt

instance (entries : List Entry) : Decidable (Sorted entries) :=
  inferInstanceAs (Decidable (entries.Pairwise _))

/-- A list of entries read as a versioned source. -/
def entrySource (entries : List Entry) : Source UserKey Op :=
  fun user seq => (entries.find? fun entry => entry.1 = ⟨user, seq⟩).map Prod.snd

theorem entrySource_nil : entrySource [] = fun _ _ => none := rfl

theorem entrySource_cons (entry : Entry) (entries : List Entry) (user : UserKey) (seq : ℕ) :
    entrySource (entry :: entries) user seq =
      if entry.1 = ⟨user, seq⟩ then some entry.2 else entrySource entries user seq := by
  unfold entrySource
  by_cases same : entry.1 = ⟨user, seq⟩
  · rw [if_pos same, List.find?_cons_of_pos (by simpa using same), Option.map_some]
  · rw [if_neg same, List.find?_cons_of_neg (by simpa using same)]

variable {entries : List Entry} {user : UserKey} {entry : Entry} {snapshot seq : ℕ} {op : Op}

theorem mem_of_entrySource (found : entrySource entries user seq = some op) :
    (⟨user, seq⟩, op) ∈ entries := by
  rw [entrySource, Option.map_eq_some_iff] at found
  obtain ⟨⟨key, value⟩, hit, rfl⟩ := found
  have same : key = ⟨user, seq⟩ := by simpa using List.find?_some hit
  subst same
  exact List.mem_of_find?_eq_some hit

theorem entrySource_eq_none (other : ∀ entry ∈ entries, entry.1 ≠ ⟨user, seq⟩) :
    entrySource entries user seq = none := by
  cases found : entrySource entries user seq with
  | none => rfl
  | some op => exact absurd rfl (other _ (mem_of_entrySource found))

theorem Sorted.entrySource_of_mem (sorted : Sorted entries) (key : MemKey)
    (member : (key, op) ∈ entries) : entrySource entries key.user key.seq = some op := by
  induction entries with
  | nil => cases member
  | cons entry entries ih =>
    rw [Sorted, List.pairwise_cons] at sorted
    rw [entrySource_cons]
    rcases List.mem_cons.mp member with rfl | below
    · exact if_pos rfl
    · have ascends := sorted.1 _ below
      have different : entry.1 ≠ ⟨key.user, key.seq⟩ := by
        intro same
        rw [same, compare_self] at ascends
        cases ascends
      rw [if_neg different, ih sorted.2 below]

theorem Sorted.mem_iff (sorted : Sorted entries) (key : MemKey) (op : Op) :
    (key, op) ∈ entries ↔ entrySource entries key.user key.seq = some op :=
  ⟨sorted.entrySource_of_mem key, mem_of_entrySource⟩

/-- An entry that is not a visible version of the key is passed over. -/
theorem visible_entrySource_skip (passed : entry.1.user = user → snapshot < entry.1.seq) :
    visible (entrySource (entry :: entries)) user snapshot =
      visible (entrySource entries) user snapshot := by
  refine visible_congr fun seq low => ?_
  rw [entrySource_cons, if_neg]
  intro same
  have late := passed (by rw [same])
  rw [same] at late
  exact absurd low (Nat.not_le.mpr late)

/-- In order, the first version at or below the snapshot is the newest. -/
theorem Sorted.visible_entrySource_hit (sorted : Sorted (entry :: entries))
    (low : entry.1.seq ≤ snapshot) :
    visible (entrySource (entry :: entries)) entry.1.user snapshot = some entry.2 := by
  refine visible_eq_some low ?_ fun later above _ => ?_
  · rw [entrySource_cons, if_pos rfl]
  · refine entrySource_eq_none fun other member same => ?_
    rcases List.mem_cons.mp member with rfl | below
    · rw [same] at above
      exact Nat.lt_irrefl _ above
    · have ascends := (List.pairwise_cons.mp sorted).1 other below
      rw [same, MemKey.compare_lt_iff] at ascends
      rcases ascends with less | ⟨-, older⟩
      · rw [compare_self] at less
        cases less
      · exact Nat.lt_asymm above older

/-! ### Memtables, runs and the store -/

/-- Versions in memory, by key, newest first. -/
abbrev Memtable := ExtTreeMap MemKey Op compare

/-- Staged or committed writes, one per key: `BTreeMap<(u8, Vec<u8>), Op>`. -/
abbrev Ops := ExtTreeMap UserKey Op compare

def memSource (mem : Memtable) : Source UserKey Op := entrySource mem.toList

theorem Memtable.sorted_toList (mem : Memtable) : Sorted mem.toList := by
  have ordered := ExtTreeMap.ordered_keys_toList (t := mem)
  exact ordered

theorem memSource_eq (mem : Memtable) (user : UserKey) (seq : ℕ) :
    memSource mem user seq = mem[(⟨user, seq⟩ : MemKey)]? := by
  cases found : mem[(⟨user, seq⟩ : MemKey)]? with
  | some op =>
    refine (Memtable.sorted_toList mem).entrySource_of_mem ⟨user, seq⟩ ?_
    exact ExtTreeMap.mem_toList_iff_getElem?_eq_some.mpr found
  | none =>
    refine entrySource_eq_none fun entry member same => ?_
    have held := (ExtTreeMap.mem_toList_iff_getElem?_eq_some (k := entry.1) (v := entry.2)).mp member
    rw [same, found] at held
    cases held

/-- The format of an SST file, named by its footer magic. -/
inductive Version where
  | v1
  | v2
  deriving DecidableEq, Repr

/-- The content of an SST file. -/
structure Run where
  version : Version
  maxSeq : ℕ
  entries : List Entry
  sorted : Sorted entries

/-- An open SST file: its content, and the number its path carries. -/
structure Sst extends Run where
  number : ℕ

def Run.source (run : Run) : Source UserKey Op := entrySource run.entries

def Sst.isLegacy (sst : Sst) : Bool := sst.version = .v1

/-- The memtable, the runs it has been flushed into and the committed sequence. -/
structure Store where
  mem : Memtable
  memBytes : ℕ
  committedSeq : ℕ
  /-- Oldest first: a later run shadows an earlier one. -/
  ssts : List Sst
  nextSst : ℕ

/-- What a read consults, in the order it consults it. -/
def Store.sources (store : Store) : List (Source UserKey Op) :=
  memSource store.mem :: store.ssts.reverse.map fun sst => sst.source

end DrStrange.Native
