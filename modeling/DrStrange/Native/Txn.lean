/-
**Transactions of the native engine: staged writes over a snapshot.**

A read transaction is its pinned snapshot. A write transaction stages its ops in `buf`, last write
wins per key, and reads its own ops over the committed store at its snapshot. `deletePrefix` drops
the staged ops under the prefix and stages a tombstone for every committed key under it, which it
finds with a range up to `prefixSuccessor`.

`Txn.Shows` is the abstract side: the calls of the transaction, applied in order to the map it
started from. `WriteTxn.get_of_shows` and `WriteTxn.range_of_shows` say that reads show that map.
-/

import DrStrange.Native.History

namespace DrStrange.Native

open Std Versioned

/-! ### The successor of a prefix -/

/-- The loop of `prefix_successor` on the reversed prefix: bump the last byte that can be bumped and
drop what stands behind it. -/
def bumpLast : Bytes → Option Bytes
  | [] => none
  | byte :: earlier => if byte = 255 then bumpLast earlier else some (earlier.reverse ++ [byte + 1])

/-- The smallest byte string above every key that starts with the prefix; `none` if the prefix is
all `0xFF`. -/
def prefixSuccessor (start : Bytes) : Option Bytes := bumpLast start.reverse

theorem compare_append_left (start first second : Bytes) :
    compare (start ++ first) (start ++ second) = compare first second := by
  induction start with
  | nil => rfl
  | cons byte start ih => rw [List.cons_append, List.cons_append, List.compare_cons_cons,
      compare_self, ih, Ordering.then]

theorem isLE_append (start rest : Bytes) : (compare start (start ++ rest)).isLE := by
  have joined := compare_append_left start [] rest
  rw [List.append_nil] at joined
  rw [joined]
  cases rest <;> rfl

variable {base : KvMap} {calls : List Call} {store : Store} {txn : WriteTxn} {start : Bytes}
  {stop : Option Bytes}

/-- Between two extensions of `start` there are only extensions of `start`. -/
theorem startsWith_of_between {low high key : Bytes} (above : (compare (start ++ low) key).isLE)
    (below : compare key (start ++ high) = .lt) :
    start <+: key := by
  induction start generalizing key with
  | nil => exact List.nil_prefix
  | cons byte start ih =>
    cases key with
    | nil => cases above
    | cons other key =>
      rw [List.cons_append, List.compare_cons_cons] at above below
      have same : byte = other := by
        rw [OrientedOrd.eq_swap (a := other)] at below
        cases order : compare byte other with
        | eq => exact Std.compare_eq_iff_eq.mp order
        | lt => rw [order] at below; cases below
        | gt => rw [order] at above; cases above
      subst same
      rw [compare_self] at above below
      exact (List.prefix_cons_inj byte).mpr (ih above below)

theorem byte_lt_succ_iff {byte : UInt8} (small : byte ≠ 255) (other : UInt8) :
    compare other (byte + 1) = .lt ↔ (compare other byte).isLE := by
  rw [Std.compare_eq_lt, Std.isLE_compare, UInt8.lt_iff_toNat_lt, UInt8.le_iff_toNat_le]
  have bound : byte.toNat ≠ 255 := fun same => small (UInt8.toNat_inj.mp same)
  have next : (byte + 1).toNat = byte.toNat + 1 := by
    rw [UInt8.toNat_add]
    have := byte.toNat_lt
    have one : (1 : UInt8).toNat = 1 := rfl
    omega
  omega

/-- The keys under a prefix are those between it and its successor. -/
theorem inRange_prefixSuccessor (start key : Bytes) :
    inRange start (prefixSuccessor start) key = true ↔ start <+: key := by
  have loop : ∀ reversed start : Bytes, start.reverse = reversed →
      (inRange start (bumpLast reversed) key = true ↔ start <+: key) := by
    intro reversed
    induction reversed with
    | nil =>
      intro start empty
      rw [List.reverse_eq_nil_iff] at empty
      subst empty
      simp [inRange, bumpLast]
      cases key <;> rfl
    | cons byte earlier ih =>
      intro start split
      have split : start = earlier.reverse ++ [byte] := by
        rw [← List.reverse_reverse start, split, List.reverse_cons]
      have shorter := ih earlier.reverse (List.reverse_reverse earlier)
      rw [bumpLast, inRange, Bool.and_eq_true, split]
      rw [inRange, Bool.and_eq_true] at shorter
      by_cases last : byte = 255
      · rw [if_pos last]
        constructor
        · rintro ⟨low, high⟩
          have longer := TransCmp.isLE_trans (isLE_append earlier.reverse [byte]) low
          obtain ⟨rest, rfl⟩ := shorter.mp ⟨longer, high⟩
          rw [compare_append_left] at low
          cases rest with
          | nil => cases low
          | cons first rest =>
            have top : first = byte := by
              rw [List.compare_cons_cons] at low
              have upto := Ordering.isLE_left_of_isLE_then low
              rw [Std.isLE_compare, UInt8.le_iff_toNat_le] at upto
              have bound := first.toNat_lt
              rw [last] at upto ⊢
              refine UInt8.toNat_inj.mp (Nat.le_antisymm (Nat.le_of_lt_succ bound) upto)
            rw [top, show byte :: rest = [byte] ++ rest from rfl, ← List.append_assoc]
            exact List.prefix_append _ _
        · intro starts
          have longer := (List.prefix_append earlier.reverse [byte]).trans starts
          obtain ⟨rest, rfl⟩ := starts
          exact ⟨isLE_append _ rest, (shorter.mpr longer).2⟩
      · rw [if_neg last]
        constructor
        · rintro ⟨low, high⟩
          have high : compare key (earlier.reverse ++ [byte + 1]) = .lt := by simpa using high
          obtain ⟨rest, rfl⟩ := startsWith_of_between low high
          rw [compare_append_left] at low high
          cases rest with
          | nil => cases low
          | cons first rest =>
            have same : first = byte := by
              rw [List.compare_cons_cons] at low high
              have upto := Ordering.isLE_left_of_isLE_then low
              have under : compare first (byte + 1) = .lt := by
                cases order : compare first (byte + 1) with
                | lt => rfl
                | eq => rw [order] at high; cases rest <;> cases high
                | gt => rw [order] at high; cases high
              rw [byte_lt_succ_iff last] at under
              rw [Std.isLE_compare, UInt8.le_iff_toNat_le] at upto under
              exact UInt8.toNat_inj.mp (Nat.le_antisymm under upto)
            rw [same, show byte :: rest = [byte] ++ rest from rfl, ← List.append_assoc]
            exact List.prefix_append _ _
        · rintro ⟨rest, rfl⟩
          refine ⟨isLE_append _ rest, ?_⟩
          have next : compare byte (byte + 1) = .lt := by
            rw [byte_lt_succ_iff last, compare_self]
            rfl
          simp [List.append_assoc, compare_append_left, next, Ordering.then]
  exact loop _ start rfl

/-! ### Transactions -/

/-- `NativeReadTxn`: a pinned snapshot. -/
structure ReadTxn where
  snapshot : ℕ
  deriving DecidableEq, Repr

/-- A read at the snapshot. -/
def ReadTxn.get (txn : ReadTxn) (store : Store) (table : TableId) (key : Bytes) : Option Bytes :=
  committedGet store table.index key txn.snapshot

def ReadTxn.range (txn : ReadTxn) (store : Store) (table : TableId) (start : Bytes)
    (stop : Option Bytes) : Option (List (Bytes × Bytes)) :=
  (committedValues store table.index start stop txn.snapshot).map fun out => out.toList

/-- `NativeWriteTxn`: a snapshot and the staged ops. -/
structure WriteTxn where
  snapshot : ℕ
  buf : Ops

def WriteTxn.get (txn : WriteTxn) (store : Store) (table : TableId) (key : Bytes) : Option Bytes :=
  match txn.buf[(⟨table.index, key⟩ : UserKey)]? with
  | some op => op.intoValue
  | none => committedGet store table.index key txn.snapshot

/-- The staged ops of the range, laid over what the store holds. -/
def overlayStaged (buf : Ops) (table : TableId) (start : Bytes) (stop : Option Bytes)
    (out : ExtTreeMap Bytes Bytes compare) : ExtTreeMap Bytes Bytes compare :=
  buf.foldl (fun out user op =>
    if user.table ≠ table.index || !inRange start stop user.key then out
    else match op with
      | .put value => out.insert user.key value
      | .del => out.erase user.key) out

def WriteTxn.range (txn : WriteTxn) (store : Store) (table : TableId) (start : Bytes)
    (stop : Option Bytes) : Option (List (Bytes × Bytes)) :=
  (committedValues store table.index start stop txn.snapshot).map fun out =>
    (overlayStaged txn.buf table start stop out).toList

def WriteTxn.put (txn : WriteTxn) (table : TableId) (key value : Bytes) : WriteTxn :=
  { txn with buf := txn.buf.insert ⟨table.index, key⟩ (.put value) }

def WriteTxn.delete (txn : WriteTxn) (table : TableId) (key : Bytes) : WriteTxn :=
  { txn with buf := txn.buf.insert ⟨table.index, key⟩ .del }

/-- A tombstone for every victim. -/
def stageTombstones (table : TableId) (victims : ExtTreeMap Bytes Bytes compare) (buf : Ops) : Ops :=
  victims.foldl (fun buf key _ => buf.insert ⟨table.index, key⟩ .del) buf

/-- `retain` on the staged ops, then a tombstone for every committed key under the prefix. -/
def WriteTxn.deletePrefix (txn : WriteTxn) (store : Store) (table : TableId) (start : Bytes) :
    Option WriteTxn :=
  let kept := txn.buf.filter fun user _ =>
    !(user.table = table.index && start.isPrefixOf user.key)
  (committedValues store table.index start (prefixSuccessor start) txn.snapshot).map fun victims =>
    { txn with buf := stageTombstones table victims kept }

/-! ### The calls of a transaction, on the map -/

/-- One staging call. -/
inductive Call where
  | put (table : TableId) (key value : Bytes)
  | delete (table : TableId) (key : Bytes)
  | deletePrefix (table : TableId) (start : Bytes)

def KvMap.call (map : KvMap) : Call → KvMap
  | .put table key value => map.insert ⟨table.index, key⟩ value
  | .delete table key => map.erase ⟨table.index, key⟩
  | .deletePrefix table start => map.filter fun user _ =>
    !(user.table = table.index && start.isPrefixOf user.key)

/-- The store shows `base` at the transaction's snapshot. -/
def Based (store : Store) (snapshot : ℕ) (base : KvMap) : Prop :=
  ∀ user : UserKey, (firstVisible store.sources user snapshot).bind Op.intoValue = base[user]?

/-- The staged ops over `base` are the calls applied to it. -/
def WriteTxn.Shows (txn : WriteTxn) (base : KvMap) (calls : List Call) : Prop :=
  ∀ user : UserKey, txn.buf[user]?.elim base[user]? Op.intoValue =
    (calls.foldl KvMap.call base)[user]?

theorem ReadTxn.get_of_based {txn : ReadTxn} (based : Based store txn.snapshot base)
    (table : TableId) (key : Bytes) :
    txn.get store table key = base.get table key := by
  rw [ReadTxn.get, committedGet_eq, based, KvMap.get]

theorem ReadTxn.range_of_based {txn : ReadTxn} (based : Based store txn.snapshot base)
    (table : TableId) (valid : rangeValid start stop) :
    txn.range store table start stop = some (base.range table start stop) := by
  obtain ⟨out, found, holds⟩ := committedValues_getElem? store table valid txn.snapshot
  rw [ReadTxn.range, found, Option.map_some, KvMap.toList_eq_range fun key => ?_]
  rw [holds, based]
  rfl

theorem WriteTxn.get_of_shows (based : Based store txn.snapshot base)
    (shows_ : txn.Shows base calls) (table : TableId) (key : Bytes) :
    txn.get store table key = (calls.foldl KvMap.call base).get table key := by
  rw [KvMap.get, ← shows_ ⟨table.index, key⟩, WriteTxn.get, committedGet_eq, based]
  cases txn.buf[(⟨table.index, key⟩ : UserKey)]? <;> rfl

theorem overlayStaged_getElem? (buf : Ops) (table : TableId) (start : Bytes) (stop : Option Bytes)
    (out : ExtTreeMap Bytes Bytes compare) (key : Bytes) :
    (overlayStaged buf table start stop out)[key]? =
      if inRange start stop key then
        buf[(⟨table.index, key⟩ : UserKey)]?.elim out[key]? Op.intoValue
      else out[key]? := by
  have other : ∀ (out : ExtTreeMap Bytes Bytes compare) (user : UserKey) (op : Op),
      user.key ≠ key → (match op with
        | .put value => out.insert user.key value
        | .del => out.erase user.key)[key]? = out[key]? := by
    intro out user op different
    cases op <;> simp [ExtTreeMap.getElem?_insert, ExtTreeMap.getElem?_erase, different]
  by_cases inside : inRange start stop key
  · rw [if_pos inside]
    refine ExtTreeMap.foldl_observe (fun out : ExtTreeMap Bytes Bytes compare => out[key]?)
      Op.intoValue (⟨table.index, key⟩ : UserKey) (fun out op => ?_) fun out user op different => ?_
    · rw [if_neg (by simp [inside])]
      cases op <;> simp [Op.intoValue]
    · by_cases skipped : (user.table ≠ table.index || !inRange start stop user.key) = true
      · rw [if_pos skipped]
      · rw [if_neg skipped]
        refine other out user op fun same => different ?_
        have here : user.table = table.index := by
          by_contra differ
          exact skipped (by simp [differ])
        rw [← here, ← same]
  · rw [if_neg inside]
    refine ExtTreeMap.foldl_unchanged (fun out : ExtTreeMap Bytes Bytes compare => out[key]?)
      fun out user op => ?_
    by_cases skipped : (user.table ≠ table.index || !inRange start stop user.key) = true
    · rw [if_pos skipped]
    · rw [if_neg skipped]
      refine other out user op fun same => skipped ?_
      simp [same, inside]

theorem WriteTxn.range_of_shows (based : Based store txn.snapshot base)
    (shows_ : txn.Shows base calls) (table : TableId) (valid : rangeValid start stop) :
    txn.range store table start stop =
      some ((calls.foldl KvMap.call base).range table start stop) := by
  obtain ⟨out, found, holds⟩ := committedValues_getElem? store table valid txn.snapshot
  rw [WriteTxn.range, found, Option.map_some, KvMap.toList_eq_range fun key => ?_]
  rw [overlayStaged_getElem?, holds, based, KvMap.get, ← shows_ ⟨table.index, key⟩]
  by_cases inside : inRange start stop key
  · rw [if_pos inside, if_pos inside, if_pos inside]
  · rw [if_neg inside, if_neg inside, if_neg inside]

/-! ### Each call stages what it does to the map -/

theorem WriteTxn.shows_nil (snapshot : ℕ) (base : KvMap) :
    (⟨snapshot, ∅⟩ : WriteTxn).Shows base [] := by
  intro user
  simp

theorem WriteTxn.Shows.put (shows_ : txn.Shows base calls) (table : TableId) (key value : Bytes) :
    (txn.put table key value).Shows base (calls ++ [.put table key value]) := by
  intro user
  rw [List.foldl_append, List.foldl_cons, List.foldl_nil, KvMap.call, ExtTreeMap.getElem?_insert,
    ← shows_ user, WriteTxn.put, ExtTreeMap.getElem?_insert]
  split_ifs <;> rfl

theorem WriteTxn.Shows.delete {txn : WriteTxn} {base : KvMap} {calls : List Call}
    (shows_ : txn.Shows base calls) (table : TableId) (key : Bytes) :
    (txn.delete table key).Shows base (calls ++ [.delete table key]) := by
  intro user
  rw [List.foldl_append, List.foldl_cons, List.foldl_nil, KvMap.call, ExtTreeMap.getElem?_erase,
    ← shows_ user, WriteTxn.delete, ExtTreeMap.getElem?_insert]
  split_ifs <;> rfl

theorem rangeValid_prefixSuccessor (start : Bytes) :
    rangeValid start (prefixSuccessor start) = true := by
  have inside := (inRange_prefixSuccessor start start).mpr (List.prefix_refl start)
  rw [inRange, Bool.and_eq_true] at inside
  cases bound : prefixSuccessor start with
  | none => rfl
  | some stop =>
    rw [bound] at inside
    have less : compare start stop = .lt := by simpa using inside.2
    simp [rangeValid, less]

theorem stageTombstones_getElem? (table : TableId) (victims : ExtTreeMap Bytes Bytes compare)
    (buf : Ops) (user : UserKey) :
    (stageTombstones table victims buf)[user]? =
      if user.table = table.index ∧ user.key ∈ victims then some .del else buf[user]? := by
  by_cases here : user.table = table.index
  · have observed : (stageTombstones table victims buf)[user]? =
        victims[user.key]?.elim buf[user]? fun _ => some .del := by
      refine ExtTreeMap.foldl_observe (fun buf : Ops => buf[user]?) _ user.key (fun buf _ => ?_)
        fun buf key _ different => ?_
      · rw [ExtTreeMap.getElem?_insert, ← here, if_pos (Std.compare_eq_iff_eq.mpr rfl)]
      · rw [ExtTreeMap.getElem?_insert, if_neg]
        rw [Std.compare_eq_iff_eq]
        exact fun same => different (by rw [← same])
    rw [observed]
    by_cases victim : user.key ∈ victims
    · obtain ⟨value, held⟩ :=
        Option.isSome_iff_exists.mp (ExtTreeMap.isSome_getElem?_iff_mem.mpr victim)
      rw [if_pos ⟨here, victim⟩, held]
      rfl
    · rw [if_neg fun both => victim both.2, ExtTreeMap.getElem?_eq_none victim]
      rfl
  · rw [if_neg fun both => here both.1]
    refine ExtTreeMap.foldl_unchanged (fun buf : Ops => buf[user]?) fun buf key _ => ?_
    rw [ExtTreeMap.getElem?_insert, if_neg]
    rw [Std.compare_eq_iff_eq]
    exact fun same => here (by rw [← same])

theorem WriteTxn.Shows.deletePrefix (based : Based store txn.snapshot base)
    (shows_ : txn.Shows base calls) (table : TableId) (start : Bytes) :
    ∃ after, txn.deletePrefix store table start = some after ∧ after.snapshot = txn.snapshot ∧
      after.Shows base (calls ++ [.deletePrefix table start]) := by
  obtain ⟨victims, found, holds⟩ :=
    committedValues_getElem? store table (rangeValid_prefixSuccessor start) txn.snapshot
  refine ⟨{ txn with buf := stageTombstones table victims (txn.buf.filter fun user _ =>
    !(user.table = table.index && start.isPrefixOf user.key)) },
    by rw [WriteTxn.deletePrefix, found]; rfl, rfl, fun user => ?_⟩
  have victim : user.table = table.index →
      (user.key ∈ victims ↔ start <+: user.key ∧ base[user]?.isSome) := by
    intro here
    rw [← ExtTreeMap.isSome_getElem?_iff_mem, holds, ← here, based]
    by_cases under : start <+: user.key
    · rw [if_pos ((inRange_prefixSuccessor _ _).mpr under)]
      exact ⟨fun held => ⟨under, held⟩, fun both => both.2⟩
    · rw [if_neg fun inside => under ((inRange_prefixSuccessor _ _).mp inside)]
      exact ⟨nofun, fun both => absurd both.1 under⟩
  rw [List.foldl_append, List.foldl_cons, List.foldl_nil, KvMap.call, ExtTreeMap.getElem?_filter',
    ← shows_ user, stageTombstones_getElem?, ExtTreeMap.getElem?_filter']
  by_cases under : user.table = table.index ∧ start <+: user.key
  · -- Nothing staged under the prefix survives; a committed key there gets its tombstone.
    have drop : (!(decide (user.table = table.index) && start.isPrefixOf user.key)) = false := by
      simp [under.1, under.2]
    simp only [drop]
    by_cases held : base[user]?.isSome
    · rw [if_pos ⟨under.1, (victim under.1).mpr ⟨under.2, held⟩⟩]
      simp [Op.intoValue]
    · rw [if_neg fun both => held ((victim under.1).mp both.2).2]
      simpa using held
  · have keep : (!(decide (user.table = table.index) && start.isPrefixOf user.key)) = true := by
      by_cases here : user.table = table.index
      · have apart : start.isPrefixOf user.key = false := by
          rw [← Bool.not_eq_true, List.isPrefixOf_iff_prefix]
          exact fun starts => under ⟨here, starts⟩
        rw [apart, Bool.and_false, Bool.not_false]
      · rw [decide_eq_false here, Bool.false_and, Bool.not_false]
    rw [if_neg fun both => under ⟨both.1, ((victim both.1).mp both.2).1⟩]
    simp only [keep]
    rw [show ∀ (o : Option Op), o.filter (fun _ => true) = o from fun o => by cases o <;> rfl,
      show ∀ (o : Option Bytes), o.filter (fun _ => true) = o from fun o => by cases o <;> rfl]

end DrStrange.Native
