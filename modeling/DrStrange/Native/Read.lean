/-
**Reads of the native engine: a memtable over its runs.**

`committedGet` asks the memtable and then the runs, newest first; the first source with a version
at or below the snapshot answers. `committedValues` lets the runs write into one map, oldest first
and the memtable last, and drops the tombstones at the end. Both read the store as a stack of
versioned sources (`committedGet_eq`, `committedValues_getElem?`).

Blocks, index and Bloom filter are the format of a run's file. Here a run is the list of its
entries, as it reads back.
-/

import DrStrange.Native.Types

namespace DrStrange.Native

open Std Versioned

/-- What a range scan has collected so far: `BTreeMap<Vec<u8>, Op>`. -/
abbrev RangeOps := ExtTreeMap Bytes Op compare

/-- `start <= key` and `key < end`, where no `end` means the end of the table. -/
def inRange (start : Bytes) (stop : Option Bytes) (key : Bytes) : Bool :=
  (compare start key).isLE && stop.all fun bound => compare key bound = .lt

/-- `start <= end`; the other way round the memtable's `range` panics. -/
def rangeValid (start : Bytes) (stop : Option Bytes) : Bool :=
  stop.all fun bound => (compare start bound).isLE

/-! ### The memtable -/

/-- Newest memtable version of the key visible at the snapshot. The bounds of the scan,
`Reverse(u64::MAX)` and `Reverse(0)`, span every version of the key. -/
def memOp (mem : Memtable) (table : UInt8) (key : Bytes) (snapshot : ℕ) : Option Op :=
  ((mem.toList.filter fun entry => entry.1.user = ⟨table, key⟩).find?
    fun entry => entry.1.seq ≤ snapshot).map Prod.snd

/-- Take the newest visible version of each key of a scan into `out`; `cur` is the key taken
last. -/
def takeNewest (snapshot : ℕ) : List Entry → Option Bytes → RangeOps → RangeOps
  | [], _, out => out
  | entry :: entries, cur, out =>
    if cur = some entry.1.user.key then takeNewest snapshot entries cur out
    else if snapshot < entry.1.seq then takeNewest snapshot entries cur out
    else takeNewest snapshot entries (some entry.1.user.key) (out.insert entry.1.user.key entry.2)

/-- The first key past the scan. -/
def rangeHigh (table : UInt8) : Option Bytes → UserKey
  | some bound => ⟨table, bound⟩
  | none => ⟨table + 1, []⟩

/-- `mem.range((Included(lo), Excluded(hi)))`: both bounds stand before every version of their
key. -/
def memRange (mem : Memtable) (table : UInt8) (start : Bytes) (stop : Option Bytes) : List Entry :=
  mem.toList.filter fun entry =>
    (compare (⟨table, start⟩ : UserKey) entry.1.user).isLE &&
      compare entry.1.user (rangeHigh table stop) = .lt

/-- Newest visible op per memtable key in the range, over whatever the runs contributed; `none` is
the panic of `BTreeMap::range` on reversed bounds. -/
def memRangeOps (mem : Memtable) (table : UInt8) (start : Bytes) (stop : Option Bytes)
    (snapshot : ℕ) (out : RangeOps) : Option RangeOps :=
  if rangeValid start stop then some (takeNewest snapshot (memRange mem table start stop) none out)
  else none

/-! ### One run -/

/-- The scan of `Sst::get`, from the first entry that may hold the key. -/
def scanGet (user : UserKey) (snapshot : ℕ) : List Entry → Option Op
  | [] => none
  | entry :: entries =>
    match compare entry.1.user user with
    | .lt => scanGet user snapshot entries
    | .gt => none
    | .eq => if entry.1.seq ≤ snapshot then some entry.2 else scanGet user snapshot entries

/-- The newest version of a key at a snapshot. -/
def Run.get (run : Run) (table : UInt8) (key : Bytes) (snapshot : ℕ) : Option Op :=
  scanGet ⟨table, key⟩ snapshot run.entries

/-- The scan of `Sst::range`, which stops at the first entry past the range. -/
def scanRange (table : UInt8) (start : Bytes) (stop : Option Bytes) (snapshot : ℕ) :
    List Entry → Option Bytes → RangeOps → RangeOps
  | [], _, out => out
  | entry :: entries, cur, out =>
    if entry.1.user.table ≠ table then
      if compare entry.1.user.table table = .gt then out
      else scanRange table start stop snapshot entries cur out
    else if compare entry.1.user.key start = .lt then
      scanRange table start stop snapshot entries cur out
    else if stop.any fun bound => (compare bound entry.1.user.key).isLE then out
    else if cur = some entry.1.user.key then scanRange table start stop snapshot entries cur out
    else if snapshot < entry.1.seq then scanRange table start stop snapshot entries cur out
    else scanRange table start stop snapshot entries (some entry.1.user.key)
      (out.insert entry.1.user.key entry.2)

def Run.range (run : Run) (table : UInt8) (start : Bytes) (stop : Option Bytes) (snapshot : ℕ)
    (out : RangeOps) : RangeOps :=
  scanRange table start stop snapshot run.entries none out

/-! ### The store -/

/-- The value of the key visible at the snapshot: the first source with a version wins. -/
def committedGet (store : Store) (table : UInt8) (key : Bytes) (snapshot : ℕ) : Option Bytes :=
  match memOp store.mem table key snapshot with
  | some op => op.intoValue
  | none => (store.ssts.reverse.findSome? fun sst => sst.get table key snapshot).bind Op.intoValue

/-- The visible pairs of a range, merged across all runs. -/
def committedValues (store : Store) (table : UInt8) (start : Bytes) (stop : Option Bytes)
    (snapshot : ℕ) : Option (ExtTreeMap Bytes Bytes compare) :=
  let ops := store.ssts.foldl (fun out sst => sst.range table start stop snapshot out) ∅
  (memRangeOps store.mem table start stop snapshot ops).map fun ops =>
    ops.filterMap fun _ op => op.intoValue

/-! ### What the scans read -/

theorem Sorted.tail {entry : Entry} {entries : List Entry} (sorted : Sorted (entry :: entries)) :
    Sorted entries := (List.pairwise_cons.mp sorted).2

variable {entries : List Entry} {user : UserKey} {keep : Entry → Bool} {entry : Entry}

theorem Sorted.filter (sorted : Sorted entries) (keep : Entry → Bool) :
    Sorted (entries.filter keep) := List.Pairwise.filter keep sorted

/-- A filter that keeps the versions of a key keeps what the key reads. -/
theorem entrySource_filter (kept : ∀ entry ∈ entries, entry.1.user = user → keep entry = true)
    (seq : ℕ) :
    entrySource (entries.filter keep) user seq = entrySource entries user seq := by
  unfold entrySource
  rw [List.find?_filter]
  congr 1
  refine List.find?_congr fun entry member => ?_
  by_cases here : entry.1 = ⟨user, seq⟩
  · simp [here, kept entry member (by rw [here])]
  · simp [here]

theorem visible_entrySource_filter
    (kept : ∀ entry ∈ entries, entry.1.user = user → keep entry = true) (snapshot : ℕ) :
    visible (entrySource (entries.filter keep)) user snapshot =
      visible (entrySource entries) user snapshot :=
  visible_congr fun seq _ => entrySource_filter kept seq

theorem find?_seq_eq_visible (sorted : Sorted entries) (user : UserKey)
    (same : ∀ entry ∈ entries, entry.1.user = user) (snapshot : ℕ) :
    (entries.find? fun entry => entry.1.seq ≤ snapshot).map Prod.snd =
      visible (entrySource entries) user snapshot := by
  induction entries with
  | nil => rfl
  | cons entry entries ih =>
    have here := same entry List.mem_cons_self
    by_cases low : entry.1.seq ≤ snapshot
    · rw [List.find?_cons_of_pos (by simpa using low), ← here, sorted.visible_entrySource_hit low]
      rfl
    · rw [List.find?_cons_of_neg (by simpa using low),
        ih sorted.tail fun other member => same other (List.mem_cons_of_mem _ member),
        visible_entrySource_skip fun _ => Nat.not_le.mp low]

theorem memOp_eq (mem : Memtable) (table : UInt8) (key : Bytes) (snapshot : ℕ) :
    memOp mem table key snapshot = visible (memSource mem) ⟨table, key⟩ snapshot := by
  have sorted := (Memtable.sorted_toList mem).filter fun entry => entry.1.user = ⟨table, key⟩
  rw [memOp, find?_seq_eq_visible sorted ⟨table, key⟩]
  · exact visible_entrySource_filter (fun entry _ same => by simpa using same) snapshot
  · intro entry member
    simpa using (List.mem_filter.mp member).2

/-- Nothing of a key stands behind an entry past it. -/
theorem Sorted.entrySource_eq_none_of_gt (sorted : Sorted (entry :: entries))
    (past : compare user entry.1.user = .lt) (seq : ℕ) :
    entrySource (entry :: entries) user seq = none := by
  refine entrySource_eq_none fun other member same => ?_
  rcases List.mem_cons.mp member with rfl | below
  · rw [same, compare_self] at past
    cases past
  · have ascends := (List.pairwise_cons.mp sorted).1 other below
    rw [same, MemKey.compare_lt_iff] at ascends
    rcases ascends with less | ⟨equal, -⟩
    · have loop := TransCmp.lt_trans past less
      rw [compare_self] at loop
      cases loop
    · rw [equal, compare_self] at past
      cases past

theorem scanGet_eq (sorted : Sorted entries) (user : UserKey) (snapshot : ℕ) :
    scanGet user snapshot entries = visible (entrySource entries) user snapshot := by
  induction entries with
  | nil => rfl
  | cons entry entries ih =>
    rw [scanGet]
    split
    · rename_i less
      rw [ih sorted.tail, visible_entrySource_skip]
      intro same
      rw [same, compare_self] at less
      cases less
    · rename_i greater
      have past : compare user entry.1.user = .lt := OrientedCmp.gt_iff_lt.mp greater
      exact (visible_eq_none_iff.mpr fun seq _ => sorted.entrySource_eq_none_of_gt past seq).symm
    · rename_i equal
      rw [Std.compare_eq_iff_eq] at equal
      by_cases low : entry.1.seq ≤ snapshot
      · rw [if_pos low, ← equal, sorted.visible_entrySource_hit low]
      · rw [if_neg low, ih sorted.tail, visible_entrySource_skip fun _ => Nat.not_le.mp low]

theorem Run.get_eq (run : Run) (table : UInt8) (key : Bytes) (snapshot : ℕ) :
    run.get table key snapshot = visible run.source ⟨table, key⟩ snapshot :=
  scanGet_eq run.sorted _ _

/-- **A read asks the store as a stack of sources.** -/
theorem committedGet_eq (store : Store) (table : UInt8) (key : Bytes) (snapshot : ℕ) :
    committedGet store table key snapshot =
      (firstVisible store.sources ⟨table, key⟩ snapshot).bind Op.intoValue := by
  have runs : ∀ ssts : List Sst, (ssts.findSome? fun sst => sst.get table key snapshot) =
      firstVisible (ssts.map fun sst => sst.source) ⟨table, key⟩ snapshot := by
    intro ssts
    induction ssts with
    | nil => rfl
    | cons sst ssts ih =>
      rw [List.findSome?_cons, List.map_cons, firstVisible, ← ih, Run.get_eq]
      cases visible sst.source ⟨table, key⟩ snapshot <;> rfl
  rw [committedGet, memOp_eq, runs, Store.sources]
  cases seen : visible (memSource store.mem) ⟨table, key⟩ snapshot with
  | some op => rw [firstVisible_cons_of_some seen]; rfl
  | none => rw [firstVisible_cons_of_none seen]

/-! ### What a range collects -/

/-- In one table, later entries have later keys. -/
theorem Sorted.key_isLE {other : Entry} (sorted : Sorted (entry :: entries))
    (member : other ∈ entries) (same : entry.1.user.table = other.1.user.table) :
    (compare entry.1.user.key other.1.user.key).isLE := by
  have ascends := (List.pairwise_cons.mp sorted).1 other member
  rw [MemKey.compare_lt_iff, UserKey.compare_lt_iff] at ascends
  rcases ascends with (less | ⟨-, less⟩) | ⟨equal, -⟩
  · rw [same, compare_self] at less
    cases less
  · rw [less]
    rfl
  · rw [equal, compare_self]
    rfl

/-- The scan takes for each key its newest visible version, and no second one. The entries left
never go back behind the key taken last, which is what lets `cur` remember one key only. -/
theorem takeNewest_getElem? {table : UInt8} (sorted : Sorted entries)
    (same : ∀ entry ∈ entries, entry.1.user.table = table) (snapshot : ℕ) (cur : Option Bytes)
    (out : RangeOps)
    (past : ∀ last, cur = some last → ∀ entry ∈ entries, (compare last entry.1.user.key).isLE)
    (key : Bytes) :
    (takeNewest snapshot entries cur out)[key]? =
      if cur = some key then out[key]?
      else (visible (entrySource entries) ⟨table, key⟩ snapshot).or out[key]? := by
  induction entries generalizing cur out with
  | nil => simp [takeNewest, entrySource_nil, visible]
  | cons entry entries ih =>
    have here := same entry List.mem_cons_self
    have rest : ∀ other ∈ entries, other.1.user.table = table := fun other member =>
      same other (List.mem_cons_of_mem _ member)
    have behind : ∀ last, cur = some last → ∀ other ∈ entries,
        (compare last other.1.user.key).isLE := fun last held other member =>
      past last held other (List.mem_cons_of_mem _ member)
    rw [takeNewest]
    by_cases taken : cur = some entry.1.user.key
    · rw [if_pos taken, ih sorted.tail rest cur out behind]
      by_cases hit : cur = some key
      · rw [if_pos hit, if_pos hit]
      · rw [if_neg hit, if_neg hit, visible_entrySource_skip]
        intro equal
        rw [taken, equal] at hit
        exact absurd rfl hit
    rw [if_neg taken]
    by_cases late : snapshot < entry.1.seq
    · rw [if_pos late, ih sorted.tail rest cur out behind, visible_entrySource_skip fun _ => late]
    rw [if_neg late, ih sorted.tail rest (some entry.1.user.key) _ fun last held other member => by
      cases held
      exact sorted.key_isLE member (here.trans (rest other member).symm)]
    by_cases equal : entry.1.user.key = key
    · have this : entry.1.user = ⟨table, key⟩ := by rw [← here, ← equal]
      rw [if_pos (by rw [equal]), if_neg (by rw [← equal]; exact taken),
        ExtTreeMap.getElem?_insert, if_pos (Std.compare_eq_iff_eq.mpr equal), ← this,
        sorted.visible_entrySource_hit (Nat.not_lt.mp late), Option.some_or]
    rw [if_neg (by simpa using equal), ExtTreeMap.getElem?_insert,
      if_neg (by rw [Std.compare_eq_iff_eq]; exact equal),
      visible_entrySource_skip fun this => absurd (by rw [this]) equal]
    by_cases hit : cur = some key
    · -- The key taken last lies strictly behind this entry, so no entry left can be its.
      have less : compare key entry.1.user.key = .lt := by
        have upto := past key hit entry List.mem_cons_self
        rcases Ordering.isLE_iff_eq_lt_or_eq_eq.mp upto with less | same
        · exact less
        · exact absurd (Std.compare_eq_iff_eq.mp same).symm equal
      have behind : compare (⟨table, key⟩ : UserKey) entry.1.user = .lt :=
        UserKey.compare_lt_iff.mpr (Or.inr ⟨here.symm, less⟩)
      have unseen : visible (entrySource entries) ⟨table, key⟩ snapshot = none := by
        rw [visible_eq_none_iff]
        intro seq _
        have missing := sorted.entrySource_eq_none_of_gt behind seq
        rw [entrySource_cons] at missing
        split_ifs at missing
        exact missing
      rw [if_pos hit, unseen, Option.none_or]
    · rw [if_neg hit]

/-- The entries a scan of the range looks at. -/
def inScan (table : UInt8) (start : Bytes) (stop : Option Bytes) (entry : Entry) : Bool :=
  entry.1.user.table = table && inRange start stop entry.1.user.key

/-- The early returns of the scan skip nothing: what follows an entry past the range is past it. -/
theorem scanRange_eq_takeNewest (sorted : Sorted entries) (table : UInt8) (start : Bytes)
    (stop : Option Bytes) (snapshot : ℕ) (cur : Option Bytes) (out : RangeOps) :
    scanRange table start stop snapshot entries cur out =
      takeNewest snapshot (entries.filter (inScan table start stop)) cur out := by
  induction entries generalizing cur out with
  | nil => rfl
  | cons entry entries ih =>
    rw [scanRange]
    split_ifs with other beyond below above taken late
    · have empty : (entry :: entries).filter (inScan table start stop) = [] := by
        rw [List.filter_eq_nil_iff]
        intro next member inside
        rw [inScan, Bool.and_eq_true, decide_eq_true_eq] at inside
        rcases List.mem_cons.mp member with rfl | after
        · exact other inside.1
        · have ascends := (List.pairwise_cons.mp sorted).1 next after
          rw [MemKey.compare_lt_iff, UserKey.compare_lt_iff, inside.1, beyond] at ascends
          rcases ascends with (less | ⟨same, -⟩) | ⟨same, -⟩
          · cases less
          · exact other same
          · exact other (by rw [same, inside.1])
      rw [empty, takeNewest]
    · rw [ih sorted.tail, List.filter_cons_of_neg]
      simp [inScan, other]
    · rw [ih sorted.tail, List.filter_cons_of_neg]
      have low : (compare start entry.1.user.key).isLE = false := by
        rw [OrientedOrd.eq_swap, below]
        rfl
      simp [inScan, inRange, low]
    · have empty : (entry :: entries).filter (inScan table start stop) = [] := by
        rw [List.filter_eq_nil_iff]
        intro next member inside
        rw [inScan, Bool.and_eq_true, decide_eq_true_eq, inRange, Bool.and_eq_true] at inside
        cases stop with
        | none => cases above
        | some bound =>
          have reached : (compare bound entry.1.user.key).isLE := above
          have under : compare next.1.user.key bound = .lt := by simpa using inside.2.2
          have upto : (compare entry.1.user.key next.1.user.key).isLE := by
            rcases List.mem_cons.mp member with rfl | after
            · rw [compare_self]
              rfl
            · exact sorted.key_isLE after (by rw [inside.1, not_not.mp other])
          have loop := TransCmp.isLE_trans reached upto
          rw [OrientedOrd.eq_swap, under] at loop
          cases loop
      rw [empty, takeNewest]
    all_goals
      have inside : inScan table start stop entry = true := by
        have low : (compare start entry.1.user.key).isLE := by
          rw [OrientedOrd.eq_swap]
          cases order : compare entry.1.user.key start with
          | lt => exact absurd order below
          | eq => rfl
          | gt => rfl
        have high : stop.all (fun bound => compare entry.1.user.key bound = .lt) = true := by
          cases stop with
          | none => rfl
          | some bound =>
            have short : (compare bound entry.1.user.key).isLE = false := by simpa using above
            rw [OrientedOrd.eq_swap] at short
            cases order : compare entry.1.user.key bound with
            | lt => simp [order]
            | eq => rw [order] at short; cases short
            | gt => rw [order] at short; cases short
        simp [inScan, inRange, not_not.mp other, low, high]
      rw [ih sorted.tail, List.filter_cons_of_pos inside, takeNewest]
    · rw [if_pos taken]
    · rw [if_neg taken, if_pos late]
    · rw [if_neg taken, if_neg late]

theorem takeNewest_inScan_getElem? (sorted : Sorted entries) (table : UInt8) (start : Bytes)
    (stop : Option Bytes) (snapshot : ℕ) (out : RangeOps) (key : Bytes) :
    (takeNewest snapshot (entries.filter (inScan table start stop)) none out)[key]? =
      if inRange start stop key then
        (visible (entrySource entries) ⟨table, key⟩ snapshot).or out[key]?
      else out[key]? := by
  have same : ∀ entry ∈ entries.filter (inScan table start stop), entry.1.user.table = table := by
    intro entry member
    have inside := (List.mem_filter.mp member).2
    rw [inScan, Bool.and_eq_true, decide_eq_true_eq] at inside
    exact inside.1
  rw [takeNewest_getElem? (sorted.filter _) same snapshot none out (fun _ held => nomatch held) key,
    if_neg (by simp)]
  by_cases inside : inRange start stop key
  · rw [if_pos inside, visible_entrySource_filter]
    intro entry _ this
    simp [inScan, this, inside]
  · have unseen : visible (entrySource (entries.filter (inScan table start stop))) ⟨table, key⟩
        snapshot = none := by
      rw [visible_eq_none_iff]
      intro seq _
      refine entrySource_eq_none fun entry member this => inside ?_
      have held := (List.mem_filter.mp member).2
      rw [inScan, this, Bool.and_eq_true] at held
      exact held.2
    rw [if_neg inside, unseen, Option.none_or]

theorem Run.range_getElem? (run : Run) (table : UInt8) (start : Bytes) (stop : Option Bytes)
    (snapshot : ℕ) (out : RangeOps) (key : Bytes) :
    (run.range table start stop snapshot out)[key]? =
      if inRange start stop key then (visible run.source ⟨table, key⟩ snapshot).or out[key]?
      else out[key]? := by
  rw [Run.range, scanRange_eq_takeNewest run.sorted, takeNewest_inScan_getElem? run.sorted]
  rfl

theorem ranges_getElem? (ssts : List Sst) (table : UInt8) (start : Bytes) (stop : Option Bytes)
    (snapshot : ℕ) (key : Bytes) (out : RangeOps) :
    (ssts.foldl (fun out sst => sst.range table start stop snapshot out) out)[key]? =
      if inRange start stop key then
        (firstVisible (ssts.reverse.map fun sst => sst.source) ⟨table, key⟩ snapshot).or out[key]?
      else out[key]? := by
  induction ssts generalizing out with
  | nil => simp [firstVisible]
  | cons sst ssts ih =>
    rw [List.foldl_cons, ih, Run.range_getElem?, List.reverse_cons, List.map_append,
      firstVisible_append]
    by_cases inside : inRange start stop key
    · rw [if_pos inside, if_pos inside, if_pos inside, Option.or_assoc]
      simp [firstVisible]
    · rw [if_neg inside, if_neg inside, if_neg inside]

theorem UserKey.compare_isLE_iff {a b : UserKey} :
    (compare a b).isLE ↔
      compare a.table b.table = .lt ∨ a.table = b.table ∧ (compare a.key b.key).isLE := by
  show ((compare a.table b.table).then (compare a.key b.key)).isLE ↔ _
  cases order : compare a.table b.table with
  | lt => simp [Ordering.then]
  | eq => simp [Ordering.then, Std.compare_eq_iff_eq.mp order]
  | gt =>
    have different : a.table ≠ b.table := fun same => by
      rw [same, compare_self] at order
      cases order
    simp [Ordering.then, different]

/-- No table byte is the last one, so `table + 1` starts the next table. -/
theorem TableId.compare_index_succ (table : TableId) (byte : UInt8) :
    compare byte (table.index + 1) = .lt ↔ ¬ compare table.index byte = .lt := by
  rw [Std.compare_eq_lt, Std.compare_eq_lt, UInt8.lt_iff_toNat_lt, UInt8.lt_iff_toNat_lt]
  have next : (table.index + 1).toNat = table.index.toNat + 1 := by cases table <;> decide
  rw [next]
  omega

/-- The bounds of the memtable scan pick out the range. -/
theorem memRange_eq (mem : Memtable) (table : TableId) (start : Bytes) (stop : Option Bytes) :
    memRange mem table.index start stop =
      mem.toList.filter (inScan table.index start stop) := by
  refine List.filter_congr fun entry _ => ?_
  obtain ⟨⟨⟨other, key⟩, seq⟩, op⟩ := entry
  rw [Bool.eq_iff_iff, Bool.and_eq_true, decide_eq_true_eq, UserKey.compare_isLE_iff,
    UserKey.compare_lt_iff, inScan, Bool.and_eq_true, decide_eq_true_eq, inRange, Bool.and_eq_true]
  have between : compare table.index other = .lt → compare other table.index = .lt → False := by
    intro above below
    have loop := TransCmp.lt_trans above below
    rw [compare_self] at loop
    cases loop
  cases stop with
  | some bound =>
    simp only [rangeHigh, Option.all_some, decide_eq_true_eq]
    constructor
    · rintro ⟨above | ⟨rfl, low⟩, below | ⟨same, high⟩⟩
      · exact (between above below).elim
      · rw [same, compare_self] at above
        cases above
      · rw [compare_self] at below
        cases below
      · exact ⟨rfl, low, high⟩
    · rintro ⟨rfl, low, high⟩
      exact ⟨Or.inr ⟨rfl, low⟩, Or.inr ⟨rfl, high⟩⟩
  | none =>
    simp only [rangeHigh, Option.all_none, and_true]
    rw [TableId.compare_index_succ]
    constructor
    · rintro ⟨above | ⟨rfl, low⟩, below | ⟨-, high⟩⟩
      · exact absurd above below
      · cases key <;> cases high
      · exact ⟨rfl, low⟩
      · cases key <;> cases high
    · rintro ⟨rfl, low⟩
      refine ⟨Or.inr ⟨rfl, low⟩, Or.inl ?_⟩
      rw [compare_self]
      exact nofun

/-- **A range reads the store as a stack of sources, key by key.** -/
theorem committedValues_getElem? (store : Store) (table : TableId) {start : Bytes}
    {stop : Option Bytes} (valid : rangeValid start stop) (snapshot : ℕ) :
    ∃ out, committedValues store table.index start stop snapshot = some out ∧
      ∀ key, out[key]? = if inRange start stop key then
        (firstVisible store.sources ⟨table.index, key⟩ snapshot).bind Op.intoValue else none := by
  refine ⟨_, by rw [committedValues, memRangeOps, if_pos valid]; rfl, fun key => ?_⟩
  rw [ExtTreeMap.getElem?_filterMap', memRange_eq,
    takeNewest_inScan_getElem? (Memtable.sorted_toList store.mem), ranges_getElem?]
  by_cases inside : inRange start stop key
  · rw [if_pos inside, if_pos inside, if_pos inside, Store.sources, firstVisible]
    simp [memSource]
  · rw [if_neg inside, if_neg inside, if_neg inside]
    simp

end DrStrange.Native
