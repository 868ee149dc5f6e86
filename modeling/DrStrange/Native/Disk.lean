/-
**What the directory holds, at every step.**

`DiskInv` relates the files to the live engine. The log is the records of a final stretch of the
history, which covers the memtable, and behind them at most a torn record. The run files are the
live runs, in order of their numbers, and beside them at most two kinds of leftovers: a run under
the next number, which a flush or compaction has written and not swapped in (`extra`), and the
merged-away runs a compaction has still to unlink (`below`). A leftover under the next number shows
nothing the store does not show.

`DiskInv.step` keeps it through every step but a crash, as long as nothing is appended behind a torn
record and no unlink fails.
-/

import DrStrange.Native.Refinement

namespace DrStrange.Native

open Std Versioned

/-- The greatest of a start and a list. -/
theorem foldl_max_spec (numbers : List ℕ) (start : ℕ) :
    start ≤ numbers.foldl max start ∧ (∀ number ∈ numbers, number ≤ numbers.foldl max start) ∧
      (numbers.foldl max start = start ∨ numbers.foldl max start ∈ numbers) := by
  induction numbers generalizing start with
  | nil => exact ⟨le_rfl, nofun, Or.inl rfl⟩
  | cons first numbers ih =>
    obtain ⟨low, above, attained⟩ := ih (max start first)
    rw [List.foldl_cons]
    refine ⟨(le_max_left _ _).trans low, fun number member => ?_, ?_⟩
    · rcases List.mem_cons.mp member with rfl | later
      · exact (le_max_right _ _).trans low
      · exact above number later
    · rcases attained with same | inside
      · rw [same]
        rcases max_choice start first with left | right
        · exact Or.inl left
        · exact Or.inr (by rw [right]; exact List.mem_cons_self)
      · exact Or.inr (List.mem_cons_of_mem _ inside)

/-! ### Numbered files -/

/-- The directory lists exactly these runs. -/
structure Holds (dir : Directory) (runs : List Sst) : Prop where
  ordered : runs.Pairwise fun a b => a.number < b.number
  files : ∀ number run, dir.files[number]? = some run ↔
    ∃ sst ∈ runs, sst.number = number ∧ sst.toRun = run

variable {history unflushed earlier : List Batch} {codec : WalCodec} {dir : Directory}
  {runs below : List Sst} {torn record : Bytes} {store : Store} {sst : Sst} {number seq : ℕ}
  {wal : Wal} {ops : Ops} {phase : Phase}

theorem Holds.list (holds : Holds dir runs) : dir.list = runs := by
  have pairs : dir.files.toList = runs.map fun sst => (sst.number, sst.toRun) := by
    refine ExtTreeMap.toList_eq_of_pairwise ?_ fun number run => ?_
    · rw [List.pairwise_map]
      exact holds.ordered.imp fun less => Nat.compare_eq_lt.mpr less
    · rw [holds.files, List.mem_map]
      constructor
      · rintro ⟨sst, member, same⟩
        exact ⟨sst, member, (Prod.mk.inj same).1, (Prod.mk.inj same).2⟩
      · rintro ⟨sst, member, rfl, rfl⟩
        exact ⟨sst, member, rfl⟩
  rw [Directory.list, pairs, List.map_map]
  exact List.map_id runs

theorem Holds.nextNumber_gt (holds : Holds dir runs) (member : sst ∈ runs) :
    sst.number < dir.nextNumber := by
  have listed : (sst.number, sst.toRun) ∈ dir.files.toList :=
    ExtTreeMap.mem_toList_iff_getElem?_eq_some.mpr ((holds.files _ _).mpr ⟨sst, member, rfl, rfl⟩)
  rw [Directory.nextNumber]
  exact Nat.lt_succ_of_le ((foldl_max_spec _ 0).2.1 _ (List.mem_map_of_mem listed))

/-- A file under a number past the first runs replaces whatever stood behind them. -/
theorem Holds.insert {rest : List Sst} (holds : Holds dir (runs ++ rest))
    (past : ∀ sst ∈ runs, sst.number < number) (only : ∀ sst ∈ rest, sst.number = number)
    (run : Run) (temps : ExtTreeMap ℕ Run compare) :
    Holds ⟨dir.files.insert number run, temps⟩ (runs ++ [{ run with number := number }]) where
  ordered := by
    refine List.pairwise_append.mpr ⟨(List.pairwise_append.mp holds.ordered).1,
      List.pairwise_singleton _ _, fun sst member last same => ?_⟩
    rw [List.mem_singleton.mp same]
    exact past sst member
  files := by
    intro other content
    rw [ExtTreeMap.getElem?_insert]
    by_cases here : number = other
    · subst here
      rw [if_pos (Std.compare_eq_iff_eq.mpr rfl), Option.some.injEq]
      constructor
      · rintro rfl
        exact ⟨_, List.mem_append_right _ (List.mem_singleton.mpr rfl), rfl, rfl⟩
      · rintro ⟨sst, member, same, rfl⟩
        rcases List.mem_append.mp member with old | new
        · exact absurd same (Nat.ne_of_lt (past sst old))
        · rw [List.mem_singleton.mp new]
    · rw [if_neg (by rw [Std.compare_eq_iff_eq]; exact here), holds.files]
      constructor
      · rintro ⟨sst, member, same, rfl⟩
        rcases List.mem_append.mp member with old | leftover
        · exact ⟨sst, List.mem_append_left _ old, same, rfl⟩
        · exact absurd ((only sst leftover).symm.trans same) here
      · rintro ⟨sst, member, same, rfl⟩
        rcases List.mem_append.mp member with old | new
        · exact ⟨sst, List.mem_append_left _ old, same, rfl⟩
        · rw [List.mem_singleton.mp new] at same
          exact absurd same here

theorem Holds.unlink {above : List Sst} (holds : Holds dir (below ++ sst :: above)) :
    Holds (dir.unlink sst.number) (below ++ above) where
  ordered := holds.ordered.sublist
    ((List.Sublist.refl below).append (List.sublist_cons_self sst above))
  files := by
    have apart : ∀ other ∈ below ++ above, other.number ≠ sst.number := by
      intro other member
      have ordered := List.pairwise_append.mp holds.ordered
      rcases List.mem_append.mp member with before | after
      · exact Nat.ne_of_lt (ordered.2.2 other before sst List.mem_cons_self)
      · exact Nat.ne_of_gt ((List.pairwise_cons.mp ordered.2.1).1 other after)
    intro number run
    rw [Directory.unlink, ExtTreeMap.getElem?_erase]
    by_cases here : sst.number = number
    · rw [if_pos (Std.compare_eq_iff_eq.mpr here)]
      refine ⟨nofun, fun ⟨other, member, same, _⟩ => ?_⟩
      exact absurd (same.trans here.symm) (apart other member)
    · rw [if_neg (by rw [Std.compare_eq_iff_eq]; exact here), holds.files]
      constructor
      · rintro ⟨other, member, same, rfl⟩
        refine ⟨other, ?_, same, rfl⟩
        rcases List.mem_append.mp member with before | after
        · exact List.mem_append_left _ before
        · rcases List.mem_cons.mp after with rfl | after
          · exact absurd same here
          · exact List.mem_append_right _ after
      · rintro ⟨other, member, same, rfl⟩
        refine ⟨other, ?_, same, rfl⟩
        rcases List.mem_append.mp member with before | after
        · exact List.mem_append_left _ before
        · exact List.mem_append_right _ (List.mem_cons_of_mem _ after)

/-! ### The log -/

/-- Nothing, or a record cut short. -/
def Torn (codec : WalCodec) (torn : Bytes) : Prop :=
  torn = [] ∨ ∃ batch record, walRecord codec batch = .ok record ∧ torn <+: record ∧
    torn.length < record.length

theorem Torn.readRecord (cut : Torn codec torn) : readRecord codec torn = none := by
  rcases cut with rfl | ⟨batch, record, made, start, short⟩
  · exact readRecord_nil
  · exact readRecord_torn made start short

/-- What a failed append has left in file and buffer: nothing, or the beginning of its record. -/
def Remnant (codec : WalCodec) (left : Bytes) : Prop :=
  left = [] ∨ ∃ (batch : Batch) (record : Bytes), walRecord codec batch.toWal = .ok record ∧
    left <+: record

/-- The batch that is durable and not yet published. -/
def Phase.durable : Phase → List Batch
  | .logged seq ops => [⟨seq, ops⟩]
  | _ => []

/-- The file is cut and the cursor not yet moved. -/
def Phase.logCut : Phase → Bool
  | .walCut => true
  | _ => false

/-- The memtable is out, and the log still to be cut or just cut. -/
def Phase.memOut : Phase → Bool
  | .flushSwapped | .walCut => true
  | _ => false

def Phase.unlinks : Phase → Bool
  | .unlinking .. => true
  | _ => false

/-- No record has been appended yet, so the buffer may hold what a failed append has left. -/
def Phase.buffers : Phase → Bool
  | .idle | .writing _ | .logging .. => true
  | _ => false

/-- The log holds the records of a final stretch of the durable batches, which covers the memtable,
and behind them `torn`, of which some may wait in the buffer. -/
structure WalInv (codec : WalCodec) (phase : Phase) (store : Store) (wal : Wal)
    (history earlier unflushed : List Batch) (torn : Bytes) : Prop where
  records : ∃ records rest, Logged codec (earlier ++ unflushed ++ phase.durable) records ∧
    wal.file.bytes = records ++ rest ∧ torn = rest ++ wal.buf ∧ Torn codec rest
  torn : Remnant codec torn
  drained : phase.buffers = true ∨ wal.buf = []
  cursor : phase.logCut = false → wal.file.cursor = wal.file.bytes.length
  cut : phase.logCut = true → wal.file.bytes = [] ∧ wal.buf = []
  history : ∃ before, history = before ++ (earlier ++ unflushed)
  mem : memSource store.mem = recorded (logOf unflushed)
  /-- Once the memtable is out, nothing of the log is needed. -/
  flushed : phase.memOut = true → unflushed = []
  /-- The committed sequence is on disk. -/
  top : (∃ batch ∈ unflushed, batch.seq = store.committedSeq) ∨
    (∃ sst ∈ store.ssts, sst.maxSeq = store.committedSeq) ∨ store.committedSeq = 0

/-! ### The run files -/

/-- A leftover run shows nothing that the history does not show where the memtable is silent. -/
def Transparent (store : Store) (history : List Batch) (floor : ℕ) (source : Source UserKey Op) :
    Prop :=
  ∀ user snapshot op, floor ≤ snapshot → visible (memSource store.mem) user snapshot = none →
    visible source user snapshot = some op →
    op.intoValue = value (visible (recorded (logOf history)) user snapshot)

/-- The runs a compaction has merged away and not unlinked yet. -/
def UnlinkInv (phase : Phase) (store : Store) (history : List Batch) (below extra : List Sst) :
    Prop :=
  match phase with
  | .unlinking old minSnapshot left =>
    extra = [] ∧ below <+: old ∧ left = below.reverse.map (fun sst => sst.number) ∧
    (old.Pairwise fun a b => a.number < b.number) ∧
    (old.Pairwise fun older newer => Layered older.source newer.source) ∧
    (∀ sst ∈ old, Within sst.source (recorded (logOf history))) ∧
    minSnapshot ≤ store.committedSeq ∧
    ∃ merged, store.ssts = [merged] ∧
      Reclaimed .del minSnapshot (Versioned.merged (old.reverse.map fun sst => sst.source))
        merged.source
  | _ => below = []

/-- Which files the directory holds. -/
structure FilesInv (phase : Phase) (store : Store) (dir : Directory) (history : List Batch)
    (floor : ℕ) (below extra : List Sst) : Prop where
  holds : Holds dir (below ++ store.ssts ++ extra)
  past : ∀ sst ∈ below ++ store.ssts, sst.number < store.nextSst
  only : ∀ sst ∈ extra, sst.number = store.nextSst
  within : ∀ sst ∈ extra, Within sst.source (recorded (logOf history))
  layered : ∀ sst ∈ extra, ∀ run ∈ store.ssts, Layered run.source sst.source
  transparent : ∀ sst ∈ extra, Transparent store history floor sst.source
  maxSeq : ∀ sst ∈ below ++ store.ssts ++ extra, sst.maxSeq ≤ store.committedSeq
  below : UnlinkInv phase store history below extra

/-- What the log and the files hold. -/
structure DiskInv (codec : WalCodec) (trace : Trace) : Prop where
  wal : ∃ earlier unflushed torn, WalInv codec trace.engine.phase trace.engine.store
    trace.engine.wal trace.history earlier unflushed torn
  files : ∃ below extra, FilesInv trace.engine.phase trace.engine.store trace.engine.dir
    trace.history trace.floor below extra

/-! ### Steps that touch no file -/

section Enter

variable {codec : WalCodec} {phase next : Phase} {store : Store} {wal : Wal} {dir : Directory}
  {history earlier unflushed : List Batch} {torn : Bytes} {floor : ℕ} {below extra : List Sst}

theorem WalInv.enter (inv : WalInv codec phase store wal history earlier unflushed torn)
    (durable : next.durable = phase.durable) (before : phase.logCut = false)
    (cut : next.logCut = false) (out : next.memOut = false)
    (drained : next.buffers = true ∨ phase.buffers = false) :
    WalInv codec next store wal history earlier unflushed torn where
  records := by
    rw [durable]
    exact inv.records
  torn := inv.torn
  drained := drained.imp_right fun past =>
    inv.drained.resolve_left (by rw [past]; exact Bool.false_ne_true)
  cursor := fun _ => inv.cursor before
  cut := fun held => absurd held (by rw [cut]; exact Bool.false_ne_true)
  history := inv.history
  mem := inv.mem
  flushed := fun held => absurd held (by rw [out]; exact Bool.false_ne_true)
  top := inv.top

theorem UnlinkInv.below_eq_nil (inv : UnlinkInv phase store history below extra)
    (linked : phase.unlinks = false) : below = [] := by
  cases phase <;> first | exact inv | cases linked

theorem unlinkInv_nil (linked : phase.unlinks = false) :
    UnlinkInv phase store history [] extra := by
  cases phase <;> first | rfl | cases linked

theorem FilesInv.enter (inv : FilesInv phase store dir history floor below extra)
    (before : phase.unlinks = false) (after : next.unlinks = false) :
    FilesInv next store dir history floor below extra := by
  have none := inv.below.below_eq_nil before
  exact { inv with below := none ▸ unlinkInv_nil after }

theorem DiskInv.enter {trace : Trace} (disk : DiskInv codec trace) {engine : Engine}
    {acked : List Batch} {flight : Option Batch} {calls : List Call}
    (same : engine.store = trace.engine.store ∧ engine.wal = trace.engine.wal ∧
      engine.dir.files = trace.engine.dir.files)
    (before : trace.engine.phase.logCut = false ∧ trace.engine.phase.unlinks = false)
    (durable : engine.phase.durable = trace.engine.phase.durable)
    (after : engine.phase.logCut = false ∧ engine.phase.memOut = false ∧
      engine.phase.unlinks = false)
    (drained : engine.phase.buffers = true ∨ trace.engine.phase.buffers = false) :
    DiskInv codec ⟨engine, trace.history, acked, flight, calls, trace.floor⟩ := by
  obtain ⟨earlier, unflushed, torn, wal⟩ := disk.wal
  obtain ⟨below, extra, files⟩ := disk.files
  refine ⟨⟨earlier, unflushed, torn, ?_⟩, below, extra, ?_⟩
  · show WalInv codec engine.phase engine.store engine.wal trace.history earlier unflushed torn
    rw [same.1, same.2.1]
    exact wal.enter durable before.1 after.1 after.2.1 drained
  · show FilesInv engine.phase engine.store engine.dir trace.history trace.floor below extra
    rw [same.1]
    have entered := files.enter before.2 after.2.2
    exact { entered with
      holds := ⟨entered.holds.ordered, fun number run => by
        rw [same.2.2]; exact entered.holds.files number run⟩ }

end Enter

/-! ### The append and the publish -/

/-- The log holds whole records, and nothing waits in the buffer. -/
def WalClean (codec : WalCodec) (wal : Wal) : Prop :=
  wal.buf = [] ∧ ∃ batches, Logged codec batches wal.file.bytes

theorem WalInv.torn_eq_nil (inv : WalInv codec phase store wal history earlier unflushed torn)
    (clean : WalClean codec wal) :
    torn = [] := by
  obtain ⟨empty, batches, whole⟩ := clean
  obtain ⟨records, rest, logged, bytes, split, stops⟩ := inv.records
  have enough : batches.length ≤ batches.length +
      (earlier ++ unflushed ++ phase.durable).length := Nat.le_add_right _ _
  have first := whole.readRecords readRecord_nil enough
  have second := logged.readRecords stops.readRecord (Nat.le_add_left _ batches.length)
  rw [List.append_nil, bytes] at first
  rw [first] at second
  rw [split, empty, List.append_nil]
  exact (Prod.mk.inj second).2.symm

/-- A record appended to a clean log. -/
theorem WalInv.append
    (inv : WalInv codec (.logging seq ops) store wal history earlier unflushed torn)
    (clean : torn = []) (made : walRecord codec (Batch.toWal ⟨seq, ops⟩) = .ok record) :
    WalInv codec (.logged seq ops) store (wal.append record) history earlier unflushed [] := by
  obtain ⟨records, rest, logged, bytes, split, -⟩ := inv.records
  rw [clean] at split
  obtain ⟨rfl, empty⟩ := List.append_eq_nil_iff.mp split.symm
  have written : (wal.append record).file.bytes = records ++ record ∧
      (wal.append record).file.cursor = (records ++ record).length := by
    rw [Wal.append, empty, List.nil_append, LogFile.write_at_end (inv.cursor rfl), bytes,
      List.append_nil]
    exact ⟨rfl, rfl⟩
  refine ⟨⟨records ++ record, [], ?_, by rw [written.1, List.append_nil], rfl, Or.inl rfl⟩,
    Or.inl rfl, Or.inr rfl, ?_, nofun, inv.history, inv.mem, nofun, inv.top⟩
  · show Logged codec (earlier ++ unflushed ++ [⟨seq, ops⟩]) (records ++ record)
    have before : earlier ++ unflushed ++ (Phase.logging seq ops).durable = earlier ++ unflushed :=
      List.append_nil _
    rw [before] at logged
    exact logged.concat made
  · intro _
    rw [written.2, written.1]

/-- A failed append to a clean log leaves the beginning of its record, and not all of it in the
file. -/
theorem WalInv.appendFailed
    (inv : WalInv codec (.logging seq ops) store wal history earlier unflushed torn)
    (clean : torn = []) (made : walRecord codec (Batch.toWal ⟨seq, ops⟩) = .ok record)
    {fault : Fault} (short : fault.accepted < record.length) :
    ∃ kept, WalInv codec .idle store (wal.appendFailed record fault.accepted) history earlier
      unflushed (record.take fault.accepted ++ (record.drop fault.accepted).take kept) := by
  obtain ⟨records, rest, logged, bytes, split, -⟩ := inv.records
  rw [clean] at split
  obtain ⟨rfl, empty⟩ := List.append_eq_nil_iff.mp split.symm
  rw [List.append_nil] at bytes
  have atEnd := inv.cursor rfl
  have whole : 8 ≤ record.length := by
    rw [walRecord_length made]
    exact Nat.le_add_right 8 _
  obtain ⟨file, buf⟩ := wal
  obtain rfl : buf = [] := empty
  obtain ⟨kept, left⟩ := Wal.appendFailed_of_empty atEnd whole short
  rw [LogFile.write_at_end atEnd, show file.bytes = records from bytes] at left
  refine ⟨kept, ?_⟩
  rw [left]
  refine ⟨⟨records, record.take fault.accepted, logged, rfl, rfl,
    Or.inr ⟨_, record, made, List.take_prefix _ _, ?_⟩⟩, Or.inr ⟨_, record, made, ?_⟩, Or.inl rfl,
    fun _ => rfl, nofun, inv.history, inv.mem, nofun, inv.top⟩
  · rw [List.length_take]
    exact (min_le_left _ _).trans_lt short
  · rw [← List.take_add]
    exact List.take_prefix _ _

theorem WalInv.publish
    (inv : WalInv codec (.logged seq ops) store wal history earlier unflushed torn)
    (ascending : Ascending (logOf (history ++ [⟨seq, ops⟩]))) :
    WalInv codec .flushing (store.publish seq ops) wal (history ++ [⟨seq, ops⟩]) earlier
      (unflushed ++ [⟨seq, ops⟩]) torn := by
  obtain ⟨before, split⟩ := inv.history
  have joined : history ++ [⟨seq, ops⟩] = before ++ earlier ++ (unflushed ++ [⟨seq, ops⟩]) := by
    rw [split]
    simp only [List.append_assoc]
  refine ⟨?_, inv.torn, Or.inr (inv.drained.resolve_left nofun), fun _ => inv.cursor rfl, nofun,
    ⟨before, ?_⟩, ?_, nofun, ?_⟩
  · have same : earlier ++ (unflushed ++ [⟨seq, ops⟩]) ++ Phase.flushing.durable =
        earlier ++ unflushed ++ (Phase.logged seq ops).durable := by
      simp [Phase.durable]
    rw [same]
    exact inv.records
  · rw [joined, List.append_assoc]
  · funext user at_
    rw [joined, logOf_append] at ascending
    rw [recorded_logOf_concat (List.pairwise_append.mp ascending).2.1, ← inv.mem]
    exact store.publish_mem ⟨seq, ops⟩ user at_
  · exact Or.inl ⟨⟨seq, ops⟩, List.mem_append_right _ (List.mem_singleton.mpr rfl), rfl⟩

theorem FilesInv.publish {floor : ℕ} {extra : List Sst}
    (inv : FilesInv phase store dir history floor below extra) (linked : phase.unlinks = false)
    (batch : Batch) (advances : store.committedSeq < batch.seq)
    (ascending : Ascending (logOf (history ++ [batch]))) :
    FilesInv .flushing (store.publish batch.seq batch.ops) dir (history ++ [batch]) floor below
      extra := by
  obtain ⟨-, ssts, nextSst⟩ := store.foldl_stamp_frame batch.seq batch.ops
  have ssts : (store.publish batch.seq batch.ops).ssts = store.ssts := ssts
  have nextSst : (store.publish batch.seq batch.ops).nextSst = store.nextSst := nextSst
  refine ⟨?_, ?_, ?_, ?_, ?_, ?_, ?_, ?_⟩
  · rw [ssts]
    exact inv.holds
  · rw [ssts, nextSst]
    exact inv.past
  · rw [nextSst]
    exact inv.only
  · exact fun sst member user seq op found =>
      within_concat ascending _ _ _ (inv.within sst member _ _ _ found)
  · rw [ssts]
    exact inv.layered
  · intro sst member user snapshot op above unseen seen
    obtain ⟨before, same⟩ := visible_of_stamped_none ascending (store.publish_mem batch) unseen
    rw [same]
    exact inv.transparent sst member user snapshot op above before seen
  · rw [ssts]
    exact fun sst member => (inv.maxSeq sst member).trans (Nat.le_of_lt advances)
  · exact inv.below.below_eq_nil linked

/-! ### Runs written and swapped in -/

section Runs

variable {codec : WalCodec} {phase next : Phase} {store : Store} {wal : Wal} {dir : Directory}
  {history earlier unflushed : List Batch} {torn : Bytes} {floor minSnapshot : ℕ}
  {below extra old : List Sst} {left : List ℕ} {run : Run}

/-- A run renamed in under the next number. -/
theorem FilesInv.rename (inv : FilesInv phase store dir history floor below extra)
    (before : phase.unlinks = false) (after : next.unlinks = false)
    (within : Within run.source (recorded (logOf history)))
    (layered : ∀ older ∈ store.ssts, Layered older.source run.source)
    (transparent : Transparent store history floor run.source)
    (maxSeq : run.maxSeq ≤ store.committedSeq) (temps : ExtTreeMap ℕ Run compare) :
    FilesInv next store ⟨dir.files.insert store.nextSst run, temps⟩ history floor []
      [{ run with number := store.nextSst }] := by
  obtain rfl := inv.below.below_eq_nil before
  refine ⟨inv.holds.insert inv.past inv.only run temps, inv.past, ?_, ?_, ?_, ?_, ?_,
    unlinkInv_nil after⟩
  · exact fun sst member => by rw [List.mem_singleton.mp member]
  · exact fun sst member => by rw [List.mem_singleton.mp member]; exact within
  · exact fun sst member => by rw [List.mem_singleton.mp member]; exact layered
  · exact fun sst member => by rw [List.mem_singleton.mp member]; exact transparent
  · intro sst member
    rcases List.mem_append.mp member with old | new
    · exact inv.maxSeq sst (List.mem_append_left _ old)
    · rw [List.mem_singleton.mp new]
      exact maxSeq

/-- The file under the next number is the leftover. -/
theorem FilesInv.extra_eq (inv : FilesInv phase store dir history floor below extra)
    (held : dir.files[store.nextSst]? = some run) :
    extra = [{ run with number := store.nextSst }] := by
  obtain ⟨sst, member, number, rfl⟩ := (inv.holds.files _ _).mp held
  have inside : sst ∈ extra := by
    rcases List.mem_append.mp member with old | new
    · exact absurd number (Nat.ne_of_lt (inv.past sst old))
    · exact new
  have ordered := (List.pairwise_append.mp inv.holds.ordered).2.1
  match extra, inside, ordered, inv.only with
  | [only], inside, _, _ =>
    rw [List.mem_singleton.mp inside] at number ⊢
    rw [← number]
  | first :: second :: rest, _, ordered, numbers =>
    have less := (List.pairwise_cons.mp ordered).1 second List.mem_cons_self
    rw [numbers first List.mem_cons_self,
      numbers second (List.mem_cons_of_mem _ List.mem_cons_self)] at less
    exact absurd less (Nat.lt_irrefl _)

theorem FilesInv.flushRenamed (inv : FilesInv phase store dir history floor below extra)
    (live : StoreInv store history floor) (before : phase.unlinks = false)
    (after : next.unlinks = false) (temps : ExtTreeMap ℕ Run compare) :
    FilesInv next store ⟨dir.files.insert store.nextSst store.flushRun, temps⟩ history floor []
      [{ store.flushRun with number := store.nextSst }] := by
  have copied : Within store.flushRun.source (recorded (logOf history)) :=
    live.recent.within live.ascending
  refine inv.rename before after copied (fun older member => ?_) ?_ le_rfl temps
  · exact (live.recent.layered live.ascending).mono (live.within older member)
  · intro user snapshot op _ unseen seen
    exact absurd (seen.symm.trans unseen) nofun

theorem FilesInv.swapFlushed
    (inv : FilesInv (.flushRenamed number) store dir history floor below extra)
    (number_eq : number = store.nextSst) (held : dir.files[store.nextSst]? = some store.flushRun)
    (opened : sst = { store.flushRun with number := number }) :
    FilesInv .flushSwapped (store.swapFlushed number sst) dir history floor [] [] := by
  obtain rfl := inv.below.below_eq_nil rfl
  have extra_eq := inv.extra_eq held
  subst number_eq
  rw [← opened] at extra_eq
  subst extra_eq
  refine ⟨?_, ?_, nofun, nofun, nofun, nofun, ?_, rfl⟩
  · rw [List.append_nil]
    exact inv.holds
  · intro other member
    rcases List.mem_append.mp member with old | new
    · exact absurd old List.not_mem_nil
    · rcases List.mem_append.mp new with old | last
      · exact Nat.lt_succ_of_lt (inv.past other old)
      · rw [List.mem_singleton.mp last, opened]
        exact Nat.lt_succ_self _
  · intro other member
    rw [List.append_nil] at member
    exact inv.maxSeq other member

theorem WalInv.swapFlushed
    (inv : WalInv codec (.flushRenamed number) store wal history earlier unflushed torn)
    (maxSeq : sst.maxSeq = store.committedSeq) :
    WalInv codec .flushSwapped (store.swapFlushed number sst) wal history (earlier ++ unflushed) []
      torn := by
  refine ⟨?_, inv.torn, Or.inr (inv.drained.resolve_left nofun), fun _ => inv.cursor rfl, nofun, ?_,
    ?_, fun _ => rfl, ?_⟩
  · rw [List.append_nil]
    exact inv.records
  · rw [List.append_nil]
    exact inv.history
  · show memSource ∅ = recorded (logOf [])
    rw [memSource_empty]
    rfl
  · exact Or.inr (Or.inl ⟨sst, List.mem_append_right _ (List.mem_singleton.mpr rfl), maxSeq⟩)

/-- The log cut to length 0. -/
theorem WalInv.cutLog (inv : WalInv codec .flushSwapped store wal history earlier unflushed torn) :
    WalInv codec .walCut store ⟨(wal.file.write wal.buf).setLen 0, []⟩ history [] [] [] := by
  have empty := inv.flushed rfl
  subst empty
  refine ⟨⟨[], [], rfl, ?_, rfl, Or.inl rfl⟩, Or.inl rfl, Or.inr rfl, nofun, fun _ => ⟨?_, rfl⟩,
    ⟨history, ?_⟩, inv.mem, fun _ => rfl, inv.top⟩
  · simp [LogFile.setLen]
  · simp [LogFile.setLen]
  · rw [List.append_nil, List.append_nil]

theorem WalInv.seek (inv : WalInv codec .walCut store wal history earlier unflushed torn) :
    WalInv codec .walSought store { wal with file := wal.file.seek 0 } history earlier unflushed
      torn := by
  refine ⟨inv.records, inv.torn, Or.inr (inv.drained.resolve_left nofun), fun _ => ?_, nofun,
    inv.history, inv.mem, nofun, inv.top⟩
  show 0 = wal.file.bytes.length
  rw [(inv.cut rfl).1]
  rfl

/-! ### The run of a compaction -/

theorem compactedRun_within (live : StoreInv store history floor) (committedSeq minSnapshot : ℕ) :
    Within (compactedRun store.ssts committedSeq minSnapshot).source (recorded (logOf history)) := by
  intro user seq op found
  refine within_merged (fun source member => ?_) user seq op
    ((compactedRun_reclaimed store.ssts committedSeq minSnapshot).within _ _ _ found)
  obtain ⟨run, inside, rfl⟩ := List.mem_map.mp member
  exact live.within run (List.mem_reverse.mp inside)

/-- Each run is part of the merge of them all. -/
theorem within_merged_stack {whole : Source UserKey Op}
    (within : ∀ sst ∈ runs, Within sst.source whole) {run : Sst} (member : run ∈ runs) :
    Within run.source (merged (runs.reverse.map fun sst => sst.source)) := by
  intro user seq op found
  have held : ((merged (runs.reverse.map fun sst => sst.source)) user seq).isSome :=
    merged_isSome_of_mem (List.mem_map.mpr ⟨run, List.mem_reverse.mpr member, rfl⟩)
      (by rw [found]; rfl)
  obtain ⟨other, same⟩ := Option.isSome_iff_exists.mp held
  obtain ⟨source, inside, holds⟩ := exists_of_merged same
  obtain ⟨sst, listed, rfl⟩ := List.mem_map.mp inside
  have first := within sst (List.mem_reverse.mp listed) _ _ _ holds
  have second := within run member _ _ _ found
  rw [same, ← first, second]

theorem compactedRun_layered (live : StoreInv store history floor) (committedSeq minSnapshot : ℕ)
    {run : Sst} (member : run ∈ store.ssts) :
    Layered run.source (compactedRun store.ssts committedSeq minSnapshot).source :=
  (compactedRun_reclaimed store.ssts committedSeq minSnapshot).layered.mono
    (within_merged_stack live.within member)

/-- What the merged run shows, the runs showed, below the snapshot it reclaims from too. -/
theorem compactedRun_transparent (live : StoreInv store history floor)
    (committedSeq minSnapshot : ℕ) :
    Transparent store history floor (compactedRun store.ssts committedSeq minSnapshot).source := by
  have reclaimed := compactedRun_reclaimed store.ssts committedSeq minSnapshot
  have newestFirst : store.stack.Pairwise fun newer older => Layered older newer := by
    rw [List.pairwise_map, List.pairwise_reverse]
    exact live.layered
  intro user snapshot op above unseen seen
  have whole := visible_of_within_layered reclaimed.within reclaimed.layered seen
  rw [visible_merged newestFirst] at whole
  rw [← live.exact user snapshot above unseen, whole]
  rfl

theorem compactedRun_maxSeq (runs : List Sst) (minSnapshot : ℕ) {committedSeq : ℕ}
    (bounded : ∀ sst ∈ runs, sst.maxSeq ≤ committedSeq) :
    (compactedRun runs committedSeq minSnapshot).maxSeq ≤ committedSeq ∧
      ((∃ sst ∈ runs, sst.maxSeq = committedSeq) →
        (compactedRun runs committedSeq minSnapshot).maxSeq = committedSeq) := by
  have stamped : (compactedRun runs committedSeq minSnapshot).maxSeq =
      (runs.map fun sst => sst.maxSeq).max?.getD committedSeq := rfl
  rw [stamped]
  cases greatest : (runs.map fun sst => sst.maxSeq).max? with
  | none => exact ⟨le_rfl, fun _ => rfl⟩
  | some top =>
    obtain ⟨member, above⟩ := List.max?_eq_some_iff.mp greatest
    obtain ⟨sst, inside, rfl⟩ := List.mem_map.mp member
    refine ⟨bounded sst inside, fun ⟨newest, listed, same⟩ => ?_⟩
    refine Nat.le_antisymm (bounded sst inside) ?_
    rw [← same]
    exact above _ (List.mem_map_of_mem listed)

theorem FilesInv.mergedRenamed (inv : FilesInv phase store dir history floor below extra)
    (live : StoreInv store history floor) (before : phase.unlinks = false)
    (after : next.unlinks = false) (minSnapshot : ℕ) (temps : ExtTreeMap ℕ Run compare) :
    FilesInv next store
      ⟨dir.files.insert store.nextSst (compactedRun store.ssts store.committedSeq minSnapshot),
        temps⟩ history floor []
      [{ compactedRun store.ssts store.committedSeq minSnapshot with number := store.nextSst }] := by
  refine inv.rename before after (compactedRun_within live _ _)
    (fun older member => compactedRun_layered live _ _ member) (compactedRun_transparent live _ _)
    (compactedRun_maxSeq _ _ fun sst member => ?_).1 temps
  exact inv.maxSeq sst (List.mem_append_left _ (List.mem_append_right _ member))

/-- The swap of a compaction leaves all the old files behind. -/
theorem FilesInv.swapCompacted (inv : FilesInv phase store dir history floor below extra)
    (live : StoreInv store history floor) (linked : phase.unlinks = false)
    (held : dir.files[store.nextSst]? =
      some (compactedRun store.ssts store.committedSeq minSnapshot)) (opened : sst =
      { compactedRun store.ssts store.committedSeq minSnapshot with number := store.nextSst })
    (low : minSnapshot ≤ store.committedSeq) (raised : ℕ) :
    FilesInv (.unlinking store.ssts minSnapshot (store.ssts.reverse.map fun sst => sst.number))
      (store.swapCompacted store.ssts.length store.nextSst sst) dir history raised store.ssts [] := by
  obtain rfl := inv.below.below_eq_nil linked
  have extra_eq := inv.extra_eq held
  rw [← opened] at extra_eq
  subst extra_eq
  have ssts : (store.swapCompacted store.ssts.length store.nextSst sst).ssts = [sst] := by
    simp [Store.swapCompacted]
  refine ⟨?_, ?_, List.forall_mem_nil _, List.forall_mem_nil _, List.forall_mem_nil _,
    List.forall_mem_nil _, ?_, rfl, List.prefix_rfl, rfl,
    (List.pairwise_append.mp inv.holds.ordered).1, live.layered, live.within, low, sst, ssts, ?_⟩
  · rw [ssts, List.append_nil]
    exact inv.holds
  · rw [ssts]
    intro other member
    rcases List.mem_append.mp member with old | new
    · exact Nat.lt_succ_of_lt (inv.past other old)
    · rw [List.mem_singleton.mp new, opened]
      exact Nat.lt_succ_self _
  · rw [ssts, List.append_nil]
    exact inv.maxSeq
  · rw [opened]
    exact compactedRun_reclaimed _ _ _

theorem WalInv.swapCompacted
    (inv : WalInv codec (.mergedRenamed runs number minSnapshot) store wal history earlier unflushed
      torn) (maxSeq : (∃ run ∈ store.ssts, run.maxSeq = store.committedSeq) →
      sst.maxSeq = store.committedSeq) (count : ℕ) :
    WalInv codec (.unlinking old minSnapshot left) (store.swapCompacted count number sst) wal history
      earlier unflushed torn := by
  refine ⟨inv.records, inv.torn, Or.inr (inv.drained.resolve_left nofun), fun _ => inv.cursor rfl,
    nofun, inv.history, inv.mem, nofun, ?_⟩
  rcases inv.top with batch | run | zero
  · exact Or.inl batch
  · exact Or.inr (Or.inl ⟨sst, List.mem_cons_self, maxSeq run⟩)
  · exact Or.inr (Or.inr zero)

/-- One more of the old files is gone, the newest of those left. -/
theorem FilesInv.unlink
    (inv : FilesInv (.unlinking old minSnapshot (number :: left)) store dir history floor below
      extra) :
    ∃ fewer, FilesInv (.unlinking old minSnapshot left) store (dir.unlink number) history floor fewer
      [] := by
  obtain ⟨rfl, start, numbers, rest⟩ := inv.below
  cases below using List.reverseRecOn with
  | nil => cases numbers
  | append_singleton fewer last =>
    rw [List.reverse_append, List.reverse_singleton, List.singleton_append, List.map_cons,
      List.cons.injEq] at numbers
    obtain ⟨rfl, rfl⟩ := numbers
    have subset : ∀ sst ∈ fewer ++ store.ssts, sst ∈ fewer ++ [last] ++ store.ssts := by
      intro sst member
      rw [List.append_assoc]
      rcases List.mem_append.mp member with early | run
      · exact List.mem_append_left _ early
      · exact List.mem_append_right _ (List.mem_append_right _ run)
    refine ⟨fewer, ?_, fun sst member => inv.past sst (subset sst member), nofun, nofun, nofun,
      nofun, ?_, rfl, (List.prefix_append _ _).trans start, rfl, rest⟩
    · have holds := inv.holds
      rw [List.append_nil, List.append_assoc, List.singleton_append] at holds
      rw [List.append_nil]
      exact holds.unlink
    · intro sst member
      rw [List.append_nil] at member
      exact inv.maxSeq sst (List.mem_append_left _ (subset sst member))

/-- All of them are gone. -/
theorem FilesInv.unlinked
    (inv : FilesInv (.unlinking old minSnapshot []) store dir history floor below extra) :
    FilesInv .idle store dir history floor [] [] := by
  obtain ⟨rfl, -, numbers, -⟩ := inv.below
  have none : below = [] := by
    have empty := numbers.symm
    rw [List.map_eq_nil_iff, List.reverse_eq_nil_iff] at empty
    exact empty
  subst none
  exact ⟨inv.holds, inv.past, inv.only, inv.within, inv.layered, inv.transparent, inv.maxSeq, rfl⟩

end Runs

end DrStrange.Native
