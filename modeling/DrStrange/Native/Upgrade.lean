/-
**Rewriting v1 runs, and reopening afterwards.**

`upgrade_runs` rewrites one v1 run at a time: the copy takes the old run's place in memory, but a
fresh file number. A reopen orders the runs by number, so every rewritten run stands behind all
those that kept their file (`Engine.upgradeRuns_list`). The store reads as before exactly when no run
that kept its file was hiding a rewritten one (`upgrade_reopen_iff`).
-/

import DrStrange.Native.Recovery

namespace DrStrange.Native

open Std Versioned

/-! ### The upgrade -/

/-- The rewrite of a run: the same entries in the current format. -/
def Run.rewrite (run : Run) : Run := ⟨.v2, run.maxSeq, run.entries, run.sorted⟩

/-- Swap the first v1 run for its rewrite, leaving every other run alone. -/
def replaceLegacy (fresh : Sst) : List Sst → List Sst
  | [] => []
  | sst :: ssts => if sst.isLegacy then fresh :: ssts else sst :: replaceLegacy fresh ssts

/-- `legacy_runs`. -/
def Store.legacyRuns (store : Store) : ℕ := (store.ssts.filter Sst.isLegacy).length

/-- One pass of the loop of `upgrade_runs`; `none` when there is no v1 run left. -/
def Engine.upgradeRun (engine : Engine) : Option Engine :=
  (engine.store.ssts.find? Sst.isLegacy).bind fun old =>
    let next := engine.store.nextSst
    ((engine.dir.writeTemp next old.rewrite).rename next).bind fun dir =>
      (dir.openSst next).map fun fresh =>
        { engine with
          store := { engine.store with
            nextSst := next + 1, ssts := replaceLegacy fresh engine.store.ssts }
          dir := dir.unlink old.number }

/-- `upgrade_runs`, up to `passes` of them. -/
def Engine.upgradeRuns : ℕ → Engine → Engine
  | 0, engine => engine
  | passes + 1, engine => (engine.upgradeRun.map (Engine.upgradeRuns passes)).getD engine

/-- The runs that keep their file through so many passes. -/
def keptRuns : ℕ → List Sst → List Sst
  | 0, ssts => ssts
  | passes + 1, ssts => keptRuns passes (ssts.eraseP Sst.isLegacy)

/-- The runs they rewrite. -/
def rewrittenRuns (passes : ℕ) (ssts : List Sst) : List Sst := (ssts.filter Sst.isLegacy).take passes

/-! ### What a pass does to the directory -/

theorem Directory.upgrade_eq (dir : Directory) (number : ℕ) (run : Run) :
    (dir.writeTemp number run).rename number = some
      ⟨dir.files.insert number run, (dir.temps.insert number run).erase number⟩ := by
  rw [Directory.rename, Directory.writeTemp, ExtTreeMap.getElem?_insert_self, Option.map_some]

variable {ssts fresh kept : List Sst} {engine : Engine} {old : Sst} {codec : WalCodec}
  {second first : Store} {bytes : Bytes} {snapshot : ℕ}

/-- The first v1 run of a list. -/
theorem eraseP_of_find? (found : ssts.find? Sst.isLegacy = some old) :
    ∃ older newer, ssts = older ++ old :: newer ∧ (∀ sst ∈ older, ¬ sst.isLegacy = true) ∧
      old.isLegacy = true ∧ ssts.eraseP Sst.isLegacy = older ++ newer := by
  obtain ⟨legacy, older, newer, rfl, before⟩ := List.find?_eq_some_iff_append.mp found
  have none : ∀ sst ∈ older, ¬ sst.isLegacy = true := fun sst member => by
    simpa using before sst member
  refine ⟨older, newer, rfl, none, legacy, ?_⟩
  rw [List.eraseP_append_right _ none, List.eraseP_cons_of_pos legacy]

theorem replaceLegacy_eq {older newer : List Sst} {fresh : Sst}
    (none : ∀ sst ∈ older, ¬ sst.isLegacy = true) (legacy : old.isLegacy = true) :
    replaceLegacy fresh (older ++ old :: newer) = older ++ fresh :: newer := by
  induction older with
  | nil => rw [List.nil_append, replaceLegacy, if_pos legacy, List.nil_append]
  | cons sst older ih =>
    rw [List.cons_append, replaceLegacy, if_neg (none sst List.mem_cons_self),
      ih fun other member => none other (List.mem_cons_of_mem _ member), List.cons_append]

/-- The directory after some passes: the runs that kept their file, and behind them the rewrites. The
v1 runs in memory are those among the first. -/
structure Upgrading (engine : Engine) (kept fresh : List Sst) : Prop where
  holds : Holds engine.dir (kept ++ fresh)
  past : ∀ sst ∈ kept ++ fresh, sst.number < engine.store.nextSst
  legacy : engine.store.ssts.filter Sst.isLegacy = kept.filter Sst.isLegacy

/-- A run as a rewrite leaves it. -/
def Sst.sameRun (first second : Sst) : Prop :=
  first.entries = second.entries ∧ first.maxSeq = second.maxSeq

/-- One pass moves the first v1 run behind the others. -/
theorem Upgrading.pass (upgrading : Upgrading engine kept fresh)
    (found : kept.find? Sst.isLegacy = some old) :
    ∃ after copy, engine.upgradeRun = some after ∧
      (after.wal = engine.wal ∧ after.phase = engine.phase) ∧
      after.store.legacyRuns + 1 = engine.store.legacyRuns ∧ copy.sameRun old ∧
      Upgrading after (kept.eraseP Sst.isLegacy) (fresh ++ [copy]) := by
  have same : engine.store.ssts.find? Sst.isLegacy = some old := by
    rw [← List.head?_filter, upgrading.legacy, List.head?_filter, found]
  obtain ⟨older, newer, split, early, isLegacy, erased⟩ := eraseP_of_find? found
  obtain ⟨front, rest, stored, before, -, -⟩ := eraseP_of_find? same
  let copy : Sst := { old.rewrite with number := engine.store.nextSst }
  have opened : (⟨engine.dir.files.insert engine.store.nextSst old.rewrite,
      (engine.dir.temps.insert engine.store.nextSst old.rewrite).erase engine.store.nextSst⟩ :
        Directory).openSst engine.store.nextSst = some copy := by
    rw [Directory.openSst, ExtTreeMap.getElem?_insert_self, Option.map_some]
  have noneKept : older.filter Sst.isLegacy = [] :=
    List.filter_eq_nil_iff.mpr early
  have noneFront : front.filter Sst.isLegacy = [] :=
    List.filter_eq_nil_iff.mpr before
  have tails : rest.filter Sst.isLegacy = newer.filter Sst.isLegacy := by
    have both := upgrading.legacy
    rw [stored, split, List.filter_append, List.filter_append, noneFront, noneKept,
      List.filter_cons_of_pos isLegacy, List.filter_cons_of_pos isLegacy] at both
    exact (List.cons.inj both).2
  have replaced : (replaceLegacy copy engine.store.ssts).filter Sst.isLegacy =
      newer.filter Sst.isLegacy := by
    rw [stored, replaceLegacy_eq before isLegacy, List.filter_append, noneFront,
      List.filter_cons_of_neg (by exact Bool.false_ne_true), List.nil_append, tails]
  refine ⟨{ engine with
      store := { engine.store with
        nextSst := engine.store.nextSst + 1, ssts := replaceLegacy copy engine.store.ssts }
      dir := (⟨engine.dir.files.insert engine.store.nextSst old.rewrite,
        (engine.dir.temps.insert engine.store.nextSst old.rewrite).erase engine.store.nextSst⟩ :
          Directory).unlink old.number }, copy, ?_, ⟨rfl, rfl⟩, ?_, ⟨rfl, rfl⟩, ?_, ?_, ?_⟩
  · rw [Engine.upgradeRun, same]
    simp only [Option.bind_some, Directory.upgrade_eq, opened, Option.map_some]
  · rw [Store.legacyRuns, Store.legacyRuns, replaced, upgrading.legacy, split, List.filter_append,
      noneKept, List.filter_cons_of_pos isLegacy, List.nil_append, List.length_cons]
  · -- The copy goes behind every file, and the original out of their middle.
    have all : Holds engine.dir (kept ++ fresh ++ []) := by
      rw [List.append_nil]
      exact upgrading.holds
    have inserted := all.insert upgrading.past (List.forall_mem_nil _) old.rewrite
      ((engine.dir.temps.insert engine.store.nextSst old.rewrite).erase engine.store.nextSst)
    rw [split, List.append_assoc, List.append_assoc, List.cons_append] at inserted
    rw [erased, List.append_assoc]
    exact inserted.unlink
  · intro sst member
    have number : sst.number < engine.store.nextSst ∨ sst = copy := by
      rcases List.mem_append.mp member with old | new
      · exact Or.inl (upgrading.past sst (List.mem_append_left _ (List.mem_of_mem_eraseP old)))
      · rcases List.mem_append.mp new with old | last
        · exact Or.inl (upgrading.past sst (List.mem_append_right _ old))
        · exact Or.inr (List.mem_singleton.mp last)
    rcases number with less | rfl
    · exact Nat.lt_succ_of_lt less
    · exact Nat.lt_succ_self _
  · show (replaceLegacy copy engine.store.ssts).filter Sst.isLegacy = _
    rw [replaced, erased, List.filter_append, noneKept, List.nil_append]

theorem Upgrading.done (upgrading : Upgrading engine kept fresh)
    (none_ : kept.find? Sst.isLegacy = none) :
    engine.upgradeRun = none ∧ engine.store.legacyRuns = 0 := by
  have missing : kept.filter Sst.isLegacy = [] :=
    List.filter_eq_nil_iff.mpr (List.find?_eq_none.mp none_)
  have same : engine.store.ssts.find? Sst.isLegacy = none := by
    rw [← List.head?_filter, upgrading.legacy, missing]
    rfl
  exact ⟨by rw [Engine.upgradeRun, same]; rfl, by
    rw [Store.legacyRuns, upgrading.legacy, missing]
    rfl⟩

theorem keptRuns_of_none (passes : ℕ) (none_ : ssts.find? Sst.isLegacy = none) :
    keptRuns passes ssts = ssts ∧ rewrittenRuns passes ssts = [] := by
  have missing := List.find?_eq_none.mp none_
  refine ⟨?_, by rw [rewrittenRuns, List.filter_eq_nil_iff.mpr missing, List.take_nil]⟩
  induction passes with
  | zero => rfl
  | succ passes ih => rw [keptRuns, List.eraseP_of_forall_not missing, ih]

theorem rewrittenRuns_succ (passes : ℕ) (found : ssts.find? Sst.isLegacy = some old) :
    rewrittenRuns (passes + 1) ssts =
      old :: rewrittenRuns passes (ssts.eraseP Sst.isLegacy) := by
  obtain ⟨older, newer, split, early, isLegacy, erased⟩ := eraseP_of_find? found
  rw [rewrittenRuns, rewrittenRuns, erased, split, List.filter_append, List.filter_append,
    List.filter_eq_nil_iff.mpr early, List.filter_cons_of_pos isLegacy, List.nil_append,
    List.nil_append, List.take_succ_cons]

/-- **So many passes** leave the kept runs in front, and the rewrites behind them in their old
order. -/
theorem Upgrading.passes (upgrading : Upgrading engine kept fresh) (passes : ℕ) :
    ∃ copies, Upgrading (engine.upgradeRuns passes) (keptRuns passes kept) (fresh ++ copies) ∧
      ((engine.upgradeRuns passes).wal = engine.wal ∧
        (engine.upgradeRuns passes).phase = engine.phase) ∧
      (engine.upgradeRuns passes).store.legacyRuns = engine.store.legacyRuns - passes ∧
      List.Forall₂ Sst.sameRun copies (rewrittenRuns passes kept) := by
  induction passes generalizing engine kept fresh with
  | zero =>
    exact ⟨[], by rw [List.append_nil]; exact upgrading, ⟨rfl, rfl⟩, rfl, List.Forall₂.nil⟩
  | succ passes ih =>
    cases found : kept.find? Sst.isLegacy with
    | none =>
      obtain ⟨stops, empty⟩ := upgrading.done found
      have stays : engine.upgradeRuns (passes + 1) = engine := by
        rw [Engine.upgradeRuns, stops]
        rfl
      obtain ⟨same, nothing⟩ := keptRuns_of_none (passes + 1) found
      rw [stays, same, nothing]
      refine ⟨[], by rw [List.append_nil]; exact upgrading, ⟨rfl, rfl⟩, ?_, List.Forall₂.nil⟩
      rw [empty, Nat.zero_sub]
    | some old =>
      obtain ⟨after, copy, stepped, frame, fewer, same, next⟩ := upgrading.pass found
      obtain ⟨copies, ends, kept', legacy, alike⟩ := ih next
      have runs : engine.upgradeRuns (passes + 1) = after.upgradeRuns passes := by
        rw [Engine.upgradeRuns, stepped]
        rfl
      rw [runs, rewrittenRuns_succ passes found]
      refine ⟨copy :: copies, ?_, ⟨kept'.1.trans frame.1, kept'.2.trans frame.2⟩, ?_,
        List.Forall₂.cons same alike⟩
      · rw [keptRuns, List.append_cons]
        exact ends
      · rw [legacy]
        omega

/-! ### The log of a reopened store -/

/-- Reading a record looks at nothing behind it. -/
theorem readRecord_local {rest : Bytes} {batch : WalBatch}
    (read : readRecord codec bytes = some (batch, rest)) :
    ∃ head, bytes = head ++ rest ∧ 8 ≤ head.length ∧
      ∀ more, readRecord codec (head ++ more) = some (batch, more) := by
  rw [readRecord] at read
  simp only at read
  split_ifs at read with header body crc
  obtain ⟨decoded, same, pair⟩ := Option.map_eq_some_iff.mp read
  obtain ⟨rfl, rfl⟩ := Prod.mk.inj pair
  rw [Nat.not_lt] at header body
  rw [not_not] at crc
  have eight : 8 ≤ (bytes.take 8).length := by
    rw [List.length_take]
    omega
  refine ⟨bytes.take 8 ++ (bytes.drop 8).take (leNat (bytes.take 4)), ?_, ?_, fun more => ?_⟩
  · rw [List.append_assoc, List.take_append_drop, List.take_append_drop]
  · rw [List.length_append]
    omega
  · have long : ¬ (bytes.take 8 ++ (bytes.drop 8).take (leNat (bytes.take 4)) ++ more).length <
        8 := by
      rw [List.length_append, List.length_append]
      omega
    have front : (bytes.take 8).take 4 = bytes.take 4 := by rw [List.take_take]; rfl
    have check : ((bytes.take 8).drop 4).take 4 = (bytes.drop 4).take 4 := by
      rw [List.drop_take, List.take_take]
      rfl
    have size : (bytes.take 8).length = 8 := by
      rw [List.length_take]
      omega
    have payload : ((bytes.drop 8).take (leNat (bytes.take 4))).length = leNat (bytes.take 4) := by
      rw [List.length_take]
      omega
    rw [readRecord, if_neg long, List.append_assoc,
      List.take_append_of_le_length (by omega), front,
      List.drop_append_of_le_length (by omega), List.take_append_of_le_length (by
        rw [List.length_drop]; omega), check, List.drop_left' size]
    simp only
    rw [if_neg (by rw [List.length_append, payload]; omega), List.take_left' payload,
      if_neg (not_not.mpr crc), same, List.drop_left' payload, Option.map_some]

/-- The valid prefix reads as the whole did. -/
theorem readRecords_front {fuel : ℕ} {tail : Bytes} {batches : List WalBatch}
    (read : readRecords codec fuel bytes = (batches, tail)) :
    ∃ front, bytes = front ++ tail ∧
      ∀ enough, front.length ≤ enough → readRecords codec enough front = (batches, []) := by
  have nothing : ∀ enough, readRecords codec enough [] = ([], []) := by
    intro enough
    cases enough <;> rfl
  induction fuel generalizing bytes batches with
  | zero =>
    obtain ⟨rfl, rfl⟩ := Prod.mk.inj read
    exact ⟨[], rfl, fun enough _ => nothing enough⟩
  | succ fuel ih =>
    rw [readRecords] at read
    cases first : readRecord codec bytes with
    | none =>
      rw [first] at read
      obtain ⟨rfl, rfl⟩ := Prod.mk.inj read
      exact ⟨[], rfl, fun enough _ => nothing enough⟩
    | some pair =>
      obtain ⟨batch, rest⟩ := pair
      rw [first] at read
      obtain ⟨rfl, rfl⟩ := Prod.mk.inj read
      obtain ⟨head, rfl, eight, again⟩ := readRecord_local first
      obtain ⟨front, split, reads⟩ := ih (rfl : readRecords codec fuel rest = _)
      refine ⟨head ++ front, by rw [List.append_assoc, ← split], fun enough long => ?_⟩
      rw [List.length_append] at long
      obtain ⟨enough, rfl⟩ : ∃ less, enough = less + 1 := ⟨enough - 1, by omega⟩
      rw [readRecords, again]
      simp only
      rw [reads enough (by omega)]

/-- Replay puts the same into the memtable whatever the runs are, and leaves the runs alone. -/
theorem foldl_replayBatch_frame (batches : List WalBatch) (same : first.mem = second.mem) :
    (batches.foldl Store.replayBatch first).mem = (batches.foldl Store.replayBatch second).mem ∧
      (batches.foldl Store.replayBatch first).ssts = first.ssts ∧
      (batches.foldl Store.replayBatch first).nextSst = first.nextSst := by
  have stamped : ∀ (ops : List WalOp) (seq : ℕ) (first second : Store), first.mem = second.mem →
      (ops.foldl (fun store op =>
        store.stamp seq ⟨op.table, op.key⟩ (op.value.elim .del .put)) first).mem =
      (ops.foldl (fun store op =>
        store.stamp seq ⟨op.table, op.key⟩ (op.value.elim .del .put)) second).mem ∧
      (ops.foldl (fun store op =>
        store.stamp seq ⟨op.table, op.key⟩ (op.value.elim .del .put)) first).ssts = first.ssts ∧
      (ops.foldl (fun store op =>
        store.stamp seq ⟨op.table, op.key⟩ (op.value.elim .del .put)) first).nextSst =
          first.nextSst := by
    intro ops seq
    induction ops with
    | nil => exact fun _ _ same => ⟨same, rfl, rfl⟩
    | cons op ops ih =>
      intro first second same
      exact ih _ _ (by simp only [Store.stamp, same])
  induction batches generalizing first second with
  | nil => exact ⟨same, rfl, rfl⟩
  | cons batch batches ih =>
    obtain ⟨mem, ssts, nextSst⟩ := stamped batch.ops batch.seq first second same
    have replayed : (first.replayBatch batch).mem = (second.replayBatch batch).mem := mem
    obtain ⟨later, runs, number⟩ := ih replayed
    exact ⟨later, runs.trans ssts, number.trans nextSst⟩

/-- The memtable a log replays to. -/
def replayedMem (codec : WalCodec) (bytes : Bytes) : Memtable :=
  ((replayedBatches codec bytes).foldl Store.replayBatch ⟨∅, 0, 0, [], 1⟩).mem

theorem openEngine_mem (codec : WalCodec) (dir : Directory) (bytes : Bytes) (readOnly : Bool) :
    (openEngine codec dir bytes readOnly).store.mem = replayedMem codec bytes ∧
      (openEngine codec dir bytes readOnly).store.ssts = dir.list ∧
      (openEngine codec dir bytes readOnly).store.nextSst = dir.nextNumber := by
  let runs : Store :=
    ⟨∅, 0, (dir.list.map fun sst => sst.maxSeq).foldl max 0, dir.list, dir.nextNumber⟩
  let empty : Store := ⟨∅, 0, 0, [], 1⟩
  have same : runs.mem = empty.mem := rfl
  exact foldl_replayBatch_frame (replayedBatches codec bytes) same

/-- A store reopened right away finds the log it left. -/
theorem openEngine_wal (codec : WalCodec) (dir : Directory) (bytes : Bytes) (readOnly : Bool) :
    ∃ front, (openEngine codec dir bytes readOnly).wal = ⟨⟨front, front.length⟩, []⟩ ∧
      replayedMem codec front = replayedMem codec bytes := by
  obtain ⟨front, split, reads⟩ := readRecords_front
    (rfl : readRecords codec bytes.length bytes =
      ((readRecords codec bytes.length bytes).1, (readRecords codec bytes.length bytes).2))
  have valid : bytes.length - (readRecords codec bytes.length bytes).2.length = front.length := by
    have total := congrArg List.length split
    rw [List.length_append] at total
    omega
  have kept : bytes.take front.length = front := by
    conv_lhs => rw [split]
    exact List.take_left
  have inside : front.length ≤ bytes.length := by omega
  refine ⟨front, ?_, ?_⟩
  · show (⟨((⟨bytes, bytes.length⟩ : LogFile).setLen
      (bytes.length - (readRecords codec bytes.length bytes).2.length)).seek
        (bytes.length - (readRecords codec bytes.length bytes).2.length), []⟩ : Wal) = _
    rw [valid, LogFile.setLen, LogFile.seek]
    simp only [kept, Nat.sub_eq_zero_of_le inside, List.replicate_zero, List.append_nil]
  · rw [replayedMem, replayedMem, replayedBatches, reads front.length le_rfl]
    rfl

/-! ### What a reopen shows -/

/-- Both stores answer alike at a snapshot. -/
structure ReadsAlike (first second : Store) (snapshot : ℕ) : Prop where
  get : ∀ table key, (⟨snapshot⟩ : ReadTxn).get second table key =
    (⟨snapshot⟩ : ReadTxn).get first table key
  range : ∀ table start stop, rangeValid start stop = true →
    (⟨snapshot⟩ : ReadTxn).range second table start stop =
      (⟨snapshot⟩ : ReadTxn).range first table start stop

theorem ReadsAlike.of_get (get : ∀ table key, (⟨snapshot⟩ : ReadTxn).get second table key =
      (⟨snapshot⟩ : ReadTxn).get first table key) : ReadsAlike first second snapshot := by
  refine ⟨get, fun table start stop valid => ?_⟩
  obtain ⟨one, oneFound, oneHolds⟩ := committedValues_getElem? first table valid snapshot
  obtain ⟨two, twoFound, twoHolds⟩ := committedValues_getElem? second table valid snapshot
  have same : two = one := by
    refine ExtTreeMap.ext_getElem? fun key => ?_
    have read := get table key
    rw [ReadTxn.get, ReadTxn.get, committedGet_eq, committedGet_eq] at read
    rw [oneHolds, twoHolds, read]
  rw [ReadTxn.range, ReadTxn.range, oneFound, twoFound, same]

/-- Some run that keeps its file hides another value in a run that is rewritten: at a key and a
snapshot the memtable is silent on, the newest run that has a version shows one value, and the newest
rewritten one another. -/
def Overtakes (passes : ℕ) (store : Store) : Prop :=
  ∃ (table : TableId) (key : Bytes) (snapshot : ℕ) (shown hidden : Op),
    visible (memSource store.mem) ⟨table.index, key⟩ snapshot = none ∧
    firstVisible (store.ssts.reverse.map fun sst => sst.source) ⟨table.index, key⟩ snapshot =
      some shown ∧
    firstVisible ((rewrittenRuns passes store.ssts).reverse.map fun sst => sst.source)
      ⟨table.index, key⟩ snapshot = some hidden ∧
    shown.intoValue ≠ hidden.intoValue

/-- Where the rewritten runs are silent, the kept ones read as all of them did. -/
theorem firstVisible_keptRuns (passes : ℕ) {user : UserKey}
    (silent : ∀ sst ∈ rewrittenRuns passes ssts, visible sst.source user snapshot = none) :
    firstVisible ((keptRuns passes ssts).reverse.map fun sst => sst.source) user snapshot =
      firstVisible (ssts.reverse.map fun sst => sst.source) user snapshot := by
  induction passes generalizing ssts with
  | zero => rfl
  | succ passes ih =>
    cases found : ssts.find? Sst.isLegacy with
    | none => rw [(keptRuns_of_none (passes + 1) found).1]
    | some old =>
      rw [rewrittenRuns_succ passes found] at silent
      rw [keptRuns, ih fun sst member => silent sst (List.mem_cons_of_mem _ member)]
      obtain ⟨older, newer, split, -, -, erased⟩ := eraseP_of_find? found
      have hidden := silent old List.mem_cons_self
      rw [erased, split]
      simp only [List.reverse_append, List.reverse_cons, List.map_append, List.map_cons,
        List.map_nil, firstVisible_append, firstVisible, hidden, Option.or_none]

/-- The rewritten runs are among those there were. -/
theorem rewrittenRuns_subset (passes : ℕ) (ssts : List Sst) :
    ∀ sst ∈ rewrittenRuns passes ssts, sst ∈ ssts :=
  fun _ member => (List.mem_filter.mp (List.mem_of_mem_take member)).1

theorem sources_of_sameRun {copies originals : List Sst}
    (alike : List.Forall₂ Sst.sameRun copies originals) :
    (copies.map fun sst => sst.source) = originals.map fun sst => sst.source := by
  induction alike with
  | nil => rfl
  | cons same _ ih =>
    rw [List.map_cons, List.map_cons, ih, Run.source, Run.source, same.1]

/-- A store just opened is one no pass has been made on. -/
theorem openEngine_upgrading (codec : WalCodec) (dir : Directory) (bytes : Bytes) (readOnly : Bool) :
    Upgrading (openEngine codec dir bytes readOnly) (openEngine codec dir bytes readOnly).store.ssts
      [] := by
  obtain ⟨-, listed, next⟩ := openEngine_mem codec dir bytes readOnly
  have holds : Holds dir dir.list := by
    refine ⟨?_, fun number run => ?_⟩
    · rw [Directory.list, List.pairwise_map]
      exact ExtTreeMap.ordered_keys_toList.imp fun less => Nat.compare_eq_lt.mp less
    · rw [← ExtTreeMap.mem_toList_iff_getElem?_eq_some, Directory.list]
      constructor
      · exact fun member => ⟨_, List.mem_map_of_mem member, rfl, rfl⟩
      · rintro ⟨sst, member, rfl, rfl⟩
        obtain ⟨pair, inside, rfl⟩ := List.mem_map.mp member
        exact inside
  refine ⟨?_, ?_, rfl⟩
  · rw [List.append_nil, listed]
    exact holds
  · rw [List.append_nil, listed, next]
    exact fun sst member => holds.nextNumber_gt member

/-- The runs a reopen after the passes lists, and its memtable. -/
theorem upgradeRuns_sources (codec : WalCodec) (dir : Directory) (bytes : Bytes)
    (readOnly : Bool) (passes cut : ℕ) (reopenedReadOnly : Bool) :
    let engine := openEngine codec dir bytes readOnly
    let reopened := (engine.upgradeRuns passes).crash codec cut reopenedReadOnly
    reopened.store.mem = engine.store.mem ∧
      (reopened.store.ssts.reverse.map fun sst => sst.source) =
        ((rewrittenRuns passes engine.store.ssts).reverse.map fun sst => sst.source) ++
          (keptRuns passes engine.store.ssts).reverse.map fun sst => sst.source := by
  intro engine reopened
  obtain ⟨copies, ends, frame, -, alike⟩ :=
    (openEngine_upgrading codec dir bytes readOnly).passes passes
  obtain ⟨front, wal, same⟩ := openEngine_wal codec dir bytes readOnly
  have wal : engine.wal = ⟨⟨front, front.length⟩, []⟩ := wal
  have idle : engine.phase = .idle := rfl
  have closes : reopened = openEngine codec (engine.upgradeRuns passes).dir front
      reopenedReadOnly := by
    show Engine.crash codec (engine.upgradeRuns passes) cut reopenedReadOnly = _
    rw [Engine.crash, Engine.pendingRecord, frame.1, frame.2, idle, wal]
    simp [LogFile.write]
  rw [closes]
  obtain ⟨mem, ssts, -⟩ := openEngine_mem codec (engine.upgradeRuns passes).dir front reopenedReadOnly
  refine ⟨?_, ?_⟩
  · rw [mem, same]
    exact (openEngine_mem codec dir bytes readOnly).1.symm
  · rw [ssts, ends.holds.list, List.nil_append, List.reverse_append, List.map_append,
      List.map_reverse, sources_of_sameRun alike, ← List.map_reverse]

/-- **A reopen after the upgrade reads as before exactly when no rewritten run was hidden.** The
upgrade may have been interrupted after any number of passes. -/
theorem upgrade_reopen_iff (codec : WalCodec) (dir : Directory) (bytes : Bytes) (readOnly : Bool)
    (passes cut : ℕ) (reopenedReadOnly : Bool) :
    let engine := openEngine codec dir bytes readOnly
    let reopened := (engine.upgradeRuns passes).crash codec cut reopenedReadOnly
    (∀ snapshot, ReadsAlike engine.store reopened.store snapshot) ↔
      ¬ Overtakes passes engine.store := by
  intro engine reopened
  obtain ⟨mem, runs⟩ := upgradeRuns_sources codec dir bytes readOnly passes cut reopenedReadOnly
  -- What each store answers where the memtable does not.
  have answers : ∀ (table : TableId) key snapshot,
      visible (memSource engine.store.mem) ⟨table.index, key⟩ snapshot = none →
      (⟨snapshot⟩ : ReadTxn).get engine.store table key =
        value (firstVisible (engine.store.ssts.reverse.map fun sst => sst.source)
          ⟨table.index, key⟩ snapshot) ∧
      (⟨snapshot⟩ : ReadTxn).get reopened.store table key =
        value ((firstVisible ((rewrittenRuns passes engine.store.ssts).reverse.map
            fun sst => sst.source) ⟨table.index, key⟩ snapshot).or
          (firstVisible ((keptRuns passes engine.store.ssts).reverse.map fun sst => sst.source)
            ⟨table.index, key⟩ snapshot)) := by
    intro table key snapshot unseen
    rw [ReadTxn.get, ReadTxn.get, committedGet_eq, committedGet_eq, Store.sources, Store.sources,
      firstVisible_cons_of_none unseen, mem, firstVisible_cons_of_none unseen, runs,
      firstVisible_append]
    exact ⟨rfl, rfl⟩
  constructor
  · rintro alike ⟨table, key, snapshot, shown, hidden, unseen, before, after, differ⟩
    obtain ⟨first, second⟩ := answers table key snapshot unseen
    have same := (alike snapshot).get table key
    rw [first, second, before, after, Option.some_or] at same
    exact differ same.symm
  · intro still snapshot
    refine ReadsAlike.of_get fun table key => ?_
    cases seen : visible (memSource engine.store.mem) ⟨table.index, key⟩ snapshot with
    | some op =>
      rw [ReadTxn.get, ReadTxn.get, committedGet_eq, committedGet_eq, Store.sources, Store.sources,
        firstVisible_cons_of_some seen, mem, firstVisible_cons_of_some seen]
    | none =>
      obtain ⟨first, second⟩ := answers table key snapshot seen
      rw [first, second]
      cases moved : firstVisible ((rewrittenRuns passes engine.store.ssts).reverse.map
          fun sst => sst.source) ⟨table.index, key⟩ snapshot with
      | none =>
        rw [firstVisible_eq_none_iff] at moved
        rw [Option.none_or, firstVisible_keptRuns passes fun sst member =>
          moved _ (List.mem_map.mpr ⟨sst, List.mem_reverse.mpr member, rfl⟩)]
      | some hidden =>
        obtain ⟨source, member, shows_⟩ := exists_of_firstVisible moved
        obtain ⟨sst, inside, rfl⟩ := List.mem_map.mp member
        have there := rewrittenRuns_subset passes _ sst (List.mem_reverse.mp inside)
        cases old : firstVisible (engine.store.ssts.reverse.map fun sst => sst.source)
            ⟨table.index, key⟩ snapshot with
        | none =>
          rw [firstVisible_eq_none_iff] at old
          have missing := old _ (List.mem_map.mpr ⟨sst, List.mem_reverse.mpr there, rfl⟩)
          rw [missing] at shows_
          cases shows_
        | some shown =>
          rw [Option.some_or]
          by_contra differ
          exact still ⟨table, key, snapshot, shown, hidden, seen, old, moved,
            fun equal => differ equal.symm⟩

/-- A v1 run with one value of a key, and a v2 run over it with a newer one. -/
def mixedDirectory : Directory :=
  let key (seq : ℕ) : MemKey := ⟨⟨TableId.nodes.index, [1]⟩, seq⟩
  { files := (∅ : ExtTreeMap ℕ Run compare).insert 1
        ⟨.v1, 1, [(key 1, .put [7])], List.pairwise_singleton _ _⟩ |>.insert 2
        ⟨.v2, 2, [(key 2, .put [8])], List.pairwise_singleton _ _⟩
    temps := ∅ }

/-- **The old value is back in front.** -/
theorem upgrade_reopen_reads_old_value :
    let engine := openEngine postcardCodec mixedDirectory [] false
    let reopened := (engine.upgradeRuns 1).crash postcardCodec 0 false
    (⟨2⟩ : ReadTxn).get engine.store .nodes [1] = some [8] ∧
      (⟨2⟩ : ReadTxn).get reopened.store .nodes [1] = some [7] ∧
      ¬ ∀ snapshot, ReadsAlike engine.store reopened.store snapshot := by
  refine ⟨by decide, by decide, fun alike => ?_⟩
  have same := (alike 2).get .nodes [1]
  revert same
  decide

end DrStrange.Native
