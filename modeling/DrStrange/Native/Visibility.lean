/-
**What the store shows, and what each change of it keeps.**

`StoreInv store history floor` relates the memtable and the runs to the committed batches: the
memtable is a final stretch of the history, every run is part of it, every run is layered over the
ones before, and from `floor` on a key the memtable does not answer reads from the runs as from the
whole history.

It is kept by the three changes a store undergoes: a published batch (`StoreInv.publish`), the swap
of a flush (`StoreInv.swapFlushed`) and the swap of a compaction, which raises the floor to the
snapshot it reclaimed from (`StoreInv.swapCompacted`). A store with the invariant shows the fold of
the batches at every snapshot from the floor on (`StoreInv.based`).
-/

import DrStrange.Native.Engine

namespace DrStrange.Native

open Std Versioned

/-- The value a version stands for. -/
abbrev value (op : Option Op) : Option Bytes := op.bind Op.intoValue

/-- Every key is in a table of the encoding. -/
def Known (ops : Ops) : Prop := ∀ user ∈ ops, ∃ table : TableId, user.table = table.index

/-- From the floor on, what the memtable does not answer reads from the stack as from the whole
history. -/
def Exact (history : List Batch) (floor : ℕ) (mem : Source UserKey Op)
    (stack : List (Source UserKey Op)) : Prop :=
  ∀ user snapshot, floor ≤ snapshot → visible mem user snapshot = none →
    value (firstVisible stack user snapshot) =
      value (visible (recorded (logOf history)) user snapshot)

/-- The runs as sources, newest first. -/
abbrev Store.stack (store : Store) : List (Source UserKey Op) :=
  store.ssts.reverse.map fun sst => sst.source

/-- The store holds its history above the floor. -/
structure StoreInv (store : Store) (history : List Batch) (floor : ℕ) : Prop where
  ascending : Ascending (logOf history)
  bounded : ∀ batch ∈ history, batch.seq ≤ store.committedSeq
  known : ∀ batch ∈ history, Known batch.ops
  recent : Recent (memSource store.mem) (logOf history)
  within : ∀ sst ∈ store.ssts, Within sst.source (recorded (logOf history))
  layered : store.ssts.Pairwise fun older newer => Layered older.source newer.source
  exact : Exact history floor (memSource store.mem) store.stack
  floorLow : floor ≤ store.committedSeq

theorem memSource_empty : memSource ∅ = fun _ _ => none := by
  funext user seq
  rw [memSource_eq, ExtTreeMap.getElem?_empty]

variable {history : List Batch} {store : Store} {batch : Batch} {floor snapshot minSnapshot : ℕ}
  {after mem : Source UserKey Op} {sst : Sst}

/-- **A store with the invariant shows the fold of the batches.** -/
theorem StoreInv.based (inv : StoreInv store history floor) (above : floor ≤ snapshot) :
    Based store snapshot (stateAt history snapshot) := by
  intro user
  rw [stateAt_getElem? inv.ascending]
  cases seen : visible (memSource store.mem) user snapshot with
  | some op =>
    rw [Store.sources, firstVisible_cons_of_some seen, inv.recent.visible_eq inv.ascending seen]
  | none =>
    rw [Store.sources, firstVisible_cons_of_none seen]
    exact inv.exact user snapshot above seen

/-! ### A published batch -/

theorem ascending_concat (ascending : Ascending (logOf history))
    (last : ∀ other ∈ history, other.seq < batch.seq) :
    Ascending (logOf (history ++ [batch])) := by
  rw [logOf_append]
  refine List.pairwise_append.mpr ⟨ascending, List.pairwise_singleton _ _, ?_⟩
  intro entry member other same
  obtain ⟨earlier, inside, rfl⟩ := List.mem_map.mp member
  rw [List.mem_singleton.mp same]
  exact last earlier inside

theorem within_concat (ascending : Ascending (logOf (history ++ [batch]))) :
    Within (recorded (logOf history)) (recorded (logOf (history ++ [batch]))) := by
  intro user seq op found
  rw [recorded_logOf_concat ascending]
  by_cases here : batch.seq = seq
  · obtain ⟨other, member, same, -⟩ := exists_of_recorded found
    rw [logOf_append] at ascending
    exact absurd (same.trans here.symm)
      (ascending.apart other member _ (List.mem_singleton.mpr rfl))
  · rw [if_neg here, found]

/-- A final stretch of the history with a batch behind it. -/
theorem recent_concat (ascending : Ascending (logOf (history ++ [batch])))
    (recent : Recent mem (logOf history)) (stamped : ∀ user seq, after user seq =
      if batch.seq = seq then batch.ops[user]?.or (mem user seq) else mem user seq) :
    Recent after (logOf (history ++ [batch])) := by
  obtain ⟨before, stretch, split, rfl⟩ := recent
  have single : logOf [batch] = [(batch.seq, fun user => batch.ops[user]?)] := rfl
  have whole : logOf (history ++ [batch]) = before ++ (stretch ++ logOf [batch]) := by
    rw [logOf_append, split, List.append_assoc]
  refine ⟨before, stretch ++ logOf [batch], whole, ?_⟩
  have tail : Ascending (stretch ++ logOf [batch]) := by
    rw [whole] at ascending
    exact (List.pairwise_append.mp ascending).2.1
  funext user seq
  rw [stamped, recorded_append _ _ _ _ tail.apart, single, recorded_singleton]
  by_cases here : batch.seq = seq
  · have missing : recorded stretch user seq = none := by
      refine recorded_eq_none_of_forall_ne (fun other member same => ?_) user
      rw [single] at tail
      exact tail.apart other member _ (List.mem_singleton.mpr rfl) (same.trans here.symm)
    rw [if_pos here, if_pos here, missing, Option.none_or, Option.or_none]
  · rw [if_neg here, if_neg here, Option.or_none]

/-- A key the new memtable does not answer is untouched by the new batch. -/
theorem visible_of_stamped_none (ascending : Ascending (logOf (history ++ [batch])))
    (stamped : ∀ user seq, after user seq =
      if batch.seq = seq then batch.ops[user]?.or (mem user seq) else mem user seq) {user : UserKey}
    (unseen : visible after user snapshot = none) :
    visible mem user snapshot = none ∧
      visible (recorded (logOf (history ++ [batch]))) user snapshot =
        visible (recorded (logOf history)) user snapshot := by
  rw [visible_eq_none_iff] at unseen
  have both : ∀ seq, seq ≤ snapshot → mem user seq = none ∧
      (batch.seq = seq → batch.ops[user]? = none) := by
    intro seq low
    have missing := unseen seq low
    rw [stamped] at missing
    by_cases here : batch.seq = seq
    · rw [if_pos here, Option.or_eq_none_iff] at missing
      exact ⟨missing.2, fun _ => missing.1⟩
    · rw [if_neg here] at missing
      exact ⟨missing, fun same => absurd same here⟩
  refine ⟨visible_eq_none_iff.mpr fun seq low => (both seq low).1, visible_congr fun seq low => ?_⟩
  rw [recorded_logOf_concat ascending]
  by_cases here : batch.seq = seq
  · rw [if_pos here, (both seq low).2 here, Option.none_or]
  · rw [if_neg here]

theorem Store.publish_mem (store : Store) (batch : Batch) (user : UserKey) (seq : ℕ) :
    memSource (store.publish batch.seq batch.ops).mem user seq =
      if batch.seq = seq then batch.ops[user]?.or (memSource store.mem user seq)
      else memSource store.mem user seq := store.foldl_stamp_mem batch.seq batch.ops user seq

theorem StoreInv.publish (inv : StoreInv store history floor) (batch : Batch)
    (advances : store.committedSeq < batch.seq) (known : Known batch.ops) :
    StoreInv (store.publish batch.seq batch.ops) (history ++ [batch]) floor := by
  have last : ∀ other ∈ history, other.seq < batch.seq := fun other member =>
    Nat.lt_of_le_of_lt (inv.bounded other member) advances
  have ascending := ascending_concat inv.ascending last
  have stamped := store.publish_mem batch
  obtain ⟨-, ssts, -⟩ := store.foldl_stamp_frame batch.seq batch.ops
  have ssts : (store.publish batch.seq batch.ops).ssts = store.ssts := ssts
  refine ⟨ascending, ?_, ?_, recent_concat ascending inv.recent stamped, ?_, ?_, ?_, ?_⟩
  · intro other member
    rcases List.mem_append.mp member with old | new
    · exact Nat.le_of_lt (last other old)
    · exact Nat.le_of_eq (by rw [List.mem_singleton.mp new]; rfl)
  · intro other member
    rcases List.mem_append.mp member with old | new
    · exact inv.known other old
    · rw [List.mem_singleton.mp new]
      exact known
  · rw [ssts]
    exact fun sst member user seq op found =>
      within_concat ascending _ _ _ (inv.within sst member _ _ _ found)
  · rw [ssts]
    exact inv.layered
  · intro user snapshot above unseen
    obtain ⟨before, same⟩ := visible_of_stamped_none ascending stamped unseen
    rw [Store.stack, ssts, same]
    exact inv.exact user snapshot above before
  · exact Nat.le_of_lt (Nat.lt_of_le_of_lt inv.floorLow advances)

/-! ### The swap of a flush -/

theorem StoreInv.swapFlushed (inv : StoreInv store history floor)
    (copy : sst.source = memSource store.mem) (number : ℕ) :
    StoreInv (store.swapFlushed number sst) history floor := by
  refine ⟨inv.ascending, inv.bounded, inv.known, ?_, ?_, ?_, ?_, inv.floorLow⟩
  · show Recent (memSource ∅) (logOf history)
    rw [memSource_empty]
    exact Recent.nil _
  · intro other member
    rcases List.mem_append.mp member with old | new
    · exact inv.within other old
    · rw [List.mem_singleton.mp new, copy]
      exact inv.recent.within inv.ascending
  · refine List.pairwise_append.mpr ⟨inv.layered, List.pairwise_singleton _ _, ?_⟩
    intro older member newer new
    rw [List.mem_singleton.mp new, copy]
    exact (inv.recent.layered inv.ascending).mono (inv.within older member)
  · intro user snapshot above _
    have stack : (store.swapFlushed number sst).stack = memSource store.mem :: store.stack := by
      simp [Store.stack, Store.swapFlushed, copy]
    rw [stack]
    exact (inv.based above user).trans (stateAt_getElem? inv.ascending snapshot user)

/-! ### The swap of a compaction -/

/-- What the merged run answers is what the runs answered, up to a tombstone. -/
theorem value_visible_reclaimed {runs : List Sst} {kept : Source UserKey Op}
    (layered : runs.Pairwise fun older newer => Layered older.source newer.source)
    (reclaimed : Reclaimed .del minSnapshot (merged (runs.reverse.map fun sst => sst.source)) kept)
    (user : UserKey) (above : minSnapshot ≤ snapshot) :
    value (visible kept user snapshot) =
      value (firstVisible (runs.reverse.map fun sst => sst.source) user snapshot) := by
  have newestFirst : (runs.reverse.map fun sst => sst.source).Pairwise
      fun newer older => Layered older newer := by
    rw [List.pairwise_map, List.pairwise_reverse]
    exact layered
  rw [← visible_merged newestFirst]
  by_cases dead : Dead .del (merged (runs.reverse.map fun sst => sst.source)) minSnapshot user
  · rw [reclaimed.visible_of_dead dead, dead.visible_eq above]
    rfl
  · rw [reclaimed.visible_of_not_dead dead above]

theorem within_merged {sources : List (Source UserKey Op)} {whole : Source UserKey Op}
    (within : ∀ source ∈ sources, Within source whole) : Within (merged sources) whole := by
  intro user seq op found
  obtain ⟨source, member, held⟩ := exists_of_merged found
  exact within source member user seq op held

theorem StoreInv.swapCompacted (inv : StoreInv store history floor)
    (reclaimed : Reclaimed .del minSnapshot (merged store.stack) sst.source)
    (low : minSnapshot ≤ store.committedSeq) (next : ℕ) :
    StoreInv (store.swapCompacted store.ssts.length next sst) history (max floor minSnapshot) := by
  have ssts : (store.swapCompacted store.ssts.length next sst).ssts = [sst] := by
    simp [Store.swapCompacted]
  refine ⟨inv.ascending, inv.bounded, inv.known, inv.recent, ?_, ?_, ?_, max_le inv.floorLow low⟩
  · rw [ssts]
    intro other member
    rw [List.mem_singleton.mp member]
    intro user seq op found
    refine within_merged (fun source member => ?_) user seq op (reclaimed.within _ _ _ found)
    obtain ⟨run, inside, rfl⟩ := List.mem_map.mp member
    exact inv.within run (List.mem_reverse.mp inside)
  · rw [ssts]
    exact List.pairwise_singleton _ _
  · intro user snapshot above unseen
    rw [Store.stack, ssts]
    have only : firstVisible [sst.source] user snapshot = visible sst.source user snapshot := by
      simp [firstVisible]
    rw [List.reverse_singleton, List.map_cons, List.map_nil, only,
      value_visible_reclaimed inv.layered reclaimed user (le_of_max_le_right above)]
    exact inv.exact user snapshot (le_of_max_le_left above) unseen

end DrStrange.Native
