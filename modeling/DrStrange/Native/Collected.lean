/-
**Merging runs that may fail, and collecting old versions.**

A sweep of a run gives entries up to the first error. The merge of several sweeps is a prefix of the
merge of what they can read: all of it if none fails, and otherwise what comes out before the merge
meets an error, which it delivers and ends with. The version GC over a merged stream answers every
lookup from its floor on as the stream does, keeps one version at most of each key at or below the
floor and no tombstone there that a key has alone.

A tombstone at or below the floor stays where a newer version of its key stays above it, also when
nothing is left for it to shadow, and an error is not delivered once another one has ended the merge
(`shadowless_tombstone_kept`).
-/

import DrStrange.Native.Merge

namespace DrStrange.Native

open Std Versioned

variable {runs : List (List Item)} {last : Option MemKey} {e : Error} {items : List Item}
  {entry : Entry}

/-! ### Sweeps -/

/-- The entries a sweep gives before it fails. -/
def upToError : List Item → List Entry
  | .ok entry :: items => entry :: upToError items
  | _ => []

/-- The error a sweep fails with, if it does. -/
def failure : List Item → Option Error
  | [] => none
  | .ok _ :: items => failure items
  | .error e :: _ => some e

/-- The next item of the sweep is not an error. -/
def Ready (items : List Item) : Prop := ∀ e rest, items ≠ .error e :: rest

/-- A sweep under the merge, its first entry on the heap. -/
def loaded : List Item → RunCursor
  | .ok entry :: items => ⟨some entry, items⟩
  | _ => ⟨none, []⟩

theorem advance_eq (head : Option Entry) (items : List Item) :
    (∃ e rest, items = .error e :: rest ∧ RunCursor.advance ⟨head, items⟩ = .error e) ∨
      Ready items ∧ RunCursor.advance ⟨head, items⟩ = .ok (loaded items) := by
  match items with
  | [] => exact Or.inr ⟨nofun, rfl⟩
  | .ok entry :: items => exact Or.inr ⟨nofun, rfl⟩
  | .error e :: items => exact Or.inl ⟨e, items, rfl, rfl⟩

theorem head_loaded (items : List Item) :
    (loaded items).head = (cursorOf (upToError items)).head := by
  match items with
  | [] => rfl
  | .ok entry :: items => rfl
  | .error e :: items => rfl

/-- The heap orders heads only. -/
theorem leastHead_loaded (runs : List (List Item)) (run : ℕ) :
    leastHead (runs.map loaded) run = leastHead ((runs.map upToError).map cursorOf) run := by
  induction runs generalizing run with
  | nil => rfl
  | cons items runs ih =>
    simp only [List.map_cons, leastHead]
    rw [ih, head_loaded]

theorem upToError_eq_cons {rest : List Entry} (read : upToError items = entry :: rest) :
    ∃ later, items = .ok entry :: later ∧ upToError later = rest := by
  match items, read with
  | .ok entry :: later, read =>
    obtain ⟨rfl, rfl⟩ := List.cons.inj read
    exact ⟨later, rfl, rfl⟩

theorem length_upToError_le (items : List Item) : (upToError items).length ≤ items.length := by
  induction items with
  | nil => exact le_rfl
  | cons item items ih =>
    cases item with
    | ok entry => exact Nat.succ_le_succ ih
    | error e => exact Nat.zero_le _

theorem failure_of_ready (ready : Ready items) (drained : upToError items = []) :
    failure items = none := by
  match items with
  | [] => rfl
  | .ok entry :: items => cases drained
  | .error e :: items => exact absurd rfl (ready e items)

/-! ### The merge of sweeps that may fail -/

/-- A stream of entries up to its end or to the error of a run that ends it. -/
inductive Delivers (whole : List Entry) (runs : List (List Item)) : List Item → Prop
  | ends (clean : ∀ items ∈ runs, failure items = none) : Delivers whole runs (whole.map .ok)
  | fails (out : List Entry) (e : Error) (started : out <+: whole) (items : List Item)
      (member : items ∈ runs) (failed : failure items = some e) :
      Delivers whole runs (out.map .ok ++ [.error e])

theorem Delivers.cons {entry : Entry} {whole : List Entry} {stream : List Item}
    (delivers : Delivers whole runs stream) :
    Delivers (entry :: whole) runs (.ok entry :: stream) := by
  cases delivers with
  | ends clean => exact .ends clean
  | fails out e started items member failed =>
    exact .fails (entry :: out) e (List.cons_prefix_cons.mpr ⟨rfl, started⟩) items member failed

/-- An entry read off one run fails no run and mends none. -/
theorem Delivers.unread {n : ℕ} {rest : List Item} {whole : List Entry} {stream : List Item}
    (here : runs[n]? = some (.ok entry :: rest))
    (delivers : Delivers whole (runs.set n rest) stream) : Delivers whole runs stream := by
  obtain ⟨inside, own⟩ := List.getElem?_eq_some_iff.mp here
  cases delivers with
  | ends clean =>
    refine .ends fun items member => ?_
    obtain ⟨m, bound, rfl⟩ := List.getElem_of_mem member
    by_cases same : n = m
    · subst same
      rw [own]
      exact clean rest (List.mem_set inside rest)
    · have kept : (runs.set n rest)[m]? = some runs[m] := by
        rw [List.getElem?_set_ne same, List.getElem?_eq_getElem bound]
      exact clean _ (List.mem_of_getElem? kept)
  | fails out e started items member failed =>
    rcases List.mem_or_eq_of_mem_set member with old | rfl
    · exact .fails out e started items old failed
    · exact .fails out e started _ (List.mem_of_getElem? here) failed

theorem drain_upToError (fuel : ℕ) (runs : List (List Entry)) (last : Option MemKey) :
    ∃ whole : List Entry, MergeIter.drain fuel ⟨runs.map cursorOf, last⟩ = whole.map .ok := by
  induction fuel generalizing runs last with
  | zero => exact ⟨[], rfl⟩
  | succ fuel ih =>
    rw [MergeIter.drain]
    cases popped : leastHead (runs.map cursorOf) 0 with
    | none => exact ⟨[], rfl⟩
    | some head =>
      obtain ⟨n, rest, at_, here, -⟩ := leastHead_spec popped
      rw [Nat.zero_add] at at_
      have advanced : MergeIter.advance ⟨runs.map cursorOf, last⟩ head.run =
          .ok ⟨(runs.set n rest).map cursorOf, last⟩ := by
        rw [at_]
        exact advance_cursors here last
      simp only [advanced]
      split_ifs
      · exact ih _ _
      · obtain ⟨whole, drains⟩ := ih (runs.set n rest) (some head.key)
        exact ⟨(head.key, head.op) :: whole, by rw [drains, List.map_cons]⟩

/-- The merge of what the sweeps can read, one pop after the other. -/
theorem drain_delivers (fuel : ℕ) (runs : List (List Item)) (last : Option MemKey)
    (ready : ∀ items ∈ runs, Ready items) (enough : (runs.map List.length).sum ≤ fuel) :
    ∃ whole, MergeIter.drain fuel ⟨(runs.map upToError).map cursorOf, last⟩ = whole.map .ok ∧
      Delivers whole runs (MergeIter.drain fuel ⟨runs.map loaded, last⟩) := by
  induction fuel generalizing runs last with
  | zero =>
    refine ⟨[], rfl, .ends fun items member => ?_⟩
    have short : items.length ≤ 0 :=
      (List.single_le_sum (by simp) _ (List.mem_map_of_mem member)).trans enough
    rw [List.length_eq_zero_iff.mp (Nat.le_zero.mp short)]
    rfl
  | succ fuel ih =>
    simp only [MergeIter.drain]
    rw [leastHead_loaded]
    cases popped : leastHead ((runs.map upToError).map cursorOf) 0 with
    | none =>
      refine ⟨[], rfl, .ends fun items member => ?_⟩
      exact failure_of_ready (ready items member)
        (leastHead_eq_none popped _ (List.mem_map_of_mem member))
    | some head =>
      obtain ⟨n, tail, at_, there, -⟩ := leastHead_spec popped
      rw [Nat.zero_add] at at_
      obtain ⟨items, here, read⟩ := Option.map_eq_some_iff.mp (List.getElem?_map ▸ there)
      obtain ⟨rest, rfl, rfl⟩ := upToError_eq_cons read
      have steps : MergeIter.advance ⟨(runs.map upToError).map cursorOf, last⟩ head.run =
          .ok ⟨((runs.set n rest).map upToError).map cursorOf, last⟩ := by
        rw [at_, List.map_set]
        exact advance_cursors (read ▸ there) last
      simp only [steps]
      rcases advance_eq (some (head.key, head.op)) rest with
        ⟨e, later, rfl, failed⟩ | ⟨fit, advanced⟩
      · have stops : MergeIter.advance ⟨runs.map loaded, last⟩ head.run = .error e := by
          simp only [MergeIter.advance, at_, List.getElem?_map, here, Option.map_some]
          simp only [loaded, failed, Except.map]
        simp only [stops]
        have stopped : ∀ whole, Delivers whole runs [.error e] := fun whole =>
          .fails [] e (List.nil_prefix) _ (List.mem_of_getElem? here) rfl
        split_ifs
        · obtain ⟨whole, drains⟩ :=
            drain_upToError fuel ((runs.set n (.error e :: later)).map upToError) last
          exact ⟨whole, drains, stopped whole⟩
        · obtain ⟨whole, drains⟩ := drain_upToError fuel
            ((runs.set n (.error e :: later)).map upToError) (some head.key)
          refine ⟨(head.key, head.op) :: whole, ?_, stopped _⟩
          rw [drains, List.map_cons]
      · have steps' : MergeIter.advance ⟨runs.map loaded, last⟩ head.run =
            .ok ⟨(runs.set n rest).map loaded, last⟩ := by
          simp only [MergeIter.advance, at_, List.getElem?_map, here, Option.map_some]
          simp only [loaded, advanced, Except.map, List.map_set]
        simp only [steps']
        have fits : ∀ items ∈ runs.set n rest, Ready items := by
          intro items member
          rcases List.mem_or_eq_of_mem_set member with old | rfl
          · exact ready items old
          · exact fit
        have fewer : ((runs.set n rest).map List.length).sum ≤ fuel := by
          have one := sum_length_set_tail here
          omega
        by_cases repeated : last = some head.key
        · simp only [if_pos repeated]
          obtain ⟨whole, drains, delivers⟩ := ih (runs.set n rest) last fits fewer
          exact ⟨whole, drains, delivers.unread here⟩
        · simp only [if_neg repeated]
          obtain ⟨whole, drains, delivers⟩ := ih (runs.set n rest) (some head.key) fits fewer
          refine ⟨(head.key, head.op) :: whole, ?_, (delivers.unread here).cons⟩
          rw [drains, List.map_cons]

/-- Every run puts its first entry on the heap, or the first that fails is all there is. -/
theorem primed (runs : List (List Item)) :
    (∃ e, ∃ items ∈ runs, failure items = some e ∧
      (runs.mapM fun items => RunCursor.advance ⟨none, items⟩) = .error e) ∨
      (∀ items ∈ runs, Ready items) ∧
        (runs.mapM fun items => RunCursor.advance ⟨none, items⟩) = .ok (runs.map loaded) := by
  induction runs with
  | nil => exact Or.inr ⟨nofun, rfl⟩
  | cons items runs ih =>
    rw [List.mapM_cons]
    rcases advance_eq none items with ⟨e, rest, rfl, failed⟩ | ⟨fit, advanced⟩
    · rw [failed]
      exact Or.inl ⟨e, _, List.mem_cons_self, rfl, rfl⟩
    · rw [advanced]
      rcases ih with ⟨e, items, member, failed, stops⟩ | ⟨ready, primed⟩
      · rw [stops]
        exact Or.inl ⟨e, items, List.mem_cons_of_mem _ member, failed, rfl⟩
      · rw [primed]
        exact Or.inr ⟨List.forall_mem_cons.mpr ⟨fit, ready⟩, rfl⟩

/-- **The merge of sweeps that may fail** is a stretch of the merge of what they can read. -/
theorem mergeRuns_delivers (runs : List (List Item))
    (sorted : ∀ items ∈ runs, Sorted (upToError items)) :
    ∃ whole, Sorted whole ∧
      entrySource whole = merged ((runs.map upToError).reverse.map entrySource) ∧
      Delivers whole runs (mergeRuns runs) := by
  have sorted' : ∀ run ∈ runs.map upToError, Sorted run := List.forall_mem_map.mpr sorted
  have enough : ((runs.map upToError).map List.length).sum ≤ (runs.map List.length).sum := by
    rw [List.map_map]
    exact List.sum_le_sum fun items _ => length_upToError_le items
  obtain ⟨whole, drains, merges⟩ := drain_merges _ (runs.map upToError) none sorted' enough
    fun _ held => nomatch held
  refine ⟨whole, merges.sorted, ?_, ?_⟩
  · funext user seq
    rw [merges.source, if_neg (by simp), newestOf_eq_merged]
  · unfold mergeRuns
    rcases primed runs with ⟨e, items, member, failed, stops⟩ | ⟨ready, starts⟩
    · rw [stops]
      exact .fails [] e List.nil_prefix items member failed
    · rw [starts]
      obtain ⟨whole', drains', delivers⟩ := drain_delivers _ runs none ready le_rfl
      have same : whole' = whole := by
        have both := drains'.symm.trans drains
        exact List.map_injective_iff.mpr (fun _ _ => Except.ok.inj) both
      rwa [← same]

/-! ### Collecting old versions -/

/-- What is left of a stream after versions below a floor have been collected. -/
structure Collects (minSnapshot : ℕ) (entries kept : List Entry) : Prop where
  sorted : Sorted kept
  reads : ∀ user snapshot, minSnapshot ≤ snapshot →
    (visible (entrySource kept) user snapshot).bind Op.intoValue =
      (visible (entrySource entries) user snapshot).bind Op.intoValue
  /-- One version of a key at or below the floor at most. -/
  one : ∀ first ∈ kept, ∀ second ∈ kept, first.1.user = second.1.user →
    first.1.seq ≤ minSnapshot → second.1.seq ≤ minSnapshot → first = second
  /-- A tombstone at or below the floor has a newer version above it. -/
  shadowed : ∀ entry ∈ kept, entry.2 = .del → entry.1.seq ≤ minSnapshot →
    ∃ newer ∈ kept, newer.1.user = entry.1.user ∧ entry.1.seq < newer.1.seq

theorem gcVersions_collects (entries : List Entry) (sorted : Sorted entries) (minSnapshot : ℕ) :
    ∃ kept, gcVersions (entries.map .ok) minSnapshot = kept.map .ok ∧
      Collects minSnapshot entries kept := by
  obtain ⟨kept, collected, ordered, reclaimed⟩ := gcVersions_ok entries sorted minSnapshot
  have held : ∀ entry ∈ kept, entrySource kept entry.1.user entry.1.seq = some entry.2 :=
    fun entry member => ordered.entrySource_of_mem entry.1 member
  refine ⟨kept, collected, ordered, fun user snapshot above => ?_, ?_, ?_⟩
  · by_cases dead : Dead .del (entrySource entries) minSnapshot user
    · rw [reclaimed.visible_of_dead dead, dead.visible_eq above]
      rfl
    · rw [reclaimed.visible_of_not_dead dead above]
  · intro first mine second yours same low low'
    have newest := ((reclaimed _ _ _).mp (held first mine)).2.2
    have newest' := ((reclaimed _ _ _).mp (held second yours)).2.2
    have seqs : first.1.seq = second.1.seq := by
      rcases Nat.lt_trichotomy first.1.seq second.1.seq with less | equal | greater
      · have there := reclaimed.within _ _ _ (held second yours)
        rw [← same, newest _ less low'] at there
        cases there
      · exact equal
      · have there := reclaimed.within _ _ _ (held first mine)
        rw [same, newest' _ greater low] at there
        cases there
    have keys : first.1 = second.1 := by
      obtain ⟨⟨user, seq⟩, op⟩ := first
      obtain ⟨⟨user', seq'⟩, op'⟩ := second
      exact congrArg₂ MemKey.mk same seqs
    have ops := held second yours
    rw [← keys, held first mine] at ops
    exact Prod.ext keys (Option.some.inj ops)
  · intro entry member gone low
    obtain ⟨there, alive, newest⟩ := (reclaimed _ _ _).mp (held entry member)
    rw [gone] at there
    by_contra alone
    -- With nothing newer, the key would have been dead.
    refine alive ⟨?_, fun later above => ?_⟩
    · exact visible_eq_some low there fun later past below => newest later past below
    · by_contra some_
      obtain ⟨op, wrote⟩ := Option.ne_none_iff_exists'.mp some_
      refine alone ⟨(⟨entry.1.user, later⟩, op), mem_of_entrySource ?_, rfl, low.trans_lt above⟩
      refine (reclaimed _ _ _).mpr ⟨wrote, alive, fun newer past upto => ?_⟩
      omega

/-- An error on the way in is passed on, behind what was let go of before it, and ends the stream. -/
theorem gcGroups_fails (minSnapshot : ℕ) (out rest : List Entry) (cur : Option UserKey)
    (group : List (ℕ × Op)) (e : Error) : ∃ collected : List Entry,
      gcGroups minSnapshot (out.map .ok ++ [.error e]) cur group =
        collected.map .ok ++ [.error e] ∧
      collected.map .ok <+: gcGroups minSnapshot ((out ++ rest).map .ok) cur group := by
  induction out generalizing cur group with
  | nil => exact ⟨[], rfl, List.nil_prefix⟩
  | cons entry out ih =>
    obtain ⟨key, op⟩ := entry
    simp only [List.map_cons, List.cons_append, gcGroups]
    split_ifs
    · exact ih _ _
    · obtain ⟨collected, fails, started⟩ := ih (some key.user) [(key.seq, op)]
      refine ⟨(cur.elim [] fun user => emitGroup user group minSnapshot) ++ collected, ?_, ?_⟩
      · rw [fails, List.map_append, List.append_assoc]
      · rw [List.map_append]
        exact (List.prefix_append_right_inj _).mpr started

/-! ### The two composed -/

/-- A stream of entries, and the error that ends it if one does. -/
def stream (entries : List Entry) (ended : Option Error) : List Item :=
  entries.map .ok ++ ended.toList.map .error

/-- **Merging runs and collecting old versions.** For every list of sweeps in order: the merge is in
order, holds every version of what the sweeps can read once, as the newest of them has it, up to the
error of one of them, which ends it, and up to its end if none fails; and what the GC keeps of it
answers every lookup from the floor on. -/
theorem merge_and_collect (runs : List (List Item))
    (sorted : ∀ items ∈ runs, Sorted (upToError items)) :
    ∃ whole out ended, Sorted whole ∧
      entrySource whole = merged ((runs.map upToError).reverse.map entrySource) ∧
      mergeRuns runs = stream out ended ∧ out <+: whole ∧
      (∀ e, ended = some e → ∃ items ∈ runs, failure items = some e) ∧
      (ended = none → out = whole ∧ ∀ items ∈ runs, failure items = none) ∧
      ∀ minSnapshot, ∃ kept collected, Collects minSnapshot whole kept ∧
        gcVersions (mergeRuns runs) minSnapshot = stream collected ended ∧ collected <+: kept ∧
        (ended = none → collected = kept) := by
  obtain ⟨whole, ordered, source, delivers⟩ := mergeRuns_delivers runs sorted
  generalize mergeRuns runs = items at delivers
  cases delivers with
  | ends clean =>
    refine ⟨whole, whole, none, ordered, source, by simp [stream], List.prefix_refl _, nofun,
      fun _ => ⟨rfl, clean⟩, fun minSnapshot => ?_⟩
    obtain ⟨kept, collected, collects⟩ := gcVersions_collects whole ordered minSnapshot
    exact ⟨kept, kept, collects, by simp [stream, collected], List.prefix_refl _, fun _ => rfl⟩
  | fails out e started items member failed =>
    refine ⟨whole, out, some e, ordered, source, rfl, started, ?_, nofun, fun minSnapshot => ?_⟩
    · intro other same
      cases same
      exact ⟨items, member, failed⟩
    · obtain ⟨kept, all, collects⟩ := gcVersions_collects whole ordered minSnapshot
      obtain ⟨rest, rfl⟩ := started
      obtain ⟨collected, fails, started⟩ := gcGroups_fails minSnapshot out rest none [] e
      refine ⟨kept, collected, collects, fails, ?_, nofun⟩
      unfold gcVersions at all
      rw [all] at started
      exact (List.prefix_map_iff_of_injective fun _ _ => Except.ok.inj).mp started

/-- One key with a version over a tombstone, and two runs that fail. -/
def tombstoneBelow : List Item :=
  [.ok (⟨⟨3, [1]⟩, 10⟩, .put [7]), .ok (⟨⟨3, [1]⟩, 3⟩, .del)]

/-- The tombstone stays though nothing is older, and one of two errors is never delivered. -/
theorem shadowless_tombstone_kept :
    gcVersions (mergeRuns [tombstoneBelow]) 5 = tombstoneBelow ∧
      mergeRuns [[.error (.io "first")], [.error (.io "second")]] = [.error (.io "first")] := by
  refine ⟨by rfl, by rfl⟩

/-- Two sweeps, a version in both. -/
theorem merge_and_collect_of_two :
    ∃ whole out ended, Sorted whole ∧
      mergeRuns [tombstoneBelow, [.ok (⟨⟨3, [1]⟩, 10⟩, .put [8])]] = stream out ended ∧
      out <+: whole := by
  obtain ⟨whole, out, ended, ordered, -, merged, started, -⟩ :=
    merge_and_collect [tombstoneBelow, [.ok (⟨⟨3, [1]⟩, 10⟩, .put [8])]] (by decide)
  exact ⟨whole, out, ended, ordered, merged, started⟩

end DrStrange.Native
