/-
**Compaction: the k-way merge of the runs and the reclaiming of dead versions.**

`mergeRuns` is the stream of `MergeIter`: it pops the least head of all runs, the later run first
among equal ones, and drops what it has just emitted. `gcVersions` is the stream of `GcIter`: it
collects the versions of one key, keeps them down to the first at or below `minSnapshot`, and drops
a lone tombstone there.

`mergeRuns_ok`: over readable runs the merge is in order and holds every version once, as the
newest run has it. `visible_gcVersions`: at a snapshot from the floor on, a reclaimed stream reads
what the stream read, except that a tombstone may have turned into nothing.
-/

import DrStrange.Native.Read

namespace DrStrange.Native

open Std Versioned

/-- One item of a sweep: an entry, or the error that ends it. -/
abbrev Item := Except Error Entry

/-! ### The merge -/

/-- The front entry of a run. -/
structure MergeHead where
  key : MemKey
  run : ℕ
  op : Op

/-- A run under the merge: its head, which stands on the heap, and what is still to be read. -/
structure RunCursor where
  head : Option Entry
  rest : List Item

/-- `advance`: pull the run's next entry onto the heap, nothing if the run is drained. -/
def RunCursor.advance (cursor : RunCursor) : Except Error RunCursor :=
  match cursor.rest with
  | [] => .ok ⟨none, []⟩
  | .error e :: _ => .error e
  | .ok entry :: rest => .ok ⟨some entry, rest⟩

/-- The top of the heap. Heads are ordered by key, then later run first, so that equal keys pop in
the order that lets the newest run win. -/
def leastHead : List RunCursor → ℕ → Option MergeHead
  | [], _ => none
  | cursor :: cursors, run =>
    match cursor.head, leastHead cursors (run + 1) with
    | none, best => best
    | some entry, none => some ⟨entry.1, run, entry.2⟩
    | some entry, some best =>
      if compare entry.1 best.key = .lt then some ⟨entry.1, run, entry.2⟩ else some best

/-- The merge of sorted runs. -/
structure MergeIter where
  cursors : List RunCursor
  /-- The key emitted last. -/
  last : Option MemKey

def MergeIter.advance (iter : MergeIter) (run : ℕ) : Except Error MergeIter :=
  match iter.cursors[run]? with
  | none => .ok iter
  | some cursor => cursor.advance.map fun cursor =>
    { iter with cursors := iter.cursors.set run cursor }

/-- The stream from here on. One unit of fuel pops one head. -/
def MergeIter.drain : ℕ → MergeIter → List Item
  | 0, _ => []
  | fuel + 1, iter =>
    match leastHead iter.cursors 0 with
    | none => []
    | some head =>
      match iter.advance head.run with
      | .error e => [.error e]
      | .ok iter =>
        if iter.last = some head.key then iter.drain fuel
        else .ok (head.key, head.op) :: { iter with last := some head.key }.drain fuel

/-- The merged stream of several sweeps, given oldest first. An error while the runs are primed is
the first item. -/
def mergeRuns (runs : List (List Item)) : List Item :=
  match runs.mapM fun items => RunCursor.advance ⟨none, items⟩ with
  | .error e => [.error e]
  | .ok cursors => MergeIter.drain (runs.map List.length).sum ⟨cursors, none⟩

/-! ### The version GC -/

/-- How many versions of a group, newest first, are kept: down to the first at or below the
floor. -/
def keepCount (minSnapshot : ℕ) : List (ℕ × Op) → ℕ
  | [] => 0
  | (seq, _) :: group => if seq ≤ minSnapshot then 1 else keepCount minSnapshot group + 1

/-- The surviving versions of one key. A lone tombstone at or below the floor leaves nothing to
shadow. -/
def emitGroup (user : UserKey) (group : List (ℕ × Op)) (minSnapshot : ℕ) : List Entry :=
  match group.take (keepCount minSnapshot group) with
  | [(seq, .del)] => if seq ≤ minSnapshot then [] else [(⟨user, seq⟩, .del)]
  | kept => kept.map fun version => (⟨user, version.1⟩, version.2)

/-- The stream of `GcIter`; `cur` is the key whose versions `group` collects. An error ends the
stream and the open group is lost with it. -/
def gcGroups (minSnapshot : ℕ) : List Item → Option UserKey → List (ℕ × Op) → List Item
  | [], cur, group => (cur.elim [] fun user => emitGroup user group minSnapshot).map .ok
  | .error e :: _, _, _ => [.error e]
  | .ok (key, op) :: items, cur, group =>
    if cur = some key.user then gcGroups minSnapshot items cur (group ++ [(key.seq, op)])
    else (cur.elim [] fun user => emitGroup user group minSnapshot).map .ok ++
      gcGroups minSnapshot items (some key.user) [(key.seq, op)]

/-- The merged run with what no reader can see dropped. -/
def gcVersions (merged : List Item) (minSnapshot : ℕ) : List Item :=
  gcGroups minSnapshot merged none []

/-! ### The merge holds every version once -/

/-- The newest run that holds a version answers; runs oldest first. -/
def newestOf : List (List Entry) → Source UserKey Op
  | [] => fun _ _ => none
  | run :: runs => overlay (newestOf runs) (entrySource run)

theorem newestOf_eq_merged (runs : List (List Entry)) :
    newestOf runs = merged (runs.reverse.map entrySource) := by
  have concat : ∀ (sources : List (Source UserKey Op)) (source : Source UserKey Op),
      merged (sources ++ [source]) = overlay (merged sources) source := by
    intro sources source
    induction sources with
    | nil =>
      funext key seq
      simp [merged, overlay]
    | cons first sources ih =>
      funext key seq
      rw [List.cons_append, merged_cons, ih, merged_cons, overlay, overlay, overlay, overlay,
        Option.or_assoc]
  induction runs with
  | nil => rfl
  | cons run runs ih =>
    rw [newestOf, ih, List.reverse_cons, List.map_append, List.map_cons, List.map_nil, concat]

/-- A readable run under the merge. -/
def cursorOf (entries : List Entry) : RunCursor := ⟨entries.head?, entries.tail.map .ok⟩

theorem advance_ok (head : Option Entry) (entries : List Entry) :
    RunCursor.advance ⟨head, entries.map .ok⟩ = .ok (cursorOf entries) := by
  cases entries <;> rfl

variable {runs : List (List Entry)} {group : List (ℕ × Op)} {user : UserKey} {rest : List Entry}
  {minSnapshot n seq : ℕ} {entry : Entry} {op : Op} {key : MemKey}

/-- A readable run gives its next entry to the heap. -/
theorem advance_cursors (here : runs[n]? = some (entry :: rest)) (last : Option MemKey) :
    MergeIter.advance ⟨runs.map cursorOf, last⟩ n = .ok ⟨(runs.set n rest).map cursorOf, last⟩ := by
  simp only [MergeIter.advance, List.getElem?_map, here, Option.map_some]
  simp only [cursorOf, List.tail_cons, advance_ok, Except.map, List.map_set]

theorem leastHead_eq_none {index : ℕ} (empty : leastHead (runs.map cursorOf) index = none) :
    ∀ run ∈ runs, run = [] := by
  induction runs generalizing index with
  | nil => exact fun _ member => nomatch member
  | cons run runs ih =>
    rw [List.map_cons, leastHead] at empty
    cases run with
    | nil => exact List.forall_mem_cons.mpr ⟨rfl, ih empty⟩
    | cons entry entries =>
      cases best : leastHead (runs.map cursorOf) (index + 1) with
      | none => simp [cursorOf, best] at empty
      | some head =>
        simp only [cursorOf, List.head?_cons, best] at empty
        split_ifs at empty

/-- The head popped is a least one, and strictly below the heads of the later runs. -/
theorem leastHead_spec {index : ℕ} {head : MergeHead}
    (popped : leastHead (runs.map cursorOf) index = some head) :
    ∃ n rest, head.run = index + n ∧ runs[n]? = some ((head.key, head.op) :: rest) ∧
      ∀ m entry others, runs[m]? = some (entry :: others) →
        (compare head.key entry.1).isLE ∧ (n < m → compare head.key entry.1 = .lt) := by
  induction runs generalizing index head with
  | nil => cases popped
  | cons run runs ih =>
    rw [List.map_cons, leastHead] at popped
    have shift : ∀ {head : MergeHead}, leastHead (runs.map cursorOf) (index + 1) = some head →
        (∀ entry, run.head? = some entry → (compare head.key entry.1).isLE) →
        ∃ n rest, head.run = index + n ∧ (run :: runs)[n]? = some ((head.key, head.op) :: rest) ∧
          ∀ m entry others, (run :: runs)[m]? = some (entry :: others) →
            (compare head.key entry.1).isLE ∧ (n < m → compare head.key entry.1 = .lt) := by
      intro head found below
      obtain ⟨n, rest, at_, here, least⟩ := ih found
      refine ⟨n + 1, rest, by omega, here, fun m entry others there => ?_⟩
      cases m with
      | zero =>
        rw [List.getElem?_cons_zero, Option.some.injEq] at there
        exact ⟨below entry (by rw [there]; rfl), fun absurd => nomatch absurd⟩
      | succ m =>
        have bound := least m entry others there
        exact ⟨bound.1, fun later => bound.2 (Nat.lt_of_succ_lt_succ later)⟩
    cases run with
    | nil => exact shift popped fun entry held => nomatch held
    | cons entry entries =>
      cases best : leastHead (runs.map cursorOf) (index + 1) with
      | none =>
        simp only [cursorOf, List.head?_cons, best, Option.some.injEq] at popped
        subst popped
        refine ⟨0, entries, rfl, rfl, fun m other others there => ?_⟩
        cases m with
        | zero =>
          rw [List.getElem?_cons_zero, Option.some.injEq, List.cons.injEq] at there
          rw [there.1, compare_self]
          exact ⟨rfl, fun absurd => nomatch absurd⟩
        | succ m =>
          have drained := leastHead_eq_none best _ (List.mem_of_getElem? there)
          cases drained
      | some found =>
        simp only [cursorOf, List.head?_cons, best] at popped
        by_cases less : compare entry.1 found.key = .lt
        · rw [if_pos less, Option.some.injEq] at popped
          subst popped
          obtain ⟨n, rest, at_, here, least⟩ := ih best
          refine ⟨0, entries, rfl, rfl, fun m other others there => ?_⟩
          cases m with
          | zero =>
            rw [List.getElem?_cons_zero, Option.some.injEq, List.cons.injEq] at there
            rw [there.1, compare_self]
            exact ⟨rfl, fun absurd => nomatch absurd⟩
          | succ m =>
            have above := (least m other others there).1
            have strict : compare entry.1 other.1 = .lt :=
              TransCmp.lt_of_lt_of_isLE less above
            exact ⟨by rw [strict]; rfl, fun _ => strict⟩
        · rw [if_neg less, Option.some.injEq] at popped
          subst popped
          refine shift best fun other held => ?_
          rw [List.head?_cons, Option.some.injEq] at held
          subst held
          rw [OrientedOrd.eq_swap]
          cases order : compare entry.1 found.key with
          | lt => exact absurd order less
          | eq => rfl
          | gt => rfl

/-- Popping a head changes what the runs hold at its key only. -/
theorem newestOf_set (here : runs[n]? = some (entry :: rest)) (different : entry.1 ≠ ⟨user, seq⟩) :
    newestOf (runs.set n rest) user seq = newestOf runs user seq := by
  induction runs generalizing n with
  | nil => cases here
  | cons run runs ih =>
    cases n with
    | zero =>
      rw [List.getElem?_cons_zero, Option.some.injEq] at here
      subst here
      rw [List.set_cons_zero, newestOf, newestOf, overlay, overlay, entrySource_cons,
        if_neg different]
    | succ n => rw [List.set_cons_succ, newestOf, newestOf, overlay, overlay, ih here]

/-- A head that is strictly below the later runs' heads is the newest version of its key. -/
theorem newestOf_head (sorted : ∀ run ∈ runs, Sorted run) (here : runs[n]? = some (entry :: rest))
    (above : ∀ m other others, runs[m]? = some (other :: others) → n < m →
      compare entry.1 other.1 = .lt) :
    newestOf runs entry.1.user entry.1.seq = some entry.2 := by
  induction runs generalizing n with
  | nil => cases here
  | cons run runs ih =>
    rw [newestOf, overlay]
    rw [List.forall_mem_cons] at sorted
    cases n with
    | succ n =>
      rw [ih sorted.2 here fun m other others there later =>
        above (m + 1) other others there (Nat.succ_lt_succ later), Option.some_or]
    | zero =>
      rw [List.getElem?_cons_zero, Option.some.injEq] at here
      subst here
      have missing : newestOf runs entry.1.user entry.1.seq = none := by
        cases found : newestOf runs entry.1.user entry.1.seq with
        | none => rfl
        | some op =>
          rw [newestOf_eq_merged] at found
          obtain ⟨source, member, held⟩ := exists_of_merged found
          obtain ⟨later, inside, rfl⟩ := List.mem_map.mp member
          have inside := List.mem_reverse.mp inside
          obtain ⟨m, there⟩ := List.getElem?_of_mem inside
          have present := mem_of_entrySource held
          cases later with
          | nil => cases present
          | cons other others =>
            have strict := above (m + 1) other others there (Nat.succ_pos m)
            rcases List.mem_cons.mp present with same | below
            · rw [← same, compare_self] at strict
              cases strict
            · have ascends := (List.pairwise_cons.mp (sorted.2 _ inside)).1 _ below
              have loop := TransCmp.lt_trans strict ascends
              rw [compare_self] at loop
              cases loop
      rw [missing, Option.none_or, entrySource_cons, if_pos rfl]

theorem mem_of_set_tail {run : List Entry} (here : runs[n]? = some (entry :: rest))
    (member : run ∈ runs.set n rest) :
    ∃ whole ∈ runs, run <:+ whole := by
  rcases List.mem_or_eq_of_mem_set member with old | rfl
  · exact ⟨run, old, List.suffix_refl run⟩
  · exact ⟨entry :: run, List.mem_of_getElem? here, List.suffix_cons entry run⟩

theorem sum_length_set_tail {α : Type} {runs : List (List α)} {entry : α} {rest : List α}
    (here : runs[n]? = some (entry :: rest)) :
    ((runs.set n rest).map List.length).sum + 1 = (runs.map List.length).sum := by
  induction runs generalizing n with
  | nil => cases here
  | cons run runs ih =>
    cases n with
    | zero =>
      rw [List.getElem?_cons_zero, Option.some.injEq] at here
      subst here
      simp [List.set_cons_zero]
      omega
    | succ n =>
      have rest := ih here
      simp only [List.set_cons_succ, List.map_cons, List.sum_cons]
      omega

/-- What a drained merge is: in order, past the key emitted last, and every version as the newest
run holds it. -/
structure Merges (runs : List (List Entry)) (last : Option MemKey) (out : List Entry) : Prop where
  sorted : Sorted out
  past : ∀ key, last = some key → ∀ entry ∈ out, compare key entry.1 = .lt
  source : ∀ user seq, entrySource out user seq =
    if last = some ⟨user, seq⟩ then none else newestOf runs user seq

theorem newestOf_eq_none_of_forall_nil (empty : ∀ run ∈ runs, run = []) (user : UserKey) (seq : ℕ) :
    newestOf runs user seq = none := by
  induction runs with
  | nil => rfl
  | cons run runs ih =>
    rw [List.forall_mem_cons] at empty
    rw [newestOf, overlay, ih empty.2, Option.none_or, empty.1, entrySource_nil]

theorem Merges.nil (empty : ∀ run ∈ runs, run = []) (last : Option MemKey) :
    Merges runs last [] where
  sorted := List.Pairwise.nil
  past := fun _ _ _ member => nomatch member
  source := fun user seq => by
    rw [newestOf_eq_none_of_forall_nil empty, ite_self, entrySource_nil]

theorem drain_merges (fuel : ℕ) (runs : List (List Entry)) (last : Option MemKey)
    (sorted : ∀ run ∈ runs, Sorted run) (enough : (runs.map List.length).sum ≤ fuel)
    (past : ∀ key, last = some key → ∀ run ∈ runs, ∀ entry ∈ run, (compare key entry.1).isLE) :
    ∃ out, MergeIter.drain fuel ⟨runs.map cursorOf, last⟩ = out.map .ok ∧ Merges runs last out := by
  induction fuel generalizing runs last with
  | zero =>
    refine ⟨[], rfl, Merges.nil (fun run member => ?_) last⟩
    have short : run.length ≤ 0 :=
      (List.single_le_sum (by simp) _ (List.mem_map_of_mem member)).trans enough
    exact List.length_eq_zero_iff.mp (Nat.le_zero.mp short)
  | succ fuel ih =>
    rw [MergeIter.drain]
    cases popped : leastHead (runs.map cursorOf) 0 with
    | none => exact ⟨[], rfl, Merges.nil (leastHead_eq_none popped) last⟩
    | some head =>
      obtain ⟨n, rest, at_, here, least⟩ := leastHead_spec popped
      rw [Nat.zero_add] at at_
      have advanced : MergeIter.advance ⟨runs.map cursorOf, last⟩ head.run =
          .ok ⟨(runs.set n rest).map cursorOf, last⟩ := by
        rw [at_]
        exact advance_cursors here last
      have tails : ∀ run ∈ runs.set n rest, Sorted run := by
        intro run member
        obtain ⟨whole, inside, suffix⟩ := mem_of_set_tail here member
        exact (sorted whole inside).sublist suffix.sublist
      have fewer : ((runs.set n rest).map List.length).sum ≤ fuel := by
        have one := sum_length_set_tail here
        omega
      have lowest : ∀ run ∈ runs, ∀ entry ∈ run, (compare head.key entry.1).isLE := by
        intro run member entry inside
        obtain ⟨m, there⟩ := List.getElem?_of_mem member
        cases run with
        | nil => cases inside
        | cons first others =>
          have bound := (least m first others there).1
          rcases List.mem_cons.mp inside with rfl | below
          · exact bound
          · have ascends := (List.pairwise_cons.mp (sorted _ member)).1 entry below
            exact TransCmp.isLE_trans bound (by rw [ascends]; rfl)
      have upto : ∀ run ∈ runs.set n rest, ∀ entry ∈ run, (compare head.key entry.1).isLE := by
        intro run member entry inside
        obtain ⟨whole, held, suffix⟩ := mem_of_set_tail here member
        exact lowest whole held entry (suffix.subset inside)
      have newest : newestOf runs head.key.user head.key.seq = some head.op :=
        newestOf_head sorted here fun m other others there => (least m other others there).2
      simp only [advanced]
      by_cases repeated : last = some head.key
      · rw [if_pos repeated]
        obtain ⟨out, drains, merges⟩ := ih (runs.set n rest) last tails fewer
          (fun key held run member entry inside => by
            rw [repeated, Option.some.injEq] at held
            rw [← held]
            exact upto run member entry inside)
        refine ⟨out, drains, merges.sorted, merges.past, fun user seq => ?_⟩
        rw [merges.source]
        by_cases same : last = some ⟨user, seq⟩
        · rw [if_pos same, if_pos same]
        · rw [if_neg same, if_neg same, newestOf_set here]
          intro equal
          exact same (repeated.trans (by rw [← equal]))
      · rw [if_neg repeated]
        obtain ⟨out, drains, merges⟩ := ih (runs.set n rest) (some head.key) tails fewer
          fun key held run member entry inside => by
            cases held
            exact upto run member entry inside
        have front : ∀ key, last = some key → compare key head.key = .lt := by
          intro key held
          have upto := past key held _ (List.mem_of_getElem? here) _ List.mem_cons_self
          rcases Ordering.isLE_iff_eq_lt_or_eq_eq.mp upto with less | equal
          · exact less
          · exact absurd (held.trans (by rw [Std.compare_eq_iff_eq.mp equal])) repeated
        refine ⟨(head.key, head.op) :: out, by rw [drains, List.map_cons], ?_, ?_, ?_⟩
        · exact List.pairwise_cons.mpr ⟨merges.past head.key rfl, merges.sorted⟩
        · intro key held entry member
          rcases List.mem_cons.mp member with rfl | below
          · exact front key held
          · exact TransCmp.lt_trans (front key held) (merges.past head.key rfl entry below)
        · intro user seq
          rw [entrySource_cons]
          by_cases same : head.key = ⟨user, seq⟩
          · have unseen : last ≠ some ⟨user, seq⟩ := fun held => repeated (by rw [held, same])
            have newest' : newestOf runs user seq = some head.op := by rwa [same] at newest
            rw [if_pos same, if_neg unseen, newest']
          · rw [if_neg same, merges.source, if_neg (by simpa using same), newestOf_set here same]
            by_cases seen : last = some ⟨user, seq⟩
            · -- The key emitted last lies strictly behind everything still to come.
              rw [if_pos seen]
              cases found : newestOf runs user seq with
              | none => rfl
              | some op =>
                rw [newestOf_eq_merged] at found
                obtain ⟨source, member, held⟩ := exists_of_merged found
                obtain ⟨run, inside, rfl⟩ := List.mem_map.mp member
                have low := lowest run (List.mem_reverse.mp inside) _ (mem_of_entrySource held)
                have loop := TransCmp.lt_of_lt_of_isLE (front _ seen) low
                rw [compare_self] at loop
                cases loop
            · rw [if_neg seen]

/-- **The merge of readable runs.** In order, and every version once, as the newest run that has it
holds it. -/
theorem mergeRuns_ok (runs : List (List Entry)) (sorted : ∀ run ∈ runs, Sorted run) :
    ∃ out, mergeRuns (runs.map fun run => run.map .ok) = out.map .ok ∧ Sorted out ∧
      entrySource out = merged (runs.reverse.map entrySource) := by
  have primed : (runs.map fun run => run.map Except.ok).mapM
      (fun items => RunCursor.advance ⟨none, items⟩) = .ok (runs.map cursorOf) := by
    clear sorted
    induction runs with
    | nil => rfl
    | cons run runs ih =>
      rw [List.map_cons, List.mapM_cons, ih, advance_ok, List.map_cons]
      rfl
  have fuel : ((runs.map fun run => run.map (Except.ok : Entry → Item)).map List.length).sum =
      (runs.map List.length).sum := by
    rw [List.map_map]
    congr 1
    exact List.map_congr_left fun run _ => List.length_map _
  obtain ⟨out, drains, merges⟩ := drain_merges _ runs none sorted le_rfl fun _ held => nomatch held
  refine ⟨out, by rw [mergeRuns, primed, fuel]; exact drains, merges.sorted, ?_⟩
  funext user seq
  rw [merges.source, if_neg (by simp), newestOf_eq_merged]

/-! ### The version GC keeps what a snapshot from the floor on can see -/

/-- The versions of one key, newest first. -/
def Descending (group : List (ℕ × Op)) : Prop := group.Pairwise fun a b => b.1 < a.1

/-- A group as entries of its key. -/
def groupEntries (user : UserKey) (group : List (ℕ × Op)) : List Entry :=
  group.map fun version => (⟨user, version.1⟩, version.2)

theorem mem_groupEntries :
    (key, op) ∈ groupEntries user group ↔ key.user = user ∧ (key.seq, op) ∈ group := by
  obtain ⟨other, seq⟩ := key
  simp only [groupEntries, List.mem_map, Prod.mk.injEq, MemKey.mk.injEq, Prod.exists]
  constructor
  · rintro ⟨_, _, member, ⟨rfl, rfl⟩, rfl⟩
    exact ⟨rfl, member⟩
  · rintro ⟨rfl, member⟩
    exact ⟨_, _, member, ⟨rfl, rfl⟩, rfl⟩

theorem Descending.sorted (descending : Descending group) (user : UserKey) :
    Sorted (groupEntries user group) :=
  List.Pairwise.map _ (fun _ _ below => MemKey.compare_lt_iff.mpr (Or.inr ⟨rfl, below⟩)) descending

/-- The kept versions are those with nothing at or below the floor above them. -/
theorem mem_take_keepCount (descending : Descending group) :
    (seq, op) ∈ group.take (keepCount minSnapshot group) ↔
      (seq, op) ∈ group ∧ ∀ version ∈ group, seq < version.1 → minSnapshot < version.1 := by
  induction group with
  | nil => simp
  | cons version group ih =>
    obtain ⟨first, wrote⟩ := version
    rw [Descending, List.pairwise_cons] at descending
    rw [keepCount]
    by_cases low : first ≤ minSnapshot
    · rw [if_pos low, List.take_succ_cons, List.take_zero, List.mem_singleton]
      constructor
      · intro same
        rw [same]
        refine ⟨List.mem_cons_self, fun version member above => ?_⟩
        cases same
        rcases List.mem_cons.mp member with rfl | below
        · exact absurd above (Nat.lt_irrefl _)
        · exact absurd above (Nat.lt_asymm (descending.1 version below))
      · rintro ⟨member, newest⟩
        rcases List.mem_cons.mp member with same | below
        · exact same
        · exact absurd (newest _ List.mem_cons_self (descending.1 _ below)) (Nat.not_lt.mpr low)
    · rw [if_neg low, List.take_succ_cons, List.mem_cons, List.mem_cons, ih descending.2,
        List.forall_mem_cons]
      constructor
      · rintro (same | ⟨member, newest⟩)
        · cases same
          refine ⟨Or.inl rfl, fun above => absurd above (Nat.lt_irrefl _),
            fun version below above => ?_⟩
          exact absurd above (Nat.lt_asymm (descending.1 version below))
        · exact ⟨Or.inr member, fun _ => Nat.not_le.mp low, newest⟩
      · rintro ⟨same | member, -, newest⟩
        · exact Or.inl same
        · exact Or.inr ⟨member, newest⟩

/-- The newest version of the group is a tombstone at or below the floor. -/
def LoneTombstone (minSnapshot : ℕ) : List (ℕ × Op) → Prop
  | (seq, .del) :: _ => seq ≤ minSnapshot
  | _ => False

theorem emitGroup_of_lone (lone : LoneTombstone minSnapshot group) :
    emitGroup user group minSnapshot = [] := by
  match group, lone with
  | (seq, .del) :: group, low =>
    have low : seq ≤ minSnapshot := low
    simp [emitGroup, keepCount, low]

theorem emitGroup_of_not_lone (kept : ¬ LoneTombstone minSnapshot group) :
    emitGroup user group minSnapshot =
      groupEntries user (group.take (keepCount minSnapshot group)) := by
  rw [emitGroup]
  split
  · rename_i seq taken
    have above : ¬ seq ≤ minSnapshot := by
      intro low
      refine kept ?_
      cases group with
      | nil => simp at taken
      | cons version group =>
        rw [keepCount] at taken
        split_ifs at taken <;> rw [List.take_succ_cons, List.cons.injEq] at taken <;>
          rw [taken.1] <;> exact low
    rw [if_neg above, taken]
    rfl
  · rfl

/-- A lone tombstone is a dead key. -/
theorem loneTombstone_iff_dead (descending : Descending group) (minSnapshot : ℕ) :
    LoneTombstone minSnapshot group ↔
      Dead .del (entrySource (groupEntries user group)) minSnapshot user := by
  have sorted := descending.sorted user
  cases group with
  | nil =>
    refine ⟨nofun, fun dead => ?_⟩
    have seen := dead.1
    rw [groupEntries, List.map_nil, visible_eq_none_iff.mpr (fun _ _ => rfl)] at seen
    cases seen
  | cons version group =>
    obtain ⟨seq, op⟩ := version
    have held : entrySource (groupEntries user ((seq, op) :: group)) user seq = some op :=
      sorted.entrySource_of_mem ⟨user, seq⟩ (mem_groupEntries.mpr ⟨rfl, List.mem_cons_self⟩)
    constructor
    · intro lone
      cases op with
      | put value => cases lone
      | del =>
        refine ⟨sorted.visible_entrySource_hit lone, fun later above =>
          entrySource_eq_none fun entry member same => ?_⟩
        obtain ⟨key, wrote⟩ := entry
        obtain ⟨-, inside⟩ := mem_groupEntries.mp member
        have same : key = ⟨user, later⟩ := same
        rw [same] at inside
        have low : seq ≤ minSnapshot := lone
        rcases List.mem_cons.mp inside with equal | below
        · cases equal
          exact absurd above (Nat.not_lt.mpr low)
        · have older : later < seq := (List.pairwise_cons.mp descending).1 _ below
          omega
    · rintro ⟨seen, missing⟩
      have low : seq ≤ minSnapshot := by
        by_contra above
        rw [missing seq (Nat.not_le.mp above)] at held
        cases held
      have newest : visible (entrySource (groupEntries user ((seq, op) :: group))) user
          minSnapshot = some op := sorted.visible_entrySource_hit low
      rw [seen, Option.some.injEq] at newest
      subst newest
      exact low

theorem emitGroup_sublist (user : UserKey) (group : List (ℕ × Op)) (minSnapshot : ℕ) :
    (emitGroup user group minSnapshot).Sublist (groupEntries user group) := by
  by_cases lone : LoneTombstone minSnapshot group
  · rw [emitGroup_of_lone lone]
    exact List.nil_sublist _
  · rw [emitGroup_of_not_lone lone]
    exact (List.take_sublist _ _).map _

theorem mem_emitGroup (descending : Descending group) :
    (key, op) ∈ emitGroup user group minSnapshot ↔
      (key, op) ∈ groupEntries user group ∧ ¬ LoneTombstone minSnapshot group ∧
        ∀ version ∈ group, key.seq < version.1 → minSnapshot < version.1 := by
  by_cases lone : LoneTombstone minSnapshot group
  · rw [emitGroup_of_lone lone]
    exact ⟨nofun, fun kept => absurd lone kept.2.1⟩
  · rw [emitGroup_of_not_lone lone, mem_groupEntries, mem_groupEntries,
      mem_take_keepCount descending]
    constructor
    · rintro ⟨same, member, newest⟩
      exact ⟨⟨same, member⟩, lone, newest⟩
    · rintro ⟨⟨same, member⟩, -, newest⟩
      exact ⟨same, member, newest⟩

theorem emitGroup_reclaimed (user : UserKey) (descending : Descending group) (minSnapshot : ℕ) :
    Reclaimed .del minSnapshot (entrySource (groupEntries user group))
      (entrySource (emitGroup user group minSnapshot)) := by
  have whole := descending.sorted user
  have kept : Sorted (emitGroup user group minSnapshot) :=
    whole.sublist (emitGroup_sublist user group minSnapshot)
  intro other seq op
  have kept_iff := kept.mem_iff ⟨other, seq⟩ op
  have whole_iff := whole.mem_iff ⟨other, seq⟩ op
  rw [← kept_iff, ← whole_iff, mem_emitGroup descending]
  refine and_congr_right fun member => ?_
  obtain ⟨rfl, -⟩ := mem_groupEntries.mp member
  rw [loneTombstone_iff_dead descending]
  refine and_congr_right fun _ => ⟨fun newest newer above low =>
    ?_, fun missing version inside above => ?_⟩
  · refine entrySource_eq_none fun entry inside same => ?_
    obtain ⟨key, wrote⟩ := entry
    have version := (mem_groupEntries.mp inside).2
    have same : key = ⟨other, newer⟩ := same
    rw [same] at version
    exact absurd (newest _ version above) (Nat.not_lt.mpr low)
  · by_contra low
    have held := whole.entrySource_of_mem ⟨other, version.1⟩ (mem_groupEntries.mpr ⟨rfl, inside⟩)
    rw [missing version.1 above (Nat.not_lt.mp low)] at held
    cases held

theorem entrySource_append (first second : List Entry) (user : UserKey) (seq : ℕ) :
    entrySource (first ++ second) user seq =
      (entrySource first user seq).or (entrySource second user seq) := by
  unfold entrySource
  rw [List.find?_append]
  cases first.find? fun entry => entry.1 = ⟨user, seq⟩ <;> rfl

theorem entrySource_groupEntries_of_ne {other : UserKey} (different : other ≠ user)
    (group : List (ℕ × Op)) {entries : List Entry}
    (sublist : entries.Sublist (groupEntries user group)) :
    entrySource entries other = fun _ => none := by
  funext seq
  refine entrySource_eq_none fun entry member same => different ?_
  obtain ⟨key, op⟩ := entry
  have this := (mem_groupEntries.mp (sublist.subset member)).1
  have same : key = ⟨other, seq⟩ := same
  rw [same] at this
  exact this

/-- The sweep of the GC, with the open group of `user` in hand. -/
theorem gcGroups_ok (minSnapshot : ℕ) (entries : List Entry) (user : UserKey)
    (group : List (ℕ × Op)) (sorted : Sorted (groupEntries user group ++ entries))
    (descending : Descending group) (open_ : group ≠ []) :
    ∃ out, gcGroups minSnapshot (entries.map .ok) (some user) group = out.map .ok ∧
      out.Sublist (groupEntries user group ++ entries) ∧
      Reclaimed .del minSnapshot (entrySource (groupEntries user group ++ entries))
        (entrySource out) := by
  induction entries generalizing user group with
  | nil =>
    refine ⟨emitGroup user group minSnapshot, rfl, ?_, ?_⟩
    · rw [List.append_nil]
      exact emitGroup_sublist user group minSnapshot
    · rw [List.append_nil]
      exact emitGroup_reclaimed user descending minSnapshot
  | cons entry entries ih =>
    obtain ⟨⟨next, seq⟩, op⟩ := entry
    have behind := (List.pairwise_append.mp sorted).2.2
    rw [List.map_cons, gcGroups]
    by_cases same : user = next
    · subst same
      have joined : groupEntries user group ++ (⟨user, seq⟩, op) :: entries =
          groupEntries user (group ++ [(seq, op)]) ++ entries := by
        simp [groupEntries]
      rw [if_pos rfl, joined]
      refine ih user (group ++ [(seq, op)]) (joined ▸ sorted) ?_ (by simp)
      refine List.pairwise_append.mpr ⟨descending, List.pairwise_singleton _ _, ?_⟩
      intro version member last equal
      rw [List.mem_singleton.mp equal]
      have ascends := behind (⟨user, version.1⟩, version.2)
        (mem_groupEntries.mpr ⟨rfl, member⟩) _ List.mem_cons_self
      rw [MemKey.compare_lt_iff] at ascends
      rcases ascends with less | ⟨-, older⟩
      · rw [compare_self] at less
        cases less
      · exact older
    · obtain ⟨out, swept, sublist, reclaimed⟩ := ih next [(seq, op)]
        (List.pairwise_append.mp sorted).2.1 (List.pairwise_singleton _ _) (by simp)
      rw [if_neg (by simpa using same), swept]
      refine ⟨emitGroup user group minSnapshot ++ out, by simp, ?_, ?_⟩
      · exact (emitGroup_sublist user group minSnapshot).append sublist
      · -- The open group ends here for good: everything after it has a larger key.
        have apart : entrySource ((⟨next, seq⟩, op) :: entries) user = fun _ => none := by
          funext later
          obtain ⟨version, member⟩ := List.exists_mem_of_ne_nil group open_
          have ascends := behind (⟨user, version.1⟩, version.2)
            (mem_groupEntries.mpr ⟨rfl, member⟩) _ List.mem_cons_self
          rw [MemKey.compare_lt_iff] at ascends
          rcases ascends with less | ⟨equal, -⟩
          · exact Sorted.entrySource_eq_none_of_gt (List.pairwise_append.mp sorted).2.1 less later
          · exact absurd equal same
        have later : entrySource out user = fun _ => none := by
          funext seq
          cases found : entrySource out user seq with
          | none => rfl
          | some op =>
            have held := reclaimed.within user seq op found
            have missing := congrFun apart seq
            exact absurd (held.symm.trans missing) nofun
        refine Reclaimed.of_forall_key fun key => ?_
        by_cases this : key = user
        · subst this
          refine ⟨_, _, emitGroup_reclaimed key descending minSnapshot, ?_, ?_⟩
          · funext seq
            rw [entrySource_append, congrFun apart seq, Option.or_none]
          · funext seq
            rw [entrySource_append, congrFun later seq, Option.or_none]
        · refine ⟨_, _, reclaimed, ?_, ?_⟩
          · funext seq
            rw [entrySource_append,
              entrySource_groupEntries_of_ne this group (List.Sublist.refl _), Option.none_or]
            rfl
          · funext seq
            rw [entrySource_append, entrySource_groupEntries_of_ne this group
              (emitGroup_sublist user group minSnapshot), Option.none_or]

/-- **The version GC.** A stream in order loses the versions no snapshot from the floor on can see,
and keys that are dead there. -/
theorem gcVersions_ok (entries : List Entry) (sorted : Sorted entries) (minSnapshot : ℕ) :
    ∃ out, gcVersions (entries.map .ok) minSnapshot = out.map .ok ∧ Sorted out ∧
      Reclaimed .del minSnapshot (entrySource entries) (entrySource out) := by
  cases entries with
  | nil =>
    refine ⟨[], rfl, List.Pairwise.nil, fun key seq a => ?_⟩
    exact ⟨nofun, fun held => nomatch held.1⟩
  | cons entry entries =>
    obtain ⟨out, swept, sublist, reclaimed⟩ := gcGroups_ok minSnapshot entries entry.1.user
      [(entry.1.seq, entry.2)] sorted (List.pairwise_singleton _ _) (by simp)
    exact ⟨out, swept, sorted.sublist sublist, reclaimed⟩

end DrStrange.Native
