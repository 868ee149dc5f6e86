/-
**What a parallel build leaves, under any schedule.**

A thread links its node on layers that the nodes found stand on, and the layers of a node do not
change during a build: that is all it relies on. While a thread has pushed neighbours to its own list
and not yet pruned it, the list may be over the degree cap, and its record owes it. A node that was
taken and is taller than the entry point is one that some thread is busy with. When all threads have
ended nothing is owed, and no thread is busy with a node of the batch (`pool_ends`).
-/

import DrStrange.Hnsw.Build
import DrStrange.Hnsw.Update

namespace DrStrange.Hnsw

open Std DrStrange.Graph Lib BestFirst Interleave

/-! ### Lists -/

/-- A node stands on a layer, by the level drawn for it. -/
def Stands (metas : List BuildMeta) (layer e : ℕ) : Prop :=
  ∃ node, metas[e]? = some node ∧ layer ≤ node.level

/-- The list of a node on a layer. -/
def Lists (adj : List (List (List ℕ))) (layer c : ℕ) (list : List ℕ) : Prop :=
  ∃ lists, adj[c]? = some lists ∧ lists[layer]? = some list

/-- Every node has a list for each of its layers. -/
def Shaped (metas : List BuildMeta) (adj : List (List (List ℕ))) : Prop :=
  adj.map List.length = metas.map fun node => node.level + 1

/-- The list of one node on a layer is now another, and nothing else has changed. -/
structure Rewritten (adj later : List (List (List ℕ))) (layer c : ℕ) (new : List ℕ) : Prop where
  shape : later.map List.length = adj.map List.length
  lists : ∀ l i list, Lists later l i list ↔
    if i = c ∧ l = layer then list = new else Lists adj l i list

variable {metas : List BuildMeta} {adj later : List (List (List ℕ))} {layer lesser c e idx : ℕ}
  {list new : List ℕ}

theorem Stands.lower (stands : Stands metas layer e) (below : lesser ≤ layer) :
    Stands metas lesser e := by
  obtain ⟨node, held, high⟩ := stands
  exact ⟨node, held, below.trans high⟩

theorem Stands.lt (stands : Stands metas layer e) : e < metas.length := by
  obtain ⟨node, held, -⟩ := stands
  exact (List.getElem?_eq_some_iff.mp held).1

theorem shaped_at (shaped : Shaped metas adj) {i : ℕ} :
    (adj[i]?).map List.length = (metas[i]?).map fun node => node.level + 1 := by
  rw [← List.getElem?_map, ← List.getElem?_map, shaped]

theorem Stands.lists (stands : Stands metas layer c) (shaped : Shaped metas adj) :
    ∃ list, Lists adj layer c list := by
  obtain ⟨node, held, high⟩ := stands
  have lengths := shaped_at shaped (i := c)
  rw [held] at lengths
  obtain ⟨lists, there, count⟩ := Option.map_eq_some_iff.mp lengths
  simp only at count
  have inside : layer < lists.length := by omega
  exact ⟨lists[layer], lists, there, List.getElem?_eq_getElem inside⟩

/-- A node's lists rewritten as `f` has it. -/
theorem alter_rewrites {f : List (List ℕ) → Run (List (List ℕ))} {lists : List (List ℕ)}
    (there : adj[c]? = some lists) (listed : lists[layer]? = some list)
    (made : f lists = .ok (lists.set layer new)) :
    ∃ later, alter adj c f = .ok later ∧ Rewritten adj later layer c new := by
  have inside : c < adj.length := (List.getElem?_eq_some_iff.mp there).1
  have deep : layer < lists.length := (List.getElem?_eq_some_iff.mp listed).1
  refine ⟨adj.set c (lists.set layer new), alter_ok there made, ?_, fun l i list' => ?_⟩
  · refine List.ext_getElem? fun i => ?_
    rw [List.map_set, List.getElem?_set, List.getElem?_map, List.length_map]
    split_ifs with here
    · rw [← here, there, List.length_set]
      rfl
    · rfl
  · unfold Lists
    rw [List.getElem?_set]
    by_cases here : c = i
    · subst here
      rw [if_pos rfl, if_pos inside]
      simp only [Option.some.injEq, exists_eq_left', true_and]
      rw [List.getElem?_set]
      by_cases level : layer = l
      · subst level
        rw [if_pos rfl, if_pos rfl, if_pos deep, Option.some.injEq, eq_comm]
      · rw [if_neg level, if_neg (Ne.symm level), there]
        simp
    · rw [if_neg here, if_neg fun both => here both.1.symm]

theorem pushLink_eq {lists : List (List ℕ)} (listed : lists[layer]? = some list) (nb : ℕ) :
    pushLink layer lists nb = .ok (lists.set layer (list ++ [nb])) := alter_ok listed rfl

theorem pushLinks_eq {lists : List (List ℕ)} (listed : lists[layer]? = some list)
    (chosen : List ℕ) :
    chosen.foldlM (pushLink layer) lists = .ok (lists.set layer (list ++ chosen)) := by
  obtain ⟨inside, same⟩ := List.getElem?_eq_some_iff.mp listed
  induction chosen generalizing lists list with
  | nil =>
    rw [List.append_nil, ← same, List.set_getElem_self]
    rfl
  | cons nb chosen ih =>
    have there : (lists.set layer (list ++ [nb]))[layer]? = some (list ++ [nb]) :=
      List.getElem?_set_self inside
    rw [List.foldlM_cons, pushLink_eq listed]
    refine (ih there (by simpa using inside) (by simp)).trans ?_
    rw [List.set_set, List.append_assoc]
    rfl

section

variable (arith : Arith) (params : HnswParams) (metric : Metric)

/-- A list that is within the degree cap or made so. -/
theorem pruneBuild_ends {lists : List (List ℕ)} (listed : lists[layer]? = some list)
    (node : Stands metas layer c) (range : ∀ e ∈ list, Stands metas layer e) :
    ∃ new, pruneBuild arith metas params metric c layer lists = .ok (lists.set layer new) ∧
      new ⊆ list ∧ new.length ≤ params.maxConn layer := by
  obtain ⟨inside, same⟩ := List.getElem?_eq_some_iff.mp listed
  rw [pruneBuild, fetch_ok listed]
  show ∃ new, (if list.length ≤ params.maxConn layer then pure lists
    else do
      let scored ← list.mapM (scoreBuild arith metas metric c)
      let kept := (sortByDistance scored).take (params.maxConn layer)
      return lists.set layer (kept.map Prod.snd)) = Except.ok (lists.set layer new) ∧ _
  split_ifs with short
  · refine ⟨list, ?_, List.Subset.refl _, short⟩
    rw [← same, List.set_getElem_self]
    rfl
  · have scores : ∀ x ∈ list, ∃ d, scoreBuild arith metas metric c x = .ok (d, x) := by
      intro x member
      obtain ⟨here, held, -⟩ := node
      obtain ⟨other, there, -⟩ := range x member
      refine ⟨distBm arith metric here other, ?_⟩
      rw [scoreBuild, fetch_ok held]
      show (do return (distBm arith metric here (← fetch metas x), x)) = _
      rw [fetch_ok there]
      rfl
    obtain ⟨scored, made, snds⟩ := mapM_snd scores
    rw [made]
    refine ⟨_, rfl, fun x member => ?_, ?_⟩
    · obtain ⟨item, kept, rfl⟩ := List.mem_map.mp member
      have among := (List.mergeSort_perm _ _).mem_iff.mp (List.mem_of_mem_take kept)
      exact snds ▸ List.mem_map_of_mem among
    · rw [List.length_map]
      exact List.length_take_le _ _

end

/-! ### The discipline -/

/-- What is kept of a thread: the layer and node of a list that may be over the cap, the node taken
last, the height of the entry point seen last, and one more than the number drawn last. -/
structure Record where
  owes : Option (ℕ × ℕ)
  busy : Option ℕ
  seen : ℕ
  bound : ℕ

variable {params : HnswParams}

structure BuildInv (metas : List BuildMeta) (params : HnswParams) (state : BuildState)
    (records : List Record) : Prop where
  shape : Shaped metas state.adj
  linked : ∀ l c list, Lists state.adj l c list → ∀ e ∈ list, Stands metas l e
  capped : ∀ l c list, Lists state.adj l c list →
    list.length ≤ params.maxConn l ∨ ∃ record ∈ records, record.owes = some (l, c)
  entry : ∃ node, metas[state.entry.1]? = some node ∧ node.level = state.entry.2
  tall : ∀ (i : ℕ) node, metas[i]? = some node → i < state.next →
    node.level ≤ state.entry.2 ∨ ∃ record ∈ records, record.busy = some i
  seen : ∀ record ∈ records, record.seen ≤ state.entry.2 ∧ record.bound ≤ state.next

/-- When a thread may take an action. -/
def Allowed (metas : List BuildMeta) : BuildAct → Record → Prop
  | .fetchAdd, record => ∀ (i : ℕ) node, record.busy = some i → metas[i]? = some node →
      node.level ≤ record.seen
  | .readEntry, _ => True
  | .readLinks c layer, _ => Stands metas layer c
  | .pushOwn idx layer chosen, record => Stands metas layer idx ∧
      (∀ e ∈ chosen, Stands metas layer e) ∧ record.owes = none
  | .pushBack nb layer idx, _ => Stands metas layer nb ∧ Stands metas layer idx
  | .pruneOwn idx layer, record => Stands metas layer idx ∧ record.owes = some (layer, idx)
  | .raise idx level, _ => ∃ node, metas[idx]? = some node ∧ node.level = level

/-- What is known of a reply. -/
def Known (metas : List BuildMeta) : (action : BuildAct) → Record → action.Reply → Prop
  | .fetchAdd, record, i => record.bound ≤ i
  | .readEntry, _, entry => ∃ node, metas[entry.1]? = some node ∧ node.level = entry.2
  | .readLinks _ layer, _, (list : List ℕ) => ∀ e ∈ list, Stands metas layer e
  | .pushOwn _ _ _, _, _ => True
  | .pushBack _ _ _, _, _ => True
  | .pruneOwn _ _, _, _ => True
  | .raise _ _, _, _ => True

/-- The record after an action. -/
def Record.after (record : Record) : (action : BuildAct) → action.Reply → Record
  | .fetchAdd, (i : ℕ) => { record with busy := some i, bound := i + 1 }
  | .readEntry, (entry : ℕ × ℕ) => { record with seen := entry.2 }
  | .readLinks _ _, _ => record
  | .pushOwn idx layer _, _ => { record with owes := some (layer, idx) }
  | .pushBack _ _ _, _ => record
  | .pruneOwn _ _, _ => { record with owes := none }
  | .raise _ level, _ => { record with seen := level }

section

variable {α : Type} {xs : List α} {i : ℕ} {x y : α} {holds : α → Prop}

theorem exists_mem_set (held : xs[i]? = some x) (kept : holds x → holds y) :
    (∃ z ∈ xs, holds z) → ∃ z ∈ xs.set i y, holds z := by
  rintro ⟨z, member, fine⟩
  obtain ⟨inside, -⟩ := List.getElem?_eq_some_iff.mp held
  obtain ⟨j, there⟩ := List.mem_iff_getElem?.mp member
  by_cases here : i = j
  · subst here
    obtain rfl := Option.some.inj (held.symm.trans there)
    exact ⟨y, List.mem_of_getElem? (List.getElem?_set_self inside), kept fine⟩
  · exact ⟨z, List.mem_of_getElem? ((List.getElem?_set_ne here).trans there), fine⟩

theorem forall_mem_set (all : ∀ z ∈ xs, holds z) (new : holds y) : ∀ z ∈ xs.set i y, holds z := by
  intro z member
  rcases List.mem_or_eq_of_mem_set member with old | rfl
  · exact all z old
  · exact new

end

variable {state : BuildState} {records : List Record} {record changed : Record} {i : ℕ}

/-- The invariant after one list is rewritten by a thread whose record changes in what it owes. -/
theorem BuildInv.rewrite (inv : BuildInv metas params state records)
    (held : records[i]? = some record) (rewritten : Rewritten state.adj later layer c new)
    (range : ∀ e ∈ new, Stands metas layer e)
    (same : changed.busy = record.busy ∧ changed.seen = record.seen ∧ changed.bound = record.bound)
    (short : new.length ≤ params.maxConn layer ∨ changed.owes = some (layer, c))
    (debt : ∀ l k, record.owes = some (l, k) → ¬ (k = c ∧ l = layer) → changed.owes = some (l, k)) :
    BuildInv metas params { state with adj := later } (records.set i changed) := by
  obtain ⟨inside, -⟩ := List.getElem?_eq_some_iff.mp held
  refine ⟨rewritten.shape.trans inv.shape, fun l k list lists => ?_, fun l k list lists => ?_,
    inv.entry, fun k node there taken => ?_, ?_⟩
  · have old := (rewritten.lists l k list).mp lists
    split_ifs at old with here
    · rw [old, here.2]
      exact range
    · exact inv.linked l k list old
  · have old := (rewritten.lists l k list).mp lists
    split_ifs at old with here
    · obtain ⟨rfl, rfl⟩ := here
      rw [old]
      refine short.imp_right fun owed => ⟨changed, ?_, owed⟩
      exact List.mem_of_getElem? (List.getElem?_set_self inside)
    · exact (inv.capped l k list old).imp_right (exists_mem_set held fun owed => debt l k owed here)
  · refine (inv.tall k node there taken).imp_right (exists_mem_set held fun busy => ?_)
    rw [same.1, busy]
  · refine forall_mem_set inv.seen ?_
    rw [same.2.1, same.2.2]
    exact inv.seen record (List.mem_of_getElem? held)

section

variable (arith : Arith) (metric : Metric)

theorem Record.set_self (held : records[i]? = some record) : records.set i record = records := by
  obtain ⟨inside, same⟩ := List.getElem?_eq_some_iff.mp held
  rw [← same, List.set_getElem_self]

/-- Only the node a thread takes is one it may not have compared with the entry point. -/
theorem fetchAdd_keeps (inv : BuildInv metas params state records)
    (held : records[i]? = some record) (allowed : Allowed metas .fetchAdd record) :
    Known metas .fetchAdd record state.next ∧
      BuildInv metas params { state with next := state.next + 1 }
        (records.set i (record.after .fetchAdd state.next)) := by
  have mine := inv.seen record (List.mem_of_getElem? held)
  obtain ⟨inside, -⟩ := List.getElem?_eq_some_iff.mp held
  refine ⟨mine.2, inv.shape, inv.linked, fun l c list lists => ?_, inv.entry,
    fun k node there taken => ?_, ?_⟩
  · exact (inv.capped l c list lists).imp_right (exists_mem_set held id)
  · rcases Nat.lt_succ_iff_lt_or_eq.mp taken with before | rfl
    · rcases inv.tall k node there before with low | ⟨other, member, busy⟩
      · exact .inl low
      · by_cases same : record.busy = some k
        · exact .inl ((allowed k node same there).trans mine.1)
        · refine .inr (exists_mem_set held (fun busy => absurd busy same) ⟨other, member, busy⟩)
    · exact .inr ⟨_, List.mem_of_getElem? (List.getElem?_set_self inside), rfl⟩
  · refine forall_mem_set (fun other member => ?_) ⟨mine.1, le_rfl⟩
    exact ⟨(inv.seen other member).1, (inv.seen other member).2.trans (Nat.le_succ _)⟩

theorem raise_keeps {level : ℕ} (inv : BuildInv metas params state records)
    (held : records[i]? = some record) (allowed : Allowed metas (.raise idx level) record) :
    BuildInv metas params
      (if state.entry.2 < level then { state with entry := (idx, level) } else state)
      (records.set i (record.after (.raise idx level) ())) := by
  have mine := inv.seen record (List.mem_of_getElem? held)
  have capped : ∀ l c list, Lists state.adj l c list → list.length ≤ params.maxConn l ∨
      ∃ other ∈ records.set i (record.after (.raise idx level) ()), other.owes = some (l, c) :=
    fun l c list lists => (inv.capped l c list lists).imp_right (exists_mem_set held id)
  have busy {k : ℕ} : (∃ other ∈ records, other.busy = some k) →
      ∃ other ∈ records.set i (record.after (.raise idx level) ()), other.busy = some k :=
    exists_mem_set held id
  split_ifs with taller
  · refine ⟨inv.shape, inv.linked, capped, allowed, fun k node there taken => ?_, ?_⟩
    · exact (inv.tall k node there taken).imp (·.trans taller.le) busy
    · refine forall_mem_set (fun other member => ?_) ⟨le_rfl, mine.2⟩
      exact ⟨(inv.seen other member).1.trans taller.le, (inv.seen other member).2⟩
  · refine ⟨inv.shape, inv.linked, capped, inv.entry, fun k node there taken => ?_, ?_⟩
    · exact (inv.tall k node there taken).imp_right busy
    · exact forall_mem_set inv.seen ⟨Nat.not_lt.mp taller, mine.2⟩

/-- **Every action that is allowed ends and keeps the invariant.** -/
theorem action_keeps (action : BuildAct) (inv : BuildInv metas params state records)
    (held : records[i]? = some record) (allowed : Allowed metas action record) :
    ∃ reply next, performBuild arith metas params metric action state = .ok (reply, next) ∧
      Known metas action record reply ∧
      BuildInv metas params next (records.set i (record.after action reply)) := by
  cases action with
  | fetchAdd => exact ⟨_, _, rfl, fetchAdd_keeps inv held allowed⟩
  | readEntry =>
    obtain ⟨node, there, level⟩ := inv.entry
    refine ⟨_, _, rfl, ⟨node, there, level⟩, inv.shape, inv.linked, fun l c list lists => ?_,
      inv.entry, fun k node there taken => ?_, ?_⟩
    · exact (inv.capped l c list lists).imp_right (exists_mem_set held id)
    · exact (inv.tall k node there taken).imp_right (exists_mem_set held id)
    · exact forall_mem_set inv.seen ⟨le_rfl, (inv.seen record (List.mem_of_getElem? held)).2⟩
  | readLinks c layer =>
    obtain ⟨list, lists⟩ := allowed.lists inv.shape
    obtain ⟨all, there, listed⟩ := id lists
    refine ⟨list, state, ?_, inv.linked layer c list lists, ?_⟩
    · show (do return ((← fetch state.adj c)[layer]?.getD [], state)) = _
      rw [fetch_ok there]
      show Except.ok (all[layer]?.getD [], state) = _
      rw [listed]
      rfl
    · exact (Record.set_self held).symm ▸ inv
  | pushOwn idx layer chosen =>
    obtain ⟨stands, range, clear⟩ := allowed
    obtain ⟨list, lists⟩ := stands.lists inv.shape
    obtain ⟨all, there, listed⟩ := id lists
    obtain ⟨later, made, rewritten⟩ := alter_rewrites (f := fun links =>
      chosen.foldlM (pushLink layer) links) there listed (pushLinks_eq listed chosen)
    refine ⟨(), { state with adj := later }, ?_, trivial, ?_⟩
    · show (do
        let adj ← alter state.adj idx fun links => chosen.foldlM (pushLink layer) links
        return ((), { state with adj })) = _
      rw [made]
      rfl
    · refine inv.rewrite held rewritten (fun e member => ?_) ⟨rfl, rfl, rfl⟩ (.inr rfl) ?_
      · exact (List.mem_append.mp member).elim (inv.linked layer idx list lists e) (range e)
      · intro l k owed
        rw [clear] at owed
        cases owed
  | pushBack nb layer idx =>
    obtain ⟨stands, mine⟩ := allowed
    obtain ⟨list, lists⟩ := stands.lists inv.shape
    obtain ⟨all, there, listed⟩ := id lists
    have inside : layer < all.length := (List.getElem?_eq_some_iff.mp listed).1
    have range : ∀ e ∈ list ++ [idx], Stands metas layer e := fun e member =>
      (List.mem_append.mp member).elim (inv.linked layer nb list lists e)
        fun last => List.mem_singleton.mp last ▸ mine
    have pushed : (all.set layer (list ++ [idx]))[layer]? = some (list ++ [idx]) :=
      List.getElem?_set_self inside
    obtain ⟨new, pruned, subset, short⟩ :=
      pruneBuild_ends arith params metric pushed stands range
    rw [List.set_set] at pruned
    have grown : (do pruneBuild arith metas params metric nb layer (← pushLink layer all idx)) =
        Except.ok (all.set layer new) := by
      rw [pushLink_eq listed]
      exact pruned
    obtain ⟨later, made, rewritten⟩ := alter_rewrites (f := fun links => do
      pruneBuild arith metas params metric nb layer (← pushLink layer links idx)) there listed grown
    refine ⟨(), { state with adj := later }, ?_, trivial, ?_⟩
    · show (do
        let adj ← alter state.adj nb fun links => do
          pruneBuild arith metas params metric nb layer (← pushLink layer links idx)
        return ((), { state with adj })) = _
      rw [made]
      rfl
    · exact inv.rewrite held rewritten (fun e member => range e (subset member)) ⟨rfl, rfl, rfl⟩
        (.inl short) fun l k owed _ => owed
  | pruneOwn idx layer =>
    obtain ⟨stands, owing⟩ := allowed
    obtain ⟨list, lists⟩ := stands.lists inv.shape
    obtain ⟨all, there, listed⟩ := id lists
    have range := inv.linked layer idx list lists
    obtain ⟨new, pruned, subset, short⟩ := pruneBuild_ends arith params metric listed stands range
    obtain ⟨later, made, rewritten⟩ := alter_rewrites there listed pruned
    refine ⟨(), { state with adj := later }, ?_, trivial, ?_⟩
    · show (do
        let adj ← alter state.adj idx (pruneBuild arith metas params metric idx layer)
        return ((), { state with adj })) = _
      rw [made]
      rfl
    · refine inv.rewrite held rewritten (fun e member => range e (subset member)) ⟨rfl, rfl, rfl⟩
        (.inl short) fun l k owed other => ?_
      obtain ⟨rfl, rfl⟩ := Prod.mk.inj (Option.some.inj (owing.symm.trans owed))
      exact absurd ⟨rfl, rfl⟩ other
  | raise idx level => exact ⟨(), _, rfl, trivial, raise_keeps inv held allowed⟩

end

/-! ### The program of a thread -/

section

variable (arith : Arith) (metas : List BuildMeta) (params : HnswParams) (metric : Metric)
  (ties : Ties)
  (q : Query)

def buildDiscipline : Discipline (performBuild arith metas params metric) Record where
  inv := BuildInv metas params
  pre := Allowed metas
  post := Known metas
  next action record reply := record.after action reply
  keeps _ _ _ _ action inv held allowed := action_keeps arith metric action inv held allowed

def buildFacts (layer : ℕ) : Facts Dist where
  inRange := Stands metas layer
  alive _ := True
  measured _ _ := True
  neighbours _ _ := True

variable {metas} {starts : List ℕ} {ep : ℕ}

theorem answers_build (record : Record) :
    Answers ((buildDiscipline arith metas params metric).steady record)
      (buildReads arith metas metric q layer) (buildFacts metas layer) metas.length where
  dist := by
    rintro e ⟨node, held, -⟩
    show Discipline.Safe _ _ (Prog.own (do return distBmQ arith metric q (← fetch metas e))) _
    rw [fetch_ok held]
    exact ⟨rfl, trivial⟩
  live := fun _ _ => ⟨rfl, fun _ => trivial, fun _ => rfl⟩
  links := fun _ stands => ⟨stands, fun _ known => ⟨rfl, known, trivial⟩⟩
  bound := fun _ stands => stands.lt

/-- A search finds nodes of its layer. -/
theorem searchBuild_safe (record : Record) (ef : ℕ) (range : ∀ s ∈ starts, Stands metas layer s) :
    ((buildDiscipline arith metas params metric).steady record).ends
      (searchBuild arith metas metric ties q starts ef layer)
      fun w => ∀ x ∈ w, Stands metas layer x.2 := by
  refine Outcome.bind _ (ends_search ef (answers_build arith params metric q record) range) ?_
  rintro kept ⟨sound, -⟩
  refine Outcome.pure _ fun x member => (sound x ?_).1
  exact (perm_sorted ties layer kept).mem_iff.mp member

theorem descendBuild_safe (record : Record) (floor : ℕ) (stands : Stands metas layer ep) :
    ((buildDiscipline arith metas params metric).steady record).ends
      (descendBuild arith metas metric ties q floor layer ep)
      fun last => Stands metas (min layer floor) last := by
  induction layer generalizing ep with
  | zero => exact Outcome.pure _ (by rwa [Nat.zero_min])
  | succ layer ih =>
    rw [descendBuild]
    split_ifs with above
    · have lower : min (layer + 1) floor = min layer floor := by omega
      rw [lower]
      refine Outcome.bind _ (searchBuild_safe arith params metric ties q record 1
        (List.forall_mem_singleton.mpr stands)) fun w found => ih ?_
      cases w with
      | nil => exact stands.lower (Nat.le_succ layer)
      | cons x w => exact (found x List.mem_cons_self).lower (Nat.le_succ layer)
    · exact Outcome.pure _ (stands.lower (Nat.min_le_left _ _))

/-- A node is linked on every layer below a given one; what it owes in between it pays. -/
theorem connectBuild_safe (clear : record.owes = none) (here : ∀ l < layer, Stands metas l idx)
    (entry : ∀ l < layer, Stands metas l ep) (range : ∀ l < layer, ∀ s ∈ starts, Stands metas l s) :
    ((buildDiscipline arith metas params metric).steady record).ends
      (connectBuild arith metas params metric ties q idx ep layer starts) fun _ => True := by
  induction layer generalizing starts with
  | zero => exact Outcome.pure _ trivial
  | succ layer ih =>
    have last := Nat.lt_succ_self layer
    have mine := here layer last
    refine Outcome.bind _ (searchBuild_safe arith params metric ties q record
      params.efConstruction (range layer last)) fun w found => ?_
    have chosen : ∀ e ∈ (w.take (params.maxConn layer)).map Prod.snd, Stands metas layer e := by
      intro e member
      obtain ⟨x, taken, rfl⟩ := List.mem_map.mp member
      exact found x (List.mem_of_mem_take taken)
    generalize (w.take (params.maxConn layer)).map Prod.snd = neighbours at chosen ⊢
    let owing := record.after (.pushOwn idx layer neighbours) ()
    have pushes : ((buildDiscipline arith metas params metric).steady owing).ends
        (neighbours.foldlM (pushBack layer idx) ()) fun _ => True :=
      Outcome.foldlM _ trivial fun _ _ nb member =>
        ⟨⟨chosen nb member, mine⟩, fun _ _ => ⟨rfl, trivial⟩⟩
    have paid : owing.after (.pruneOwn idx layer) () = record := by
      cases record
      cases clear
      rfl
    refine Discipline.Safe.bind (Discipline.Safe.act ⟨mine, chosen, clear⟩) ?_
    rintro _ _ ⟨-, rfl⟩
    refine Discipline.Safe.bind pushes ?_
    rintro _ _ ⟨rfl, -⟩
    refine Discipline.Safe.bind (Discipline.Safe.act ⟨mine, rfl⟩) ?_
    rintro _ _ ⟨-, rfl⟩
    have next : ∀ l < layer, ∀ s ∈ (if w.isEmpty then [ep] else w.map Prod.snd),
        Stands metas l s := by
      intro l below s member
      split_ifs at member
      · exact List.mem_singleton.mp member ▸ entry l (below.trans last)
      · obtain ⟨x, met, rfl⟩ := List.mem_map.mp member
        exact (found x met).lower below.le
    exact paid.symm ▸ ih (fun l below => here l (below.trans last))
      (fun l below => entry l (below.trans last)) next

/-- A node is inserted: afterwards it is known that the entry point is as tall. -/
theorem insertIntoBuild_safe (clear : record.owes = none) {node : BuildMeta}
    (held : metas[idx]? = some node) :
    (buildDiscipline arith metas params metric).Safe
      (fun _ after => after = { record with seen := after.seen } ∧ node.level ≤ after.seen)
      (insertIntoBuild arith metas params metric ties idx) record := by
  have own : ((buildDiscipline arith metas params metric).steady record).ends
      (Prog.own (fetch metas idx)) (· = node) := by
    rw [fetch_ok held]
    exact ⟨rfl, rfl⟩
  refine Discipline.Safe.bind own fun _ _ both => ?_
  rw [both.1, both.2]
  refine Discipline.Safe.bind (Discipline.Safe.act trivial) ?_
  rintro ⟨entry, top⟩ _ ⟨⟨tall, there, rfl⟩, rfl⟩
  have stands : Stands metas tall.level entry := ⟨tall, there, le_rfl⟩
  refine Discipline.Safe.bind (descendBuild_safe arith params metric ties _ _ _ stands) ?_
  rintro ep _ ⟨rfl, low⟩
  have clear' : (record.after .readEntry (entry, tall.level)).owes = none := clear
  refine Discipline.Safe.bind (connectBuild_safe arith params metric ties _ clear'
    (fun l below => ⟨node, held, ?_⟩) (fun l below => low.lower ?_)
    fun l below s member => List.mem_singleton.mp member ▸ low.lower ?_) ?_
  · omega
  · omega
  · omega
  rintro _ _ ⟨rfl, -⟩
  split_ifs with taller
  · refine Discipline.Safe.mono (Discipline.Safe.act ⟨node, held, rfl⟩) ?_
    rintro _ _ ⟨-, rfl⟩
    exact ⟨rfl, le_rfl⟩
  · exact ⟨rfl, Nat.not_lt.mp taller⟩

/-- How a thread ends: it owes nothing, and took no node of the batch last. -/
def Ended (metas : List BuildMeta) (_ : Unit) (record : Record) : Prop :=
  record.owes = none ∧ ∃ i, record.busy = some i ∧ metas.length ≤ i ∧ i < record.bound

/-- **A thread follows the discipline to its end**, in as many rounds as there are nodes. -/
theorem worker_safe (ties : ℕ → Ties) (clear : record.owes = none)
    (allowed : Allowed metas .fetchAdd record) (low : record.bound ≤ metas.length) {rounds : ℕ}
    (room : metas.length < rounds + record.bound) :
    (buildDiscipline arith metas params metric).Safe (Ended metas)
      (worker arith metas params metric ties rounds) record := by
  induction rounds generalizing record with
  | zero => omega
  | succ rounds ih =>
    refine Discipline.Safe.bind (Discipline.Safe.act allowed) ?_
    rintro (i : ℕ) _ ⟨bound, rfl⟩
    have bound : record.bound ≤ i := bound
    split_ifs with past
    · exact ⟨clear, i, rfl, past, Nat.lt_succ_self i⟩
    · have inside : i < metas.length := Nat.not_le.mp past
      have held : metas[i]? = some metas[i] := List.getElem?_eq_getElem inside
      have clear' : (record.after .fetchAdd i).owes = none := clear
      refine Discipline.Safe.bind (insertIntoBuild_safe arith params metric (ties i) clear' held) ?_
      rintro _ after ⟨same, tall⟩
      rw [same]
      refine ih clear (fun j node busy there => ?_) inside ?_
      · obtain rfl : i = j := Option.some.inj busy
        exact Option.some.inj (held.symm.trans there) ▸ tall
      · show metas.length < rounds + (i + 1)
        omega

end

/-! ### The pool -/

/-- What a build leaves of the shared state. -/
structure Built (metas : List BuildMeta) (params : HnswParams) (state : BuildState) : Prop where
  shape : Shaped metas state.adj
  linked : ∀ l c list, Lists state.adj l c list → ∀ e ∈ list, Stands metas l e
  capped : ∀ l c list, Lists state.adj l c list → list.length ≤ params.maxConn l
  entry : ∃ node, metas[state.entry.1]? = some node ∧ node.level = state.entry.2
  tall : ∀ (i : ℕ) node, metas[i]? = some node → node.level ≤ state.entry.2

/-- When every thread has ended, nothing is owed and all nodes were taken. -/
theorem BuildInv.built (inv : BuildInv metas params state records) (some_ : records ≠ [])
    (ended : ∀ record ∈ records, ∃ value, Ended metas value record) :
    Built metas params state := by
  have clear : ∀ record ∈ records, record.owes = none := fun record member =>
    (ended record member).choose_spec.1
  have past : metas.length ≤ state.next := by
    obtain ⟨record, member⟩ := List.exists_mem_of_ne_nil records some_
    obtain ⟨_, -, i, -, outside, bound⟩ := ended record member
    have seen := (inv.seen record member).2
    omega
  refine ⟨inv.shape, inv.linked, fun l c list lists => ?_, inv.entry, fun i node there => ?_⟩
  · refine (inv.capped l c list lists).resolve_right fun ⟨record, member, owed⟩ => ?_
    rw [clear record member] at owed
    cases owed
  · have inside := (List.getElem?_eq_some_iff.mp there).1
    refine (inv.tall i node there (inside.trans_le past)).resolve_right
      fun ⟨record, member, busy⟩ => ?_
    obtain ⟨_, -, j, last, outside, -⟩ := ended record member
    obtain rfl := Option.some.inj (busy.symm.trans last)
    exact absurd inside (Nat.not_lt.mpr outside)

section

variable (arith : Arith) (metric : Metric) (ties : ℕ → Ties) {threads : ℕ} {first : BuildMeta}

/-- The records of threads that have done nothing. -/
def freshRecords (threads : ℕ) : List Record := List.replicate threads ⟨none, none, 0, 1⟩

variable (threads) in
theorem pool_begins (shaped : Shaped metas adj) (bare : ∀ lists ∈ adj, ∀ list ∈ lists, list = [])
    (held : metas[0]? = some first) :
    BuildInv metas params
        (buildPool arith metas params metric ties threads adj first).shared (freshRecords threads) ∧
      (buildDiscipline arith metas params metric).Guards (Ended metas)
        (buildPool arith metas params metric ties threads adj first).threads
        (freshRecords threads) := by
  have empty : ∀ l c list, Lists adj l c list → list = [] := by
    rintro l c list ⟨lists, there, listed⟩
    exact bare lists (List.mem_of_getElem? there) list (List.mem_of_getElem? listed)
  refine ⟨⟨shaped, fun l c list lists e member => ?_, fun l c list lists => .inl ?_,
    ⟨first, held, rfl⟩, fun i node there taken => .inl ?_, fun record member => ?_⟩, ?_, ?_⟩
  · rw [empty l c list lists] at member
    cases member
  · rw [empty l c list lists]
    exact Nat.zero_le _
  · obtain rfl : i = 0 := Nat.lt_one_iff.mp taken
    exact Option.some.inj (held.symm.trans there) ▸ le_rfl
  · rw [List.eq_of_mem_replicate member]
    exact ⟨Nat.zero_le _, le_rfl⟩
  · rw [buildPool, freshRecords, List.length_replicate, List.length_replicate]
  · intro i prog record running recorded
    have inside : 0 < metas.length := (List.getElem?_eq_some_iff.mp held).1
    rw [List.eq_of_mem_replicate (List.mem_of_getElem? running),
      List.eq_of_mem_replicate (List.mem_of_getElem? recorded)]
    refine worker_safe arith params metric ties rfl ?_ ?_ ?_
    · rintro _ _ ⟨⟩
    · exact inside
    · exact Nat.lt_succ_self _

variable (params threads) in
/-- **Under every schedule the threads run without a panic, and when all have ended the graph is
built.** -/
theorem pool_ends (shaped : Shaped metas adj) (bare : ∀ lists ∈ adj, ∀ list ∈ lists, list = [])
    (held : metas[0]? = some first) (many : 0 < threads) (schedule : List ℕ) :
    ∃ after, (buildPool arith metas params metric ties threads adj first).run
        (performBuild arith metas params metric) schedule = .ok after ∧
      (after.finished → Built metas params after.shared) := by
  obtain ⟨inv, guards⟩ := pool_begins arith metric ties threads shaped bare held
  obtain ⟨after, records, ran, same, kept, guarded⟩ := Discipline.run_safe inv guards schedule
  refine ⟨after, ran, fun finished => BuildInv.built kept ?_ (guarded.ended finished)⟩
  rw [freshRecords, List.length_replicate] at same
  exact List.ne_nil_of_length_pos (same ▸ many)

end

/-! ### The build -/

theorem mapM_map {α β : Type} {f : α → Run β} {g : α → β} (each : ∀ x y, f x = .ok y → y = g x)
    {xs : List α} {ys : List β} (made : xs.mapM f = .ok ys) : ys = xs.map g := by
  induction xs generalizing ys with
  | nil => exact (Except.ok.inj made).symm
  | cons x xs ih =>
    rw [List.mapM_cons] at made
    cases first : f x with
    | error panic =>
      rw [first] at made
      cases made
    | ok y =>
      rw [first] at made
      cases rest : xs.mapM f with
      | error panic =>
        rw [rest] at made
        cases made
      | ok zs =>
        rw [rest] at made
        rw [← Except.ok.inj made, List.map_cons, each x y first, ih rest]

theorem emptyLists_ok (node : BuildMeta) (lists : List (List ℕ))
    (made : emptyLists node = .ok lists) : lists = List.replicate (node.level + 1) [] := by
  rw [emptyLists] at made
  cases room : roomFor node.level with
  | error panic =>
    rw [room] at made
    cases made
  | ok =>
    rw [room] at made
    exact (Except.ok.inj made).symm

/-- The lists a build starts with. -/
theorem emptied (made : metas.mapM emptyLists = .ok adj) :
    Shaped metas adj ∧ ∀ lists ∈ adj, ∀ list ∈ lists, list = [] := by
  have all := mapM_map emptyLists_ok made
  constructor
  · rw [all, Shaped, List.map_map]
    exact List.map_congr_left fun _ _ => List.length_replicate
  · intro lists member list among
    rw [all] at member
    obtain ⟨_, -, rfl⟩ := List.mem_map.mp member
    exact List.eq_of_mem_replicate among

/-- **A build that runs leaves a state of its threads, frozen.** -/
theorem buildShared_ends {arith : Arith} {index later : HnswIndex} {threads : ℕ} {ties : ℕ → Ties}
    {schedule : List ℕ} {rng : UInt64} (some_ : 0 < metas.length) (many : 0 < threads)
    (ran : index.buildShared arith threads ties schedule metas rng = .ok later) :
    ∃ state, Built metas index.params state ∧ later = (index.freeze metas rng state).reindex := by
  have first := List.getElem?_eq_getElem some_
  unfold HnswIndex.buildShared at ran
  cases made : metas.mapM emptyLists with
  | error panic =>
    rw [made] at ran
    cases ran
  | ok adj =>
    obtain ⟨shaped, bare⟩ := emptied made
    obtain ⟨pool, pooled, complete⟩ :=
      pool_ends index.params arith index.metric ties threads shaped bare first many schedule
    rw [made, fetch_ok first] at ran
    change (do
      let after ← (buildPool arith metas index.params index.metric ties threads adj metas[0]).run
        (performBuild arith metas index.params index.metric) schedule
      if after.finished then return (index.freeze metas rng after.shared).reindex
      else .error .unfinished) = Except.ok later at ran
    rw [pooled] at ran
    change (if pool.finished then _ else _) = _ at ran
    split_ifs at ran with finished
    exact ⟨pool.shared, complete finished, (Except.ok.inj ran).symm⟩

end DrStrange.Hnsw
