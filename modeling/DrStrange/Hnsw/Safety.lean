/-
**When a decoded index is safe to use.**

The check a decoded index has to pass makes its links and its entry point sound, and all accesses of
later searches, insertions and removals stay in bounds. It does not ask that a live node has a layer:
the removal of the entry point subtracts one from the number of layers of the tallest node left. Nor
does it bound the levels that will be drawn, nor can it bound the hits that will be asked for.
`Op.Meets` says what each operation must find, and a run completes exactly when all of its operations
find that (`run_completes_iff`).
-/

import DrStrange.Hnsw.Answers

namespace DrStrange.Hnsw

open Std DrStrange.Graph Lib BestFirst

variable {arith : Arith} {ties : Ties} {index after : HnswIndex} {filter : Option (ℕ → Bool)}
  {query : List F32} {k id : ℕ}

/-! ### What the check accepts -/

theorem linked_of_wellformed (wellformed : index.isWellformed) : Linked index.nodes := by
  rintro layer c list ⟨node, held, listed⟩ e member
  have lists := List.all_eq_true.mp (Bool.and_eq_true_iff.mp wellformed).2 node
    (List.mem_of_getElem? held)
  have placed : (list, layer) ∈ node.layers.zipIdx := List.mem_zipIdx_iff_getElem?.mpr listed
  have target := List.all_eq_true.mp (List.all_eq_true.mp lists _ placed) e member
  obtain ⟨other, there, high⟩ := (Option.any_eq_true _ _).mp target
  exact ⟨other, there, of_decide_eq_true high⟩

theorem mapped_reindex {idx : ℕ} (found : index.reindex.idToIdx[id]? = some idx) :
    ∃ node, index.nodes[idx]? = some node ∧ node.id = id ∧ node.deleted = false := by
  revert id idx
  refine List.foldlRecOn index.nodes.zipIdx (motive := fun ids : ExtTreeMap ℕ ℕ compare =>
    ∀ {id idx : ℕ}, ids[id]? = some idx →
      ∃ node, index.nodes[idx]? = some node ∧ node.id = id ∧ node.deleted = false) _ ?_ ?_
  · intro id idx held
    rw [ExtTreeMap.getElem?_empty] at held
    cases held
  · rintro ids mapped ⟨node, place⟩ member id idx held
    split_ifs at held with deleted
    · exact mapped held
    · rw [ExtTreeMap.getElem?_insert] at held
      split_ifs at held with same
      · obtain rfl := Option.some.inj held
        exact ⟨node, List.mem_zipIdx_iff_getElem?.mp member, LawfulEqCmp.compare_eq_iff_eq.mp same,
          Bool.eq_false_iff.mpr deleted⟩
      · exact mapped held

/-- **What passes the check is sound**, once its lookup is made again. -/
theorem sound_reindex (wellformed : index.isWellformed) : index.reindex.Sound := by
  refine ⟨linked_of_wellformed wellformed, fun e started => ?_, fun _ _ => mapped_reindex⟩
  have entry := (Option.all_eq_true _ _).mp (Bool.and_eq_true_iff.mp wellformed).1 e started
  obtain ⟨node, held, high⟩ := (Option.any_eq_true _ _).mp entry
  exact ⟨node, held, of_decide_eq_true high⟩

/-! ### Operations -/

/-- A search or an update. -/
inductive Op where
  | search (query : List F32) (k : ℕ) (filter : Option (ℕ → Bool))
  | update (change : Update)

def Op.run (arith : Arith) (ties : Ties) (index : HnswIndex) : Op → Run HnswIndex
  | .search query k filter => do
    let _ ← index.search arith ties query k filter
    return index
  | .update change => change.run arith ties index

def runs (arith : Arith) (index : HnswIndex) (ops : List (Ties × Op)) : Run HnswIndex :=
  ops.foldlM (fun index op => op.2.run arith op.1 index) index

/-- What an operation must find to complete. A search: the width of its beam can be computed and, if
it searches, the heap for its hits be allocated. An insertion: the level drawn fits memory. A removal:
a live node with a layer is left for the entry point, or none at all. -/
def Op.Meets (arith : Arith) (index : HnswIndex) : Op → Prop
  | .search _ k filter => k * (if filter.isSome then 8 else 2) < 2 ^ 64 ∧
      (k = 0 ∨ index.entry = none ∨ 16 * (k + 1) < 2 ^ 63)
  | .update (.insert _ _) => Fits (index.drawn arith)
  | .update (.remove id) => index.Removable id

/-- Every operation of a run meets its condition where it starts. -/
def AllMeet (arith : Arith) : HnswIndex → List (Ties × Op) → Prop
  | _, [] => True
  | index, (ties, op) :: ops => op.Meets arith index ∧
      ∀ after, op.run arith ties index = .ok after → AllMeet arith after ops

theorem topK_completes_iff {items : List (Dist × ℕ)} (asked : k ≠ 0) :
    (∃ hits, topK ties items k = .ok hits) ↔ 16 * (k + 1) < 2 ^ 63 := by
  simp only [topK_eq_ok, Room, or_iff_right asked]
  exact ⟨fun ⟨_, room, _⟩ => room, fun room => ⟨_, room, rfl⟩⟩

theorem searchWithEf_completes_iff (sound : index.Sound) {ef : ℕ} (wide : k ≠ 0 → 0 < ef) :
    (∃ hits, index.searchWithEf arith ties query k filter ef = .ok hits) ↔
      k = 0 ∨ index.entry = none ∨ 16 * (k + 1) < 2 ^ 63 := by
  by_cases asked : k = 0
  · rw [HnswIndex.searchWithEf, if_pos asked]
    exact ⟨fun _ => .inl asked, fun _ => ⟨[], rfl⟩⟩
  · cases started : index.entry with
    | none =>
      rw [HnswIndex.searchWithEf, if_neg asked, started]
      exact ⟨fun _ => .inr (.inl rfl), fun _ => ⟨[], rfl⟩⟩
    | some entry =>
      obtain ⟨w, ep, -, searched, -⟩ :=
        searchWithEf_ends arith ties query filter sound started (wide asked) asked
      rw [searched, topK_completes_iff asked]
      exact ⟨fun room => .inr (.inr room), fun which =>
        (which.resolve_left asked).resolve_left (Option.some_ne_none entry)⟩

variable (ties) in
theorem search_completes_iff (sound : index.Sound) :
    (∃ hits, index.search arith ties query k filter = .ok hits) ↔
      (Op.search query k filter).Meets arith index := by
  have positive : 0 < if filter.isSome then 8 else 2 := by split_ifs <;> norm_num
  rw [HnswIndex.search, Op.Meets]
  generalize (if filter.isSome then 8 else 2) = factor at positive ⊢
  rw [usize]
  by_cases small : k * factor < 2 ^ 64
  · rw [if_pos small, and_iff_right small]
    refine searchWithEf_completes_iff sound fun asked => ?_
    have wide : 0 < k * factor := Nat.mul_pos (Nat.pos_of_ne_zero asked) positive
    omega
  · rw [if_neg small]
    exact ⟨by rintro ⟨_, ⟨⟩⟩, fun both => absurd both.1 small⟩

theorem insert_completes_iff (sound : index.Sound) {vector : List F32} :
    (∃ after, index.insert arith ties id vector = .ok after) ↔ Fits (index.drawn arith) := by
  rw [← drawn_buried index id]
  constructor
  · intro ⟨after, done⟩
    by_contra large
    obtain ⟨panic, full⟩ := insert_panics ties vector sound large
    exact nomatch full.symm.trans done
  · intro fits
    obtain ⟨after, done, -⟩ := insert_ends ties vector sound fits
    exact ⟨after, done⟩

theorem remove_completes_iff (sound : index.Sound) :
    (∃ after, index.remove id = .ok after) ↔ index.Removable id := by
  constructor
  · intro ⟨after, done⟩
    by_contra stuck
    exact nomatch ((remove_ends sound).2 stuck).symm.trans done
  · intro free
    obtain ⟨after, done, -⟩ := (remove_ends sound).1 free
    exact ⟨after, done⟩

/-- An update leaves a sound index sound. -/
theorem update_sound (sound : index.Sound) {update : Update}
    (ran : update.run arith ties index = .ok after) : after.Sound := by
  cases update with
  | insert id vector =>
    have fits : Fits ((index.buried id).drawn arith) := by
      rw [drawn_buried]
      exact (insert_completes_iff sound).mp ⟨after, ran⟩
    obtain ⟨after', done, inserted⟩ := insert_ends ties vector sound fits
    obtain rfl := Except.ok.inj (done.symm.trans ran)
    exact inserted.sound sound.buried
  | remove id =>
    obtain ⟨after', done, removed⟩ :=
      (remove_ends sound).1 ((remove_completes_iff sound).mp ⟨after, ran⟩)
    obtain rfl := Except.ok.inj (done.symm.trans ran)
    exact removed.sound sound

theorem search_run :
    (Op.search query k filter).run arith ties index = .ok after ↔
      after = index ∧ ∃ hits, index.search arith ties query k filter = .ok hits := by
  rw [Op.run]
  cases index.search arith ties query k filter with
  | error panic => exact ⟨fun done => (nomatch done), fun ⟨_, _, done⟩ => (nomatch done)⟩
  | ok hits => exact ⟨fun done => ⟨(Except.ok.inj done).symm, hits, rfl⟩, fun both => both.1 ▸ rfl⟩

variable (arith) in
/-- **One operation** completes exactly if it meets its condition, and leaves the index sound. -/
theorem op_completes_iff (sound : index.Sound) (ties : Ties) (op : Op) :
    ((∃ after, op.run arith ties index = .ok after) ↔ op.Meets arith index) ∧
      ∀ after, op.run arith ties index = .ok after → after.Sound := by
  cases op with
  | search query k filter =>
    refine ⟨?_, fun after ran => (search_run.mp ran).1 ▸ sound⟩
    rw [← search_completes_iff ties sound]
    exact ⟨fun ⟨after, ran⟩ => (search_run.mp ran).2, fun found =>
      ⟨index, search_run.mpr ⟨rfl, found⟩⟩⟩
  | update change =>
    refine ⟨?_, fun after ran => update_sound sound ran⟩
    cases change with
    | insert id vector => exact insert_completes_iff sound
    | remove id => exact remove_completes_iff sound

theorem runs_completes_iff (sound : index.Sound) (ops : List (Ties × Op)) :
    (∃ after, runs arith index ops = .ok after) ↔ AllMeet arith index ops := by
  induction ops generalizing index with
  | nil => exact ⟨fun _ => trivial, fun _ => ⟨index, rfl⟩⟩
  | cons step ops ih =>
    obtain ⟨ties, op⟩ := step
    obtain ⟨completes, keeps⟩ := op_completes_iff arith sound ties op
    rw [runs, List.foldlM_cons, AllMeet, ← completes]
    cases ran : op.run arith ties index with
    | error panic => exact ⟨fun ⟨_, done⟩ => (nomatch done), fun ⟨⟨_, done⟩, _⟩ => (nomatch done)⟩
    | ok next =>
      have rest := ih (keeps next ran)
      constructor
      · intro done
        refine ⟨⟨next, rfl⟩, fun after same => ?_⟩
        obtain rfl := Except.ok.inj same
        exact rest.mp done
      · exact fun both => rest.mpr (both.2 next rfl)

theorem runs_sound (sound : index.Sound) {ops : List (Ties × Op)}
    (ran : runs arith index ops = .ok after) :
    after.Sound := by
  induction ops generalizing index with
  | nil => exact Except.ok.inj ran ▸ sound
  | cons step ops ih =>
    obtain ⟨ties, op⟩ := step
    rw [runs, List.foldlM_cons] at ran
    cases here : op.run arith ties index with
    | error panic =>
      rw [here] at ran
      cases ran
    | ok next =>
      rw [here] at ran
      exact ih ((op_completes_iff arith sound ties op).2 next here) ran

/-- **A run on a decoded index that passes the check completes exactly when every operation meets its
condition where it starts.** -/
theorem run_completes_iff (arith : Arith) (wellformed : index.isWellformed)
    (ops : List (Ties × Op)) :
    (∃ after, runs arith index.reindex ops = .ok after) ↔ AllMeet arith index.reindex ops :=
  runs_completes_iff (sound_reindex wellformed) ops

/-- A live node without a layer beside the entry point: the check accepts it. -/
def bareIndex : HnswIndex where
  metric := .l2
  params := .default
  nodes := [⟨1, [0x3f800000], 0x3f800000, false, [[]]⟩, ⟨2, [0x3f800000], 0x3f800000, false, []⟩]
  entry := some 0
  topLayer := 0
  rng := 0x9e3779b97f4a7c15
  idToIdx := ∅

theorem bareIndex_searched :
    ∃ after, runs .scalar bareIndex.reindex [(.steady, .search [0x3f800000] 1 none)] = .ok after :=
  (run_completes_iff .scalar (by decide) _).mpr
    ⟨⟨by decide, .inr (.inr (by norm_num))⟩, fun _ _ => trivial⟩

/-- The removal of the entry point computes the top layer as the number of layers of the bare node
less one. -/
theorem bareIndex_underflows : bareIndex.isWellformed ∧
    (runs .scalar bareIndex.reindex [(.steady, .update (.remove 1))]).map (fun _ => ()) =
      .error .overflow := by
  refine ⟨by decide, ?_⟩
  decide

end DrStrange.Hnsw
