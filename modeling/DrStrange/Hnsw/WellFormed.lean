/-
**The vector index stays well formed.**

`HnswIndex.WellFormed` is what insertions, removals and builds keep: links and entry point in bounds,
no live node taller than the entry point, an exact lookup of live ids, and no list over its degree
cap. A tombstone may be taller, for a removal of the entry point hands it on to the tallest live node.
The abstract content of an index is the vector last inserted for each id (`contentsAfter`); the
lookup refines it, and the hits of a search are distinct ids of it, at the distance of their vectors
(`run_wellFormed`).
-/

import DrStrange.Hnsw.Safety
import DrStrange.Hnsw.Parallel

namespace DrStrange.Hnsw

open Std DrStrange.Graph Lib BestFirst Interleave

variable {arith : Arith} {ties : Ties} {index after : HnswIndex} {nodes later : List Node}
  {id i : ℕ} {vector : List F32} {items : List (ℕ × List F32)}

/-! ### Alike nodes -/

/-- All of a node but what its lists hold. -/
structure Alike (old new : Node) : Prop where
  id : old.id = new.id
  vector : old.vector = new.vector
  norm : old.norm = new.norm
  deleted : old.deleted = new.deleted
  height : old.layers.length = new.layers.length

theorem alike_of_body {old new : Node} (same : old.body = new.body) : Alike old new := by
  have ids : old.body.id = new.body.id := congrArg Node.id same
  have vectors : old.body.vector = new.body.vector := congrArg Node.vector same
  have norms : old.body.norm = new.body.norm := congrArg Node.norm same
  have flags : old.body.deleted = new.body.deleted := congrArg Node.deleted same
  have heights := congrArg (fun node => node.layers.length) same
  simp only [Node.body, List.length_map] at heights
  exact ⟨ids, vectors, norms, flags, heights⟩

theorem alike_at (same : later.map Node.body = nodes.map Node.body) {node : Node}
    (held : later[i]? = some node) : ∃ old, nodes[i]? = some old ∧ Alike old node := by
  obtain ⟨old, there, bodies⟩ := body_at same held
  exact ⟨old, there, alike_of_body bodies⟩

/-! ### The invariant -/

structure HnswIndex.WellFormed (index : HnswIndex) : Prop where
  linked : Linked index.nodes
  entry : ∀ e, index.entry = some e →
    ∃ node, index.nodes[e]? = some node ∧ node.layers.length = index.topLayer + 1
  started : index.entry = none → ∀ e, ¬ Live index.nodes e
  tallest : ∀ (e : ℕ) node, index.nodes[e]? = some node → node.deleted = false →
    0 < node.layers.length ∧ node.layers.length ≤ index.topLayer + 1
  mapped : ∀ id i : ℕ, index.idToIdx[id]? = some i ↔
    ∃ node, index.nodes[i]? = some node ∧ node.id = id ∧ node.deleted = false
  capped : Capped index.params (fun _ _ => False) index.nodes

theorem HnswIndex.WellFormed.exact (formed : index.WellFormed) : index.Exact := by
  refine ⟨⟨formed.linked, fun e started => ?_, fun id i => (formed.mapped id i).mp⟩,
    fun i node held living => (formed.mapped node.id i).mpr ⟨node, held, rfl, living⟩⟩
  obtain ⟨node, held, height⟩ := formed.entry e started
  exact ⟨node, held, by omega⟩

/-- An exact index is well formed if its heights and caps are. -/
theorem HnswIndex.Exact.wellFormed (exact_ : index.Exact) (entry : ∀ e, index.entry = some e →
      ∃ node, index.nodes[e]? = some node ∧ node.layers.length = index.topLayer + 1)
    (started : index.entry = none → ∀ e, ¬ Live index.nodes e)
    (tallest : ∀ (e : ℕ) node, index.nodes[e]? = some node → node.deleted = false →
      0 < node.layers.length ∧ node.layers.length ≤ index.topLayer + 1)
    (capped : Capped index.params (fun _ _ => False) index.nodes) : index.WellFormed := by
  refine ⟨exact_.sound.linked, entry, started, tallest, fun id i => ⟨?_, ?_⟩, capped⟩
  · exact exact_.sound.mapped id i
  · rintro ⟨node, held, rfl, living⟩
    exact exact_.complete i node held living

theorem wellFormed_empty (metric : Metric) (params : HnswParams) :
    (HnswIndex.withParams metric params).WellFormed := by
  refine (HnswIndex.Exact.empty metric params).wellFormed nofun ?_ nofun ?_
  · rintro - e ⟨node, held, -⟩
    cases held
  · rintro l c list ⟨node, held, -⟩
    cases held

theorem HnswIndex.WellFormed.buried (formed : index.WellFormed) (id : ℕ) :
    (index.buried id).WellFormed := by
  obtain ⟨-, params, -, entry, topLayer⟩ := buried_kept index id
  refine formed.exact.buried.wellFormed (fun e started => ?_) (fun none e live => ?_)
    (fun e node held living => ?_) fun l c list links => ?_
  · rw [entry] at started
    obtain ⟨node, held, height⟩ := formed.entry e started
    rw [topLayer]
    unfold HnswIndex.buried
    split
    · exact ⟨node, held, height⟩
    · simp only
      rw [getElem?_entomb, held]
      split_ifs
      · exact ⟨_, rfl, height⟩
      · exact ⟨_, rfl, height⟩
  · exact formed.started (entry ▸ none) e (live_buried.mp live).2
  · rw [topLayer]
    exact formed.tallest e node (node_buried held living).1 living
  · rw [params]
    exact formed.capped l c list (links_buried.mp links)

/-! ### Insertion and removal -/

theorem Capped.push {params : HnswParams} {node : Node}
    (capped : Capped params (fun _ _ => False) nodes) (bare : ∀ list ∈ node.layers, list = []) :
    Capped params (fun _ _ => False) (nodes ++ [node]) := by
  intro l c list links
  have old := links_push.mp links
  split_ifs at old with here
  · rw [bare list (List.mem_of_getElem? old)]
    exact .inr (Nat.zero_le _)
  · exact capped l c list old

/-- A node of an index after an insertion: the new one, or one that was there. -/
theorem Inserted.node (inserted : Inserted arith index id vector after) {node : Node}
    (held : after.nodes[i]? = some node) :
    (i = index.nodes.length ∧ Alike (index.fresh arith id vector) node) ∨
      ∃ old, index.nodes[i]? = some old ∧ Alike old node := by
  obtain ⟨old, there, alike⟩ := alike_at inserted.shape.body held
  rw [getElem?_push] at there
  split_ifs at there with last
  · exact .inl ⟨last, Option.some.inj there ▸ alike⟩
  · exact .inr ⟨old, there, alike⟩

/-- The nodes after an insertion are alike those before it, and the new one. -/
theorem Inserted.alike (inserted : Inserted arith index id vector after) {node : Node}
    (held : (index.nodes ++ [index.fresh arith id vector])[i]? = some node) :
    ∃ new, after.nodes[i]? = some new ∧ Alike new node := alike_at inserted.shape.body.symm held

/-- **An insertion keeps an index well formed.** -/
theorem Inserted.wellFormed (inserted : Inserted arith index id vector after)
    (formed : index.WellFormed) (absent : index.idToIdx[id]? = none) : after.WellFormed := by
  have top := inserted.top
  have drawn : (index.fresh arith id vector).layers.length = index.drawn arith + 1 :=
    List.length_replicate
  obtain ⟨new, newest, alike⟩ := inserted.alike List.getElem?_concat_length
  have height : new.layers.length = index.drawn arith + 1 := alike.height.trans drawn
  -- the new entry point has the layers of the old one, or it is the new node
  have entry : ∀ e, after.entry = some e →
      ∃ node, after.nodes[e]? = some node ∧ node.layers.length = after.topLayer + 1 := by
    intro e started
    rw [started] at top
    unfold HnswIndex.risen at top
    split at top
    · obtain ⟨⟨⟩, high⟩ := Prod.mk.inj top
      exact ⟨new, newest, by rw [height, high]⟩
    · rename_i old first
      split_ifs at top
      · obtain ⟨⟨⟩, high⟩ := Prod.mk.inj top
        exact ⟨new, newest, by rw [height, high]⟩
      · obtain ⟨⟨⟩, high⟩ := Prod.mk.inj top
        obtain ⟨node, held, tall⟩ := formed.entry _ first
        have inside := (List.getElem?_eq_some_iff.mp held).1
        obtain ⟨node', held', alike'⟩ := inserted.alike
          ((List.getElem?_append_left inside).trans held)
        exact ⟨node', held', by rw [alike'.height, tall, high]⟩
  have risen : index.drawn arith ≤ after.topLayer ∧
      (index.entry ≠ none → index.topLayer ≤ after.topLayer) := by
    unfold HnswIndex.risen at top
    split at top
    · rename_i nothing
      obtain ⟨-, high⟩ := Prod.mk.inj top
      exact ⟨high.ge, fun some_ => absurd nothing some_⟩
    · split_ifs at top with taller
      · obtain ⟨-, high⟩ := Prod.mk.inj top
        exact ⟨high.ge, fun _ => high ▸ taller.le⟩
      · obtain ⟨-, high⟩ := Prod.mk.inj top
        exact ⟨high ▸ Nat.not_lt.mp taller, fun _ => high.ge⟩
  refine (inserted.exact formed.exact absent).wellFormed entry (fun none => ?_)
    (fun e node held living => ?_) ?_
  · unfold HnswIndex.risen at top
    rw [none] at top
    split at top
    · cases top
    · split_ifs at top <;> cases top
  · rcases inserted.node held with ⟨-, alike'⟩ | ⟨old, there, alike'⟩
    · rw [← alike'.height, drawn]
      exact ⟨Nat.succ_pos _, Nat.succ_le_succ risen.1⟩
    · have live : old.deleted = false := alike'.deleted.trans living
      have bounds := formed.tallest e old there live
      rw [← alike'.height]
      refine ⟨bounds.1, bounds.2.trans (Nat.succ_le_succ (risen.2 fun none => ?_))⟩
      exact formed.started none e ⟨old, there, live⟩
  · rw [inserted.params]
    exact inserted.shape.capped (formed.capped.push (fresh_bare index))

/-- **A removal keeps an index well formed.** -/
theorem Removed.wellFormed (removed : Removed index id after) (formed : index.WellFormed) :
    after.WellFormed := by
  have buried := formed.buried id
  obtain ⟨-, params, -, entry, topLayer⟩ := buried_kept index id
  have nodes := removed.nodes
  have exact_ := removed.exact formed.exact
  refine exact_.wellFormed (fun e started => ?_) (fun none e live => ?_)
    (fun e node held living => ?_) fun l c list links => ?_
  · by_cases entered : index.Enters id
    · rcases removed.handed entered with ⟨none, -⟩ | ⟨_, i, node, now, -, there, tall, -⟩
      · rw [none] at started
        cases started
      · obtain rfl := Option.some.inj (started.symm.trans now)
        exact ⟨node, there, tall⟩
    · obtain ⟨same, top⟩ := removed.kept entered
      rw [nodes, top, ← topLayer]
      exact buried.entry e (entry.trans (same ▸ started))
  · by_cases entered : index.Enters id
    · rcases removed.handed entered with ⟨-, nobody⟩ | ⟨_, _, _, now, -⟩
      · obtain ⟨node, held, living⟩ := live
        exact absurd ((exact_.complete e node held living).symm.trans (nobody _)) nofun
      · rw [none] at now
        cases now
    · obtain ⟨same, -⟩ := removed.kept entered
      rw [nodes] at live
      exact buried.started (entry.trans (same ▸ none)) e live
  · refine ⟨(buried.tallest e node (nodes ▸ held) living).1, ?_⟩
    by_cases entered : index.Enters id
    · have mapped := exact_.complete e node held living
      rcases removed.handed entered with ⟨-, nobody⟩ | ⟨_, _, _, -, -, -, -, most⟩
      · exact absurd (mapped.symm.trans (nobody _)) nofun
      · exact most node.id e mapped node held
    · obtain ⟨-, top⟩ := removed.kept entered
      rw [top, ← topLayer]
      exact (buried.tallest e node (nodes ▸ held) living).2
  · rw [removed.params, ← params]
    rw [nodes] at links
    exact buried.capped l c list links

/-! ### Contents -/

/-- The vector of each id. -/
abbrev Contents := ℕ → Option (List F32)

/-- The vector of the live node of an id. -/
def HnswIndex.contents (index : HnswIndex) : Contents := fun id =>
  index.idToIdx[id]?.bind fun i => index.nodes[i]?.map Node.vector

/-- The norms are those of the vectors. -/
def HnswIndex.Normed (arith : Arith) (index : HnswIndex) : Prop :=
  ∀ (i : ℕ) node, index.nodes[i]? = some node → node.norm = (prepare arith node.vector).norm

theorem contents_buried (id : ℕ) :
    (index.buried id).contents = Function.update index.contents id none := by
  funext other
  by_cases same : other = id
  · rw [same, Function.update_self, HnswIndex.contents, getElem?_buried, if_pos rfl]
    rfl
  · rw [Function.update_of_ne same, HnswIndex.contents, getElem?_buried, if_neg same,
      HnswIndex.contents]
    refine Option.bind_congr fun i held => ?_
    unfold HnswIndex.buried
    split
    · rfl
    · simp only
      rw [getElem?_entomb]
      split_ifs
      · rw [Option.map_map]
        rfl
      · rfl

theorem Normed.buried (normed : index.Normed arith) (id : ℕ) : (index.buried id).Normed arith := by
  intro i node held
  unfold HnswIndex.buried at held
  split at held
  · exact normed i node held
  · simp only at held
    rw [getElem?_entomb] at held
    split_ifs at held
    · obtain ⟨old, there, rfl⟩ := Option.map_eq_some_iff.mp held
      exact normed i old there
    · exact normed i node held

theorem Inserted.contents (inserted : Inserted arith index id vector after) (sound : index.Sound) :
    after.contents = Function.update index.contents id (some vector) := by
  funext other
  have there {i : ℕ} {node : Node}
      (held : (index.nodes ++ [index.fresh arith id vector])[i]? = some node) :
      after.nodes[i]?.map Node.vector = some node.vector := by
    obtain ⟨new, now, alike⟩ := inserted.alike held
    rw [now, ← alike.vector]
    rfl
  rw [HnswIndex.contents, inserted.ids, ExtTreeMap.getElem?_insert]
  simp only [LawfulEqCmp.compare_eq_iff_eq]
  by_cases same : other = id
  · rw [if_pos same.symm, same, Function.update_self]
    exact there List.getElem?_concat_length
  · rw [if_neg (Ne.symm same), Function.update_of_ne same, HnswIndex.contents]
    refine Option.bind_congr fun i held => ?_
    obtain ⟨node, old, -⟩ := sound.mapped other i held
    rw [old, there ((List.getElem?_append_left (List.getElem?_eq_some_iff.mp old).1).trans old)]
    rfl

theorem Inserted.normed (inserted : Inserted arith index id vector after)
    (normed : index.Normed arith) : after.Normed arith := by
  intro i node held
  rcases inserted.node held with ⟨-, alike⟩ | ⟨old, there, alike⟩
  · rw [← alike.norm, ← alike.vector]
    rfl
  · rw [← alike.norm, ← alike.vector]
    exact normed i old there

theorem Removed.contents (removed : Removed index id after) :
    after.contents = Function.update index.contents id none := by
  rw [← contents_buried id]
  funext other
  rw [HnswIndex.contents, HnswIndex.contents, removed.ids, removed.nodes]

/-! ### A build -/

/-- One insertion after another. -/
def contentsOf (items : List (ℕ × List F32)) (contents : Contents) : Contents :=
  items.foldl (fun contents item => Function.update contents item.1 (some item.2)) contents

/-- What a state is after an insertion that ran. -/
theorem insert_keeps (formed : index.WellFormed) (normed : index.Normed arith)
    (ran : index.insert arith ties id vector = .ok after) :
    after.WellFormed ∧ after.Normed arith ∧
      after.contents = Function.update index.contents id (some vector) := by
  have sound := formed.exact.sound
  have fits : Fits ((index.buried id).drawn arith) := by
    rw [drawn_buried]
    exact (insert_completes_iff sound).mp ⟨after, ran⟩
  obtain ⟨after', done, inserted⟩ := insert_ends ties vector sound fits
  obtain rfl := Except.ok.inj (done.symm.trans ran)
  have absent : (index.buried id).idToIdx[id]? = none := by
    rw [getElem?_buried, if_pos rfl]
  refine ⟨inserted.wellFormed (formed.buried id) absent,
    inserted.normed (Normed.buried normed id), ?_⟩
  rw [inserted.contents sound.buried, contents_buried, Function.update_idem]

/-- What a state is after a removal that ran. -/
theorem remove_keeps (formed : index.WellFormed) (normed : index.Normed arith)
    (ran : index.remove id = .ok after) :
    after.WellFormed ∧ after.Normed arith ∧
    after.contents = Function.update index.contents id none := by
  have sound := formed.exact.sound
  obtain ⟨after', done, removed⟩ :=
    (remove_ends sound).1 ((remove_completes_iff sound).mp ⟨after, ran⟩)
  obtain rfl := Except.ok.inj (done.symm.trans ran)
  refine ⟨removed.wellFormed formed, fun i node held => ?_, removed.contents⟩
  exact Normed.buried normed id i node (removed.nodes ▸ held)

/-- A batch inserted one by one. -/
theorem inserts_keep {ties : ℕ → Ties} {items : List ((ℕ × List F32) × ℕ)}
    (formed : index.WellFormed) (normed : index.Normed arith)
    (ran : items.foldlM (fun (index : HnswIndex) item =>
      index.insert arith (ties item.2) item.1.1 item.1.2) index = .ok after) :
    after.WellFormed ∧ after.Normed arith ∧
      after.contents = contentsOf (items.map Prod.fst) index.contents := by
  induction items generalizing index with
  | nil =>
    obtain rfl := Except.ok.inj ran
    exact ⟨formed, normed, rfl⟩
  | cons item items ih =>
    rw [List.foldlM_cons] at ran
    cases first : index.insert arith (ties item.2) item.1.1 item.1.2 with
    | error panic =>
      rw [first] at ran
      cases ran
    | ok next =>
      rw [first] at ran
      obtain ⟨formed', normed', contents⟩ := insert_keeps formed normed first
      obtain ⟨last, norms, rest⟩ := ih formed' normed' ran
      refine ⟨last, norms, ?_⟩
      rw [rest, contents]
      rfl

/-- With every id once, the content is the batch. -/
theorem contentsOf_eq_some (distinct : (items.map Prod.fst).Nodup) (contents : Contents) :
    contentsOf items contents id = some vector ↔
      (id, vector) ∈ items ∨ id ∉ items.map Prod.fst ∧ contents id = some vector := by
  induction items generalizing contents with
  | nil => simp [contentsOf]
  | cons item items ih =>
    obtain ⟨other, last⟩ := item
    rw [List.map_cons, List.nodup_cons] at distinct
    refine (ih distinct.2 (Function.update contents other (some last))).trans ?_
    by_cases same : id = other
    · subst same
      have apart : (id, vector) ∉ items := fun member =>
        distinct.1 (List.mem_map.mpr ⟨(id, vector), member, rfl⟩)
      simp [apart, distinct.1, eq_comm]
    · simp [same]

variable (arith) {hits : List (Dist × ℕ)} {state : BuildState} {query : List F32} {k : ℕ} in
theorem drawMetas_eq (params : HnswParams) (rng : UInt64) (items : List (ℕ × List F32)) :
    (drawMetas arith params rng items).1.map (fun node => (node.id, node.vector, node.norm)) =
      items.map fun item => (item.1, item.2, (prepare arith item.2).norm) := by
  induction items generalizing rng with
  | nil => rfl
  | cons item items ih =>
    rw [drawMetas, List.map_cons, List.map_cons, ih]

section

variable {metas : List BuildMeta} {adj : List (List (List ℕ))} {layer c e : ℕ} {list : List ℕ}

theorem frozen_at {node : Node} :
    (List.zipWith frozen metas adj)[i]? = some node ↔
      ∃ drawn lists, metas[i]? = some drawn ∧ adj[i]? = some lists ∧ frozen drawn lists = node :=
  List.getElem?_zipWith_eq_some

theorem links_frozen (links : Links (List.zipWith frozen metas adj) layer c list) :
    Lists adj layer c list := by
  obtain ⟨node, held, listed⟩ := links
  obtain ⟨drawn, lists, -, there, rfl⟩ := frozen_at.mp held
  exact ⟨lists, there, listed⟩

theorem Stands.frozen (stands : Stands metas layer e) (shaped : Shaped metas adj) :
    ∃ node, (List.zipWith frozen metas adj)[e]? = some node ∧ layer < node.layers.length := by
  obtain ⟨list, lists, there, listed⟩ := stands.lists shaped
  obtain ⟨node, held, -⟩ := stands
  refine ⟨_, frozen_at.mpr ⟨node, lists, held, there, rfl⟩, ?_⟩
  exact (List.getElem?_eq_some_iff.mp listed).1

theorem height_frozen (shaped : Shaped metas adj) {node : Node}
    (held : (List.zipWith frozen metas adj)[i]? = some node) :
    ∃ drawn, metas[i]? = some drawn ∧ node.id = drawn.id ∧ node.vector = drawn.vector ∧
      node.norm = drawn.norm ∧ node.deleted = false ∧ node.layers.length = drawn.level + 1 := by
  obtain ⟨drawn, lists, there, listed, rfl⟩ := frozen_at.mp held
  have heights := shaped_at shaped (i := i)
  rw [there, listed] at heights
  exact ⟨drawn, there, rfl, rfl, rfl, rfl, Option.some.inj heights⟩

end

/-- Every live id is in a lookup made again. -/
theorem covers_reindex (index : HnswIndex) {node : Node} (held : index.nodes[i]? = some node)
    (living : node.deleted = false) :
    ∃ place : ℕ, index.reindex.idToIdx[node.id]? = some place := by
  suffices later : ∀ (entries : List (Node × ℕ)) (ids : ExtTreeMap ℕ ℕ compare),
      ((∃ place : ℕ, ids[node.id]? = some place) ∨ (node, i) ∈ entries) →
      ∃ place : ℕ, (entries.foldl (fun ids entry =>
        if entry.1.deleted then ids else ids.insert entry.1.id entry.2) ids)[node.id]? =
          some place from
    later index.nodes.zipIdx ∅ (.inr (List.mem_zipIdx_iff_getElem?.mpr held))
  intro entries
  induction entries with
  | nil => exact fun ids which => which.resolve_right nofun
  | cons entry entries ih =>
    intro ids which
    refine ih _ ?_
    rcases which with ⟨place, mapped⟩ | member
    · refine .inl ?_
      beta_reduce
      split_ifs
      · exact ⟨place, mapped⟩
      · rw [ExtTreeMap.getElem?_insert]
        split_ifs
        · exact ⟨entry.2, rfl⟩
        · exact ⟨place, mapped⟩
    · rcases List.mem_cons.mp member with rfl | rest
      · refine .inl ⟨i, ?_⟩
        beta_reduce
        rw [if_neg (Bool.eq_false_iff.mp living)]
        exact ExtTreeMap.getElem?_insert_self
      · exact .inr rest

/-- **What the threads leave is well formed**, once its lookup is made again. -/
theorem frozen_wellFormed {metas : List BuildMeta} (rng : UInt64)
    (built : Built metas index.params state) (distinct : (metas.map BuildMeta.id).Nodup) :
    (index.freeze metas rng state).reindex.WellFormed := by
  have nodes : (index.freeze metas rng state).reindex.nodes =
      List.zipWith frozen metas state.adj := rfl
  have sound : (index.freeze metas rng state).reindex.Sound := by
    refine ⟨fun l c list links e member => ?_, fun e started => ?_, fun _ _ => mapped_reindex⟩
    · exact (built.linked l c list (links_frozen links) e member).frozen built.shape
    · obtain ⟨node, there, level⟩ := built.entry
      obtain rfl := Option.some.inj started
      exact Stands.frozen ⟨node, there, level.ge⟩ built.shape
  refine HnswIndex.Exact.wellFormed ⟨sound, fun i node held living => ?_⟩ (fun e started => ?_) nofun
    (fun e node held _ => ?_) fun l c list links => ?_
  · obtain ⟨place, mapped⟩ := covers_reindex (index.freeze metas rng state) held living
    obtain ⟨other, there, same, -⟩ := mapped_reindex mapped
    obtain ⟨drawn, drew, named, -⟩ := height_frozen built.shape held
    obtain ⟨drawn', drew', named', -⟩ := height_frozen built.shape there
    have one : (metas.map BuildMeta.id)[i]? = (metas.map BuildMeta.id)[place]? := by
      rw [List.getElem?_map, List.getElem?_map, drew, drew', Option.map_some, Option.map_some,
        ← named, ← named', same]
    have inside : i < (metas.map BuildMeta.id).length := by
      rw [List.length_map]
      exact (List.getElem?_eq_some_iff.mp drew).1
    rw [(List.getElem?_inj inside distinct).mp one, mapped]
  · obtain ⟨node, there, level⟩ := built.entry
    obtain rfl := Option.some.inj started
    obtain ⟨frozen, held, -⟩ := Stands.frozen ⟨node, there, le_rfl⟩ built.shape
    obtain ⟨drawn, drew, -, -, -, -, height⟩ := height_frozen built.shape held
    obtain rfl := Option.some.inj (there.symm.trans drew)
    exact ⟨frozen, held, height.trans (congrArg (· + 1) level)⟩
  · obtain ⟨drawn, drew, -, -, -, -, height⟩ := height_frozen built.shape held
    have tall := built.tall e drawn drew
    rw [height]
    exact ⟨Nat.succ_pos _, Nat.succ_le_succ tall⟩
  · exact .inr (built.capped l c list (links_frozen links))

/-- The content of what the threads leave is the batch. -/
theorem frozen_contents {rng : UInt64}
    (built : Built (drawMetas arith index.params index.rng items).1 index.params state)
    (distinct : (items.map Prod.fst).Nodup)
    (formed : (index.freeze (drawMetas arith index.params index.rng items).1 rng
      state).reindex.WellFormed) :
    (index.freeze (drawMetas arith index.params index.rng items).1 rng state).reindex.Normed arith ∧
      (index.freeze (drawMetas arith index.params index.rng items).1 rng state).reindex.contents =
        contentsOf items fun _ => none := by
  have drawn := drawMetas_eq arith index.params index.rng items
  generalize (drawMetas arith index.params index.rng items).1 = metas at built formed drawn ⊢
  have member {i : ℕ} {node : Node} (held : (List.zipWith frozen metas state.adj)[i]? = some node) :
      (node.id, node.vector) ∈ items ∧ node.norm = (prepare arith node.vector).norm := by
    obtain ⟨new, drew, ids, vectors, norms, -⟩ := height_frozen built.shape held
    have among : (new.id, new.vector, new.norm) ∈ items.map fun item =>
        (item.1, item.2, (prepare arith item.2).norm) := by
      rw [← drawn]
      exact List.mem_map.mpr ⟨new, List.mem_of_getElem? drew, rfl⟩
    obtain ⟨⟨id, vector⟩, listed, same⟩ := List.mem_map.mp among
    obtain ⟨rfl, rest⟩ := Prod.mk.inj same
    obtain ⟨rfl, norm⟩ := Prod.mk.inj rest
    rw [ids, vectors, norms]
    exact ⟨listed, norm.symm⟩
  refine ⟨fun i node held => (member held).2, funext fun id => Option.ext fun vector => ?_⟩
  rw [contentsOf_eq_some distinct]
  constructor
  · intro found
    obtain ⟨i, mapped, held⟩ := Option.bind_eq_some_iff.mp found
    obtain ⟨node, there, rfl⟩ := Option.map_eq_some_iff.mp held
    obtain ⟨node', there', rfl, -⟩ := (formed.mapped id i).mp mapped
    obtain rfl := Option.some.inj (there.symm.trans there')
    exact .inl (member there).1
  · rintro (listed | ⟨-, ⟨⟩⟩)
    have among : (id, vector, (prepare arith vector).norm) ∈
        metas.map fun node => (node.id, node.vector, node.norm) := by
      rw [drawn]
      exact List.mem_map.mpr ⟨(id, vector), listed, rfl⟩
    obtain ⟨new, drew, same⟩ := List.mem_map.mp among
    obtain ⟨rfl, rest⟩ := Prod.mk.inj same
    obtain ⟨rfl, -⟩ := Prod.mk.inj rest
    obtain ⟨i, there⟩ := List.mem_iff_getElem?.mp drew
    obtain ⟨node, held, -⟩ := Stands.frozen ⟨new, there, Nat.zero_le _⟩ built.shape
    obtain ⟨new', drew', ids, vectors, -, living, -⟩ := height_frozen built.shape held
    obtain rfl := Option.some.inj (there.symm.trans drew')
    have mapped := (formed.mapped new.id i).mpr ⟨node, held, ids, living⟩
    rw [HnswIndex.contents, mapped]
    show ((List.zipWith frozen metas state.adj)[i]?).map Node.vector = _
    rw [held, ← vectors]
    rfl

/-- A build runs its threads if the batch is large and there are several cores. -/
def Parallel (cores : ℕ) (items : List (ℕ × List F32)) : Prop :=
  parallelMin ≤ items.length ∧ 1 < min cores items.length

instance (cores : ℕ) (items : List (ℕ × List F32)) : Decidable (Parallel cores items) :=
  inferInstanceAs (Decidable (_ ∧ _))

/-- **What a build leaves**, under any schedule. -/
theorem build_keeps {cores : ℕ} {ties : ℕ → Ties} {schedule : List ℕ} (formed : index.WellFormed)
    (normed : index.Normed arith) (distinct : Parallel cores items → (items.map Prod.fst).Nodup)
    (ran : index.buildParallel arith cores ties schedule items = .ok after) :
    after.WellFormed ∧ after.Normed arith ∧ (¬ Parallel cores items →
      after.contents = contentsOf items index.contents) ∧ (Parallel cores items →
      after.contents = contentsOf items fun _ => none) := by
  unfold HnswIndex.buildParallel at ran
  simp only at ran
  split_ifs at ran with small
  · have sequential : ¬ Parallel cores items := fun large => by
      obtain ⟨many, several⟩ := large
      omega
    obtain ⟨formed', normed', contents⟩ := inserts_keep formed normed ran
    rw [List.zipIdx_map_fst] at contents
    exact ⟨formed', normed', fun _ => contents, fun large => absurd large sequential⟩
  · have large : Parallel cores items := by
      unfold Parallel
      omega
    have drawn := drawMetas_eq arith index.params index.rng items
    have ids : ((drawMetas arith index.params index.rng items).1.map BuildMeta.id).Nodup := by
      have firsts := congrArg (List.map Prod.fst) drawn
      rw [List.map_map, List.map_map] at firsts
      exact firsts ▸ distinct large
    have some_ : 0 < (drawMetas arith index.params index.rng items).1.length := by
      have count := congrArg List.length drawn
      rw [List.length_map, List.length_map] at count
      have many := large.1
      unfold parallelMin at many
      omega
    obtain ⟨state, built, rfl⟩ := buildShared_ends some_ (Nat.zero_lt_of_lt large.2) ran
    have formed' := frozen_wellFormed (drawMetas arith index.params index.rng items).2 built ids
    obtain ⟨normed', contents⟩ := frozen_contents built (distinct large) formed'
    exact ⟨formed', normed', absurd large, fun _ => contents⟩

/-- **A build is never stuck.** Whatever its threads have done under a schedule, none has panicked,
and they can go on until all have ended; the graph is built then. -/
theorem buildShared_progresses {threads : ℕ} {ties : ℕ → Ties} {metas : List BuildMeta}
    {adj : List (List (List ℕ))} {rng : UInt64} (some_ : 0 < metas.length) (many : 0 < threads)
    (room : metas.mapM emptyLists = .ok adj) (schedule : List ℕ) : ∃ rest state,
    index.buildShared arith threads ties (schedule ++ rest) metas rng =
      .ok (index.freeze metas rng state).reindex ∧
      Built metas index.params state := by
  have first := List.getElem?_eq_getElem some_
  obtain ⟨shaped, bare⟩ := emptied room
  obtain ⟨inv, guards⟩ := pool_begins arith index.metric ties threads shaped bare first
  obtain ⟨reached, records, before, -, inv, guards⟩ := Discipline.run_safe inv guards schedule
  obtain ⟨rest, last, after, finished⟩ := Discipline.run_finishes inv guards
  have ran := Discipline.run_append before after
  obtain ⟨pool, pooled, complete⟩ :=
    pool_ends index.params arith index.metric ties threads shaped bare first many (schedule ++ rest)
  obtain rfl := Except.ok.inj (pooled.symm.trans ran)
  refine ⟨rest, pool.shared, ?_, complete finished⟩
  rw [HnswIndex.buildShared, room, fetch_ok first]
  show (do
    let after ← (buildPool arith metas index.params index.metric ties threads adj metas[0]).run
      (performBuild arith metas index.params index.metric) (schedule ++ rest)
    if after.finished then return (index.freeze metas rng after.shared).reindex
    else .error .unfinished) = _
  rw [ran]
  exact if_pos finished

/-- Two nodes of one layer. -/
def twoMetas : List BuildMeta := [⟨1, [0x3f800000], 0x3f800000, 0⟩, ⟨2, [0x40000000], 0x40000000, 0⟩]

theorem buildShared_progresses_twoMetas : ∃ rest state,
    (HnswIndex.withParams .l2 .default).buildShared .scalar 2 (fun _ => .steady)
      ([1, 0, 1] ++ rest) twoMetas 7 =
        .ok ((HnswIndex.withParams .l2 .default).freeze twoMetas 7 state).reindex ∧
      Built twoMetas .default state :=
  have room : twoMetas.mapM emptyLists = .ok [[[]], [[]]] := rfl
  buildShared_progresses (by decide) (by decide) room [1, 0, 1]

/-! ### Searches -/

/-- The distance of a vector from a query. -/
def queryDist (arith : Arith) (metric : Metric) (query vector : List F32) : Dist :=
  ⟨guardedDist arith metric query (prepare arith query).norm vector (prepare arith vector).norm⟩

/-- Every hit is an id of the content at the distance of its vector, and no id is hit twice. -/
def HnswIndex.Hits (arith : Arith) (index : HnswIndex) (contents : Contents) : Prop :=
  ∀ (ties : Ties) (query : List F32) (k : ℕ) (filter : Option (ℕ → Bool)) hits,
    index.search arith ties query k filter = .ok hits →
      (hits.map Prod.snd).Nodup ∧ ∀ hit ∈ hits, ∃ vector, contents hit.2 = some vector ∧
        hit.1 = queryDist arith index.metric query vector

/-- What `topK` leaves is some of its items. -/
theorem topK_subperm {items : List (Dist × ℕ)} (top : topK ties items k = .ok hits) :
    ∃ all : List (Dist × ℕ), all.Perm items ∧ hits.Sublist all := by
  obtain ⟨-, rfl⟩ := topK_eq_ok.mp top
  exact ⟨sortByDistance (ties.hits items), (List.mergeSort_perm _ _).trans (ties.permHits items),
    List.take_sublist k _⟩

/-- A live node found is the node of its id. -/
theorem hit_contents (formed : index.WellFormed) (normed : index.Normed arith) {d : Dist}
    {node : Node} (held : index.nodes[i]? = some node) (living : node.deleted = false)
    (measured : d = distQ arith index.metric (prepare arith query) node) :
    hitAt index.nodes (d, i) = (d, node.id) ∧ index.idToIdx[node.id]? = some i ∧
      index.contents node.id = some node.vector ∧
      d = queryDist arith index.metric query node.vector := by
  have mapped := (formed.mapped node.id i).mpr ⟨node, held, rfl, living⟩
  refine ⟨?_, mapped, ?_, ?_⟩
  · rw [hitAt, idAt, held]
    rfl
  · rw [HnswIndex.contents, mapped]
    show (index.nodes[i]?).map Node.vector = _
    rw [held]
    rfl
  · rw [measured, distQ, queryDist, normed i node held]
    rfl

/-- A search that has computed the width of its beam. -/
theorem search_widens {filter : Option (ℕ → Bool)}
    (found : index.search arith ties query k filter = .ok hits) :
    ∃ ef, (k ≠ 0 → 0 < ef) ∧ index.searchWithEf arith ties query k filter ef = .ok hits := by
  unfold HnswIndex.search at found
  have positive : 0 < if filter.isSome then 8 else 2 := by split_ifs <;> norm_num
  generalize (if filter.isSome then 8 else 2) = factor at positive found
  rw [usize] at found
  split_ifs at found
  · refine ⟨max index.params.efSearch (k * factor), fun asked => ?_, found⟩
    have wide := Nat.mul_pos (Nat.pos_of_ne_zero asked) positive
    omega
  · cases found

/-- **The hits of a search are distinct ids of the content, at the distance of their vectors.** -/
theorem search_hits (formed : index.WellFormed) (normed : index.Normed arith) :
    index.Hits arith index.contents := by
  intro ties query k filter hits found
  obtain ⟨ef, positive, ran⟩ := search_widens found
  have trivial_ : hits = [] → (hits.map Prod.snd).Nodup ∧ ∀ hit ∈ hits, ∃ vector,
      index.contents hit.2 = some vector ∧ hit.1 = queryDist arith index.metric query vector := by
    rintro rfl
    exact ⟨List.nodup_nil, nofun⟩
  by_cases asked : k = 0
  · rw [HnswIndex.searchWithEf, if_pos asked] at ran
    exact trivial_ (Except.ok.inj ran).symm
  · cases started : index.entry with
    | none =>
      rw [HnswIndex.searchWithEf, if_neg asked, started] at ran
      exact trivial_ (Except.ok.inj ran).symm
    | some entry =>
      obtain ⟨w, ep, -, searched, delivered, -⟩ := searchWithEf_ends arith ties query filter
        formed.exact.sound started (positive asked) asked
      rw [searched] at ran
      obtain ⟨all, perm, sublist⟩ := topK_subperm ran
      have each : ∀ x ∈ w, ∃ node, index.nodes[x.2]? = some node ∧
          hitAt index.nodes x = (x.1, node.id) ∧ index.idToIdx[node.id]? = some x.2 ∧
          index.contents node.id = some node.vector ∧
          x.1 = queryDist arith index.metric query node.vector := by
        intro x member
        obtain ⟨node, held, living⟩ := delivered.live x member
        obtain ⟨node', held', measured⟩ := delivered.measured x member
        obtain rfl := Option.some.inj (held.symm.trans held')
        exact ⟨node, held, hit_contents formed normed held living measured⟩
      -- the ids of distinct live nodes are distinct
      have once : ((w.map (hitAt index.nodes)).map Prod.snd).Nodup := by
        rw [List.map_map]
        refine List.Nodup.of_map (fun id => index.idToIdx[id]?) ?_
        rw [List.map_map]
        have same : w.map ((fun id => index.idToIdx[id]?) ∘ Prod.snd ∘ hitAt index.nodes) =
            (w.map Prod.snd).map some := by
          rw [List.map_map]
          refine List.map_congr_left fun x member => ?_
          obtain ⟨node, -, hit, mapped, -⟩ := each x member
          show index.idToIdx[(hitAt index.nodes x).2]? = some x.2
          rw [hit, mapped]
        rw [same]
        exact delivered.once.map (Option.some_injective _)
      refine ⟨?_, fun hit member => ?_⟩
      · have kept : (((w.map (hitAt index.nodes)).filter (passes filter)).map Prod.snd).Nodup :=
          once.sublist (List.filter_sublist.map _)
        exact ((perm.map Prod.snd).nodup_iff.mpr kept).sublist (sublist.map _)
      · have among := List.mem_of_mem_filter (perm.mem_iff.mp (sublist.subset member))
        obtain ⟨x, found, rfl⟩ := List.mem_map.mp among
        obtain ⟨node, -, hit, -, held, measured⟩ := each x found
        rw [hit]
        exact ⟨node.vector, held, measured⟩

/-! ### Runs -/

/-- A change of the index: with it, how its ties fall and its threads are scheduled. -/
inductive Change where
  | insert (ties : Ties) (id : ℕ) (vector : List F32)
  | remove (id : ℕ)
  | build (cores : ℕ) (ties : ℕ → Ties) (schedule : List ℕ) (items : List (ℕ × List F32))

def Change.run (arith : Arith) (index : HnswIndex) : Change → Run HnswIndex
  | .insert ties id vector => index.insert arith ties id vector
  | .remove id => index.remove id
  | .build cores ties schedule items => index.buildParallel arith cores ties schedule items

/-- What a change does to the content. The threads of a build replace what was there. -/
def Change.apply (contents : Contents) : Change → Contents
  | .insert _ id vector => Function.update contents id (some vector)
  | .remove id => Function.update contents id none
  | .build cores _ _ items =>
    if Parallel cores items then contentsOf items fun _ => none else contentsOf items contents

/-- A batch for several threads has every id once. -/
def Change.Distinct : Change → Prop
  | .build cores _ _ items => Parallel cores items → (items.map Prod.fst).Nodup
  | _ => True

def contentsAfter (changes : List Change) : Contents := changes.foldl Change.apply fun _ => none

/-- **One change** keeps an index well formed and does to it what it does to the content. -/
theorem change_keeps {change : Change} (formed : index.WellFormed) (normed : index.Normed arith)
    (distinct : change.Distinct) (ran : change.run arith index = .ok after) :
    after.WellFormed ∧ after.Normed arith ∧ after.contents = change.apply index.contents := by
  cases change with
  | insert ties id vector => exact insert_keeps formed normed ran
  | remove id => exact remove_keeps formed normed ran
  | build cores ties schedule items =>
    obtain ⟨formed', normed', sequential, parallel⟩ := build_keeps formed normed distinct ran
    refine ⟨formed', normed', ?_⟩
    show after.contents = if Parallel cores items then _ else _
    split_ifs with large
    · exact parallel large
    · exact sequential large

theorem changes_keep {changes : List Change} (formed : index.WellFormed)
    (normed : index.Normed arith) (distinct : ∀ change ∈ changes, change.Distinct)
    (ran : changes.foldlM (Change.run arith) index = .ok after) :
    after.WellFormed ∧ after.Normed arith ∧
      after.contents = changes.foldl Change.apply index.contents := by
  induction changes generalizing index with
  | nil =>
    obtain rfl := Except.ok.inj ran
    exact ⟨formed, normed, rfl⟩
  | cons change changes ih =>
    rw [List.foldlM_cons] at ran
    cases first : change.run arith index with
    | error panic =>
      rw [first] at ran
      cases ran
    | ok next =>
      rw [first] at ran
      obtain ⟨formed', normed', contents⟩ :=
        change_keeps formed normed (distinct change List.mem_cons_self) first
      obtain ⟨last, norms, rest⟩ :=
        ih formed' normed' (fun other member => distinct other (List.mem_cons_of_mem _ member)) ran
      refine ⟨last, norms, ?_⟩
      rw [rest, contents]
      rfl

/-- **After any changes of an empty index it is well formed, its lookup holds the vectors last
inserted, and its searches hit only those.** -/
theorem run_wellFormed (arith : Arith) (metric : Metric) (params : HnswParams)
    (changes : List Change) (distinct : ∀ change ∈ changes, change.Distinct) {index : HnswIndex}
    (ran : changes.foldlM (Change.run arith) (HnswIndex.withParams metric params) = .ok index) :
    index.WellFormed ∧ index.contents = contentsAfter changes ∧
      index.Hits arith (contentsAfter changes) := by
  have empty : (HnswIndex.withParams metric params).contents = fun _ => none := by
    funext id
    rw [HnswIndex.contents, HnswIndex.withParams, ExtTreeMap.getElem?_empty]
    rfl
  obtain ⟨formed, normed, contents⟩ :=
    changes_keep (wellFormed_empty metric params) (by rintro _ _ ⟨⟩) distinct ran
  rw [empty] at contents
  refine ⟨formed, contents, ?_⟩
  rw [contentsAfter, ← contents]
  exact search_hits formed normed

/-- Parameters under which the first level drawn is one and the second zero. -/
def steepParams : HnswParams := { HnswParams.default with seed := 0x81af155173f23d65 }

/-- The taller of two nodes inserted and removed. -/
def tallRemoved : List Change :=
  [.insert .steady 1 [0x3f800000], .insert .steady 2 [0x40000000], .remove 1]

theorem run_wellFormed_tallRemoved : ∃ index : HnswIndex,
    tallRemoved.foldlM (Change.run .scalar) (HnswIndex.withParams .l2 steepParams) = .ok index ∧
      index.WellFormed ∧ index.contents = contentsAfter tallRemoved ∧
      index.Hits .scalar (contentsAfter tallRemoved) := by
  have ran : ((tallRemoved.foldlM (Change.run .scalar) (HnswIndex.withParams .l2 steepParams)).map
      fun _ => ()) = .ok () := by decide +kernel
  cases made : tallRemoved.foldlM (Change.run .scalar) (HnswIndex.withParams .l2 steepParams) with
  | error panic =>
    rw [made] at ran
    cases ran
  | ok index =>
    refine ⟨index, rfl, run_wellFormed .scalar .l2 steepParams tallRemoved ?_ made⟩
    simp [tallRemoved, Change.Distinct]

/-- The entry point is handed on to a node of one layer; the tombstone keeps its two. -/
theorem tallRemoved_entry :
    ((tallRemoved.foldlM (Change.run .scalar) (HnswIndex.withParams .l2 steepParams)).map
      fun index => (index.entry, index.nodes.map fun node => (node.deleted, node.layers.length))) =
      .ok (some 1, [(true, 2), (false, 1)]) := by
  decide +kernel

end DrStrange.Hnsw
