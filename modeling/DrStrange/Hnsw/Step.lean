/-
**Insertions and removals of the vector index.**

`insert_ends` and `remove_ends` say what each operation makes of a sound index. An insertion panics
only where the level drawn does not fit memory, and a removal only where it takes the entry point and
no live node that is left has a layer.
-/

import DrStrange.Hnsw.Update

namespace DrStrange.Hnsw

open Std DrStrange.Graph Lib BestFirst

variable {arith : Arith} {ties : Ties} {index after : HnswIndex} {nodes : List Node}
  {id layer e level s : ℕ} {vector : List F32} {node : Node}

/-! ### A node added -/

theorem getElem?_push {i : ℕ} :
    (nodes ++ [node])[i]? = if i = nodes.length then some node else nodes[i]? := by
  split_ifs with here
  · rw [here, List.getElem?_concat_length]
  · rcases lt_or_gt_of_ne here with low | high
    · exact List.getElem?_append_left low
    · rw [List.getElem?_eq_none (by simp; omega), List.getElem?_eq_none high.le]

theorem links_push {c : ℕ} {list : List ℕ} :
    Links (nodes ++ [node]) layer c list ↔
      if c = nodes.length then node.layers[layer]? = some list else Links nodes layer c list := by
  unfold Links
  rw [getElem?_push]
  split_ifs
  · simp
  · rfl

theorem live_push :
    Live (nodes ++ [node]) e ↔ if e = nodes.length then node.deleted = false else Live nodes e := by
  unfold Live
  rw [getElem?_push]
  split_ifs
  · simp
  · rfl

theorem Present.push (present : Present nodes layer e) : Present (nodes ++ [node]) layer e := by
  obtain ⟨held, there, high⟩ := id present
  exact ⟨held, by rw [getElem?_push, if_neg present.lt.ne, there], high⟩

theorem Linked.push (linked : Linked nodes) (bare : ∀ list ∈ node.layers, list = []) :
    Linked (nodes ++ [node]) := by
  intro layer c list links e member
  have old := links_push.mp links
  split_ifs at old with here
  · rw [bare list (List.mem_of_getElem? old)] at member
    cases member
  · exact (linked layer c list old e member).push

theorem Reaches.lt (linked : Linked nodes) (path : Reaches nodes layer s e)
    (inside : s < nodes.length) : e < nodes.length := by
  induction path with
  | refl => exact inside
  | tail _ step _ =>
    obtain ⟨list, links, member⟩ := step
    exact (linked layer _ list links _ member).lt

/-- From the old nodes only old nodes are reached. -/
theorem reaches_push (linked : Linked nodes) (old : s < nodes.length) :
    Reaches (nodes ++ [node]) layer s e ↔ Reaches nodes layer s e := by
  constructor
  · intro path
    induction path with
    | refl => exact .refl
    | tail _ step ih =>
      obtain ⟨list, links, member⟩ := step
      rw [links_push, if_neg (ih.lt linked old).ne] at links
      exact ih.tail ⟨list, links, member⟩
  · intro path
    induction path with
    | refl => exact .refl
    | tail _ step ih =>
      obtain ⟨list, links, member⟩ := step
      refine ih.tail ⟨list, links_push.mpr ?_, member⟩
      rw [if_neg links.present.lt.ne]
      exact links

/-! ### Insertion -/

/-- The level drawn fits memory: a list of lists of 24 bytes each. -/
def Fits (level : ℕ) : Prop := 24 * (level + 1) < 2 ^ 63

instance (level : ℕ) : Decidable (Fits level) := inferInstanceAs (Decidable (_ < _))

/-- The entry point and the top layer after a node of some level is added. -/
def HnswIndex.risen (index : HnswIndex) (level : ℕ) : Option ℕ × ℕ :=
  match index.entry with
  | none => (some index.nodes.length, level)
  | some entry =>
    if index.topLayer < level then (some index.nodes.length, level) else (some entry, index.topLayer)

/-- What an insertion makes of an index whose old node of the id is buried already. -/
structure Inserted (arith : Arith) (index : HnswIndex) (id : ℕ) (vector : List F32)
    (after : HnswIndex) : Prop where
  metric : after.metric = index.metric
  params : after.params = index.params
  rng : after.rng = nextRand index.rng
  ids : after.idToIdx = index.idToIdx.insert id index.nodes.length
  top : (after.entry, after.topLayer) = index.risen (index.drawn arith)
  shape : Shape index.params (index.nodes ++ [index.fresh arith id vector]) (fun _ _ => False)
    after.nodes
  idle : index.entry ≠ none → index.drawn arith ≤ index.topLayer → ¬ index.LeadsToLive →
    after.nodes = index.nodes ++ [index.fresh arith id vector]

theorem roomFor_eq (fits : Fits level) : roomFor level = .ok () := by
  have small : level + 1 < 2 ^ 64 := by
    unfold Fits at fits
    omega
  rw [roomFor, usize, if_pos small]
  exact if_pos fits

theorem roomFor_panics (large : ¬ Fits level) : ∃ panic, roomFor level = .error panic := by
  rw [roomFor, usize]
  split_ifs
  · exact ⟨.capacity, if_neg large⟩
  · exact ⟨.overflow, rfl⟩

theorem insert_eq (sound : index.Sound) (fits : Fits ((index.buried id).drawn arith)) :
    index.insert arith ties id vector =
      ((index.buried id).push arith id vector).linkIn arith ties (index.buried id).nodes.length
        ((index.buried id).drawn arith) (prepare arith vector) := by
  rw [HnswIndex.insert, bury_eq sound]
  show (do
    roomFor ((index.buried id).drawn arith)
    ((index.buried id).push arith id vector).linkIn arith ties (index.buried id).nodes.length
      ((index.buried id).drawn arith) (prepare arith vector)) = _
  rw [roomFor_eq fits]
  rfl

variable (ties vector) in
/-- What does not fit is a panic. -/
theorem insert_panics (sound : index.Sound) (large : ¬ Fits ((index.buried id).drawn arith)) :
    ∃ panic, index.insert arith ties id vector = .error panic := by
  obtain ⟨panic, full⟩ := roomFor_panics large
  refine ⟨panic, ?_⟩
  rw [HnswIndex.insert, bury_eq sound]
  show (do
    roomFor ((index.buried id).drawn arith)
    ((index.buried id).push arith id vector).linkIn arith ties (index.buried id).nodes.length
      ((index.buried id).drawn arith) (prepare arith vector)) = _
  rw [full]
  rfl

theorem fresh_bare (index : HnswIndex) :
    ∀ list ∈ (index.fresh arith id vector).layers, list = [] := fun _ member =>
  List.eq_of_mem_replicate member

theorem present_fresh (low : layer ≤ index.drawn arith) :
    Present (index.push arith id vector).nodes layer index.nodes.length := by
  refine ⟨index.fresh arith id vector, List.getElem?_concat_length, ?_⟩
  rw [HnswIndex.fresh, List.length_replicate]
  omega

theorem links_fresh (low : layer ≤ index.drawn arith) :
    Links (index.push arith id vector).nodes layer index.nodes.length [] := by
  refine ⟨index.fresh arith id vector, List.getElem?_concat_length, ?_⟩
  exact List.getElem?_replicate_of_lt (by omega)

variable (arith id vector) in
theorem live_fresh : Live (index.push arith id vector).nodes index.nodes.length :=
  ⟨index.fresh arith id vector, List.getElem?_concat_length, rfl⟩

/-- **A new node is linked in.** -/
theorem linkIn_ends (sound : index.Sound) :
    ∃ after, (index.push arith id vector).linkIn arith ties index.nodes.length (index.drawn arith)
        (prepare arith vector) = .ok after ∧ Inserted arith index id vector after := by
  have linked : Linked (index.push arith id vector).nodes := sound.linked.push (fresh_bare index)
  cases started : index.entry with
  | none =>
    refine ⟨{ index.push arith id vector with
      entry := some index.nodes.length, topLayer := index.drawn arith }, ?_,
      rfl, rfl, rfl, rfl, ?_, Shape.refl linked, fun none => absurd started none⟩
    · rw [HnswIndex.linkIn]
      show (match index.entry with | none => _ | some _ => _) = _
      rw [started]
    · rw [HnswIndex.risen, started]
  | some entry =>
    have present : Present (index.push arith id vector).nodes index.topLayer entry :=
      (sound.entry entry started).push
    obtain ⟨ep, descended, stands, which⟩ := descend_ends arith ties index.metric
      (prepare arith vector) (index.drawn arith) linked present
    have loop : ∃ nodes, connect arith ties index.params index.metric (prepare arith vector)
        index.nodes.length ep (min (index.drawn arith) index.topLayer + 1) [ep]
        (index.push arith id vector).nodes = .ok nodes ∧
        Shape index.params (index.push arith id vector).nodes (fun _ _ => False) nodes :=
      connect_ends arith ties index.metric (prepare arith vector) (Shape.refl linked)
        (live_fresh arith id vector)
        (fun l below => present_fresh (by omega)) (fun l below => stands.lower (by omega))
        fun l below s member => List.mem_singleton.mp member ▸ stands.lower (by omega)
    obtain ⟨nodes, connected, shape⟩ := loop
    have done : (index.push arith id vector).linkIn arith ties index.nodes.length
        (index.drawn arith) (prepare arith vector) =
        .ok (if index.topLayer < index.drawn arith then
          { index.push arith id vector with
            nodes, topLayer := index.drawn arith, entry := some index.nodes.length }
          else { index.push arith id vector with nodes }) := by
      rw [HnswIndex.linkIn]
      show (match index.entry with | none => _ | some _ => _) = _
      rw [started]
      show (do
        let ep ← descend arith ties (index.push arith id vector).nodes index.metric
          (prepare arith vector) (index.drawn arith) index.topLayer entry
        _) = _
      rw [descended]
      show (do
        let nodes ← connect arith ties index.params index.metric (prepare arith vector)
          index.nodes.length ep (min (index.drawn arith) index.topLayer + 1) [ep]
          (index.push arith id vector).nodes
        _) = _
      rw [connected]
      show (if index.topLayer < index.drawn arith then _ else _) = _
      split_ifs <;> rfl
    have idle : index.drawn arith ≤ index.topLayer → ¬ index.LeadsToLive →
        nodes = (index.push arith id vector).nodes := by
      intro low nowhere
      have dead : ∀ l ≤ index.topLayer, ∀ e,
          Reaches (index.push arith id vector).nodes l entry e →
          ¬ Live (index.push arith id vector).nodes e := by
        intro l below e path live
        have inside := (sound.entry entry started).lt
        have old := (reaches_push sound.linked inside).mp path
        have alive := live_push.mp live
        rw [if_neg (old.lt sound.linked inside).ne] at alive
        exact nowhere ⟨entry, started, l, below, e, old, alive⟩
      rcases which with ⟨rfl, -⟩ | ⟨-, l, e, -, below, path, live⟩
      · have still : connect arith ties index.params index.metric (prepare arith vector)
            index.nodes.length ep (min (index.drawn arith) index.topLayer + 1) [ep]
            (index.push arith id vector).nodes = .ok (index.push arith id vector).nodes :=
          connect_idle linked (fun l below => present.lower (by omega))
            (fun l below => dead l (by omega)) fun l below => links_fresh (by omega)
        exact Except.ok.inj (connected.symm.trans still)
      · exact absurd live (dead l below e path)
    rw [done]
    refine ⟨_, rfl, ?_⟩
    split_ifs with tall
    · refine ⟨rfl, rfl, rfl, rfl, ?_, shape, fun _ low => absurd tall (Nat.not_lt.mpr low)⟩
      rw [HnswIndex.risen, started]
      exact (if_pos tall).symm
    · refine ⟨rfl, rfl, rfl, rfl, ?_, shape, fun _ => idle⟩
      rw [HnswIndex.risen, started]
      exact (congrArg (·, index.topLayer) started).trans (if_neg tall).symm

variable (ties vector) in
/-- **An insertion that fits links the new node in.** -/
theorem insert_ends (sound : index.Sound) (fits : Fits ((index.buried id).drawn arith)) :
    ∃ after, index.insert arith ties id vector = .ok after ∧
      Inserted arith (index.buried id) id vector after := by
  rw [insert_eq sound fits]
  exact linkIn_ends sound.buried

/-- The new node stands on the top layer if it is the entry point. -/
theorem Inserted.sound (inserted : Inserted arith index id vector after) (sound : index.Sound) :
    after.Sound := by
  have there {layer e : ℕ} (present : Present (index.push arith id vector).nodes layer e) :
      Present after.nodes layer e := present.of_body inserted.shape.body.symm
  have top := inserted.top
  refine ⟨inserted.shape.linked, fun e started => ?_, fun other place held => ?_⟩
  · rw [started] at top
    unfold HnswIndex.risen at top
    split at top
    · obtain ⟨⟨⟩, high⟩ := Prod.mk.inj top
      rw [high]
      exact there (present_fresh le_rfl)
    · rename_i entry first
      split_ifs at top
      · obtain ⟨⟨⟩, high⟩ := Prod.mk.inj top
        rw [high]
        exact there (present_fresh le_rfl)
      · obtain ⟨⟨⟩, high⟩ := Prod.mk.inj top
        rw [high]
        exact there (sound.entry _ first).push
  · rw [inserted.ids, ExtTreeMap.getElem?_insert] at held
    have kept : ∃ node, (index.push arith id vector).nodes[place]? = some node ∧ node.id = other ∧
        node.deleted = false := by
      split_ifs at held with same
      · obtain rfl := Option.some.inj held
        refine ⟨index.fresh arith id vector, List.getElem?_concat_length, ?_, rfl⟩
        exact LawfulEqCmp.compare_eq_iff_eq.mp same
      · obtain ⟨node, old, named, living⟩ := sound.mapped other place held
        refine ⟨node, ?_, named, living⟩
        exact (List.getElem?_append_left (List.getElem?_eq_some_iff.mp old).1).trans old
    obtain ⟨node, old, named, living⟩ := kept
    obtain ⟨new, now, bodies⟩ := body_at inserted.shape.body.symm old
    have names : new.body.id = node.body.id := congrArg Node.id bodies
    have flags : new.body.deleted = node.body.deleted := congrArg Node.deleted bodies
    exact ⟨new, now, names.trans named, flags.trans living⟩

/-! ### Removal -/

/-- A candidate for the tallest is a mapped node with its height. -/
def Names (nodes : List Node) (ids : ExtTreeMap ℕ ℕ compare) (best : Option (ℕ × ℕ)) : Prop :=
  ∀ i height, best = some (i, height) → (∃ id : ℕ, ids[id]? = some i) ∧
    ∃ node, nodes[i]? = some node ∧ node.layers.length = height

/-- A candidate for the tallest is at least as tall as a node. -/
def Covers (nodes : List Node) (best : Option (ℕ × ℕ)) (i : ℕ) : Prop :=
  ∃ tallest height, best = some (tallest, height) ∧
    ∀ node, nodes[i]? = some node → node.layers.length ≤ height

theorem tallest_ends {ids : ExtTreeMap ℕ ℕ compare}
    (mapped : ∀ id i : ℕ, ids[id]? = some i → ∃ node, nodes[i]? = some node) :
    ∃ best, tallest nodes ids = .ok best ∧ Names nodes ids best ∧
      ∀ id i : ℕ, ids[id]? = some i → Covers nodes best i := by
  have loop : (Outcome.except Panic).ends (tallest nodes ids) fun best =>
      Names nodes ids best ∧ ∀ entry ∈ ids.toList, Covers nodes best entry.2 := by
    refine Outcome.foldlM_each (Names nodes ids)
      (fun (entry : ℕ × ℕ) best => Covers nodes best entry.2) (by rintro _ _ ⟨⟩) ?_
    rintro best held ⟨id, i⟩ member
    have here := ExtTreeMap.mem_toList_iff_getElem?_eq_some.mp member
    obtain ⟨node, there⟩ := mapped id i here
    have self : ∀ other, nodes[i]? = some other → other.layers.length ≤ node.layers.length :=
      fun other again => (Option.some.inj (again.symm.trans there)) ▸ le_rfl
    have mine : Names nodes ids (some (i, node.layers.length)) := by
      rintro _ _ ⟨⟩
      exact ⟨⟨id, here⟩, node, there, rfl⟩
    simp only
    rw [fetch_ok there]
    cases best with
    | none =>
      refine ⟨some (i, node.layers.length), rfl, ⟨mine, i, _, rfl, self⟩, ?_⟩
      rintro other - ⟨_, _, ⟨⟩, -⟩
    | some top =>
      obtain ⟨j, most⟩ := top
      by_cases taller : most < node.layers.length ∨ most = node.layers.length ∧ i ≤ j
      · refine ⟨some (i, node.layers.length), if_pos taller, ⟨mine, i, _, rfl, self⟩, ?_⟩
        rintro other - ⟨_, _, ⟨⟩, bounded⟩
        refine ⟨i, _, rfl, fun node' again => (bounded node' again).trans ?_⟩
        omega
      · refine ⟨some (j, most), if_neg taller, ⟨held, j, most, rfl, fun other again => ?_⟩,
          fun _ _ covered => covered⟩
        have bounded := self other again
        omega
  obtain ⟨best, made, held, most⟩ := loop
  refine ⟨best, made, held, fun id i there => ?_⟩
  exact most (id, i) (ExtTreeMap.mem_toList_iff_getElem?_eq_some.mpr there)

/-- The entry point is the node of the id that is removed. -/
def HnswIndex.Enters (index : HnswIndex) (id : ℕ) : Prop :=
  ∃ idx : ℕ, index.idToIdx[id]? = some idx ∧ index.entry = some idx

/-- The entry point stays, or there is no other id, or that of another id has a layer. -/
def HnswIndex.Removable (index : HnswIndex) (id : ℕ) : Prop :=
  index.Enters id → (∀ other, other ≠ id → index.idToIdx[other]? = none) ∨
    ∃ other place : ℕ, other ≠ id ∧ index.idToIdx[other]? = some place ∧ Present index.nodes 0 place

theorem buried_of_none (absent : index.idToIdx[id]? = none) : index.buried id = index := by
  rw [HnswIndex.buried, absent]

theorem getElem?_buried (other : ℕ) :
    (index.buried id).idToIdx[other]? = if other = id then none else index.idToIdx[other]? := by
  unfold HnswIndex.buried
  cases found : index.idToIdx[id]? with
  | none =>
    split_ifs with same
    · exact same ▸ found
    · rfl
  | some idx =>
    show (index.idToIdx.erase id)[other]? = _
    rw [ExtTreeMap.getElem?_erase]
    simp only [LawfulEqCmp.compare_eq_iff_eq]
    exact if_congr eq_comm rfl rfl

theorem present_buried : Present (index.buried id).nodes layer e ↔ Present index.nodes layer e := by
  unfold HnswIndex.buried
  split
  · rfl
  · exact present_entomb

theorem remove_other (sound : index.Sound) (other : ¬ index.Enters id) :
    index.remove id = .ok (index.buried id) := by
  unfold HnswIndex.remove
  cases found : index.idToIdx[id]? with
  | none => rw [buried_of_none found]
  | some idx =>
    simp only
    rw [bury_eq sound]
    show (if (index.buried id).entry = some idx then _ else pure (index.buried id)) = _
    rw [if_neg]
    · rfl
    · intro entered
      refine other ⟨idx, found, ?_⟩
      rw [← entered, HnswIndex.buried, found]

/-- The entry point handed to the tallest live node. -/
theorem remove_entry (sound : index.Sound) (entered : index.Enters id) :
    ∃ best, Names (index.buried id).nodes (index.buried id).idToIdx best ∧
      (∀ other i : ℕ, (index.buried id).idToIdx[other]? = some i →
        Covers (index.buried id).nodes best i) ∧
      index.remove id = match best with
        | none => .ok { index.buried id with entry := none, topLayer := 0 }
        | some (_, 0) => .error .overflow
        | some (i, height + 1) =>
          .ok { index.buried id with entry := some i, topLayer := height } := by
  obtain ⟨idx, found, started⟩ := entered
  have inside : ∀ other i : ℕ, (index.buried id).idToIdx[other]? = some i →
      ∃ node, (index.buried id).nodes[i]? = some node := fun other i held =>
    (sound.buried.mapped other i held).imp fun _ both => both.1
  obtain ⟨best, made, names, covers⟩ := tallest_ends inside
  refine ⟨best, names, covers, ?_⟩
  have entry : (index.buried id).entry = some idx := by
    rw [← started, HnswIndex.buried, found]
  unfold HnswIndex.remove
  rw [found]
  simp only
  rw [bury_eq sound]
  show (if (index.buried id).entry = some idx then _ else _) = _
  rw [if_pos entry, made]
  rcases best with _ | ⟨i, _ | height⟩ <;> rfl

/-- What a removal makes of an index. -/
structure Removed (index : HnswIndex) (id : ℕ) (after : HnswIndex) : Prop where
  metric : after.metric = index.metric
  params : after.params = index.params
  rng : after.rng = index.rng
  nodes : after.nodes = (index.buried id).nodes
  ids : after.idToIdx = (index.buried id).idToIdx
  kept : ¬ index.Enters id → after.entry = index.entry ∧ after.topLayer = index.topLayer
  handed : index.Enters id →
    (after.entry = none ∧ ∀ other : ℕ, after.idToIdx[other]? = none) ∨
      ∃ (other i : ℕ) (node : Node), after.entry = some i ∧ after.idToIdx[other]? = some i ∧
        after.nodes[i]? = some node ∧ node.layers.length = after.topLayer + 1 ∧
        ∀ id' i : ℕ, after.idToIdx[id']? = some i → ∀ node, after.nodes[i]? = some node →
          node.layers.length ≤ after.topLayer + 1

theorem buried_kept (index : HnswIndex) (id : ℕ) :
    (index.buried id).metric = index.metric ∧ (index.buried id).params = index.params ∧
      (index.buried id).rng = index.rng ∧ (index.buried id).entry = index.entry ∧
      (index.buried id).topLayer = index.topLayer := by
  unfold HnswIndex.buried
  split <;> exact ⟨rfl, rfl, rfl, rfl, rfl⟩

/-- **A removal ends if the entry point can be handed on, and panics if not.** -/
theorem remove_ends (sound : index.Sound) :
    (index.Removable id → ∃ after, index.remove id = .ok after ∧ Removed index id after) ∧
      (¬ index.Removable id → index.remove id = .error .overflow) := by
  obtain ⟨metric, params, rng, entry, topLayer⟩ := buried_kept index id
  by_cases entered : index.Enters id
  · have others {other i : ℕ} (held : (index.buried id).idToIdx[other]? = some i) :
        other ≠ id ∧ index.idToIdx[other]? = some i := by
      rw [getElem?_buried] at held
      split_ifs at held with same
      exact ⟨same, held⟩
    obtain ⟨best, names, covers, removed⟩ := remove_entry sound entered
    rw [removed]
    rcases best with _ | ⟨i, _ | height⟩
    · have nobody : ∀ other : ℕ, (index.buried id).idToIdx[other]? = none := by
        refine fun other => Option.eq_none_iff_forall_ne_some.mpr fun i held => ?_
        obtain ⟨_, _, ⟨⟩, -⟩ := covers other i held
      refine ⟨fun _ => ⟨_, rfl, metric, params, rng, rfl, rfl, (absurd entered ·),
        fun _ => .inl ⟨rfl, nobody⟩⟩, fun stuck => absurd (fun _ => .inl fun other apart => ?_) stuck⟩
      have none := nobody other
      rwa [getElem?_buried, if_neg apart] at none
    · refine ⟨fun free => ?_, fun _ => rfl⟩
      obtain ⟨⟨other, held⟩, -⟩ := names i 0 rfl
      rcases free entered with alone | ⟨other, place, apart, held, present⟩
      · exact absurd ((others held).2.symm.trans (alone other (others held).1)) nofun
      · have mapped : (index.buried id).idToIdx[other]? = some place := by
          rw [getElem?_buried, if_neg apart, held]
        obtain ⟨node, there, high⟩ := present_buried.mpr present
        obtain ⟨_, _, ⟨⟩, bounded⟩ := covers other place mapped
        exact absurd (bounded node there) (Nat.not_le.mpr high)
    · obtain ⟨⟨other, held⟩, node, there, tall⟩ := names i (height + 1) rfl
      refine ⟨fun _ => ⟨_, rfl, metric, params, rng, rfl, rfl, (absurd entered ·), fun _ => ?_⟩,
        fun stuck => absurd (fun _ => .inr ?_) stuck⟩
      · refine .inr ⟨other, i, node, rfl, held, there, tall, fun id' j mapped node again => ?_⟩
        obtain ⟨_, _, ⟨⟩, bounded⟩ := covers id' j mapped
        exact bounded node again
      · refine ⟨other, i, (others held).1, (others held).2, present_buried.mp ⟨node, there, ?_⟩⟩
        omega
  · refine ⟨fun _ => ⟨_, remove_other sound entered, metric, params, rng, rfl, rfl,
      fun _ => ⟨entry, topLayer⟩, (absurd · entered)⟩, fun stuck => absurd ?_ stuck⟩
    exact fun entering => absurd entering entered

theorem Removed.sound (removed : Removed index id after) (sound : index.Sound) : after.Sound := by
  have nodes := removed.nodes
  refine ⟨nodes ▸ sound.buried.linked, fun e started => ?_, fun other i held => ?_⟩
  · by_cases entered : index.Enters id
    · rcases removed.handed entered with ⟨none, -⟩ | ⟨_, i, node, now, -, there, tall, -⟩
      · rw [none] at started
        cases started
      · obtain rfl := Option.some.inj (started.symm.trans now)
        exact ⟨node, there, by omega⟩
    · obtain ⟨same, top⟩ := removed.kept entered
      rw [nodes, top]
      exact present_buried.mpr (sound.entry e (same ▸ started))
  · rw [removed.ids] at held
    rw [nodes]
    exact sound.buried.mapped other i held

end DrStrange.Hnsw
