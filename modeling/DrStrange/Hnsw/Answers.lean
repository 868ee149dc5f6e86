/-
**When a live index answers.**

A search finds something exactly when some layer leads from the entry point to a live node. A removal
hands the entry point on, but an insertion that replaces the entry point's own id leaves it a
tombstone, and links the new node only to what can be reached from there. `Update.Keeps` is what a
step must find for the index to answer after it: a run of updates answers in all its states exactly
when all its steps find that (`always_answers_iff`).
-/

import DrStrange.Hnsw.Step

namespace DrStrange.Hnsw

open Std DrStrange.Graph Lib BestFirst

variable {arith : Arith} {ties : Ties} {index after : HnswIndex} {id : ℕ} {vector : List F32}

/-! ### The live nodes and their ids -/

/-- A sound index whose lookup has every live node. -/
structure HnswIndex.Exact (index : HnswIndex) : Prop where
  sound : index.Sound
  complete : ∀ (i : ℕ) (node : Node), index.nodes[i]? = some node → node.deleted = false →
    index.idToIdx[node.id]? = some i

theorem HnswIndex.Exact.empty (metric : Metric) (params : HnswParams) :
    (HnswIndex.withParams metric params).Exact := by
  refine ⟨⟨?_, nofun, fun id idx held => ?_⟩, nofun⟩
  · rintro layer c list ⟨node, held, -⟩
    cases held
  · rw [HnswIndex.withParams, ExtTreeMap.getElem?_empty] at held
    cases held

/-- What is live after the burial was live before, and is not what was buried. -/
theorem node_buried {i : ℕ} {node : Node} (held : (index.buried id).nodes[i]? = some node)
    (living : node.deleted = false) : index.nodes[i]? = some node ∧ index.idToIdx[id]? ≠ some i := by
  unfold HnswIndex.buried at held
  cases found : index.idToIdx[id]? with
  | none =>
    rw [found] at held
    exact ⟨held, nofun⟩
  | some idx =>
    rw [found] at held
    have entombed : (entomb index.nodes idx)[i]? = some node := held
    rw [getElem?_entomb] at entombed
    split_ifs at entombed with here
    · obtain ⟨old, -, rfl⟩ := Option.map_eq_some_iff.mp entombed
      cases living
    · exact ⟨entombed, fun same => here (Option.some.inj same)⟩

theorem HnswIndex.Exact.buried (exact_ : index.Exact) : (index.buried id).Exact := by
  refine ⟨exact_.sound.buried, fun i node held living => ?_⟩
  obtain ⟨before, other⟩ := node_buried held living
  have mapped := exact_.complete i node before living
  rw [getElem?_buried, if_neg, mapped]
  rintro rfl
  exact other mapped

theorem Inserted.exact (inserted : Inserted arith index id vector after) (exact_ : index.Exact)
    (absent : index.idToIdx[id]? = none) : after.Exact := by
  refine ⟨inserted.sound exact_.sound, fun i node held living => ?_⟩
  obtain ⟨old, before, bodies⟩ := body_at inserted.shape.body held
  have names : old.body.id = node.body.id := congrArg Node.id bodies
  have flags : old.body.deleted = node.body.deleted := congrArg Node.deleted bodies
  have named : node.id = old.id := names.symm
  rw [inserted.ids, ExtTreeMap.getElem?_insert, named]
  rw [getElem?_push] at before
  split_ifs at before with last
  · obtain rfl := Option.some.inj before
    exact (if_pos ReflCmp.compare_self).trans (congrArg some last.symm)
  · have mapped := exact_.complete i old before (flags.trans living)
    rw [if_neg, mapped]
    intro same
    rw [← LawfulEqCmp.compare_eq_iff_eq.mp same, absent] at mapped
    cases mapped

theorem Removed.exact (removed : Removed index id after) (exact_ : index.Exact) : after.Exact := by
  refine ⟨removed.sound exact_.sound, fun i node held living => ?_⟩
  rw [removed.nodes] at held
  rw [removed.ids]
  exact exact_.buried.complete i node held living

/-! ### Where the entry point leads -/

def HnswIndex.HasLive (index : HnswIndex) : Prop := ∃ e, Live index.nodes e

theorem leadsToLive_of_entry {entry : ℕ} (started : index.entry = some entry)
    (live : Live index.nodes entry) : index.LeadsToLive :=
  ⟨entry, started, 0, Nat.zero_le _, entry, .refl, live⟩

/-- A dead node keeps its lists when a node is linked in, so a way through dead nodes stays. -/
theorem Inserted.leads (inserted : Inserted arith index id vector after) (sound : index.Sound)
    {layer s e : ℕ} (inside : s < index.nodes.length) (path : Reaches index.nodes layer s e)
    (live : Live index.nodes e) : ∃ met, Reaches after.nodes layer s met ∧ Live after.nodes met := by
  have kept {i : ℕ} (old : Live index.nodes i) : Live after.nodes i := by
    obtain ⟨node, held, living⟩ := old
    have pushed : Live (index.nodes ++ [index.fresh arith id vector]) i :=
      ⟨node, (List.getElem?_append_left (List.getElem?_eq_some_iff.mp held).1).trans held, living⟩
    exact pushed.of_body inserted.shape.body.symm
  induction path using Relation.ReflTransGen.head_induction_on with
  | refl => exact ⟨e, .refl, kept live⟩
  | @head c next step _ ih =>
    by_cases alive : Live index.nodes c
    · exact ⟨c, .refl, kept alive⟩
    · obtain ⟨list, links, member⟩ := step
      obtain ⟨met, path, there⟩ := ih (sound.linked layer c list links next member).lt
      refine ⟨met, .head ⟨list, ?_, member⟩ path, there⟩
      have same : after.nodes[c]? = index.nodes[c]? := by
        have dead : ¬ Live (index.nodes ++ [index.fresh arith id vector]) c := by
          rw [live_push, if_neg inside.ne]
          exact alive
        rw [inserted.shape.dead c dead, getElem?_push, if_neg inside.ne]
      obtain ⟨node, held, listed⟩ := links
      exact ⟨node, same.trans held, listed⟩

/-- **After an insertion** the entry point leads to a live node if it is the new node, or if it led to
one when the old node of the id was buried. -/
theorem Inserted.leadsToLive_iff (inserted : Inserted arith index id vector after)
    (sound : index.Sound) :
    after.LeadsToLive ↔
      index.entry = none ∨ index.topLayer < index.drawn arith ∨ index.LeadsToLive := by
  have top := inserted.top
  have fresh : Live after.nodes index.nodes.length :=
    (live_fresh arith id vector).of_body inserted.shape.body.symm
  unfold HnswIndex.risen at top
  cases started : index.entry with
  | none =>
    rw [started] at top
    exact ⟨fun _ => .inl rfl, fun _ => leadsToLive_of_entry (Prod.mk.inj top).1 fresh⟩
  | some entry =>
    rw [started] at top
    simp only at top
    split_ifs at top with tall
    · exact ⟨fun _ => .inr (.inl tall), fun _ => leadsToLive_of_entry (Prod.mk.inj top).1 fresh⟩
    · obtain ⟨same, high⟩ := Prod.mk.inj top
      have inside := (sound.entry entry started).lt
      constructor
      · intro leads
        refine .inr (.inr (by_contra fun nowhere => nowhere ?_))
        have idle := inserted.idle (started ▸ nofun) (Nat.not_lt.mp tall) nowhere
        obtain ⟨e, started', l, below, x, path, live⟩ := leads
        obtain rfl := Option.some.inj (same.symm.trans started')
        rw [idle] at path live
        have old := (reaches_push sound.linked inside).mp path
        rw [live_push, if_neg (old.lt sound.linked inside).ne] at live
        exact ⟨entry, started, l, high ▸ below, x, old, live⟩
      · rintro (⟨⟨⟩⟩ | low | ⟨e, started', l, below, x, path, live⟩)
        · exact absurd low tall
        · obtain rfl := Option.some.inj (started.symm.trans started')
          obtain ⟨met, way, there⟩ := inserted.leads sound inside path live
          exact ⟨entry, same, l, high ▸ below, met, way, there⟩

/-- **After a removal** it leads to a live node, or there is none, if it was handed on, or if it led
to one when the node was buried. -/
theorem Removed.answers_iff (removed : Removed index id after) (exact_ : index.Exact) :
    (after.HasLive → after.LeadsToLive) ↔
      index.Enters id ∨ ((index.buried id).HasLive → (index.buried id).LeadsToLive) := by
  have nodes := removed.nodes
  by_cases entered : index.Enters id
  · refine ⟨fun _ => .inl entered, fun _ live => ?_⟩
    rcases removed.handed entered with ⟨-, nobody⟩ | ⟨other, i, node, started, mapped, -⟩
    · obtain ⟨e, node, held, living⟩ := live
      have mapped := (removed.exact exact_).complete e node held living
      rw [nobody] at mapped
      cases mapped
    · obtain ⟨node, held, -, living⟩ := (removed.sound exact_.sound).mapped other i mapped
      exact leadsToLive_of_entry started ⟨node, held, living⟩
  · obtain ⟨entry, topLayer⟩ := removed.kept entered
    obtain ⟨-, -, -, entry', topLayer'⟩ := buried_kept index id
    have leads : after.LeadsToLive ↔ (index.buried id).LeadsToLive := by
      unfold HnswIndex.LeadsToLive
      rw [nodes, entry, topLayer, entry', topLayer']
    have has : after.HasLive ↔ (index.buried id).HasLive := by
      unfold HnswIndex.HasLive
      rw [nodes]
    rw [leads, has]
    exact ⟨.inr, fun either => either.resolve_left entered⟩

/-! ### Runs -/

/-- An update of the index. -/
inductive Update where
  | insert (id : ℕ) (vector : List F32)
  | remove (id : ℕ)

def Update.run (arith : Arith) (ties : Ties) (index : HnswIndex) : Update → Run HnswIndex
  | .insert id vector => index.insert arith ties id vector
  | .remove id => index.remove id

/-- What an update must find for the index to answer after it. An insertion: when the old node of its
id is buried, there is no entry point, or the level drawn is above the top, or the entry point still
leads to a live node. A removal: it is the entry point that goes, or what is left still leads from it
to a live node if there is one. -/
def Update.Keeps (arith : Arith) (index : HnswIndex) : Update → Prop
  | .insert id _ => index.entry = none ∨ index.topLayer < index.drawn arith ∨
      (index.buried id).LeadsToLive
  | .remove id => index.Enters id ∨ ((index.buried id).HasLive → (index.buried id).LeadsToLive)

/-- Every update of a run, as far as it comes, finds what `holds` says of it. -/
def Along (arith : Arith) (holds : HnswIndex → Update → Prop) :
    HnswIndex → List (Ties × Update) → Prop
  | _, [] => True
  | index, (ties, update) :: updates => ∀ after, update.run arith ties index = .ok after →
      holds index update ∧ Along arith holds after updates

/-- Every state of a run is as `holds` says. -/
def Always (arith : Arith) (holds : HnswIndex → Prop) : HnswIndex → List (Ties × Update) → Prop
  | index, [] => holds index
  | index, (ties, update) :: updates => holds index ∧
      ∀ after, update.run arith ties index = .ok after → Always arith holds after updates

theorem Always.head {holds : HnswIndex → Prop} {updates : List (Ties × Update)}
    (always : Always arith holds index updates) : holds index := by
  cases updates with
  | nil => exact always
  | cons step updates => exact always.1

/-- With a live node, a search for some hits delivers some, whatever the vector of this dimension. The
heap of a search has room for one item more than is asked for. -/
def HnswIndex.Answers (arith : Arith) (dim : ℕ) (index : HnswIndex) : Prop :=
  index.HasLive → ∀ (ties : Ties) (query : List F32) (k : ℕ), query.length = dim → 0 < k →
    16 * (k + 1) < 2 ^ 63 → ∃ hits, index.search arith ties query k none = .ok hits ∧ hits ≠ []

theorem drawn_buried (index : HnswIndex) (id : ℕ) :
    (index.buried id).drawn arith = index.drawn arith := by
  obtain ⟨-, params, rng, -⟩ := buried_kept index id
  rw [HnswIndex.drawn, HnswIndex.drawn, params, rng]

/-! ### What a search answers -/

variable (arith ties) in
/-- A search that has room for its hits delivers the `k` nearest of what it found. -/
theorem search_ends (query : List F32) (sound : index.Sound) {k : ℕ} (asked : 0 < k)
    (room : 16 * (k + 1) < 2 ^ 63) :
    ∃ items, index.search arith ties query k none =
        .ok ((sortByDistance (ties.hits items)).take k) ∧ (items ≠ [] ↔ index.LeadsToLive) := by
  have small : k * 2 < 2 ^ 64 := by omega
  have wide : 0 < max index.params.efSearch (k * 2) := by omega
  have narrowed : index.search arith ties query k none =
      index.searchWithEf arith ties query k none (max index.params.efSearch (k * 2)) := by
    rw [HnswIndex.search]
    show (do
      let wide ← usize (k * 2)
      index.searchWithEf arith ties query k none (max index.params.efSearch wide)) = _
    rw [usize, if_pos small]
    rfl
  rw [narrowed]
  cases started : index.entry with
  | none =>
    refine ⟨[], ?_, (absurd rfl ·), fun leads => ?_⟩
    · rw [HnswIndex.searchWithEf, if_neg asked.ne', started]
      have nothing := (ties.permHits []).eq_nil
      rw [nothing, sortByDistance, List.mergeSort_nil, List.take_nil]
    · obtain ⟨entry, held, -⟩ := leads
      rw [started] at held
      cases held
  | some entry =>
    obtain ⟨w, ep, -, searched, -, leads⟩ :=
      searchWithEf_ends arith ties query none sound started wide asked.ne'
    refine ⟨w.map (hitAt index.nodes), ?_, by rwa [ne_eq, List.map_eq_nil_iff]⟩
    have all : (w.map (hitAt index.nodes)).filter (passes none) = w.map (hitAt index.nodes) :=
      List.filter_eq_self.mpr fun _ _ => rfl
    rw [searched, all]
    exact topK_eq_ok.mpr ⟨.inr room, rfl⟩

theorem answers_iff (sound : index.Sound) (arith : Arith) (dim : ℕ) :
    index.Answers arith dim ↔ (index.HasLive → index.LeadsToLive) := by
  constructor
  · intro answers live
    obtain ⟨items, searched, leads⟩ := search_ends arith Ties.steady (List.replicate dim 0) sound
      Nat.one_pos (by norm_num)
    obtain ⟨hits, delivered, some_⟩ := answers live Ties.steady (List.replicate dim 0) 1
      List.length_replicate Nat.one_pos (by norm_num)
    refine leads.mp fun nothing => some_ ?_
    rw [searched, nothing] at delivered
    obtain rfl := Except.ok.inj delivered
    rw [sortByDistance]
    show ([].mergeSort _).take 1 = _
    rw [List.mergeSort_nil, List.take_nil]
  · intro leads live ties query k _ asked room
    obtain ⟨items, searched, found⟩ := search_ends arith ties query sound asked room
    refine ⟨_, searched, fun nothing => ?_⟩
    have many := found.mpr (leads live)
    rcases List.take_eq_nil_iff.mp nothing with zero | empty
    · omega
    · have perm : (sortByDistance (ties.hits items)).Perm items :=
        (List.mergeSort_perm _ _).trans (ties.permHits items)
      rw [empty] at perm
      exact many perm.nil_eq.symm

/-- **One update**: the index answers after it exactly if the update found what it must. -/
theorem update_answers (exact_ : index.Exact) {update : Update}
    (ran : update.run arith ties index = .ok after) :
    after.Exact ∧ ((after.HasLive → after.LeadsToLive) ↔ update.Keeps arith index) := by
  cases update with
  | insert id vector =>
    have fits : Fits ((index.buried id).drawn arith) := by
      by_contra large
      obtain ⟨panic, full⟩ := insert_panics ties vector exact_.sound large
      exact nomatch full.symm.trans ran
    obtain ⟨after', inserts, inserted⟩ := insert_ends ties vector exact_.sound fits
    obtain rfl := Except.ok.inj (inserts.symm.trans ran)
    have absent : (index.buried id).idToIdx[id]? = none := by
      rw [getElem?_buried, if_pos rfl]
    have fresh : after'.HasLive :=
      ⟨_, (live_fresh arith id vector).of_body inserted.shape.body.symm⟩
    obtain ⟨-, -, -, entry, topLayer⟩ := buried_kept index id
    refine ⟨inserted.exact exact_.buried absent, ?_⟩
    rw [Update.Keeps, ← entry, ← topLayer, ← drawn_buried index id,
      ← inserted.leadsToLive_iff exact_.sound.buried]
    exact ⟨fun leads => leads fresh, fun leads _ => leads⟩
  | remove id =>
    have free : index.Removable id := by
      by_contra stuck
      exact nomatch ((remove_ends exact_.sound).2 stuck).symm.trans ran
    obtain ⟨after', removes, removed⟩ := (remove_ends exact_.sound).1 free
    obtain rfl := Except.ok.inj (removes.symm.trans ran)
    exact ⟨removed.exact exact_, removed.answers_iff exact_⟩

/-- **A run of updates leaves an index that answers, in all its states, exactly when every update
finds what it must.** -/
theorem run_answers {updates : List (Ties × Update)} (exact_ : index.Exact) {dim : ℕ}
    (first : index.HasLive → index.LeadsToLive) :
    Always arith (HnswIndex.Answers arith dim) index updates ↔
      Along arith (fun index update => update.Keeps arith index) index updates := by
  induction updates generalizing index with
  | nil => exact ⟨fun _ => trivial, fun _ => (answers_iff exact_.sound arith dim).mpr first⟩
  | cons step updates ih =>
    obtain ⟨ties, update⟩ := step
    constructor
    · intro always after ran
      obtain ⟨exactAfter, keeps⟩ := update_answers exact_ ran
      have rest := always.2 after ran
      have leads := (answers_iff exactAfter.sound arith dim).mp rest.head
      exact ⟨keeps.mp leads, (ih exactAfter leads).mp rest⟩
    · intro along
      refine ⟨(answers_iff exact_.sound arith dim).mpr first, fun after ran => ?_⟩
      obtain ⟨exactAfter, keeps⟩ := update_answers exact_ ran
      obtain ⟨found, rest⟩ := along after ran
      exact (ih exactAfter (keeps.mpr found)).mpr rest

/-- **From an empty index, a run of updates leaves an index that answers in all its states exactly
when every update finds what it must.** -/
theorem always_answers_iff (arith : Arith) (metric : Metric) (params : HnswParams) (dim : ℕ)
    (updates : List (Ties × Update)) :
    Always arith (HnswIndex.Answers arith dim) (HnswIndex.withParams metric params) updates ↔
      Along arith (fun index update => update.Keeps arith index)
        (HnswIndex.withParams metric params) updates :=
  run_answers (HnswIndex.Exact.empty metric params) fun ⟨_, _, held, _⟩ => nomatch held

/-! ### The entry point replaced -/

/-- Singles computed with the model of IEEE arithmetic, a scalar dot product, and the levels of
`m = 16`: the largest `l` for which `16 ^ l` times the drawn bits is within `2 ^ 53`. -/
def Arith.scalar : Arith where
  add a b := (Float32.ofBits a + Float32.ofBits b).toBits
  sub a b := (Float32.ofBits a - Float32.ofBits b).toBits
  mul a b := (Float32.ofBits a * Float32.ofBits b).toBits
  div a b := (Float32.ofBits a / Float32.ofBits b).toBits
  max a b := if lt a b then b else a
  neg a := (-Float32.ofBits a).toBits
  sqrt a := (Float32.ofBits a).sqrt.toBits
  dot a b := ((a.zip b).foldl (fun sum pair =>
    sum + Float32.ofBits pair.1 * Float32.ofBits pair.2) (Float32.ofBits 0)).toBits
  level bits _ := Nat.log 16 (2 ^ 53 / bits)

/-- `HnswParams::default`. -/
def HnswParams.default : HnswParams where
  m := 16
  m0 := 32
  efConstruction := 200
  efSearch := 64
  ml := 0x3fd71547652b82fe
  seed := 0x9e3779b97f4a7c15

/-- The first node inserted twice. -/
def insertedTwice : Run HnswIndex := do
  let first ← (HnswIndex.withParams .l2 .default).insert .scalar .steady 1 [0x3f800000]
  first.insert .scalar .steady 1 [0x3f800000]

/-- One live node, and no hits. -/
theorem replaced_entry_unanswered : ∃ index, insertedTwice = .ok index ∧ index.HasLive ∧
    index.search .scalar .steady [0x3f800000] 1 none = .ok [] := by
  have ran : (insertedTwice.bind fun index => index.search .scalar .steady [0x3f800000] 1 none) =
      .ok [] := by with_unfolding_all decide
  have live : (insertedTwice.bind fun index => .ok (index.nodes.map Node.deleted)) =
      .ok [true, false] := by with_unfolding_all decide
  cases made : insertedTwice with
  | error panic =>
    rw [made] at ran
    cases ran
  | ok index =>
    rw [made] at ran live
    refine ⟨index, rfl, ⟨1, ?_⟩, ran⟩
    have flag : (index.nodes.map Node.deleted)[1]? = some false := by
      rw [Except.ok.inj live]
      rfl
    rw [List.getElem?_map] at flag
    exact Option.map_eq_some_iff.mp flag

end DrStrange.Hnsw
