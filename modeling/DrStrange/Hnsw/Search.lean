/-
**What a search of the vector index delivers.**

If every neighbour stands on the layer it is listed on, a search reads nothing out of bounds and ends.
On one layer it delivers live nodes that can be reached there, and some if there are any
(`searchLayer_ends`); the hits of a whole search are live nodes of the index, and there are hits
exactly when some layer leads from the entry point to a live node (`searchWithEf_ends`).
-/

import DrStrange.Hnsw.Index

namespace DrStrange.Hnsw

open Std DrStrange.Graph Lib BestFirst

/-! ### The graph of a layer -/

/-- A node stands on a layer. -/
def Present (nodes : List Node) (layer e : ℕ) : Prop :=
  ∃ node, nodes[e]? = some node ∧ layer < node.layers.length

def Live (nodes : List Node) (e : ℕ) : Prop := ∃ node, nodes[e]? = some node ∧ node.deleted = false

/-- The list of a node on a layer. -/
def Links (nodes : List Node) (layer c : ℕ) (list : List ℕ) : Prop :=
  ∃ node, nodes[c]? = some node ∧ node.layers[layer]? = some list

/-- Every neighbour stands on the layer it is listed on. -/
def Linked (nodes : List Node) : Prop :=
  ∀ layer c list, Links nodes layer c list → ∀ e ∈ list, Present nodes layer e

/-- One node can be reached from another on a layer. -/
def Reaches (nodes : List Node) (layer : ℕ) : ℕ → ℕ → Prop :=
  Relation.ReflTransGen fun c e => ∃ list, Links nodes layer c list ∧ e ∈ list

variable {nodes : List Node} {layer e i : ℕ} {list : List ℕ}

theorem Present.lower {lower : ℕ} (present : Present nodes layer e) (below : lower ≤ layer) :
    Present nodes lower e := by
  obtain ⟨node, held, high⟩ := present
  exact ⟨node, held, below.trans_lt high⟩

theorem Present.lt (present : Present nodes layer e) : e < nodes.length := by
  obtain ⟨node, held, -⟩ := present
  exact (List.getElem?_eq_some_iff.mp held).1

theorem Present.links (present : Present nodes layer e) : ∃ list, Links nodes layer e list := by
  obtain ⟨node, held, high⟩ := present
  exact ⟨_, node, held, List.getElem?_eq_getElem high⟩

theorem Links.present (links : Links nodes layer e list) : Present nodes layer e := by
  obtain ⟨node, held, listed⟩ := links
  exact ⟨node, held, (List.getElem?_eq_some_iff.mp listed).1⟩

theorem Links.unique {other : List ℕ} (links : Links nodes layer e list)
    (again : Links nodes layer e other) : list = other := by
  obtain ⟨node, held, listed⟩ := links
  obtain ⟨node', held', listed'⟩ := again
  obtain rfl := Option.some.inj (held.symm.trans held')
  exact Option.some.inj (listed.symm.trans listed')

/-! ### Accesses in bounds -/

theorem fetch_ok {α : Type} {xs : List α} {x : α} (held : xs[i]? = some x) :
    fetch xs i = .ok x := by
  rw [fetch, held]

theorem alter_ok {α : Type} {xs : List α} {x y : α} {f : α → Run α} (held : xs[i]? = some x)
    (made : f x = .ok y) : alter xs i f = .ok (xs.set i y) := by
  rw [alter, fetch_ok held]
  show (do return xs.set i (← f x)) = _
  rw [made]
  rfl

/-! ### One layer -/

section

variable {arith : Arith} {ties : Ties} {nodes : List Node} {metric : Metric} {q : Query}
  {starts : List ℕ} {ef layer : ℕ}

/-- The terms of a search on one layer. -/
def layerFacts (arith : Arith) (nodes : List Node) (metric : Metric) (q : Query) (layer : ℕ) :
    Facts Dist where
  inRange := Present nodes layer
  alive := Live nodes
  measured e d := ∃ node, nodes[e]? = some node ∧ d = distQ arith metric q node
  neighbours := Links nodes layer

theorem answers_layer (linked : Linked nodes) :
    Answers (Outcome.except Panic) (layerReads arith nodes metric q layer)
      (layerFacts arith nodes metric q layer) nodes.length where
  dist := by
    rintro e ⟨node, held, -⟩
    refine ⟨distQ arith metric q node, ?_, node, held, rfl⟩
    show (do return distQ arith metric q (← fetch nodes e)) = _
    rw [fetch_ok held]
    rfl
  live := by
    rintro e ⟨node, held, -⟩
    refine ⟨!node.deleted, ?_, fun living => ⟨node, held, ?_⟩, ?_⟩
    · show (do return !(← fetch nodes e).deleted) = _
      rw [fetch_ok held]
      rfl
    · exact Bool.not_eq_true' _ ▸ living
    · rintro ⟨other, held', living⟩
      rw [Option.some.inj (held.symm.trans held'), living]
      rfl
  links := by
    intro c present
    obtain ⟨list, links⟩ := present.links
    refine ⟨list, ?_, linked layer c list links, links⟩
    obtain ⟨node, held, listed⟩ := links
    show (do fetch (← fetch nodes c).layers layer) = _
    rw [fetch_ok held]
    exact fetch_ok listed
  bound := fun _ present => present.lt

/-- A node that a search can reach is reached from one of the nodes it starts from. -/
theorem reaches_of_reach (reach : (layerFacts arith nodes metric q layer).Reach starts e) :
    ∃ s ∈ starts, Reaches nodes layer s e := by
  induction reach with
  | start member => exact ⟨_, member, .refl⟩
  | link _ links member ih =>
    obtain ⟨s, first, path⟩ := ih
    exact ⟨s, first, path.tail ⟨_, links, member⟩⟩

/-- From nodes that no link leaves, no other is reached. -/
theorem visited_of_exhausted {kept : List (Dist × ℕ)} {visited : List ℕ} {s : ℕ}
    (exhausted : Exhausted (layerFacts arith nodes metric q layer) kept visited)
    (member : s ∈ visited) (path : Reaches nodes layer s e) : e ∈ visited := by
  induction path with
  | refl => exact member
  | tail _ step ih =>
    obtain ⟨list, links, among⟩ := step
    obtain ⟨-, neighbours, links', seen⟩ := exhausted _ ih
    exact seen _ (links.unique links' ▸ among)

/-- What a search on one layer delivers. -/
structure Delivered (arith : Arith) (nodes : List Node) (metric : Metric) (q : Query)
    (starts : List ℕ) (ef layer : ℕ) (w : List (Dist × ℕ)) : Prop where
  present : ∀ x ∈ w, Present nodes layer x.2
  live : ∀ x ∈ w, Live nodes x.2
  reached : ∀ x ∈ w, ∃ s ∈ starts, Reaches nodes layer s x.2
  measured : ∀ x ∈ w, ∃ node, nodes[x.2]? = some node ∧ x.1 = distQ arith metric q node
  once : (w.map Prod.snd).Nodup
  width : w.length ≤ ef
  all : w.length < ef → ∀ s ∈ starts, ∀ e, Reaches nodes layer s e → Live nodes e → ∃ x ∈ w, x.2 = e

theorem Delivered.nonempty {w : List (Dist × ℕ)}
    (delivered : Delivered arith nodes metric q starts ef layer w) (positive : 0 < ef) (s : ℕ)
    (member : s ∈ starts) (e : ℕ) (path : Reaches nodes layer s e) (live : Live nodes e) :
      w ≠ [] := by
  rintro rfl
  obtain ⟨x, kept, -⟩ := delivered.all positive s member e path live
  cases kept

theorem perm_sorted (ties : Ties) (layer : ℕ) (w : List (Dist × ℕ)) :
    (sortByDistance (ties.order layer w)).Perm w :=
  (List.mergeSort_perm _ _).trans (ties.perm layer w)

variable (arith ties metric q ef) in
/-- **A search on one layer ends with live nodes**, and with all that can be reached unless its beam
is full. -/
theorem searchLayer_ends (linked : Linked nodes) (range : ∀ s ∈ starts, Present nodes layer s) :
    ∃ w, searchLayer arith ties nodes metric q starts ef layer = .ok w ∧
      Delivered arith nodes metric q starts ef layer w := by
  have answers : Answers (Outcome.except Panic) (layerReads arith nodes metric q layer)
      (layerFacts arith nodes metric q layer) nodes.length := answers_layer linked
  obtain ⟨kept, searched, sound, once, width, drained⟩ := ends_search ef answers range
  have perm := perm_sorted ties layer kept
  refine ⟨sortByDistance (ties.order layer kept), ?_, ?_⟩
  · rw [searchLayer, searched]
    rfl
  · refine ⟨fun x member => (sound x (perm.mem_iff.mp member)).1,
      fun x member => (sound x (perm.mem_iff.mp member)).2.2.1,
      fun x member => reaches_of_reach (sound x (perm.mem_iff.mp member)).2.1,
      fun x member => (sound x (perm.mem_iff.mp member)).2.2.2, ?_, ?_, ?_⟩
    · exact (perm.map Prod.snd).nodup_iff.mpr once
    · exact perm.length_eq.trans_le width
    · intro short s member e path live
      obtain ⟨visited, begun, exhausted⟩ := drained (perm.length_eq ▸ short)
      obtain ⟨x, found, same⟩ :=
        (exhausted e (visited_of_exhausted exhausted (begun s member) path)).1 live
      exact ⟨x, perm.mem_iff.mpr found, same⟩

/-! ### The descent -/

variable (arith ties metric q) in
/-- **The descent ends** on a live node if one of its layers leads to one, and where it began if
not. -/
theorem descend_ends (floor : ℕ) (linked : Linked nodes) {ep : ℕ} (present : Present nodes layer ep) :
    ∃ last, descend arith ties nodes metric q floor layer ep = .ok last ∧
      Present nodes (min layer floor) last ∧
      ((last = ep ∧ ∀ l, floor < l → l ≤ layer → ∀ e, Reaches nodes l ep e → ¬ Live nodes e) ∨
        (Live nodes last ∧ ∃ l e, floor < l ∧ l ≤ layer ∧ Reaches nodes l ep e ∧ Live nodes e)) := by
  induction layer generalizing ep with
  | zero =>
    refine ⟨ep, rfl, by rwa [Nat.zero_min], .inl ⟨rfl, fun l above below => ?_⟩⟩
    omega
  | succ layer ih =>
    rw [descend]
    split_ifs with above
    · obtain ⟨w, searched, delivered⟩ := searchLayer_ends arith ties metric q 1 linked
        (List.forall_mem_singleton.mpr present)
      have lower : min (layer + 1) floor = min layer floor := by omega
      rw [searched, lower]
      cases w with
      | nil =>
        obtain ⟨last, descended, stands, which⟩ := ih (present.lower (Nat.le_succ layer))
        refine ⟨last, descended, stands, ?_⟩
        rcases which with ⟨same, nothing⟩ | ⟨live, l, e, up, down, path, alive⟩
        · refine .inl ⟨same, fun l up down e path alive => ?_⟩
          rcases Nat.le_succ_iff.mp down with low | rfl
          · exact nothing l up low e path alive
          · exact delivered.nonempty Nat.one_pos ep List.mem_cons_self e path alive rfl
        · exact .inr ⟨live, l, e, up, Nat.le_succ_of_le down, path, alive⟩
      | cons x w =>
        have met : x ∈ x :: w := List.mem_cons_self
        obtain ⟨last, descended, stands, which⟩ :=
          ih ((delivered.present x met).lower (Nat.le_succ layer))
        refine ⟨last, descended, stands, .inr ⟨?_, layer + 1, x.2, above, le_rfl, ?_, ?_⟩⟩
        · rcases which with ⟨rfl, -⟩ | ⟨live, -⟩
          · exact delivered.live x met
          · exact live
        · obtain ⟨s, first, path⟩ := delivered.reached x met
          exact List.mem_singleton.mp first ▸ path
        · exact delivered.live x met
    · refine ⟨ep, rfl, present.lower (Nat.min_le_left _ _), .inl ⟨rfl, fun l up down => ?_⟩⟩
      omega

end

/-! ### A whole search -/

/-- What all the code's accesses rely on. -/
structure HnswIndex.Sound (index : HnswIndex) : Prop where
  linked : Linked index.nodes
  entry : ∀ e, index.entry = some e → Present index.nodes index.topLayer e
  mapped : ∀ (id idx : ℕ), index.idToIdx[id]? = some idx →
    ∃ node, index.nodes[idx]? = some node ∧ node.id = id ∧ node.deleted = false

/-- Some layer leads from the entry point to a live node. -/
def HnswIndex.LeadsToLive (index : HnswIndex) : Prop :=
  ∃ entry, index.entry = some entry ∧ ∃ layer ≤ index.topLayer, ∃ e,
    Reaches index.nodes layer entry e ∧ Live index.nodes e

/-- There is room for the heap of `k + 1` hits, if one is needed. -/
def Room (k : ℕ) : Prop := k = 0 ∨ 16 * (k + 1) < 2 ^ 63

instance : DecidablePred Room := fun _ => inferInstanceAs (Decidable (_ ∨ _))

/-- Where there is room, the hits are the first `k` of the items sorted. -/
theorem topK_eq_ok {ties : Ties} {items hits : List (Dist × ℕ)} {k : ℕ} :
    topK ties items k = .ok hits ↔ Room k ∧ hits = (sortByDistance (ties.hits items)).take k := by
  unfold topK Room
  split_ifs with none
  · subst none
    rw [List.take_zero, Except.ok.injEq, eq_comm, and_iff_right (.inl rfl)]
  · rw [or_iff_right none, usize]
    split_ifs with small
    · show (do
        reserve 16 (k + 1)
        return (sortByDistance (ties.hits items)).take k) = Except.ok hits ↔ _
      rw [reserve]
      split_ifs with room
      · rw [and_iff_right room]
        exact ⟨fun done => (Except.ok.inj done).symm, fun same => same ▸ rfl⟩
      · exact ⟨fun done => (nomatch done), fun fits => absurd fits.1 room⟩
    · refine ⟨fun done => (nomatch done), fun fits => absurd ?_ small⟩
      have := fits.1
      omega

def idAt (nodes : List Node) (i : ℕ) : ℕ := (nodes[i]?.map Node.id).getD 0

def hitAt (nodes : List Node) (x : Dist × ℕ) : Dist × ℕ := (x.1, idAt nodes x.2)

theorem mapM_ok {α β : Type} {f : α → Run β} (g : α → β) {xs : List α}
    (each : ∀ x ∈ xs, f x = .ok (g x)) : xs.mapM f = .ok (xs.map g) := by
  induction xs with
  | nil => rfl
  | cons x xs ih =>
    rw [List.mapM_cons, each x List.mem_cons_self, ih fun y member =>
      each y (List.mem_cons_of_mem _ member)]
    rfl

section

variable {arith : Arith} {ties : Ties} {index : HnswIndex} {query : List F32} {k ef : ℕ}
  {filter : Option (ℕ → Bool)}

variable (arith ties query filter) in
/-- **A search ends with the `k` nearest of some live nodes**, and there are some exactly when a layer
leads from the entry point to one. -/
theorem searchWithEf_ends (sound : index.Sound) {entry : ℕ} (started : index.entry = some entry)
    (positive : 0 < ef) (asked : k ≠ 0) :
    ∃ w ep, descend arith ties index.nodes index.metric (prepare arith query) 0 index.topLayer entry =
        .ok ep ∧
      index.searchWithEf arith ties query k filter ef =
        topK ties ((w.map (hitAt index.nodes)).filter (passes filter)) k ∧
      Delivered arith index.nodes index.metric (prepare arith query) [ep] ef 0 w ∧
      (w ≠ [] ↔ index.LeadsToLive) := by
  obtain ⟨ep, descended, stands, which⟩ := descend_ends arith ties index.metric (prepare arith query)
    0 sound.linked (sound.entry entry started)
  have ground : Present index.nodes 0 ep := stands.lower (Nat.zero_le _)
  obtain ⟨w, searched, delivered⟩ := searchLayer_ends arith ties index.metric
    (prepare arith query) ef sound.linked (List.forall_mem_singleton.mpr ground)
  refine ⟨w, ep, descended, ?_, delivered, ?_⟩
  · rw [HnswIndex.searchWithEf, if_neg asked, started]
    simp only
    rw [descended]
    show (do
      let w ← searchLayer arith ties index.nodes index.metric (prepare arith query) [ep] ef 0
      let items ← w.mapM (hitOf index.nodes)
      topK ties (items.filter (passes filter)) k) = _
    rw [searched]
    show (do
      let items ← w.mapM (hitOf index.nodes)
      topK ties (items.filter (passes filter)) k) = _
    rw [mapM_ok (hitAt index.nodes) fun x member => ?_]
    · rfl
    · obtain ⟨node, held, -⟩ := delivered.present x member
      rw [hitOf, fetch_ok held, hitAt, idAt, held]
      rfl
  · constructor
    · intro found
      obtain ⟨x, met⟩ := List.exists_mem_of_ne_nil w found
      rcases which with ⟨rfl, -⟩ | ⟨-, l, e, -, low, path, live⟩
      · obtain ⟨s, first, path⟩ := delivered.reached x met
        exact ⟨ep, started, 0, Nat.zero_le _, x.2, List.mem_singleton.mp first ▸ path,
          delivered.live x met⟩
      · exact ⟨entry, started, l, low, e, path, live⟩
    · rintro ⟨entry', started', layer, low, e, path, live⟩
      obtain rfl := Option.some.inj (started.symm.trans started')
      have here := delivered.nonempty positive ep List.mem_cons_self
      rcases which with ⟨rfl, nothing⟩ | ⟨alive, -⟩
      · rcases Nat.eq_zero_or_pos layer with rfl | above
        · exact here e path live
        · exact absurd live (nothing layer above low e path)
      · exact here ep .refl alive

end

end DrStrange.Hnsw
