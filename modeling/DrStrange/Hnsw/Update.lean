/-
**What an insertion and a removal do to the vector index.**

Every change of the graph replaces one list of one node (`Replaced`). Linking the new node touches its
own lists and those of live nodes, lists only nodes of the layer, and leaves no list longer than the
degree cap (`Shape`, `connect_ends`); where no live node can be reached it changes nothing
(`connect_idle`). A tombstone keeps its lists and stays in the way of every search.
-/

import DrStrange.Hnsw.Search

namespace DrStrange.Hnsw

open Std DrStrange.Graph Lib BestFirst

variable {nodes after before : List Node} {layer c e idx i : ℕ} {list : List ℕ} {node : Node}

/-! ### The lasting part of a node -/

/-- A node with its lists emptied: what linking leaves alone. -/
def Node.body (node : Node) : Node := { node with layers := node.layers.map fun _ => [] }

theorem body_at (same : after.map Node.body = nodes.map Node.body) (held : after[i]? = some node) :
    ∃ old, nodes[i]? = some old ∧ old.body = node.body := by
  have there : (nodes.map Node.body)[i]? = some node.body := by
    rw [← same, List.getElem?_map, held]
    rfl
  rw [List.getElem?_map] at there
  exact Option.map_eq_some_iff.mp there

theorem Present.of_body (same : after.map Node.body = nodes.map Node.body)
    (present : Present after layer e) : Present nodes layer e := by
  obtain ⟨node, held, high⟩ := present
  obtain ⟨old, there, bodies⟩ := body_at same held
  have heights := congrArg (fun node => node.layers.length) bodies
  simp only [Node.body, List.length_map] at heights
  exact ⟨old, there, heights ▸ high⟩

theorem Live.of_body (same : after.map Node.body = nodes.map Node.body) (live : Live after e) :
    Live nodes e := by
  obtain ⟨node, held, living⟩ := live
  obtain ⟨old, there, bodies⟩ := body_at same held
  have flags : old.body.deleted = node.body.deleted := congrArg Node.deleted bodies
  exact ⟨old, there, flags.trans living⟩

theorem body_set {new : Node} (held : nodes[c]? = some node) (same : new.body = node.body) :
    (nodes.set c new).map Node.body = nodes.map Node.body := by
  refine List.ext_getElem? fun i => ?_
  rw [List.map_set, List.getElem?_set, List.getElem?_map, List.length_map]
  split_ifs with here inside
  · rw [← here, held, same]
    rfl
  · rw [List.getElem?_eq_none (here ▸ Nat.not_lt.mp inside)]
    rfl
  · rfl

/-! ### One list replaced -/

/-- The list of a node on a layer is now another, and nothing else has changed. -/
structure Replaced (nodes after : List Node) (layer c : ℕ) (new : List ℕ) : Prop where
  body : after.map Node.body = nodes.map Node.body
  others : ∀ i, i ≠ c → after[i]? = nodes[i]?
  links : ∀ l i list, Links after l i list ↔
    if i = c ∧ l = layer then list = new else Links nodes l i list

theorem setLinks_ends (links : Links nodes layer c list) (f : List ℕ → List ℕ) :
    ∃ after, setLinks nodes c layer f = .ok after ∧ Replaced nodes after layer c (f list) := by
  obtain ⟨node, held, listed⟩ := links
  have inside : c < nodes.length := (List.getElem?_eq_some_iff.mp held).1
  have deep : layer < node.layers.length := (List.getElem?_eq_some_iff.mp listed).1
  have made : alter node.layers layer (fun list => .ok (f list)) =
      .ok (node.layers.set layer (f list)) := alter_ok listed rfl
  refine ⟨nodes.set c { node with layers := node.layers.set layer (f list) }, ?_, ?_, ?_, ?_⟩
  · refine alter_ok held ?_
    rw [made]
    rfl
  · refine body_set held ?_
    have lists : (node.layers.set layer (f list)).map (fun _ => ([] : List ℕ)) =
        node.layers.map fun _ => [] := by
      refine List.ext_getElem (by simp) fun i _ _ => ?_
      simp
    show ({ node with layers := _ } : Node) = _
    rw [lists]
    rfl
  · exact fun i other => List.getElem?_set_ne (Ne.symm other)
  · intro l i new
    unfold Links
    by_cases here : i = c
    · subst here
      rw [List.getElem?_set_self inside]
      by_cases level : l = layer
      · subst level
        rw [if_pos ⟨rfl, rfl⟩]
        constructor
        · rintro ⟨_, ⟨⟩, there⟩
          rw [List.getElem?_set_self deep] at there
          exact (Option.some.inj there).symm
        · rintro rfl
          exact ⟨_, rfl, List.getElem?_set_self deep⟩
      · rw [if_neg fun both => level both.2]
        constructor
        · rintro ⟨_, ⟨⟩, there⟩
          rw [List.getElem?_set_ne (Ne.symm level)] at there
          exact ⟨node, held, there⟩
        · rintro ⟨other, held', there⟩
          obtain rfl := Option.some.inj (held.symm.trans held')
          exact ⟨_, rfl, (List.getElem?_set_ne (Ne.symm level)).trans there⟩
    · rw [List.getElem?_set_ne (Ne.symm here), if_neg fun both => here both.1]

variable {arith : Arith} {ties : Ties} {params : HnswParams} {metric : Metric} {q : Query}
  {new : List ℕ}

theorem Replaced.present (replaced : Replaced nodes after layer c new) {l : ℕ}
    (present : Present nodes l i) : Present after l i := present.of_body replaced.body.symm

theorem mapM_snd {α β : Type} {f : β → Run (α × β)} {xs : List β}
    (each : ∀ x ∈ xs, ∃ a, f x = .ok (a, x)) : ∃ ys, xs.mapM f = .ok ys ∧ ys.map Prod.snd = xs := by
  induction xs with
  | nil => exact ⟨[], rfl, rfl⟩
  | cons x xs ih =>
    obtain ⟨a, made⟩ := each x List.mem_cons_self
    obtain ⟨ys, rest, same⟩ := ih fun y member => each y (List.mem_cons_of_mem _ member)
    refine ⟨(a, x) :: ys, ?_, by rw [List.map_cons, same]⟩
    rw [List.mapM_cons, made, rest]
    rfl

variable (arith params metric) {owed : ℕ → ℕ → Prop} in
/-- A list that is within the degree cap or made so. -/
theorem prune_ends (linked : Linked nodes) (links : Links nodes layer c list) :
    ∃ after new, prune arith params metric c layer nodes = .ok after ∧
      Replaced nodes after layer c new ∧ new ⊆ list ∧ new.length ≤ params.maxConn layer := by
  obtain ⟨node, held, listed⟩ := id links
  rw [prune, fetch_ok held]
  show ∃ after new, (do
    let list ← fetch node.layers layer
    if list.length ≤ params.maxConn layer then return nodes
    else do
      let scored ← list.mapM (scoreOf arith metric nodes node)
      let kept := (sortByDistance scored).take (params.maxConn layer)
      setLinks nodes c layer fun _ => kept.map Prod.snd) = .ok after ∧ _
  rw [fetch_ok listed]
  show ∃ after new, (if list.length ≤ params.maxConn layer then pure nodes
    else do
      let scored ← list.mapM (scoreOf arith metric nodes node)
      let kept := (sortByDistance scored).take (params.maxConn layer)
      setLinks nodes c layer fun _ => kept.map Prod.snd) = Except.ok after ∧ _
  split_ifs with short
  · refine ⟨nodes, list, rfl, ⟨rfl, fun _ _ => rfl, fun l i new => ?_⟩, List.Subset.refl _, short⟩
    split_ifs with here
    · obtain ⟨rfl, rfl⟩ := here
      exact ⟨fun again => again.unique links, fun same => same ▸ links⟩
    · rfl
  · have scores : ∀ x ∈ list, ∃ d, scoreOf arith metric nodes node x = .ok (d, x) := by
      intro x member
      obtain ⟨other, there, -⟩ := linked layer c list links x member
      refine ⟨distNN arith metric node other, ?_⟩
      rw [scoreOf, fetch_ok there]
      rfl
    obtain ⟨scored, made, same⟩ := mapM_snd scores
    rw [made]
    obtain ⟨after, set, replaced⟩ := setLinks_ends links
      fun _ => ((sortByDistance scored).take (params.maxConn layer)).map Prod.snd
    refine ⟨after, _, set, replaced, fun x member => ?_, ?_⟩
    · obtain ⟨item, kept, rfl⟩ := List.mem_map.mp member
      have among := (List.mergeSort_perm _ _).mem_iff.mp (List.mem_of_mem_take kept)
      exact same ▸ List.mem_map_of_mem among
    · rw [List.length_map]
      exact List.length_take_le _ _

/-! ### Linking -/

/-- No list is longer than the degree cap of its layer, but those that `owed` names. -/
def Capped (params : HnswParams) (owed : ℕ → ℕ → Prop) (nodes : List Node) : Prop :=
  ∀ layer c list, Links nodes layer c list → owed layer c ∨ list.length ≤ params.maxConn layer

/-- What linking a new node leaves: only lists have changed, and none of a dead node; the graph is
linked, and capped if it was but for what is owed. -/
structure Shape (params : HnswParams) (before : List Node) (owed : ℕ → ℕ → Prop)
    (after : List Node) : Prop where
  body : after.map Node.body = before.map Node.body
  dead : ∀ i, ¬ Live before i → after[i]? = before[i]?
  linked : Linked after
  capped : Capped params (fun _ _ => False) before → Capped params owed after

theorem Shape.refl (linked : Linked before) : Shape params before (fun _ _ => False) before :=
  ⟨rfl, fun _ _ => rfl, linked, id⟩

theorem Shape.owing (shape : Shape params before (fun _ _ => False) nodes) :
    Shape params before owed nodes :=
  ⟨shape.body, shape.dead, shape.linked, fun capped layer c list links =>
    .inr ((shape.capped capped layer c list links).resolve_left id)⟩

/-- One list of a live node replaced by one of nodes on the layer; what is owed may be paid by it. -/
theorem Shape.replace {owes : ℕ → ℕ → Prop} (shape : Shape params before owed nodes)
    (replaced : Replaced nodes after layer c new) (live : Live before c)
    (present : ∀ e ∈ new, Present before layer e)
    (kept : ∀ l i, owed l i → ¬ (i = c ∧ l = layer) → owes l i)
    (paid : owes layer c ∨ new.length ≤ params.maxConn layer) : Shape params before owes after := by
  have body := replaced.body.trans shape.body
  refine ⟨body, fun i dead => ?_, fun l i list links e member => ?_, fun capped l i list links => ?_⟩
  · have other : i ≠ c := fun same => dead (same ▸ live)
    rw [replaced.others i other, shape.dead i dead]
  · have old := (replaced.links l i list).mp links
    split_ifs at old with here
    · subst old
      rw [here.2]
      exact (present e member).of_body body.symm
    · exact replaced.present (shape.linked l i list old e member)
  · have old := (replaced.links l i list).mp links
    split_ifs at old with here
    · subst old
      rw [here.1, here.2]
      exact paid
    · exact (shape.capped capped l i list old).imp_left fun debt => kept l i debt here

/-- The list of one node on one layer. -/
def Owes (layer c : ℕ) : ℕ → ℕ → Prop := fun l i => l = layer ∧ i = c

/-- Two live nodes of a layer linked both ways: only the new node's list may be over the cap. -/
theorem link_ends {nb : ℕ} (shape : Shape params before (Owes layer idx) nodes)
    (here : Present before layer idx) (live : Live before idx) (there : Present before layer nb)
    (alive : Live before nb) :
    ∃ after, link arith params metric idx layer nodes nb = .ok after ∧
      Shape params before (Owes layer idx) after := by
  obtain ⟨mine, linksMine⟩ := (here.of_body shape.body.symm).links
  obtain ⟨first, setMine, replacedMine⟩ := setLinks_ends linksMine (· ++ [nb])
  have one : Shape params before (Owes layer idx) first := by
    refine shape.replace replacedMine live ?_ (fun l i debt _ => debt) (.inl ⟨rfl, rfl⟩)
    intro e member
    rcases List.mem_append.mp member with old | new
    · exact (shape.linked layer idx mine linksMine e old).of_body shape.body
    · exact List.mem_singleton.mp new ▸ there
  obtain ⟨theirs, linksTheirs⟩ := (there.of_body one.body.symm).links
  obtain ⟨second, setTheirs, replacedTheirs⟩ := setLinks_ends linksTheirs (· ++ [idx])
  have two : Shape params before (fun l i => Owes layer idx l i ∨ Owes layer nb l i) second := by
    refine one.replace replacedTheirs alive ?_ (fun l i debt _ => .inl debt) (.inl (.inr ⟨rfl, rfl⟩))
    intro e member
    rcases List.mem_append.mp member with old | new
    · exact (one.linked layer nb theirs linksTheirs e old).of_body one.body
    · exact List.mem_singleton.mp new ▸ here
  obtain ⟨grown, linksGrown⟩ := (there.of_body two.body.symm).links
  obtain ⟨last, new, pruned, replaced, subset, short⟩ :=
    prune_ends arith params metric two.linked linksGrown
  refine ⟨last, ?_, two.replace replaced alive ?_ ?_ (.inr short)⟩
  · show (do
      let nodes ← setLinks nodes idx layer (· ++ [nb])
      let nodes ← setLinks nodes nb layer (· ++ [idx])
      prune arith params metric nb layer nodes) = _
    rw [setMine]
    show (do
      let nodes ← setLinks first nb layer (· ++ [idx])
      prune arith params metric nb layer nodes) = _
    rw [setTheirs]
    exact pruned
  · exact fun e member =>
      (two.linked layer nb grown linksGrown e (subset member)).of_body two.body
  · rintro l i (debt | ⟨rfl, rfl⟩) other
    · exact debt
    · exact absurd ⟨rfl, rfl⟩ other

variable (arith ties metric q) {ep : ℕ} in
/-- **The new node is linked on every layer below a given one.** -/
theorem connect_ends {starts : List ℕ} (shape : Shape params before (fun _ _ => False) nodes)
    (live : Live before idx) (here : ∀ l < layer, Present before l idx)
    (entry : ∀ l < layer, Present before l ep)
    (range : ∀ l < layer, ∀ s ∈ starts, Present before l s) :
    ∃ after, connect arith ties params metric q idx ep layer starts nodes = .ok after ∧
      Shape params before (fun _ _ => False) after := by
  induction layer generalizing nodes starts with
  | zero => exact ⟨nodes, rfl, shape⟩
  | succ layer ih =>
    obtain ⟨w, searched, delivered⟩ := searchLayer_ends arith ties metric q params.efConstruction
      shape.linked fun s member =>
        (range layer (Nat.lt_succ_self layer) s member).of_body shape.body.symm
    have found : ∀ x ∈ w, Present before layer x.2 ∧ Live before x.2 := fun x member =>
      ⟨(delivered.present x member).of_body shape.body, (delivered.live x member).of_body shape.body⟩
    have mine := here layer (Nat.lt_succ_self layer)
    have loop : (Outcome.except Panic).ends
        (((w.take (params.maxConn layer)).map Prod.snd).foldlM (link arith params metric idx layer)
          nodes) (Shape params before (Owes layer idx)) := by
      refine Outcome.foldlM _ shape.owing fun state kept nb member => ?_
      obtain ⟨x, taken, rfl⟩ := List.mem_map.mp member
      obtain ⟨there, alive⟩ := found x (List.mem_of_mem_take taken)
      exact link_ends kept mine live there alive
    obtain ⟨linked, made, kept⟩ := loop
    obtain ⟨list, links⟩ := (mine.of_body kept.body.symm).links
    obtain ⟨last, new, pruned, replaced, subset, short⟩ :=
      prune_ends arith params metric kept.linked links
    have done : Shape params before (fun _ _ => False) last :=
      kept.replace replaced live
        (fun e member => (kept.linked layer idx list links e (subset member)).of_body kept.body)
        (fun l i debt other => other ⟨debt.2, debt.1⟩) (.inr short)
    have next : ∀ l < layer, ∀ s ∈ (if w.isEmpty then [ep] else w.map Prod.snd),
        Present before l s := by
      intro l below s member
      split_ifs at member
      · exact List.mem_singleton.mp member ▸ entry l (Nat.lt_succ_of_lt below)
      · obtain ⟨x, met, rfl⟩ := List.mem_map.mp member
        exact (found x met).1.lower below.le
    obtain ⟨after, rest, shaped⟩ := ih done (fun l below => here l (Nat.lt_succ_of_lt below))
      (fun l below => entry l (Nat.lt_succ_of_lt below)) next
    refine ⟨after, ?_, shaped⟩
    rw [connect, searched]
    show (do
      let nodes ← ((w.take (params.maxConn layer)).map Prod.snd).foldlM
        (link arith params metric idx layer) nodes
      let nodes ← prune arith params metric idx layer nodes
      connect arith ties params metric q idx ep layer (if w.isEmpty then [ep] else w.map Prod.snd)
        nodes) = _
    rw [made]
    show (do
      let nodes ← prune arith params metric idx layer linked
      connect arith ties params metric q idx ep layer (if w.isEmpty then [ep] else w.map Prod.snd)
        nodes) = _
    rw [pruned]
    exact rest

theorem prune_nil (links : Links nodes layer c []) :
    prune arith params metric c layer nodes = .ok nodes := by
  obtain ⟨node, held, listed⟩ := links
  rw [prune, fetch_ok held]
  show (do
    let list ← fetch node.layers layer
    if list.length ≤ params.maxConn layer then return nodes
    else do
      let scored ← list.mapM (scoreOf arith metric nodes node)
      let kept := (sortByDistance scored).take (params.maxConn layer)
      setLinks nodes c layer fun _ => kept.map Prod.snd) = _
  rw [fetch_ok listed]
  rfl

/-- Where no live node can be reached, nothing is linked. -/
theorem connect_idle (linked : Linked nodes) (entry : ∀ l < layer, Present nodes l ep)
    (dead : ∀ l < layer, ∀ e, Reaches nodes l ep e → ¬ Live nodes e)
    (bare : ∀ l < layer, Links nodes l idx []) :
    connect arith ties params metric q idx ep layer [ep] nodes = .ok nodes := by
  induction layer with
  | zero => rfl
  | succ layer ih =>
    obtain ⟨w, searched, delivered⟩ := searchLayer_ends arith ties metric q params.efConstruction
      linked (List.forall_mem_singleton.mpr (entry layer (Nat.lt_succ_self layer)))
    have nothing : w = [] := by
      refine List.eq_nil_iff_forall_not_mem.mpr fun x member => ?_
      obtain ⟨s, first, path⟩ := delivered.reached x member
      rw [List.mem_singleton.mp first] at path
      exact dead layer (Nat.lt_succ_self layer) x.2 path (delivered.live x member)
    subst nothing
    rw [connect, searched]
    show (do
      let nodes ← ((([] : List (Dist × ℕ)).take (params.maxConn layer)).map Prod.snd).foldlM
        (link arith params metric idx layer) nodes
      let nodes ← prune arith params metric idx layer nodes
      connect arith ties params metric q idx ep layer [ep] nodes) = _
    rw [List.take_nil]
    show (do
      let nodes ← prune arith params metric idx layer nodes
      connect arith ties params metric q idx ep layer [ep] nodes) = _
    rw [prune_nil (bare layer (Nat.lt_succ_self layer))]
    exact ih (fun l below => entry l (Nat.lt_succ_of_lt below))
      (fun l below => dead l (Nat.lt_succ_of_lt below))
      fun l below => bare l (Nat.lt_succ_of_lt below)

/-! ### Tombstones -/

def entomb (nodes : List Node) (idx : ℕ) : List Node :=
  nodes.modify idx fun node => { node with deleted := true }

/-- The index with the live node of an id, if there is one, made a tombstone. -/
def HnswIndex.buried (index : HnswIndex) (id : ℕ) : HnswIndex :=
  match index.idToIdx[id]? with
  | none => index
  | some idx =>
    { index with nodes := entomb index.nodes idx, idToIdx := index.idToIdx.erase id }

theorem getElem?_entomb (i : ℕ) :
    (entomb nodes idx)[i]? =
      if idx = i then (nodes[i]?).map fun node => { node with deleted := true } else nodes[i]? := by
  rw [entomb, List.getElem?_modify]
  split_ifs <;> simp

theorem links_entomb : Links (entomb nodes idx) layer c list ↔ Links nodes layer c list := by
  unfold Links
  rw [getElem?_entomb]
  split_ifs
  · constructor
    · rintro ⟨node, held, listed⟩
      obtain ⟨old, there, rfl⟩ := Option.map_eq_some_iff.mp held
      exact ⟨old, there, listed⟩
    · rintro ⟨node, held, listed⟩
      exact ⟨_, Option.map_eq_some_iff.mpr ⟨node, held, rfl⟩, listed⟩
  · rfl

theorem present_entomb : Present (entomb nodes idx) layer e ↔ Present nodes layer e := by
  constructor
  · intro present
    obtain ⟨list, links⟩ := present.links
    exact (links_entomb.mp links).present
  · intro present
    obtain ⟨list, links⟩ := present.links
    exact (links_entomb.mpr links).present

theorem live_entomb : Live (entomb nodes idx) e ↔ e ≠ idx ∧ Live nodes e := by
  unfold Live
  rw [getElem?_entomb]
  split_ifs with here
  · refine ⟨fun ⟨node, held, living⟩ => ?_, fun both => absurd here.symm both.1⟩
    obtain ⟨old, -, rfl⟩ := Option.map_eq_some_iff.mp held
    cases living
  · exact ⟨fun live => ⟨Ne.symm here, live⟩, And.right⟩

theorem Linked.entomb (linked : Linked nodes) : Linked (entomb nodes idx) :=
  fun layer c list links e member =>
    present_entomb.mpr (linked layer c list (links_entomb.mp links) e member)

variable {index : HnswIndex} {id : ℕ}

theorem bury_eq (sound : index.Sound) (id : ℕ) : index.bury id = .ok (index.buried id) := by
  unfold HnswIndex.bury HnswIndex.buried
  cases found : index.idToIdx[id]? with
  | none => rfl
  | some idx =>
    obtain ⟨node, held, -⟩ := sound.mapped id idx found
    have set : alter index.nodes idx (fun node => .ok { node with deleted := true }) =
        .ok (entomb index.nodes idx) := by
      have made : alter index.nodes idx (fun node => .ok { node with deleted := true }) =
          .ok (index.nodes.set idx { node with deleted := true }) := alter_ok held rfl
      rw [made]
      congr 1
      refine List.ext_getElem? fun i => ?_
      rw [getElem?_entomb, List.getElem?_set]
      split_ifs with here inside
      · rw [← here, held]
        rfl
      · exact absurd (List.getElem?_eq_some_iff.mp held).1 inside
      · rfl
    simp only
    rw [set]
    rfl

/-- Only the node of the id is buried. -/
theorem live_buried :
    Live (index.buried id).nodes e ↔ index.idToIdx[id]? ≠ some e ∧ Live index.nodes e := by
  unfold HnswIndex.buried
  cases found : index.idToIdx[id]? with
  | none => exact ⟨fun live => ⟨nofun, live⟩, And.right⟩
  | some idx =>
    rw [live_entomb, ne_eq, ne_eq, Option.some.injEq, eq_comm]

theorem links_buried :
    Links (index.buried id).nodes layer c list ↔ Links index.nodes layer c list := by
  unfold HnswIndex.buried
  split
  · rfl
  · exact links_entomb

theorem HnswIndex.Sound.buried (sound : index.Sound) : (index.buried id).Sound := by
  unfold HnswIndex.buried
  cases found : index.idToIdx[id]? with
  | none => exact sound
  | some idx =>
    refine ⟨sound.linked.entomb, fun e started => present_entomb.mpr (sound.entry e started), ?_⟩
    intro other place there
    rw [ExtTreeMap.getElem?_erase] at there
    split_ifs at there with same
    obtain ⟨node, held, named, living⟩ := sound.mapped other place there
    obtain ⟨node', held', named', -⟩ := sound.mapped id idx found
    refine ⟨node, ?_, named, living⟩
    show (entomb index.nodes idx)[place]? = _
    rw [getElem?_entomb, if_neg, held]
    rintro rfl
    obtain rfl := Option.some.inj (held.symm.trans held')
    exact same (LawfulEqCmp.compare_eq_iff_eq.mpr (named'.symm.trans named))

end DrStrange.Hnsw
