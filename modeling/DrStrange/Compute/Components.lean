/-
**Connected components, by merging sets.**

The endpoints of each edge are merged in a forest whose parents are rewritten while it is read. Every
search for a root ends within as many rounds as there are nodes, and what the forest says at the end
are the components of the scope (`connectedComponents_exact`).
-/

import DrStrange.Compute.Frame
import DrStrange.Lib.UnionFind

namespace DrStrange.Compute

open DrStrange.Graph Lib

/-! ### The code -/

/-- Sets of numbers with path halving and union by size. -/
structure UnionFind (n : ℕ) where
  parent : Fin n → Fin n
  size : Fin n → ℕ

def UnionFind.new (n : ℕ) : UnionFind n := ⟨fun i => i, fun _ => 1⟩

/-- What reads and writes a forest, unless it runs out of rounds or panics. -/
abbrev Finding (n : ℕ) := StateT (UnionFind n) Option

/-- The loop of a search, of so many rounds at most. -/
def find {n : ℕ} : ℕ → Fin n → Finding n (Fin n)
  | 0, _ => fun _ => none
  | fuel + 1, x => fun uf =>
    if uf.parent x = x then some (x, uf)
    else
      let uf := { uf with parent := Function.update uf.parent x (uf.parent (uf.parent x)) }
      find fuel (uf.parent x) uf

/-- The smaller of two sets under the root of the larger. -/
def UnionFind.hang {n : ℕ} (ra rb : Fin n) (uf : UnionFind n) : UnionFind n :=
  let (big, small) := if uf.size rb ≤ uf.size ra then (ra, rb) else (rb, ra)
  ⟨Function.update uf.parent small big, Function.update uf.size big (uf.size big + uf.size small)⟩

def union {n : ℕ} (fuel : ℕ) (a b : Fin n) : Finding n Unit := do
  let ra ← find fuel a
  let rb ← find fuel b
  if ra = rb then return else modify (UnionFind.hang ra rb)

/-- The edges of a frame in the order in which they are merged. -/
def Frame.links (frame : Frame) : List (Fin frame.nodes.length × Fin frame.nodes.length) :=
  (List.finRange frame.nodes.length).flatMap fun i => (frame.out i).map fun (j, _) => (i, j)

/-- The smaller of the node that represents a set and another. -/
def represent (existing : Option NodeId) (cur : NodeId) : NodeId :=
  match existing with
  | some existing => if existing ≤ cur then existing else cur
  | none => cur

/-- What is read off the forest once all edges are merged. -/
def answer (fuel : ℕ) (frame : Frame) : Finding frame.nodes.length (List (NodeId × NodeId) × ℕ) := do
  let all := List.finRange frame.nodes.length
  let repId ← all.foldlM (fun repId i => do
    let r ← find fuel i
    return Function.update repId r (some (represent (repId r) (frame.nodes.get i)))) fun _ => none
  let found ← all.mapM fun i => do return (i, ← find fuel i)
  let roots := found.filter fun (i, r) => r = i
  let out ← all.mapM fun i => do
    let r ← find fuel i
    let id ← (repId r : Option NodeId)
    return (frame.nodes.get i, id)
  return (out.mergeSort fun a b => a.1 ≤ b.1, roots.length)

def components (fuel : ℕ) (frame : Frame) :
    Finding frame.nodes.length (List (NodeId × NodeId) × ℕ) := do
  frame.links.forM fun (i, j) => union fuel i j
  answer fuel frame

/-- The component of every node of a scope and how many there are, or nothing if a search does not end
within so many rounds or a root has no representative. -/
def connectedComponents (fuel : ℕ) (reader : GraphReader) (label : Option String) :
    Except Error (Option (List (NodeId × NodeId) × ℕ)) := do
  let frame ← Frame.build reader label
  return (components fuel frame).run' (UnionFind.new frame.nodes.length)

/-! ### Reading the forest -/

variable {n fuel : ℕ} {uf : UnionFind n} {x y : Fin n} {height : Fin n → ℕ} {ρ : Fin n → Fin n}
  {α β σ : Type} {xs : List α}

/-- **A search ends** at the root, and changes none. -/
theorem find_spec (rises : Rises uf.parent height) (enough : n ≤ fuel + height x) :
    ∃ after, find fuel x uf = some (root uf.parent x, after) ∧ Rises after.parent height ∧
      ∀ y, root after.parent y = root uf.parent y := by
  induction fuel generalizing x uf with
  | zero =>
    have bound := rises.le x
    have some : 0 < roots uf.parent :=
      Finset.card_pos.mpr ⟨root uf.parent x, Finset.mem_filter_univ _ |>.mpr (rises.apply_root x)⟩
    rw [Fintype.card_fin] at bound
    omega
  | succ fuel ih =>
    unfold find
    split
    · rename_i top
      exact ⟨uf, by rw [root_of_top top], rises, fun _ => rfl⟩
    · rename_i inner
      have higher := rises.lt x inner
      have skips := rises.halve (x := x)
      have own : Function.update uf.parent x (uf.parent (uf.parent x)) x = uf.parent (uf.parent x) :=
        Function.update_self ..
      have high : height x < height (uf.parent (uf.parent x)) := by
        by_cases top : uf.parent (uf.parent x) = uf.parent x
        · rwa [top]
        · exact higher.trans (rises.lt _ top)
      obtain ⟨after, ran, rises', same⟩ :=
        @ih ⟨halve uf.parent x, uf.size⟩ (uf.parent (uf.parent x)) skips
        (by omega)
      refine ⟨after, ?_, rises', fun y => (same y).trans rises.root_halve⟩
      rw [rises.root_halve, rises.root_step, rises.root_step] at ran
      dsimp only
      rw [own]
      exact ran

/-- A forest whose roots are known, and which ends every search in time. -/
def Rooted (ρ : Fin n → Fin n) (uf : UnionFind n) : Prop :=
  (∃ height, Rises uf.parent height) ∧ ∀ y, root uf.parent y = ρ y

/-- What only reads the forest returns something that its roots decide. -/
def Reads (ρ : Fin n → Fin n) (read : Finding n α) (result : α) : Prop :=
  ∀ uf, Rooted ρ uf → ∃ after, read uf = some (result, after) ∧ Rooted ρ after

theorem reads_find (enough : n ≤ fuel) : Reads ρ (find fuel x) (ρ x) := by
  rintro uf ⟨⟨height, rises⟩, roots⟩
  obtain ⟨after, ran, rises', same⟩ := find_spec (x := x) rises (enough.trans (Nat.le_add_right _ _))
  exact ⟨after, roots x ▸ ran, ⟨height, rises'⟩, fun y => (same y).trans (roots y)⟩

theorem Reads.pure {a : α} : Reads ρ (Pure.pure a) a := fun uf rooted => ⟨uf, rfl, rooted⟩

theorem Reads.bind {read : Finding n α} {next : α → Finding n β} {a : α} {b : β}
    (first : Reads ρ read a) (then_ : Reads ρ (next a) b) : Reads ρ (read >>= next) b := by
  intro uf rooted
  obtain ⟨mid, ran, rooted'⟩ := first uf rooted
  obtain ⟨after, ran', rooted''⟩ := then_ mid rooted'
  refine ⟨after, ?_, rooted''⟩
  change (read uf >>= fun pair => next pair.1 pair.2) = _
  rw [ran]
  exact ran'

theorem Reads.mapM {read : α → Finding n β} {result : α → β}
    (each : ∀ x ∈ xs, Reads ρ (read x) (result x)) : Reads ρ (xs.mapM read) (xs.map result) := by
  induction xs with
  | nil => exact .pure
  | cons x xs ih =>
    rw [List.mapM_cons, List.map_cons]
    exact (each x List.mem_cons_self).bind
      ((ih fun x among => each x (List.mem_cons_of_mem _ among)).bind .pure)

theorem Reads.foldlM {step : σ → α → Finding n σ} {result : σ → α → σ} {start : σ}
    (each : ∀ state x, Reads ρ (step state x) (result state x)) :
    Reads ρ (xs.foldlM step start) (xs.foldl result start) := by
  induction xs generalizing start with
  | nil => exact .pure
  | cons x xs ih => exact (each start x).bind ih

/-! ### Merging the edges -/

/-- A forest of the components that some pairs make. -/
def Built (links : List (Fin n × Fin n)) (uf : UnionFind n) : Prop :=
  (∃ height, Rises uf.parent height) ∧ Partitions uf.parent links

variable {links : List (Fin n × Fin n)} {a b i : Fin n} {nodes : Fin n → NodeId}
  {all : List (Fin n)}

theorem built_new : Built [] (UnionFind.new n) := by
  have tops : ∀ x, (UnionFind.new n).parent x = x := fun _ => rfl
  refine ⟨⟨fun _ => 0, fun x inner => absurd (tops x) inner, fun x => ?_⟩, fun x y => ?_⟩
  · rw [Nat.zero_add]
    exact Finset.card_filter_le _ _
  · rw [root_of_top (tops x), root_of_top (tops y)]
    constructor
    · rintro rfl
      exact .refl _
    · intro joined
      induction joined with
      | rel x y among => cases among
      | refl => rfl
      | symm _ _ _ ih => exact ih.symm
      | trans _ _ _ _ _ ih ih' => exact ih.trans ih'

/-- **One edge** is merged. -/
theorem union_spec (enough : n ≤ fuel) (built : Built links uf) :
    ∃ after, union fuel a b uf = some ((), after) ∧ Built (links ++ [(a, b)]) after := by
  obtain ⟨⟨height, rises⟩, partitions⟩ := built
  obtain ⟨mid, ran, rises', same⟩ := find_spec (x := a) rises (enough.trans (Nat.le_add_right _ _))
  obtain ⟨last, ran', rises'', same'⟩ :=
    find_spec (x := b) rises' (enough.trans (Nat.le_add_right _ _))
  replace same' := fun y => (same' y).trans (same y)
  rw [same b] at ran'
  have partitions' := partitions.congr same'
  have run : union fuel a b uf = (if root uf.parent a = root uf.parent b then Pure.pure () else
      modify (UnionFind.hang (root uf.parent a) (root uf.parent b)) : Finding n Unit) last := by
    change (find fuel a uf >>= fun pair => _) = _
    rw [ran]
    change (find fuel b mid >>= fun pair => _) = _
    rw [ran']
    rfl
  rw [run]
  split_ifs with one
  · refine ⟨last, rfl, ⟨height, rises''⟩, partitions'.stay ?_⟩
    rw [same', same', one]
  · refine ⟨_, rfl, ?_⟩
    unfold UnionFind.hang
    split_ifs
    · have sides : (root uf.parent b = root last.parent a ∧ root uf.parent a = root last.parent b) ∨
          (root uf.parent b = root last.parent b ∧ root uf.parent a = root last.parent a) :=
        .inr ⟨(same' b).symm, (same' a).symm⟩
      refine ⟨⟨_, rises''.link ?_ ?_ (Ne.symm one)⟩, partitions'.hang rises'' sides (Ne.symm one)⟩
      · rw [← same', rises''.apply_root]
      · rw [← same', rises''.apply_root]
    · have sides : (root uf.parent a = root last.parent a ∧ root uf.parent b = root last.parent b) ∨
          (root uf.parent a = root last.parent b ∧ root uf.parent b = root last.parent a) :=
        .inl ⟨(same' a).symm, (same' b).symm⟩
      refine ⟨⟨_, rises''.link ?_ ?_ one⟩, partitions'.hang rises'' sides one⟩
      · rw [← same', rises''.apply_root]
      · rw [← same', rises''.apply_root]

/-- **All edges** are merged. -/
theorem unions_spec (enough : n ≤ fuel) (built : Built links uf) (more : List (Fin n × Fin n)) :
    ∃ after, (more.forM fun (i, j) => union fuel i j) uf = some ((), after) ∧
    Built (links ++ more) after := by
  induction more generalizing links uf with
  | nil => exact ⟨uf, rfl, by rwa [List.append_nil]⟩
  | cons pair more ih =>
    obtain ⟨mid, ran, built'⟩ := union_spec (a := pair.1) (b := pair.2) enough built
    obtain ⟨after, ran', built''⟩ := ih built'
    refine ⟨after, ?_, by rwa [List.append_cons]⟩
    change (union fuel pair.1 pair.2 uf >>= fun done => _) = _
    rw [ran]
    exact ran'

/-! ### The representatives -/

theorem Reads.lift {x : Option α} {a : α} (found : x = some a) :
    Reads ρ (liftM x : Finding n α) a := by
  subst found
  exact fun uf rooted => ⟨uf, rfl, rooted⟩

/-- What the nodes of some numbers leave as the representatives of the roots. -/
def repsOf (nodes : Fin n → NodeId) (ρ : Fin n → Fin n) (all : List (Fin n)) :
    Fin n → Option NodeId :=
  all.foldl (fun repId i => Function.update repId (ρ i) (some (represent (repId (ρ i)) (nodes i))))
    fun _ => none

theorem repsOf_append :
    repsOf nodes ρ (all ++ [i]) = Function.update (repsOf nodes ρ all) (ρ i)
      (some (represent (repsOf nodes ρ all (ρ i)) (nodes i))) := by
  rw [repsOf, List.foldl_append]
  rfl

/-- **A root's representative is the smallest node under it.** -/
theorem repsOf_least (among : i ∈ all) :
    ∃ least, repsOf nodes ρ all (ρ i) = some least ∧ (∃ j ∈ all, ρ j = ρ i ∧ nodes j = least) ∧
      ∀ j ∈ all, ρ j = ρ i → least ≤ nodes j := by
  suffices ∀ r, (repsOf nodes ρ all r = none ∧ ∀ j ∈ all, ρ j ≠ r) ∨
      ∃ least, repsOf nodes ρ all r = some least ∧ (∃ j ∈ all, ρ j = r ∧ nodes j = least) ∧
        ∀ j ∈ all, ρ j = r → least ≤ nodes j by
    rcases this (ρ i) with ⟨-, none⟩ | found
    · exact absurd rfl (none i among)
    · exact found
  clear among
  intro r
  induction all using List.reverseRecOn with
  | nil => exact .inl ⟨rfl, fun j among => by cases among⟩
  | append_singleton all k ih =>
    rw [repsOf_append]
    by_cases own : ρ k = r
    · subst own
      rw [Function.update_self]
      refine .inr ⟨_, rfl, ?_⟩
      rcases ih with ⟨empty, none⟩ | ⟨least, found, ⟨j, among, same, here⟩, le⟩
      · rw [empty]
        refine ⟨⟨k, by simp, rfl, rfl⟩, fun j among same => ?_⟩
        rcases List.mem_append.mp among with before | last
        · exact absurd same (none j before)
        · rw [List.mem_singleton.mp last]
          exact le_rfl
      · rw [found]
        by_cases keeps : least ≤ nodes k
        · simp only [represent, if_pos keeps]
          refine ⟨⟨j, List.mem_append_left _ among, same, here⟩, fun j among same => ?_⟩
          rcases List.mem_append.mp among with before | last
          · exact le j before same
          · rwa [List.mem_singleton.mp last]
        · simp only [represent, if_neg keeps]
          refine ⟨⟨k, by simp, rfl, rfl⟩, fun j among same => ?_⟩
          rcases List.mem_append.mp among with before | last
          · exact (not_le.mp keeps).le.trans (le j before same)
          · rw [List.mem_singleton.mp last]
    · rw [Function.update_of_ne (Ne.symm own)]
      rcases ih with ⟨empty, none⟩ | ⟨least, found, ⟨j, among, same, here⟩, le⟩
      · refine .inl ⟨empty, fun j among => ?_⟩
        rcases List.mem_append.mp among with before | last
        · exact none j before
        · rwa [List.mem_singleton.mp last]
      · refine .inr ⟨least, found, ⟨j, List.mem_append_left _ among, same, here⟩,
          fun j among same => ?_⟩
        rcases List.mem_append.mp among with before | last
        · exact le j before same
        · rw [List.mem_singleton.mp last] at same
          exact absurd same own

/-- **What the code returns**, in terms of the roots. -/
theorem components_returns (frame : Frame) (enough : frame.nodes.length ≤ fuel) :
    ∃ ρ : Fin frame.nodes.length → Fin frame.nodes.length, ∃ least : Fin frame.nodes.length → NodeId,
      (∀ i j, ρ i = ρ j ↔ Relation.EqvGen (fun a b => (a, b) ∈ frame.links) i j) ∧
      (∀ i, ρ (ρ i) = ρ i) ∧
      (∀ i, (∃ j, ρ j = ρ i ∧ frame.nodes[j] = least i) ∧ ∀ j, ρ j = ρ i → least i ≤ frame.nodes[j]) ∧
      (components fuel frame).run' (UnionFind.new _) = some
        (((List.finRange _).map fun i => (frame.nodes[i], least i)).mergeSort fun a b => a.1 ≤ b.1,
          ((List.finRange _).filter fun i => ρ i = i).length) := by
  obtain ⟨uf, ran, ⟨height, rises⟩, partitions⟩ := unions_spec enough built_new frame.links
  rw [List.nil_append] at partitions
  have each : ∀ i, ∃ least, repsOf (fun i => frame.nodes[i]) (root uf.parent) (List.finRange _)
      (root uf.parent i) = some least ∧
      (∃ j ∈ List.finRange _, root uf.parent j = root uf.parent i ∧ frame.nodes[j] = least) ∧
      ∀ j ∈ List.finRange _, root uf.parent j = root uf.parent i → least ≤ frame.nodes[j] :=
    fun i => repsOf_least (List.mem_finRange i)
  choose least found attained le using each
  refine ⟨root uf.parent, least, partitions, fun i => root_of_top (rises.apply_root i), fun i =>
    ⟨?_, fun j same =>
    le i j (List.mem_finRange j) same⟩, ?_⟩
  · obtain ⟨j, -, same, here⟩ := attained i
    exact ⟨j, same, here⟩
  have reads : Reads (root uf.parent) (answer fuel frame)
      (((List.finRange _).map fun i => (frame.nodes[i], least i)).mergeSort fun a b => a.1 ≤ b.1,
        ((List.finRange _).filter fun i => root uf.parent i = i).length) := by
    unfold answer
    refine Reads.bind (.foldlM fun state i => (reads_find enough).bind .pure) ?_
    refine Reads.bind (.mapM fun i _ => (reads_find enough).bind .pure) ?_
    refine Reads.bind (.mapM fun i _ =>
      (reads_find enough).bind ((Reads.lift (found i)).bind .pure)) ?_
    rw [List.filter_map, List.length_map]
    exact .pure
  obtain ⟨after, ran', -⟩ := reads uf ⟨⟨height, rises⟩, fun _ => rfl⟩
  have run : components fuel frame (UnionFind.new _) = answer fuel frame uf := by
    change ((frame.links.forM fun (i, j) => union fuel i j) (UnionFind.new _) >>= fun pair =>
      answer fuel frame pair.2) = _
    rw [ran]
    rfl
  rw [StateT.run', run, ran']
  rfl

/-! ### The components of a scope -/

variable {tables : Tables} {plane : PlaneId} {label : Option String}

/-- An edge of the scope joins two nodes, whichever way it leads. -/
def Joined (tables : Tables) (plane : PlaneId) (label : Option String) (a b : NodeId) : Prop :=
  a ∈ scope tables plane label ∧ b ∈ scope tables plane label ∧
    ∃ edge, Leads tables plane edge a b ∨ Leads tables plane edge b a

/-- An undirected path inside of the scope joins two nodes. -/
def Connected (tables : Tables) (plane : PlaneId) (label : Option String) : NodeId → NodeId → Prop :=
  Relation.ReflTransGen (Joined tables plane label)

theorem Connected.symm {a b : NodeId} (connected : Connected tables plane label a b) :
    Connected tables plane label b a := by
  induction connected with
  | refl => exact .refl
  | tail _ joined ih => exact ih.head ⟨joined.2.1, joined.1, joined.2.2.imp fun _ => Or.symm⟩

theorem mem_links {frame : Frame} {i j : Fin frame.nodes.length} :
    (i, j) ∈ frame.links ↔ ∃ edge, (j, edge) ∈ frame.out i := by
  simp only [Frame.links, List.mem_flatMap, List.mem_finRange, true_and, List.mem_map, Prod.exists,
    Prod.mk.injEq]
  constructor
  · rintro ⟨i, j, edge, inside, rfl, rfl⟩
    exact ⟨edge, inside⟩
  · rintro ⟨edge, inside⟩
    exact ⟨i, j, edge, inside, rfl, rfl⟩

theorem Connected.inside {a b : NodeId} (connected : Connected tables plane label a b)
    (member : a ∈ scope tables plane label) : b ∈ scope tables plane label := by
  cases connected with
  | refl => exact member
  | tail _ joined => exact joined.2.1

/-- The links connect what the edges of the scope connect. -/
theorem eqvGen_links {i j : Fin (scope tables plane label).length} :
    Relation.EqvGen (fun a b => (a, b) ∈ (planeFrame tables plane label).links) i j ↔
      Connected tables plane label ((scope tables plane label).get i)
      ((scope tables plane label).get j) := by
  constructor
  · intro linked
    induction linked with
    | rel i j among =>
      obtain ⟨edge, inside⟩ := mem_links.mp among
      exact .single ⟨List.get_mem _ _, List.get_mem _ _, edge, .inl (mem_out.mp inside)⟩
    | refl => exact .refl
    | symm _ _ _ ih => exact ih.symm
    | trans _ _ _ _ _ ih ih' => exact ih.trans ih'
  · intro connected
    suffices ∀ b, Connected tables plane label (scope tables plane label)[i] b →
        ∃ k : Fin (scope tables plane label).length, (scope tables plane label)[k] = b ∧
          Relation.EqvGen (fun a b => (a, b) ∈ (planeFrame tables plane label).links) i k by
      obtain ⟨k, same, linked⟩ := this _ connected
      obtain rfl : k = j := Fin.ext ((List.Nodup.getElem_inj_iff nodup_scope).mp same)
      exact linked
    intro b connected
    induction connected with
    | refl => exact ⟨i, rfl, .refl _⟩
    | tail _ joined ih =>
      obtain ⟨k, rfl, linked⟩ := ih
      obtain ⟨-, inside, edge, leads⟩ := joined
      obtain ⟨l, bound, rfl⟩ := List.getElem_of_mem inside
      refine ⟨⟨l, bound⟩, rfl, linked.trans _ _ _ ?_⟩
      rcases leads with out | back
      · exact .rel _ _ (mem_links.mpr ⟨edge, mem_out.mpr out⟩)
      · exact .symm _ _ (.rel _ _ (mem_links.mpr ⟨edge, mem_out.mpr back⟩))

/-- Rows that give each node of a scope the smallest node of its component, and their number. -/
structure AreComponents (tables : Tables) (plane : PlaneId) (label : Option String)
    (rows : List (NodeId × NodeId)) (count : ℕ) : Prop where
  nodes : (rows.map Prod.fst).Perm (scope tables plane label)
  ordered : rows.Pairwise fun a b => a.1 < b.1
  same : ∀ a ra b rb, (a, ra) ∈ rows → (b, rb) ∈ rows → (ra = rb ↔ Connected tables plane label a b)
  least : ∀ a ra, (a, ra) ∈ rows → Connected tables plane label a ra ∧
    ∀ b, Connected tables plane label a b → ra ≤ b
  counted : count = Set.ncard {component : Set NodeId |
    ∃ a ∈ scope tables plane label, component = {b | Connected tables plane label a b}}

/-- **The components are exact.** Every search ends, within as many rounds as there are nodes, and two
nodes have one representative exactly if a path of the scope joins them. -/
theorem connectedComponents_exact (tables : Tables) (plane : PlaneId) (label : Option String)
    (vector : VectorSearch) (keyword : KeywordSearch) (spare : ℕ) :
    ∃ rows count, connectedComponents ((scope tables plane label).length + spare)
        (planeReader tables plane vector keyword) label = .ok (some (rows, count)) ∧
      AreComponents tables plane label rows count := by
  obtain ⟨ρ, least, linked, tops, smallest, returns⟩ :
      ∃ ρ : Fin (scope tables plane label).length → Fin (scope tables plane label).length,
        ∃ least : Fin (scope tables plane label).length → NodeId,
        (∀ i j, ρ i = ρ j ↔ Relation.EqvGen (fun a b =>
          (a, b) ∈ (planeFrame tables plane label).links) i j) ∧
        (∀ i, ρ (ρ i) = ρ i) ∧
        (∀ i, (∃ j, ρ j = ρ i ∧ (scope tables plane label)[j] = least i) ∧
          ∀ j, ρ j = ρ i → least i ≤ (scope tables plane label)[j]) ∧
        (components ((scope tables plane label).length + spare) (planeFrame tables plane label)).run'
          (UnionFind.new _) = some
          (((List.finRange _).map fun i => ((scope tables plane label)[i], least i)).mergeSort
            fun a b => a.1 ≤ b.1, ((List.finRange _).filter fun i => ρ i = i).length) :=
    components_returns (planeFrame tables plane label) (Nat.le_add_right _ spare)
  have connected : ∀ i j : Fin (scope tables plane label).length, ρ i = ρ j ↔
      Connected tables plane label (scope tables plane label)[i] (scope tables plane label)[j] :=
    fun i j => (linked i j).trans eqvGen_links
  have row : ∀ a ra, (a, ra) ∈ ((List.finRange _).map fun i =>
      ((scope tables plane label)[i], least i)).mergeSort (fun a b => a.1 ≤ b.1) ↔
        ∃ i, (scope tables plane label)[i] = a ∧ least i = ra := by
    intro a ra
    simp only [List.mem_mergeSort, List.mem_map, List.mem_finRange, true_and, Prod.mk.injEq]
  have names : (((List.finRange _).map fun i => ((scope tables plane label)[i], least i)).mergeSort
      fun a b => a.1 ≤ b.1).map Prod.fst |>.Perm (scope tables plane label) := by
    refine ((List.mergeSort_perm _ _).map Prod.fst).trans (List.Perm.of_eq ?_)
    rw [List.map_map]
    exact List.map_getElem_finRange _
  have apart : ∀ i j : Fin (scope tables plane label).length,
      (scope tables plane label)[i] = (scope tables plane label)[j] → i = j :=
    fun i j same => Fin.ext ((List.Nodup.getElem_inj_iff nodup_scope).mp same)
  refine ⟨_, _, bind_eq_ok.mpr ⟨_, build_plane, congrArg Except.ok returns⟩, names, ?_, ?_, ?_, ?_⟩
  · have sorted := @List.pairwise_mergeSort _ (fun a b : NodeId × NodeId => decide (a.1 ≤ b.1))
      (fun a b c first second => by simp only [decide_eq_true_eq] at *; exact first.trans second)
      (fun a b => by simpa using le_total a.1 b.1)
      ((List.finRange _).map fun i => ((scope tables plane label)[i], least i))
    have distinct := List.pairwise_map.mp (names.nodup_iff.mpr nodup_scope)
    exact (sorted.and distinct).imp fun both => lt_of_le_of_ne (by simpa using both.1) both.2
  · intro a ra b rb first second
    obtain ⟨i, rfl, rfl⟩ := (row a ra).mp first
    obtain ⟨j, rfl, rfl⟩ := (row b rb).mp second
    rw [← connected]
    obtain ⟨⟨k, own, here⟩, le⟩ := smallest i
    obtain ⟨⟨l, own', here'⟩, le'⟩ := smallest j
    constructor
    · intro same
      obtain rfl := apart k l (here.trans (same.trans here'.symm))
      exact own.symm.trans own'
    · intro same
      refine le_antisymm ?_ ?_
      · exact here' ▸ le l (own'.trans same.symm)
      · exact here ▸ le' k (own.trans same)
  · intro a ra first
    obtain ⟨i, rfl, rfl⟩ := (row a ra).mp first
    obtain ⟨⟨k, own, here⟩, le⟩ := smallest i
    refine ⟨here ▸ (connected i k).mp own.symm, fun b joined => ?_⟩
    obtain ⟨j, bound, rfl⟩ := List.getElem_of_mem (joined.inside (List.getElem_mem _))
    exact le ⟨j, bound⟩ ((connected i ⟨j, bound⟩).mpr joined).symm
  · let classOf : Fin (scope tables plane label).length → Set NodeId :=
      fun i => {b | Connected tables plane label (scope tables plane label)[i] b}
    have image : {component : Set NodeId | ∃ a ∈ scope tables plane label,
        component = {b | Connected tables plane label a b}} = classOf '' {i | ρ i = i} := by
      ext component
      constructor
      · rintro ⟨a, member, rfl⟩
        obtain ⟨j, bound, rfl⟩ := List.getElem_of_mem member
        refine ⟨ρ ⟨j, bound⟩, tops _, ?_⟩
        have joined := (connected _ _).mp (tops ⟨j, bound⟩)
        exact Set.ext fun b => ⟨fun other => joined.symm.trans other, fun other => joined.trans other⟩
      · rintro ⟨i, -, rfl⟩
        exact ⟨_, List.getElem_mem _, rfl⟩
    have injective : Set.InjOn classOf {i | ρ i = i} := by
      intro i top j top' same
      have joined : Connected tables plane label (scope tables plane label)[i]
          (scope tables plane label)[j] := by
        have own : (scope tables plane label)[j] ∈ classOf j := Relation.ReflTransGen.refl
        rwa [← same] at own
      exact top.symm.trans (((connected i j).mpr joined).trans top')
    have listed : {i | ρ i = i} =
        (((List.finRange (scope tables plane label).length).filter fun i =>
          ρ i = i).toFinset : Set _) := by
      ext i
      simp
    rw [image, injective.ncard_image, listed, Set.ncard_coe_finset,
      List.toFinset_card_of_nodup ((List.nodup_finRange _).filter _)]

end DrStrange.Compute
