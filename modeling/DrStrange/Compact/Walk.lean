/-
**The walk under every verb.**

A bounded walk from a seed, one hop after the other. A visitor answers every hop that is offered,
and a new node that it takes joins the region and the next frontier, unless the region is as large
as its budget. Where the visitor's answers are those of a fixed test, the region holds the nearest
nodes: each level those at its distance, none farther than one that is missing
(`walk_breadthFirst`).
-/

import DrStrange.Graph.Edge
import DrStrange.Lib.Layers

namespace DrStrange.Compact

open DrStrange.Graph (NodeId EdgeId PlaneId Dir Neighbor Tables neighbors edgeWrites)
open Lib
open Std (ExtTreeSet)

/-! ### The code -/

/-- What a walk does with one hop it has been offered. -/
inductive Step where
  | take
  | skip
  | stop
  deriving DecidableEq, Repr

/-- One hop, as it is offered. -/
structure Hop where
  from_ : NodeId
  dir : Dir
  node : NodeId
  edge : EdgeId
  fresh : Bool

/-- Where a walk stops; a budget of `usize::MAX`, which no region reaches, is no bound. -/
structure Bounds where
  dirs : List Dir
  ty : Option String
  depth : ℕ
  budget : ℕ∞

/-- What a walk took. -/
structure Region where
  levels : List (List NodeId)
  seen : ExtTreeSet NodeId compare
  budgetHit : Bool

/-- The hops from a frontier, in the order in which they are offered. -/
def hops (tables : Tables) (plane : PlaneId) (bounds : Bounds) (frontier : List NodeId) :
    List (NodeId × Dir × Neighbor) :=
  frontier.flatMap fun from_ => bounds.dirs.flatMap fun dir =>
    (neighbors tables plane from_ dir bounds.ty).map fun nb => (from_, dir, nb)

/-- A walk in the middle of a level. -/
structure Sweep where
  seen : ExtTreeSet NodeId compare
  next : List NodeId
  budgetHit : Bool

section

variable {ε τ : Type} (visit : Hop → StateT τ (Except ε) Step)

/-- Offers the hops of a level; says whether the visitor stopped the walk. -/
def sweep (budget : ℕ∞) : List (NodeId × Dir × Neighbor) → Sweep → StateT τ (Except ε) (Sweep × Bool)
  | [], swept => return (swept, false)
  | (from_, dir, nb) :: hops, swept => do
    let hop : Hop := ⟨from_, dir, nb.node, nb.edge, !swept.seen.contains nb.node⟩
    match ← visit hop with
    | .stop => return (swept, true)
    | .skip => sweep budget hops swept
    | .take =>
      if !hop.fresh then sweep budget hops swept
      else if budget ≤ swept.seen.size then sweep budget hops { swept with budgetHit := true }
      else sweep budget hops ⟨swept.seen.insert hop.node, swept.next ++ [hop.node], swept.budgetHit⟩

/-- The levels that are left, from a frontier on. -/
def walkFrom (tables : Tables) (plane : PlaneId) (bounds : Bounds) :
    ℕ → List NodeId → Region → StateT τ (Except ε) Region
  | 0, _, region => return region
  | hops_left + 1, frontier, region => do
    let (swept, stopped) ← sweep visit bounds.budget (hops tables plane bounds frontier)
      ⟨region.seen, [], region.budgetHit⟩
    let region := { region with seen := swept.seen, budgetHit := swept.budgetHit }
    if stopped || swept.next.isEmpty then return region
    else walkFrom tables plane bounds hops_left swept.next { region with levels := region.levels ++
      [swept.next] }

/-- The bounded breadth-first walk. -/
def walk (tables : Tables) (plane : PlaneId) (seed : NodeId) (bounds : Bounds) :
    StateT τ (Except ε) Region :=
  walkFrom visit tables plane bounds bounds.depth [seed] ⟨[], {seed}, false⟩

end

/-! ### One level -/

/-- A test of a hop's endpoints, direction and edge. -/
abbrev Test := NodeId → Dir → NodeId → EdgeId → Bool

/-- A visitor whose answers are those of a test, whatever it notes. -/
def Answers {ε τ : Type} (visit : Hop → StateT τ (Except ε) Step) (taken : Test) : Prop :=
  ∀ hop s, ∃ s', visit hop s = .ok (if taken hop.from_ hop.dir hop.node hop.edge then .take
    else .skip, s')

/-- The node that a hop leads to is taken from the node where it begins. -/
def Takes (tables : Tables) (plane : PlaneId) (dirs : List Dir) (ty : Option String) (taken : Test)
    (u v : NodeId) :
    Prop :=
  ∃ dir ∈ dirs, ∃ nb ∈ neighbors tables plane u dir ty, nb.node = v ∧ taken u dir v nb.edge = true

/-- The nodes that hops lead to, where the test takes them. -/
def targets (taken : Test) (hops : List (NodeId × Dir × Neighbor)) : List NodeId :=
  (hops.filter fun hop => taken hop.1 hop.2.1 hop.2.2.node hop.2.2.edge).map fun hop => hop.2.2.node

/-- A node is offered: a new one is held unless the budget is reached. -/
def Sweep.offer (budget : ℕ∞) (swept : Sweep) (node : NodeId) : Sweep :=
  if node ∈ swept.seen then swept
  else if budget ≤ swept.seen.size then { swept with budgetHit := true }
  else ⟨swept.seen.insert node, swept.next ++ [node], swept.budgetHit⟩

variable {ε τ : Type} {visit : Hop → StateT τ (Except ε) Step} {taken : Test} {tables : Tables}
  {plane : PlaneId}
  {seed u v : NodeId} {bounds : Bounds} {budget : ℕ∞} {swept : Sweep} {nodes frontier : List NodeId}
    {region : Region}

theorem mem_targets : v ∈ targets taken (hops tables plane bounds frontier) ↔
    ∃ u ∈ frontier, Takes tables plane bounds.dirs bounds.ty taken u v := by
  simp only [targets, hops, Takes, List.mem_map, List.mem_filter, List.mem_flatMap]
  constructor
  · rintro ⟨hop, ⟨⟨u, among, dir, way, nb, next, rfl⟩, test⟩, rfl⟩
    exact ⟨u, among, dir, way, nb, next, rfl, test⟩
  · rintro ⟨u, among, dir, way, nb, next, rfl, test⟩
    exact ⟨(u, dir, nb), ⟨⟨u, among, dir, way, nb, next, rfl⟩, test⟩, rfl⟩

/-- A level, where the visitor answers by a test. -/
theorem sweep_eq (answers : Answers visit taken) (budget : ℕ∞)
    (hops : List (NodeId × Dir × Neighbor)) (swept : Sweep) (s : τ) :
    ∃ s', sweep visit budget hops swept s =
    .ok (((targets taken hops).foldl (Sweep.offer budget) swept, false), s') := by
  induction hops generalizing swept s with
  | nil => exact ⟨s, rfl⟩
  | cons hop hops ih =>
    obtain ⟨from_, dir, nb⟩ := hop
    obtain ⟨s₁, answered⟩ := answers ⟨from_, dir, nb.node, nb.edge, !swept.seen.contains nb.node⟩ s
    have first : sweep visit budget ((from_, dir, nb) :: hops) swept s =
        sweep visit budget hops (if taken from_ dir nb.node nb.edge then swept.offer budget nb.node
          else swept) s₁ := by
      rw [sweep]
      simp only [bind, StateT.bind, answered, Except.bind]
      cases taken from_ dir nb.node nb.edge with
      | false => rfl
      | true =>
        simp only [if_true, Sweep.offer, ExtTreeSet.mem_iff_contains, Bool.not_not]
        split_ifs <;> rfl
    rw [first, targets, List.filter_cons]
    cases taken from_ dir nb.node nb.edge with
    | false => exact ih _ s₁
    | true => exact ih _ s₁

/-- What offering nodes makes of what was seen. -/
structure Swept (budget : ℕ∞) (seen : ExtTreeSet NodeId compare) (hit : Bool) (nodes : List NodeId)
    (swept : Sweep) :
    Prop where
  seen_iff : ∀ v, v ∈ swept.seen ↔ v ∈ seen ∨ v ∈ swept.next
  fresh : ∀ v ∈ swept.next, v ∉ seen
  nodup : swept.next.Nodup
  offered : ∀ v ∈ swept.next, v ∈ nodes
  size : swept.seen.size = seen.size + swept.next.length
  bounded : (swept.seen.size : ℕ∞) ≤ max budget seen.size
  closed : swept.budgetHit = false → ∀ v ∈ nodes, v ∈ swept.seen
  kept : hit = true → swept.budgetHit = true
  refused : swept.budgetHit = true → hit = true ∨ budget ≤ swept.seen.size ∧ ∃ v ∈ nodes,
    v ∉ swept.seen

variable {seen : ExtTreeSet NodeId compare} {hit : Bool}

theorem swept_start : Swept budget seen hit [] ⟨seen, [], hit⟩ where
  seen_iff v := by simp
  fresh := nofun
  nodup := List.nodup_nil
  offered := nofun
  size := rfl
  bounded := le_max_right _ _
  closed _ := nofun
  kept := id
  refused := .inl

/-- **One node more is offered.** -/
theorem Swept.offer (was : Swept budget seen hit nodes swept) (node : NodeId) :
    Swept budget seen hit (nodes ++ [node]) (swept.offer budget node) := by
  have offered : ∀ v ∈ swept.next, v ∈ nodes ++ [node] :=
    fun v new => List.mem_append_left _ (was.offered v new)
  unfold Sweep.offer
  split_ifs with old full
  · refine ⟨was.seen_iff, was.fresh, was.nodup, offered, was.size, was.bounded, fun unhit =>
      ?_, was.kept, fun raised => ?_⟩
    · exact List.forall_mem_append.mpr ⟨was.closed unhit, List.forall_mem_singleton.mpr old⟩
    · obtain before | ⟨full, v, among, missing⟩ := was.refused raised
      · exact .inl before
      · exact .inr ⟨full, v, List.mem_append_left _ among, missing⟩
  · exact ⟨was.seen_iff, was.fresh, was.nodup, offered, was.size, was.bounded, nofun, fun _ => rfl,
      fun _ => .inr ⟨full, node, List.mem_append_right _ (List.mem_singleton.mpr rfl), old⟩⟩
  · have absent : node ∉ seen ∧ node ∉ swept.next :=
      not_or.mp fun either => old ((was.seen_iff node).mpr either)
    have inserted : ∀ v, v ∈ swept.seen.insert node ↔ v ∈ swept.seen ∨ v = node := by
      intro v
      rw [ExtTreeSet.mem_insert, compare_eq_iff_eq, or_comm, eq_comm]
    have larger : (swept.seen.insert node).size = swept.seen.size + 1 := by
      rw [ExtTreeSet.size_insert, if_neg fun inside => old (ExtTreeSet.mem_iff_contains.mpr inside)]
    refine ⟨fun v => ?_, fun v => ?_, ?_, fun v => ?_, ?_, ?_, fun unhit v =>
      ?_, was.kept, fun raised => ?_⟩
    · rw [inserted, was.seen_iff, List.mem_append, List.mem_singleton, or_assoc]
    · exact List.forall_mem_append.mpr ⟨was.fresh, List.forall_mem_singleton.mpr absent.1⟩ v
    · exact List.nodup_append.mpr ⟨was.nodup, List.nodup_singleton node, fun v new other same => by
        rintro rfl
        exact absent.2 (List.mem_singleton.mp same ▸ new)⟩
    · exact List.forall_mem_append.mpr ⟨offered, List.forall_mem_singleton.mpr
        (List.mem_append_right _ (List.mem_singleton.mpr rfl))⟩ v
    · rw [larger, was.size, List.length_append, List.length_singleton, Nat.add_assoc]
    · rw [larger, Nat.cast_add_one]
      exact (Order.add_one_le_of_lt (lt_of_not_ge full)).trans (le_max_left _ _)
    · refine List.forall_mem_append.mpr ⟨fun v among => ?_, List.forall_mem_singleton.mpr ?_⟩ v
      · exact (inserted v).mpr (.inl (was.closed unhit v among))
      · exact (inserted node).mpr (.inr rfl)
    · obtain before | ⟨reached, -⟩ := was.refused raised
      · exact .inl before
      · exact absurd reached full

theorem swept_foldl (nodes : List NodeId) :
    Swept budget seen hit nodes (nodes.foldl (Sweep.offer budget) ⟨seen, [], hit⟩) := by
  induction nodes using List.reverseRecOn with
  | nil => exact swept_start
  | append_singleton nodes node ih =>
    rw [List.foldl_concat]
    exact ih.offer node

/-- A region that has reached its budget takes nothing more. -/
theorem Swept.next_eq_nil (was : Swept budget seen hit nodes swept) (full : budget ≤ seen.size) :
    swept.next = [] := by
  have bounded := was.bounded
  rw [max_eq_right full, was.size, Nat.cast_le] at bounded
  exact List.eq_nil_of_length_eq_zero (by omega)

/-! ### The walk -/

/-- A region before a hop, while nothing has been refused. -/
structure Walking (step : NodeId → NodeId → Prop) (seed : NodeId) (budget : ℕ∞) (region : Region) :
    Prop where
  nearest : Nearest step seed region.levels (· ∈ region.seen) region.levels.length
  bounded : (region.seen.size : ℕ∞) ≤ max budget 1
  unhit : region.budgetHit = false

/-- A region that a walk ends with: the nearest nodes, all within the depth or, where the budget was
reached, all but one within the next distance. -/
structure Ends (step : NodeId → NodeId → Prop) (seed : NodeId) (depth : ℕ) (budget : ℕ∞)
    (region : Region) (r : ℕ) :
    Prop where
  nearest : Nearest step seed region.levels (· ∈ region.seen) r
  within : region.levels.length ≤ depth
  bounded : (region.seen.size : ℕ∞) ≤ max budget 1
  whole : region.budgetHit = false → ∀ v n, Distance step seed v n → n ≤ depth → v ∈ region.seen
  missing : region.budgetHit = true → budget ≤ region.seen.size ∧ r + 1 ≤ depth ∧
    ∃ v, v ∉ region.seen ∧ Distance step seed v (r + 1)

variable {step : NodeId → NodeId → Prop} {depth left r : ℕ}

/-- The region after a level. -/
def Region.take (region : Region) (swept : Sweep) : Region :=
  ⟨if swept.next.isEmpty then region.levels else region.levels ++ [swept.next], swept.seen,
    swept.budgetHit⟩

theorem walkFrom_succ (answers : Answers visit taken) (tables : Tables) (plane : PlaneId)
    (bounds : Bounds) (left : ℕ) (frontier : List NodeId) (region : Region) (s : τ) : ∃ swept s',
    Swept bounds.budget region.seen region.budgetHit
      (targets taken (hops tables plane bounds frontier)) swept ∧
      walkFrom visit tables plane bounds (left + 1) frontier region s =
        if swept.next.isEmpty then .ok (region.take swept, s')
        else walkFrom visit tables plane bounds left swept.next (region.take swept) s' := by
  obtain ⟨s', level⟩ := sweep_eq answers bounds.budget (hops tables plane bounds frontier)
    ⟨region.seen, [], region.budgetHit⟩ s
  refine ⟨_, s', swept_foldl _, ?_⟩
  rw [walkFrom]
  simp only [bind, StateT.bind, level, Except.bind, Bool.false_or, Region.take]
  split_ifs <;> rfl

/-- A region that refused a node is as it ends. -/
theorem Ends.stays (ends : Ends step seed depth bounds.budget region r)
    (hit : region.budgetHit = true)
    (answers : Answers visit taken) (tables : Tables) (plane : PlaneId) (left : ℕ)
    (frontier : List NodeId) (s : τ) :
    ∃ s', walkFrom visit tables plane bounds left frontier region s = .ok (region, s') := by
  cases left with
  | zero => exact ⟨s, rfl⟩
  | succ left =>
    obtain ⟨swept, s', was, walked⟩ :=
      walkFrom_succ answers tables plane bounds left frontier region s
    have nothing := was.next_eq_nil (ends.missing hit).1
    have same : region.take swept = region := by
      have seen : swept.seen = region.seen := by
        refine ExtTreeSet.ext_mem fun v => ?_
        rw [was.seen_iff, nothing]
        simp
      rw [Region.take, nothing, seen, was.kept hit, List.isEmpty_nil, if_pos rfl, ← hit]
    exact ⟨s', by rw [walked, nothing, same]; rfl⟩

/-- **One level** of a walk that has refused nothing: it goes on, or ends with the nearest nodes. -/
theorem Walking.level (walking : Walking step seed budget region)
    (offers : ∀ v, v ∈ nodes ↔ ∃ u ∈ layer seed region.levels region.levels.length, step u v)
    (was : Swept budget region.seen region.budgetHit nodes swept)
    (room : region.levels.length < depth) :
    (swept.next ≠ [] ∧ Walking step seed budget (region.take swept) ∧
        (region.take swept).levels.length = region.levels.length + 1 ∧
        layer seed (region.take swept).levels (region.levels.length + 1) = swept.next) ∨
      Ends step seed depth budget (region.take swept) region.levels.length ∧
        (swept.next ≠ [] → (region.take swept).budgetHit = true) := by
  have bounded : (swept.seen.size : ℕ∞) ≤ max budget 1 :=
    was.bounded.trans (max_le (le_max_left _ _) walking.bounded)
  have grown := walking.nearest.grow was.fresh was.nodup
    (fun v new => (offers v).mp (was.offered v new)) was.seen_iff
  have nearest : Nearest step seed (region.take swept).levels (· ∈ swept.seen)
      region.levels.length := by
    rw [Region.take]
    dsimp only
    split_ifs with nothing
    · refine walking.nearest.congr fun v => ?_
      rw [was.seen_iff, List.isEmpty_iff.mp nothing]
      simp
    · exact grown
  have closed : swept.budgetHit = false →
      ∀ u ∈ layer seed region.levels region.levels.length, ∀ v, step u v →
      v ∈ swept.seen := fun unhit u last v next => was.closed unhit v ((offers v).mpr ⟨u, last, next⟩)
  have levels : (region.take swept).levels.length ≤ depth := by
    rw [Region.take]
    dsimp only
    split_ifs
    · exact room.le
    · rw [List.length_append]
      exact room
  cases hit : swept.budgetHit with
  | true =>
    right
    refine ⟨⟨nearest, levels, bounded, fun unhit => ?_, fun _ => ?_⟩, fun _ => hit⟩
    · exact absurd (unhit.symm.trans hit) Bool.false_ne_true
    · obtain before | ⟨full, v, among, missing⟩ := was.refused hit
      · exact absurd (walking.unhit.symm.trans before) Bool.false_ne_true
      · refine ⟨full, room, v, missing, ?_⟩
        obtain ⟨u, last, next⟩ := (offers v).mp among
        obtain ⟨m, within, far⟩ := (walking.nearest.far _ u last).next next
        obtain rfl | less := Nat.eq_or_lt_of_le within
        · exact far
        · exact absurd (nearest.full v m far (Nat.le_of_lt_succ less)) missing
  | false =>
    by_cases nothing : swept.next = []
    · right
      refine ⟨⟨nearest, levels, bounded, fun _ v n far _ => ?_, fun raised => ?_⟩, fun some_ =>
        absurd nothing some_⟩
      · have same : ∀ v, v ∈ swept.seen ↔ v ∈ region.seen := fun v => by
          rw [was.seen_iff, nothing]
          simp
        exact (same v).mpr (walking.nearest.all_of_closed
          (fun u last v next => (same v).mp (closed hit u last v next)) far)
      · exact absurd (hit.symm.trans raised) Bool.false_ne_true
    · left
      have longer : (region.take swept).levels = region.levels ++ [swept.next] := by
        rw [Region.take, if_neg fun empty => nothing (List.isEmpty_iff.mp empty)]
      have length : (region.take swept).levels.length = region.levels.length + 1 := by
        rw [longer, List.length_append, List.length_singleton]
      refine ⟨nothing, ⟨?_, bounded, hit⟩, length, ?_⟩
      · rw [length, longer]
        refine ⟨grown.held_iff, grown.nodup, grown.far, fun v n far within => ?_, ?_⟩
        · exact walking.nearest.full_of_closed was.seen_iff (closed hit) far within
        · rw [← longer, length]
          exact Nat.le_succ _
      · rw [longer, layer_length]

/-- **The levels that are left**, where nothing has been refused. -/
theorem Walking.walkFrom (answers : Answers visit taken) (s : τ)
    (walking : Walking (Takes tables plane bounds.dirs bounds.ty taken) seed bounds.budget region)
    (depth : region.levels.length + left = bounds.depth) : ∃ r region' s',
    Compact.walkFrom visit tables plane bounds left
      (layer seed region.levels region.levels.length) region s =
        .ok (region', s') ∧
      Ends (Takes tables plane bounds.dirs bounds.ty taken) seed bounds.depth bounds.budget
        region' r := by
  induction left generalizing region s with
  | zero =>
    refine ⟨region.levels.length, region, s, rfl, walking.nearest, depth.le, walking.bounded, ?_,
      fun raised => ?_⟩
    · exact fun _ v n far within => walking.nearest.full v n far (within.trans depth.ge)
    · exact absurd (walking.unhit.symm.trans raised) Bool.false_ne_true
  | succ left ih =>
    obtain ⟨swept, s₁, was, walked⟩ := walkFrom_succ answers tables plane bounds left
      (layer seed region.levels region.levels.length) region s
    have room : region.levels.length < bounds.depth := by omega
    obtain ⟨some_, next, length, last⟩ | ⟨ends, hit⟩ := walking.level (fun v => mem_targets) was room
    · rw [walked, if_neg fun empty => some_ (List.isEmpty_iff.mp empty), ← last, ← length]
      exact ih s₁ next (by omega)
    · rw [walked]
      split_ifs with nothing
      · exact ⟨_, _, s₁, rfl, ends⟩
      · obtain ⟨s', stayed⟩ :=
          ends.stays (hit fun empty => nothing (List.isEmpty_iff.mpr empty)) answers tables plane
          left swept.next s₁
        exact ⟨_, _, s', stayed, ends⟩

/-- A region in breadth-first order: each level the nodes at its distance, none farther than one
that is missing. -/
structure BreadthFirst (far : NodeId → ℕ → Prop) (seed : NodeId) (depth : ℕ) (budget : ℕ∞)
    (region : Region) : Prop where
  distance : ∀ i, ∀ v ∈ region.levels[i]?.getD [], i < depth ∧ far v (i + 1)
  once : (seed :: region.levels.flatten).Nodup
  seen : ∀ v, v ∈ region.seen ↔ v = seed ∨ v ∈ region.levels.flatten
  bounded : (region.seen.size : ℕ∞) ≤ max budget 1
  nearest : ∀ u ∈ region.seen, ∀ v, v ∉ region.seen → ∀ m n, far u m → far v n → m ≤ n
  hit : region.budgetHit = true ↔ ∃ v n, far v n ∧ n ≤ depth ∧ v ∉ region.seen
  unlimited : budget = ⊤ → ∀ i < depth, ∀ v, v ∈ region.levels[i]?.getD [] ↔ far v (i + 1)

theorem Ends.breadthFirst (ends : Ends step seed depth budget region r) :
    BreadthFirst (Distance step seed) seed depth budget region := by
  have unhit_of_top : budget = ⊤ → region.budgetHit = false := by
    rintro rfl
    refine Bool.eq_false_iff.mpr fun raised => ?_
    exact absurd (top_le_iff.mp (ends.missing raised).1) (ENat.natCast_ne_top _)
  refine ⟨fun i v among => ⟨?_, ends.nearest.far (i + 1) v among⟩, ends.nearest.nodup,
    ends.nearest.held_iff, ends.bounded,
    fun u inside v missing m n => ends.nearest.le_of_missing inside missing, ⟨fun raised => ?_, ?_⟩,
    fun top i room v =>
    ⟨ends.nearest.far (i + 1) v, fun far => ?_⟩⟩
  · refine Nat.lt_of_not_le fun beyond => ?_
    rw [List.getElem?_eq_none (ends.within.trans beyond)] at among
    cases among
  · obtain ⟨-, within, v, missing, far⟩ := ends.missing raised
    exact ⟨v, r + 1, far, within, missing⟩
  · rintro ⟨v, n, far, within, missing⟩
    cases hit : region.budgetHit with
    | true => rfl
    | false => exact absurd (ends.whole hit v n far within) missing
  · exact (ends.nearest.mem_layer (ends.whole (unhit_of_top top) v _ far room)).mpr far

theorem walking_start : Walking step seed budget ⟨[], {seed}, false⟩ where
  nearest := nearest_start.congr fun v => by
    show v ∈ (({seed} : ExtTreeSet NodeId compare)) ↔ v = seed
    rw [ExtTreeSet.singleton_eq_insert, ExtTreeSet.mem_insert, compare_eq_iff_eq, eq_comm]
    simp
  bounded := le_max_right _ _
  unhit := rfl

/-- **The walk is breadth-first and nearest-first.** Where the visitor answers by a fixed test,
whatever it notes, the walk ends with a region in breadth-first order, by the distances over the
hops that the test takes. -/
theorem walk_breadthFirst (answers : Answers visit taken) (tables : Tables) (plane : PlaneId)
    (seed : NodeId) (bounds : Bounds) (s : τ) :
      ∃ region s', walk visit tables plane seed bounds s = .ok (region, s') ∧
      BreadthFirst (Distance (Takes tables plane bounds.dirs bounds.ty taken) seed) seed
        bounds.depth bounds.budget
        region := by
  obtain ⟨r, region, s', walked, ends⟩ := walking_start.walkFrom answers s (Nat.zero_add bounds.depth)
  exact ⟨region, s', walked, ends.breadthFirst⟩

/-- A visitor that follows every hop and counts them. -/
def countHops : Hop → StateT ℕ (Except Empty) Step := fun _ n => .ok (.take, n + 1)

/-- Two edges from node 1 to node 2, a loop at node 2, and edges from 1 to 3, from 3 to 4 and from 2
to 5. -/
def loopedPlane : Tables :=
  [(1, 1, 2), (2, 1, 2), (3, 2, 2), (4, 1, 3), (5, 3, 4), (6, 2, 5)].foldl
    (fun tables (id, src, dst) => tables.applyAll (edgeWrites 0 id ⟨src, dst, 1, ∅⟩)) .empty

/-- The second edge to 2 and the loop are offered and bring nothing new; at four nodes the budget
strikes. -/
theorem countHops_breadthFirst : ∃ region,
    walk countHops loopedPlane 0 1 ⟨[.out], none, 3, 4⟩ 0 = .ok (region, 6) ∧
      (region.levels, region.budgetHit) = ([[2, 3], [5]], true) ∧
      BreadthFirst (Distance (Takes loopedPlane 0 [.out] none fun _ _ _ _ => true) 1) 1 3 4
        region := by
  have answers : Answers countHops fun _ _ _ _ => true := fun _ n => ⟨n + 1, rfl⟩
  obtain ⟨region, n, walked, nearest⟩ :=
    walk_breadthFirst answers loopedPlane 0 1 ⟨[.out], none, 3, 4⟩ 0
  have ends : (walk countHops loopedPlane 0 1 ⟨[.out], none, 3, 4⟩ 0).toOption.map
      (fun run => ((run.1.levels, run.1.budgetHit), run.2)) = some (([[2, 3], [5]], true), 6) := by
    decide +kernel
  rw [walked] at ends
  obtain ⟨shape, rfl⟩ := Prod.mk.inj (Option.some.inj ends)
  exact ⟨region, walked, shape, nearest⟩

end DrStrange.Compact
