/-
**Expansions of bounded length: every walk once.**

The iterator keeps a stack of rows to be expanded and owes at most one error. What it yields is a
traversal of the tree of walks, a row before the walks that go on from it and the last neighbour first
(`drain_eq`). So it ends, and it yields every walk once: a walk is the sequence of the adjacency
entries that it takes (`expandVar_walks`).
-/

import DrStrange.Compute.Row
import DrStrange.Api.Reachable

namespace DrStrange.Compute

open Std DrStrange.Graph Lib

/-- The iterator of a bounded expansion: the rows to be expanded with their depths, the next one
first, and an error owed after the row it belongs to. -/
structure ExpandVar where
  stack : List (Row × ℕ)
  pending : Option Error

def ExpandVar.new (start : Row) : ExpandVar := ⟨[(start, 0)], none⟩

/-- Pushes the hops of a row, the last neighbour on top. -/
def pushHops (row : Row) (depth : ℕ) (stack : List (Row × ℕ)) (ns : List Neighbor) :
    List (Row × ℕ) :=
  ns.foldl (fun stack n => (row.step n.edge n.node, depth + 1) :: stack) stack

variable {row : Row} {stack : List (Row × ℕ)} {depth : ℕ} {walk : List ℕ} {hops ns : List Neighbor}

theorem pushHops_eq :
    pushHops row depth stack ns =
      (ns.map fun n => (row.step n.edge n.node, depth + 1)).reverse ++ stack := by
  unfold pushHops
  induction ns generalizing stack with
  | nil => rfl
  | cons n ns ih => simp [ih]

section

variable (reader : GraphReader) (dir : Dir) (ty : Option String) (min max : ℕ)

/-! ### The iterator -/

/-- One row popped: the stack with its hops pushed, or the error of reading them. -/
def ExpandVar.expand (row : Row) (depth : ℕ) (stack : List (Row × ℕ)) : ExpandVar :=
  if depth < max then
    match reader.neighbors row.head dir ty with
    | .error e => ⟨stack, some e⟩
    | .ok ns => ⟨pushHops row depth stack ns, none⟩
  else ⟨stack, none⟩

/-- How many walks of at most so many hops go on from a node. -/
def walksFrom : ℕ → NodeId → ℕ
  | 0, _ => 1
  | left + 1, head =>
    match reader.neighbors head dir ty with
    | .error _ => 1
    | .ok ns => 1 + (ns.map fun n => walksFrom left n.node).sum

/-- How many walks a stack still leads to. -/
def walksLeft (stack : List (Row × ℕ)) : ℕ :=
  (stack.map fun entry => walksFrom reader dir ty (max - entry.2) entry.1.head).sum

variable {reader dir ty min max}

theorem walksLeft_cons :
    walksLeft reader dir ty max ((row, depth) :: stack) =
      1 + walksLeft reader dir ty max (ExpandVar.expand reader dir ty max row depth stack).stack := by
  unfold ExpandVar.expand
  split_ifs with deeper
  · obtain ⟨left, same⟩ : ∃ left, max - depth = left + 1 := ⟨max - depth - 1, by omega⟩
    have next : max - (depth + 1) = left := by omega
    simp only [walksLeft, List.map_cons, List.sum_cons, same, walksFrom]
    cases reader.neighbors row.head dir ty with
    | error e => rfl
    | ok ns =>
      simp only [pushHops_eq, List.map_append, List.map_reverse, List.map_map, List.sum_append,
        List.sum_reverse, Function.comp_def, next]
      exact Nat.add_assoc _ _ _
  · have last : max - depth = 0 := by omega
    simp [walksLeft, last, walksFrom]

variable (reader dir ty min max)

/-- The loop of `next`: it pops rows until one is emitted. -/
def ExpandVar.loop (stack : List (Row × ℕ)) : Option Item × ExpandVar :=
  match stack with
  | [] => (none, ⟨[], none⟩)
  | (row, depth) :: rest =>
    let expanded := expand reader dir ty max row depth rest
    if min ≤ depth ∧ depth ≤ max then (some (.ok row), expanded)
    else
      match expanded.pending with
      | some e => (some (.error e), { expanded with pending := none })
      | none => loop expanded.stack
termination_by walksLeft reader dir ty max stack
decreasing_by
  have : walksLeft reader dir ty max ((row, depth) :: rest) =
      1 + walksLeft reader dir ty max (ExpandVar.expand reader dir ty max row depth rest).stack :=
    walksLeft_cons
  omega

def ExpandVar.next (it : ExpandVar) : Option Item × ExpandVar :=
  match it.pending with
  | some e => (some (.error e), { it with pending := none })
  | none => loop reader dir ty min max it.stack

/-- What bounds the items that are still to come. -/
def ExpandVar.size (it : ExpandVar) : ℕ :=
  2 * walksLeft reader dir ty max it.stack + it.pending.toList.length

variable {reader dir ty min max} {it : ExpandVar} {item : Item}

theorem ExpandVar.expand_size :
    (expand reader dir ty max row depth stack).size reader dir ty max <
      2 * walksLeft reader dir ty max ((row, depth) :: stack) := by
  have owed : (expand reader dir ty max row depth stack).pending.toList.length ≤ 1 := by
    cases (expand reader dir ty max row depth stack).pending <;> simp
  have left : walksLeft reader dir ty max ((row, depth) :: stack) =
      1 + walksLeft reader dir ty max (expand reader dir ty max row depth stack).stack :=
    walksLeft_cons
  unfold size
  omega

theorem ExpandVar.loop_size (pulled : loop reader dir ty min max stack = (some item, it)) :
    it.size reader dir ty max < 2 * walksLeft reader dir ty max stack := by
  fun_induction loop reader dir ty min max stack with
  | case1 => cases pulled
  | case2 row depth rest expanded inside =>
    rw [← (Prod.mk.inj pulled).2]
    exact expand_size
  | case3 row depth rest expanded outside e owed =>
    rw [← (Prod.mk.inj pulled).2]
    have less : expanded.size reader dir ty max < _ := expand_size
    unfold size at less ⊢
    simp only [Option.toList_none, List.length_nil]
    omega
  | case4 row depth rest expanded outside none ih =>
    have less : expanded.size reader dir ty max < _ := expand_size
    have later := ih pulled
    unfold size at less
    omega

theorem ExpandVar.next_size {after : ExpandVar}
    (pulled : it.next reader dir ty min max = (some item, after)) :
    after.size reader dir ty max < it.size reader dir ty max := by
  unfold next at pulled
  cases owed : it.pending with
  | some e =>
    rw [owed] at pulled
    cases pulled
    simp [size, owed]
  | none =>
    rw [owed] at pulled
    have less := loop_size pulled
    simpa [size, owed] using less

variable (reader dir ty min max)

/-- Every item, pulled one by one to the end. -/
def ExpandVar.drain (it : ExpandVar) : List Item :=
  match _pulled : it.next reader dir ty min max with
  | (none, _) => []
  | (some item, after) => item :: drain after
termination_by it.size reader dir ty max
decreasing_by exact next_size _pulled

/-! ### The tree of walks -/

/-- The item of a walk that ends at a row, if its length is asked for. -/
def emitted (depth : ℕ) (row : Row) : List (List ℕ × Item) :=
  if min ≤ depth ∧ depth ≤ max then [([], .ok row)] else []

/-- What a row leads to within so many hops: each item with the positions of the entries that its walk
takes, in the order in which the items are yielded. -/
def visits : ℕ → ℕ → Row → List (List ℕ × Item)
  | 0, depth, row => emitted min max depth row
  | left + 1, depth, row =>
    emitted min max depth row ++
      match reader.neighbors row.head dir ty with
      | .error e => [([], .error e)]
      | .ok ns => ns.zipIdx.reverse.flatMap fun hop =>
        (visits left (depth + 1) (row.step hop.1.edge hop.1.node)).map (Prod.map (hop.2 :: ·) id)

/-- What a stack leads to. -/
def stackItems (stack : List (Row × ℕ)) : List Item :=
  stack.flatMap fun entry =>
    (visits reader dir ty min max (max - entry.2) entry.2 entry.1).map Prod.snd

variable {reader dir ty min max}

theorem map_emitted :
    (emitted min max depth row).map Prod.snd =
      if min ≤ depth ∧ depth ≤ max then [.ok row] else [] := by
  unfold emitted
  split_ifs <;> rfl

theorem stackItems_cons :
    stackItems reader dir ty min max ((row, depth) :: stack) =
      (if min ≤ depth ∧ depth ≤ max then [.ok row] else []) ++
        ((ExpandVar.expand reader dir ty max row depth stack).pending.toList.map .error ++
          stackItems reader dir ty min max
            (ExpandVar.expand reader dir ty max row depth stack).stack) := by
  rw [stackItems, List.flatMap_cons, ExpandVar.expand]
  by_cases deeper : depth < max
  · rw [if_pos deeper]
    obtain ⟨left, same⟩ : ∃ left, max - depth = left + 1 := ⟨max - depth - 1, by omega⟩
    have next : max - (depth + 1) = left := by omega
    simp only [same, visits, List.map_append, map_emitted, List.append_assoc]
    congr 1
    cases reader.neighbors row.head dir ty with
    | error e => rfl
    | ok ns =>
      have names : ns.reverse = ns.zipIdx.reverse.map Prod.fst := by
        rw [List.map_reverse, List.zipIdx_map_fst]
      simp only [pushHops_eq, ← List.map_reverse, names, stackItems, List.flatMap_append,
        List.flatMap_map, List.map_flatMap, List.map_map, Function.comp_def, next,
        Option.toList_none, List.map_nil, List.nil_append]
      rfl
  · rw [if_neg deeper]
    have last : max - depth = 0 := by omega
    simp only [last, visits, map_emitted]
    rfl

theorem ExpandVar.loop_items {stack : List (Row × ℕ)} :
    stackItems reader dir ty min max stack =
      match loop reader dir ty min max stack with
      | (none, _) => []
      | (some item, it) => item :: (it.pending.toList.map .error ++
          stackItems reader dir ty min max it.stack) := by
  fun_induction loop reader dir ty min max stack with
  | case1 => rfl
  | case2 row depth rest expanded inside =>
    rw [stackItems_cons, if_pos inside]
    rfl
  | case3 row depth rest expanded outside e owed =>
    have pending : (expand reader dir ty max row depth rest).pending = some e := owed
    rw [stackItems_cons, if_neg outside, pending]
    rfl
  | case4 row depth rest expanded outside none ih =>
    have pending : (expand reader dir ty max row depth rest).pending = .none := none
    rw [stackItems_cons, if_neg outside, ← ih, pending]
    rfl

/-- **What the iterator yields**: the error it owes, and what its stack leads to. -/
theorem ExpandVar.drain_eq :
    it.drain reader dir ty min max =
      it.pending.toList.map .error ++ stackItems reader dir ty min max it.stack := by
  fun_induction drain reader dir ty min max it with
  | case1 it after pulled =>
    unfold next at pulled
    cases owed : it.pending with
    | some e => simp [owed] at pulled
    | none =>
      rw [owed] at pulled
      rw [loop_items, show loop reader dir ty min max it.stack = _ from pulled]
      rfl
  | case2 it item after pulled ih =>
    rw [ih]
    unfold next at pulled
    cases owed : it.pending with
    | some e =>
      rw [owed] at pulled
      cases pulled
      rfl
    | none =>
      rw [owed] at pulled
      rw [@loop_items _ _ _ _ _ it.stack, show loop reader dir ty min max it.stack = _ from pulled]
      rfl

/-! ### Walks -/

variable (reader dir ty)

/-- A walk from a node: the position of the adjacency entry that each hop takes, and the entries. -/
inductive Walk : NodeId → List ℕ → List Neighbor → Prop where
  | nil {head : NodeId} : Walk head [] []
  | cons {head : NodeId} {ns : List Neighbor} {i : ℕ} {n : Neighbor} {walk : List ℕ}
      {hops : List Neighbor} (read : reader.neighbors head dir ty = .ok ns) (here : ns[i]? = some n)
      (rest : Walk n.node walk hops) : Walk head (i :: walk) (n :: hops)

/-- The row at the end of a walk. -/
def Row.along (row : Row) (hops : List Neighbor) : Row :=
  hops.foldl (fun row n => row.step n.edge n.node) row

/-- The trail of the row at the end of a walk is the walk. -/
theorem Row.path_along :
    (row.along hops).path = row.path ++ hops.map fun n => (n.edge, n.node) := by
  induction hops generalizing row with
  | nil => simp [along]
  | cons n hops ih =>
    rw [show row.along (n :: hops) = (row.step n.edge n.node).along hops from rfl, ih]
    simp [path, step]

/-- A walk before the walks that go on from it, the last neighbour first, and an error after the row
it belongs to. -/
def Before (a b : List ℕ × Item) : Prop :=
  List.Lex (· > ·) a.1 b.1 ∨ (a.1 = b.1 ∧ a.2.isOk ∧ ¬ b.2.isOk)

variable {reader dir ty} {left : ℕ}

theorem Before.cons {i : ℕ} {a b : List ℕ × Item} (before : Before a b) :
    Before (Prod.map (i :: ·) id a) (Prod.map (i :: ·) id b) := by
  rcases before with less | ⟨same, kinds⟩
  · exact .inl (.cons less)
  · exact .inr ⟨congrArg (i :: ·) same, kinds⟩

theorem emitted_pairwise : (emitted min max depth row).Pairwise Before := by
  unfold emitted
  split_ifs <;> simp

theorem visits_pairwise : (visits reader dir ty min max left depth row).Pairwise Before := by
  induction left generalizing depth row with
  | zero => exact emitted_pairwise
  | succ left ih =>
    rw [visits, List.pairwise_append]
    refine ⟨emitted_pairwise, ?_, ?_⟩
    · cases reader.neighbors row.head dir ty with
      | error e => exact List.pairwise_singleton _ _
      | ok ns =>
        refine List.pairwise_flatMap.mpr ⟨fun hop _ => ?_, ?_⟩
        · exact List.pairwise_map.mpr (ih.imp Before.cons)
        · refine List.pairwise_reverse.mpr ?_
          have up : ns.zipIdx.Pairwise fun a b => a.2 < b.2 := by
            refine List.pairwise_map.mp ?_
            rw [List.zipIdx_map_snd]
            exact List.pairwise_lt_range'
          refine up.imp fun {a b} less x member y member' => ?_
          obtain ⟨x, -, rfl⟩ := List.mem_map.mp member
          obtain ⟨y, -, rfl⟩ := List.mem_map.mp member'
          exact .inl (.rel less)
    · intro a member b member'
      unfold emitted at member
      split_ifs at member with inside
      · obtain rfl := List.mem_singleton.mp member
        cases read : reader.neighbors row.head dir ty with
        | error e =>
          rw [read] at member'
          obtain rfl := List.mem_singleton.mp member'
          exact .inr ⟨rfl, rfl, nofun⟩
        | ok ns =>
          rw [read] at member'
          obtain ⟨hop, -, member'⟩ := List.mem_flatMap.mp member'
          obtain ⟨x, -, rfl⟩ := List.mem_map.mp member'
          exact .inl .nil
      · cases member

theorem mem_emitted :
    (walk, item) ∈ emitted min max depth row ↔
      (min ≤ depth ∧ depth ≤ max) ∧ walk = [] ∧ item = .ok row := by
  unfold emitted
  split_ifs with inside <;> simp [inside]

/-- A hop of the tree of walks: the entry and the item below it. -/
theorem mem_visits_succ (read : reader.neighbors row.head dir ty = .ok ns) :
    (walk, item) ∈ visits reader dir ty min max (left + 1) depth row ↔
      (walk, item) ∈ emitted min max depth row ∨
      ∃ i n rest, walk = i :: rest ∧ ns[i]? = some n ∧
        (rest, item) ∈ visits reader dir ty min max left (depth + 1) (row.step n.edge n.node) := by
  rw [visits, read]
  simp only [List.mem_append, List.mem_flatMap, List.mem_reverse, List.mem_map, Prod.exists,
    List.mem_zipIdx_iff_getElem?, Prod.map_apply, id_eq, Prod.mk.injEq]
  refine or_congr_right ⟨?_, ?_⟩
  · rintro ⟨n, i, here, rest, item', below, rfl, rfl⟩
    exact ⟨i, n, rest, rfl, here, below⟩
  · rintro ⟨i, n, rest, rfl, here, below⟩
    exact ⟨n, i, here, rest, item, below, rfl, rfl⟩

/-- The rows are the walks whose length is asked for. -/
theorem mem_visits_ok {stop : Row} :
    (walk, .ok stop) ∈ visits reader dir ty min max left depth row ↔
      ∃ hops, Walk reader dir ty row.head walk hops ∧ hops.length ≤ left ∧
        (min ≤ depth + hops.length ∧ depth + hops.length ≤ max) ∧ stop = row.along hops := by
  induction left generalizing depth row walk with
  | zero =>
    rw [visits, mem_emitted]
    constructor
    · rintro ⟨inside, rfl, same⟩
      exact ⟨[], .nil, le_rfl, inside, Except.ok.inj same⟩
    · rintro ⟨hops, taken, short, inside, rfl⟩
      obtain rfl := List.length_eq_zero_iff.mp (Nat.le_zero.mp short)
      cases taken
      exact ⟨inside, rfl, rfl⟩
  | succ left ih =>
    constructor
    · intro member
      cases read : reader.neighbors row.head dir ty with
      | error e =>
        rw [visits, read, List.mem_append, mem_emitted, List.mem_singleton] at member
        rcases member with ⟨inside, rfl, same⟩ | same
        · exact ⟨[], .nil, Nat.zero_le _, inside, Except.ok.inj same⟩
        · cases (Prod.mk.inj same).2
      | ok ns =>
        rw [mem_visits_succ read, mem_emitted] at member
        rcases member with ⟨inside, rfl, same⟩ | ⟨i, n, rest, rfl, here, below⟩
        · exact ⟨[], .nil, Nat.zero_le _, inside, Except.ok.inj same⟩
        · obtain ⟨hops, taken, short, inside, rfl⟩ := ih.mp below
          refine ⟨n :: hops, .cons read here taken, Nat.succ_le_succ short, ?_, rfl⟩
          rw [List.length_cons]
          omega
    · rintro ⟨hops, taken, short, inside, rfl⟩
      cases taken with
      | nil =>
        rw [visits, List.mem_append, mem_emitted]
        exact .inl ⟨inside, rfl, rfl⟩
      | cons read here rest =>
        rw [mem_visits_succ read]
        refine .inr ⟨_, _, _, rfl, here, ih.mpr ⟨_, rest, Nat.le_of_succ_le_succ short, ?_, rfl⟩⟩
        rw [List.length_cons] at inside
        omega

/-- The errors are those of the walks that could go on and whose end cannot be read. -/
theorem mem_visits_error {e : Error} :
    (walk, .error e) ∈ visits reader dir ty min max left depth row ↔
      ∃ hops, Walk reader dir ty row.head walk hops ∧ hops.length < left ∧
        reader.neighbors (row.along hops).head dir ty = .error e := by
  induction left generalizing depth row walk with
  | zero =>
    rw [visits, mem_emitted]
    constructor
    · rintro ⟨-, -, same⟩
      cases same
    · rintro ⟨hops, -, short, -⟩
      exact absurd short (Nat.not_lt_zero _)
  | succ left ih =>
    constructor
    · intro member
      cases read : reader.neighbors row.head dir ty with
      | error e' =>
        rw [visits, read, List.mem_append, mem_emitted, List.mem_singleton] at member
        rcases member with ⟨-, -, same⟩ | same
        · cases same
        · obtain ⟨rfl, failed⟩ := Prod.mk.inj same
          rw [← Except.error.inj failed] at read
          exact ⟨[], .nil, Nat.zero_lt_succ _, read⟩
      | ok ns =>
        rw [mem_visits_succ read, mem_emitted] at member
        rcases member with ⟨-, -, same⟩ | ⟨i, n, rest, rfl, here, below⟩
        · cases same
        · obtain ⟨hops, taken, short, failed⟩ := ih.mp below
          exact ⟨n :: hops, .cons read here taken, Nat.succ_lt_succ short, failed⟩
    · rintro ⟨hops, taken, short, failed⟩
      cases taken with
      | nil =>
        rw [visits, show reader.neighbors row.head dir ty = .error e from failed, List.mem_append]
        exact .inr (List.mem_singleton_self _)
      | cons read here rest =>
        rw [mem_visits_succ read]
        exact .inr ⟨_, _, _, rfl, here, ih.mpr ⟨_, rest, Nat.lt_of_succ_lt_succ short, failed⟩⟩

/-! ### Pulling the iterator -/

variable (reader dir ty min max)

/-- The iterator after so many pulls. -/
def ExpandVar.pulled (it : ExpandVar) : ℕ → ExpandVar
  | 0 => it
  | k + 1 => ((pulled it k).next reader dir ty min max).2

variable {reader dir ty min max} {k : ℕ}

theorem ExpandVar.drain_next {it : ExpandVar} :
    it.drain reader dir ty min max =
      match it.next reader dir ty min max with
      | (none, _) => []
      | (some item, after) => item :: after.drain reader dir ty min max := by
  rw [drain]
  split <;> simp_all

theorem ExpandVar.drain_of_ended (ended : (it.next reader dir ty min max).1 = none) :
    (it.next reader dir ty min max).2.drain reader dir ty min max = [] := by
  unfold next at ended ⊢
  cases owed : it.pending with
  | some e => simp [owed] at ended
  | none =>
    simp only [owed] at ended ⊢
    generalize it.stack = stack at ended ⊢
    fun_induction loop reader dir ty min max stack with
    | case1 => simp [drain_eq, stackItems]
    | case2 => cases ended
    | case3 => cases ended
    | case4 row depth rest expanded outside none ih => exact ih ended

theorem ExpandVar.drain_pulled :
    (it.pulled reader dir ty min max k).drain reader dir ty min max =
      (it.drain reader dir ty min max).drop k := by
  induction k with
  | zero => rfl
  | succ k ih =>
    rw [pulled, ← List.drop_drop, ← ih, @drain_next _ _ _ _ _ (it.pulled reader dir ty min max k)]
    cases next : (it.pulled reader dir ty min max k).next reader dir ty min max with
    | mk item after =>
      cases item with
      | none =>
        have ended : ((it.pulled reader dir ty min max k).next reader dir ty min max).1 = none := by
          rw [next]
        have empty := drain_of_ended ended
        rw [next] at empty
        exact empty
      | some item => rfl

/-- A pull yields the next of the items, and nothing ever after the last of them. -/
theorem ExpandVar.next_pulled :
    ((it.pulled reader dir ty min max k).next reader dir ty min max).1 =
      (it.drain reader dir ty min max)[k]? := by
  rw [← Nat.add_zero k, ← List.getElem?_drop, ← drain_pulled, drain_next, Nat.add_zero]
  cases (it.pulled reader dir ty min max k).next reader dir ty min max with
  | mk item after => cases item <;> rfl

end

/-! ### The walks of a graph -/

section

variable {tables : Tables} {plane : PlaneId} {dir : Dir} {ty : Option String} {node : NodeId}
  {n : Neighbor} {side : Side}

/-- An edge of the type asked for, from one node to another. -/
def Tables.Joins (tables : Tables) (plane : PlaneId) (ty : Option String) (edge : EdgeId)
    (start stop : NodeId) : Prop :=
  ∃ row, tables.edges[(plane, edge)]? = some row ∧ row.src = start ∧ row.dst = stop ∧
    ∀ name ∈ ty, lookupEdgeType tables name = some row.ty

theorem mem_adjEntries {key : AdjKey} :
    key ∈ adjEntries tables plane node side ↔
      key ∈ tables.adj side ∧ key.1 = plane ∧ key.2.1 = node := by
  simp [adjEntries]

/-- The hops that one side of a node gives. -/
def sideHops (tables : Tables) (plane : PlaneId) (node : NodeId) (ty : Option String) (side : Side) :
    List Neighbor :=
  ((adjEntries tables plane node side).filter fun key =>
    ty.all fun name => lookupEdgeType tables name = some key.2.2.1).map fun key =>
      ⟨key.2.2.2.1, key.2.2.2.2⟩

theorem neighbors_eq :
    neighbors tables plane node dir ty = dir.sides.flatMap (sideHops tables plane node ty) := by
  cases ty with
  | none => rfl
  | some name =>
    cases known : lookupEdgeType tables name with
    | none => simp [neighbors, known, sideHops]
    | some id =>
      have typed : sideHops tables plane node (some name) = fun side =>
          ((adjEntries tables plane node side).filter fun key => key.2.2.1 = id).map fun key =>
            ⟨key.2.2.2.1, key.2.2.2.2⟩ := by
        funext side
        simp [sideHops, known, eq_comm]
      rw [typed]
      simp [neighbors, known]

/-- A side of a node lists the edges it files under the node. -/
theorem mem_sideHops (exact : Exact tables) :
    n ∈ sideHops tables plane node ty side ↔
      ∃ row, tables.edges[(plane, n.edge)]? = some row ∧ row.near side = node ∧
        row.far side = n.node ∧ ∀ name ∈ ty, lookupEdgeType tables name = some row.ty := by
  simp only [sideHops, List.mem_map, List.mem_filter, mem_adjEntries, Option.all_eq_true,
    decide_eq_true_eq]
  constructor
  · rintro ⟨⟨p, near, t, far, edge⟩, ⟨⟨member, rfl, rfl⟩, typed⟩, rfl⟩
    obtain ⟨row, found, rfl, rfl, rfl⟩ := (exact.adj side p near t far edge).mp member
    exact ⟨row, found, rfl, rfl, typed⟩
  · rintro ⟨row, found, rfl, far, typed⟩
    refine ⟨(plane, row.near side, row.ty, row.far side, n.edge), ⟨⟨?_, rfl, rfl⟩, typed⟩, ?_⟩
    · exact (exact.adj side _ _ _ _ _).mpr ⟨row, found, rfl, rfl, rfl⟩
    · rw [far]

theorem sideHops_nodup (exact : Exact tables) : (sideHops tables plane node ty side).Nodup := by
  refine List.Nodup.map_on ?_ ((ExtTreeMap.nodup_keys.filter _).filter _)
  intro key member key' member' same
  obtain ⟨p, near, t, far, edge⟩ := key
  obtain ⟨p', near', t', far', edge'⟩ := key'
  simp only [List.mem_filter, mem_adjEntries, Neighbor.mk.injEq] at member member' same
  obtain ⟨⟨held, rfl, rfl⟩, -⟩ := member
  obtain ⟨⟨held', rfl, rfl⟩, -⟩ := member'
  obtain ⟨rfl, rfl⟩ := same
  obtain ⟨row, found, -, rfl, -⟩ := (exact.adj side _ _ t _ _).mp held
  obtain ⟨row', found', -, rfl, -⟩ := (exact.adj side _ _ t' _ _).mp held'
  rw [found, Option.some.injEq] at found'
  rw [found']

open Classical in
theorem count_sideHops (exact : Exact tables) :
    (sideHops tables plane node ty side).count n =
      if n ∈ sideHops tables plane node ty side then 1 else 0 := by
  split_ifs with member
  · exact List.count_eq_one_of_mem (sideHops_nodup exact) member
  · exact List.count_eq_zero_of_not_mem member

open Classical in
/-- A node's adjacency has one entry for each edge and each way asked for in which the edge leaves the
node, so a self-loop has two both ways. -/
theorem count_neighbors (exact : Exact tables) :
    (neighbors tables plane node dir ty).count n =
      (if dir ≠ .in ∧ Tables.Joins tables plane ty n.edge node n.node then 1 else 0) +
        if dir ≠ .out ∧ Tables.Joins tables plane ty n.edge n.node node then 1 else 0 := by
  have fwd : n ∈ sideHops tables plane node ty .fwd ↔
      Tables.Joins tables plane ty n.edge node n.node := mem_sideHops exact
  have rev : n ∈ sideHops tables plane node ty .rev ↔
      Tables.Joins tables plane ty n.edge n.node node := by
    refine (mem_sideHops exact).trans (exists_congr fun row => ?_)
    exact and_congr_right fun _ => and_left_comm
  rw [neighbors_eq]
  cases dir <;> simp [Dir.sides, count_sideHops exact, fwd, rev]

theorem eq_of_getElem? {α : Type} [DecidableEq α] {xs : List α} {x : α} {i j : ℕ}
    (once : xs.count x ≤ 1) (first : xs[i]? = some x) (second : xs[j]? = some x) : i = j := by
  obtain ⟨shortI, rfl⟩ := List.getElem?_eq_some_iff.mp first
  obtain ⟨shortJ, same⟩ := List.getElem?_eq_some_iff.mp second
  by_contra apart
  refine absurd ((List.duplicate_iff_two_le_count (x := xs[i]) (l := xs)).mp ?_) (by omega)
  rcases Nat.lt_or_gt_of_ne apart with less | greater
  · exact List.duplicate_iff_exists_distinct_get.mpr ⟨⟨i, shortI⟩, ⟨j, shortJ⟩, less, rfl, same.symm⟩
  · exact List.duplicate_iff_exists_distinct_get.mpr ⟨⟨j, shortJ⟩, ⟨i, shortI⟩, greater,
      same.symm, rfl⟩

/-- An entry stands once, unless it is a self-loop taken either way. -/
theorem count_neighbors_le (exact : Exact tables) (moves : dir = .both → node ≠ n.node) :
    (neighbors tables plane node dir ty).count n ≤ 1 := by
  rw [count_neighbors exact]
  split_ifs with leaves enters
  · obtain ⟨row, found, src, -⟩ := leaves.2
    obtain ⟨row', found', src', -⟩ := enters.2
    rw [found, Option.some.injEq] at found'
    subst found'
    cases dir with
    | out => exact absurd rfl enters.1
    | «in» => exact absurd rfl leaves.1
    | both => exact absurd (src.symm.trans src') (moves rfl)
  · exact le_rfl
  · exact le_rfl
  · exact Nat.zero_le _

/-- A walk is its hops, unless it takes a self-loop that counts both ways. -/
theorem Walk.unique {reader : GraphReader} (exact : Exact tables)
    (reads : ∀ node, reader.neighbors node dir ty = .ok (neighbors tables plane node dir ty))
    {head : NodeId} {walk' : List ℕ} (taken : Walk reader dir ty head walk hops)
    (taken' : Walk reader dir ty head walk' hops)
    (moves : dir = .both → (head :: hops.map Neighbor.node).IsChain (· ≠ ·)) : walk = walk' := by
  induction taken generalizing walk' with
  | nil =>
    cases taken'
    rfl
  | @cons head ns i n walk hops read here rest ih =>
    cases taken' with
    | @cons _ ns' i' _ walk' _ read' here' rest' =>
      rw [ih rest' fun both => (moves both).tail]
      rw [read, Except.ok.injEq] at read'
      subst read'
      rw [reads, Except.ok.injEq] at read
      subst read
      have once : (neighbors tables plane head dir ty).count n ≤ 1 :=
        count_neighbors_le exact fun both => (List.isChain_cons_cons.mp (moves both)).1
      rw [eq_of_getElem? once here here']

end

open Classical in
/-- **Draining a bounded expansion yields every walk of the lengths asked for once**, in preorder with
the last neighbour first: a row with the walk as its trail for each, and one error right after the row
of each walk that could go on and whose end cannot be read, or in its place where it is too short to
have a row. A walk is a sequence of adjacency entries. In a plane these are its edges, each once in
every direction asked for, so that a walk is the sequence of its edges and nodes unless it takes a
self-loop both ways. -/
theorem expandVar_walks (reader : GraphReader) (dir : Dir) (ty : Option String) (min max : ℕ)
    (start : Row) :
    (∃ items : List (List ℕ × Item),
      (∀ k, (((ExpandVar.new start).pulled reader dir ty min max k).next reader dir ty min max).1 =
        (items.map Prod.snd)[k]?) ∧
      items.Pairwise Before ∧
      (∀ walk row, (walk, .ok row) ∈ items ↔
        ∃ hops, Walk reader dir ty start.head walk hops ∧ min ≤ hops.length ∧ hops.length ≤ max ∧
          row = start.along hops) ∧
      ∀ walk e, (walk, .error e) ∈ items ↔
        ∃ hops, Walk reader dir ty start.head walk hops ∧ hops.length < max ∧
          reader.neighbors (start.along hops).head dir ty = .error e) ∧
    (∀ hops : List Neighbor,
      (start.along hops).path = start.path ++ hops.map fun n => (n.edge, n.node)) ∧
    ∀ (tables : Tables) (plane : PlaneId), Exact tables →
      (∀ node, reader.neighbors node dir ty = .ok (neighbors tables plane node dir ty)) →
      (∀ (node : NodeId) (n : Neighbor), (neighbors tables plane node dir ty).count n =
        (if dir ≠ .in ∧ Tables.Joins tables plane ty n.edge node n.node then 1 else 0) +
          if dir ≠ .out ∧ Tables.Joins tables plane ty n.edge n.node node then 1 else 0) ∧
      ∀ walk walk' hops, Walk reader dir ty start.head walk hops →
        Walk reader dir ty start.head walk' hops →
        (dir = .both → (start.head :: hops.map Neighbor.node).IsChain (· ≠ ·)) → walk = walk' := by
  refine ⟨⟨visits reader dir ty min max max 0 start, ?_, visits_pairwise, ?_, ?_⟩, ?_, ?_⟩
  · intro k
    rw [ExpandVar.next_pulled, ExpandVar.drain_eq]
    simp [ExpandVar.new, stackItems]
  · intro walk row
    rw [mem_visits_ok]
    refine exists_congr fun hops => and_congr_right fun _ => ?_
    rw [Nat.zero_add]
    exact ⟨fun ⟨_, inside, same⟩ => ⟨inside.1, inside.2, same⟩,
      fun ⟨long, short, same⟩ => ⟨short, ⟨long, short⟩, same⟩⟩
  · exact fun walk e => mem_visits_error
  · exact fun hops => Row.path_along
  · exact fun tables plane exact reads => ⟨fun node n => count_neighbors exact,
      fun walk walk' hops taken taken' moves => taken.unique exact reads taken' moves⟩

/-- A new store with one node and an edge from it to itself. -/
def loopTables : Tables :=
  (((Tables.empty.applyAll firstWrites).applyAll (internWrites .edgeType "T" 1)).applyAll
    (nodeWrites 0 1 ⟨none, [], ∅⟩)).applyAll (edgeWrites 0 1 ⟨1, 1, 1, ∅⟩)

theorem loopTables_exact : Exact loopTables := by
  have counted : (Tables.empty.applyAll firstWrites).next Dict.edgeType.counter = some 1 := rfl
  refine Exact.insertEdge (Exact.insertNode (sound_first.newName counted (by decide) rfl).exact
    ?_ rfl) ?_ ?_ ?_
  · simp [firstWrites, planeWrites, internWrites, Tables.apply, Tables.empty]
  · simp [firstWrites, planeWrites, internWrites, nodeWrites, labelWrites, keyWrites, Tables.apply,
      Tables.empty]
  · simp [nodeWrites, labelWrites, keyWrites, Tables.apply]
  · simp [nodeWrites, labelWrites, keyWrites, Tables.apply]

/-- The reader of a plane whose searches find nothing. -/
def plainReader (tables : Tables) (plane : PlaneId) : GraphReader :=
  planeReader tables plane (fun _ _ _ _ _ => .ok []) fun _ _ _ _ => .ok []

/-- A self-loop followed both ways is one edge, and gives two rows with one trail. -/
theorem selfLoop_twice :
    Exact loopTables ∧
      (ExpandVar.new (.start 1)).drain (plainReader loopTables 0) .both none 1 1 =
        [.ok ((Row.start 1).step 1 1), .ok ((Row.start 1).step 1 1)] := by
  refine ⟨loopTables_exact, ?_⟩
  rw [ExpandVar.drain_eq]
  decide

/-- The walks of one hop from the node with the self-loop, outwards: its one edge, once. -/
theorem expandVar_walks_selfLoop :
    ((neighbors loopTables 0 1 .out none).count ⟨1, 1⟩ = 1) ∧
      ∀ walk walk', Walk (plainReader loopTables 0) .out none 1 walk [⟨1, 1⟩] →
        Walk (plainReader loopTables 0) .out none 1 walk' [⟨1, 1⟩] → walk = walk' := by
  obtain ⟨-, -, plane⟩ := expandVar_walks (plainReader loopTables 0) .out none 1 1 (.start 1)
  obtain ⟨-, unique⟩ := plane loopTables 0 loopTables_exact fun _ => rfl
  exact ⟨by decide, fun walk walk' taken taken' => unique walk walk' _ taken taken' nofun⟩

end DrStrange.Compute
