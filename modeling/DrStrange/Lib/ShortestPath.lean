/-
**Shortest walks, by a queue of tentative distances.**

A search keeps for each node the least distance found and the edge it was found by, and a queue of the
nodes whose edges are still to be followed. What it has found are walks from the source
(`Tree.walk`), a node whose distance is final is queued or has had its edges followed (`Inv`), and so
the least entry of the queue bounds every walk to the target from below (`Inv.le_walk`). Each entry is
taken off or improves a distance, so the search ends (`explore_ends`), at a shortest walk
(`explore_solved`).
-/

import Mathlib

namespace DrStrange.Lib

variable {α ε : Type} [LinearOrder α]

/-! ### The search -/

structure Search (α ε : Type) [LinearOrder α] where
  dist : α → ℕ∞
  prev : α → Option (α × ε)
  heap : List (ℕ ×ₗ α)

def Search.start (source : α) : Search α ε :=
  ⟨Function.update (fun _ => ⊤) source 0, fun _ => none, [toLex (0, source)]⟩

/-- The least entry of a queue, ties to the lesser node, and the others. -/
def pop (heap : List (ℕ ×ₗ α)) : Option ((ℕ × α) × List (ℕ ×ₗ α)) :=
  heap.min?.map fun least => (ofLex least, heap.erase least)

/-- An edge that is followed from a node at some cost. -/
def relax (weight : ε → ℕ) (node : α) (cost : ℕ) (state : Search α ε) (hop : α × ε) : Search α ε :=
  if ((cost + weight hop.2 : ℕ) : ℕ∞) < state.dist hop.1 then
    ⟨Function.update state.dist hop.1 (cost + weight hop.2 : ℕ),
      Function.update state.prev hop.1 (some (node, hop.2)), toLex (cost + weight hop.2, hop.1) ::
      state.heap⟩
  else state

/-- The loop of a search, of so many rounds at most: until the target is taken off or nothing is
left. -/
def explore (succ : α → List (α × ε)) (weight : ε → ℕ) (target : α) :
    ℕ → Search α ε → Option (Search α ε)
  | 0, _ => none
  | fuel + 1, state =>
    match pop state.heap with
    | none => some state
    | some ((cost, node), heap) =>
      if node = target then some { state with heap := heap }
      else if state.dist node < cost then explore succ weight target fuel { state with heap := heap }
      else explore succ weight target fuel ((succ node).foldl (relax weight node cost) { state
        with heap := heap })

/-- The way back from a node to the source, in so many steps at most. -/
def walkBack (prev : α → Option (α × ε)) : ℕ → α → List α → List ε → Option (List α × List ε)
  | 0, _, _, _ => none
  | fuel + 1, node, nodes, edges =>
    match prev node with
    | some (before, edge) => walkBack prev fuel before (before :: nodes) (edge :: edges)
    | none => some (nodes, edges)

/-! ### Walks -/

/-- A walk by its hops: each is an edge and the node it leads to. -/
inductive Walk (succ : α → List (α × ε)) : α → List (α × ε) → α → Prop where
  | nil (a : α) : Walk succ a [] a
  | cons {a b : α} {hop : α × ε} {hops : List (α × ε)} (step : hop ∈ succ a)
      (rest : Walk succ hop.1 hops b) :
      Walk succ a (hop :: hops) b

def costOf (weight : ε → ℕ) (hops : List (α × ε)) : ℕ := (hops.map fun hop => weight hop.2).sum

/-- The hops from the source by which a node was found. -/
inductive Chain (prev : α → Option (α × ε)) (source : α) : List (α × ε) → α → Prop where
  | nil (first : prev source = none) : Chain prev source [] source
  | snoc {v p : α} {e : ε} {hops : List (α × ε)} (found : prev v = some (p, e))
      (rest : Chain prev source hops p) : Chain prev source (hops ++ [(v, e)]) v

variable {succ : α → List (α × ε)} {weight : ε → ℕ} {source target node a b : α} {cost fuel : ℕ}
  {state final : Search α ε} {hop : α × ε} {hops : List (α × ε)} {prev : α → Option (α × ε)}
  {heap : List (ℕ ×ₗ α)}

omit [LinearOrder α] in
theorem costOf_cons : costOf weight (hop :: hops) = weight hop.2 + costOf weight hops := rfl

omit [LinearOrder α] in
theorem costOf_snoc : costOf weight (hops ++ [hop]) = costOf weight hops + weight hop.2 := by
  simp [costOf]

omit [LinearOrder α] in
theorem Walk.snoc (walk : Walk succ a hops b) (step : hop ∈ succ b) :
    Walk succ a (hops ++ [hop]) hop.1 := by
  induction walk with
  | nil a => exact .cons step (.nil _)
  | cons first _ ih => exact .cons first (ih step)

omit [LinearOrder α] in
/-- The way back ends after as many steps as there are hops. -/
theorem Chain.walkBack (chain : Chain prev source hops a) (enough : hops.length < fuel)
    (nodes : List α) (edges : List ε) : Lib.walkBack prev fuel a (a :: nodes) edges =
      some (source :: (hops.map Prod.fst ++ nodes), hops.map Prod.snd ++ edges) := by
  induction chain generalizing fuel nodes edges with
  | nil first =>
    cases fuel with
    | zero => exact absurd enough (Nat.not_lt_zero _)
    | succ fuel =>
      rw [Lib.walkBack, first]
      rfl
  | @snoc v p e hops found rest ih =>
    cases fuel with
    | zero => exact absurd enough (Nat.not_lt_zero _)
    | succ fuel =>
      rw [List.length_append, List.length_singleton] at enough
      rw [Lib.walkBack, found]
      dsimp only
      rw [ih (by omega)]
      simp

/-! ### What was found -/

/-- What a search has found are walks from the source, and none of their edges shortens one. -/
structure Tree (succ : α → List (α × ε)) (weight : ε → ℕ) (source : α) (state : Search α ε) :
    Prop where
  zero : state.dist source = 0
  first : state.prev source = none
  linked : ∀ v p e, state.prev v = some (p, e) →
    (v, e) ∈ succ p ∧ state.dist p + weight e ≤ state.dist v
  chain : ∀ v, state.dist v ≠ ⊤ → ∃ hops, Chain state.prev source hops v

theorem Tree.walk (tree : Tree succ weight source state) (chain : Chain state.prev source hops a) :
    Walk succ source hops a ∧ (costOf weight hops : ℕ∞) ≤ state.dist a := by
  induction chain with
  | nil => exact ⟨.nil _, tree.zero ▸ le_rfl⟩
  | @snoc v p e hops found rest ih =>
    obtain ⟨step, le⟩ := tree.linked v p e found
    refine ⟨ih.1.snoc step, ?_⟩
    rw [costOf_snoc, Nat.cast_add]
    exact (add_le_add_left ih.2 _).trans le

/-- A nearer node's chain does not run through a farther one. -/
theorem Tree.chain_update (tree : Tree succ weight source state) {far : α} {found : Option (α × ε)}
    (chain : Chain state.prev source hops a) (nearer : state.dist a < state.dist far) :
    Chain (Function.update state.prev far found) source hops a := by
  have apart : source ≠ far := by
    rintro rfl
    rw [tree.zero] at nearer
    exact absurd nearer (not_lt.mpr zero_le)
  induction chain with
  | nil first => exact .nil ((Function.update_of_ne apart _ _).trans first)
  | @snoc v p e hops found rest ih =>
    have le := (tree.linked v p e found).2
    have other : v ≠ far := fun same => absurd nearer (same ▸ lt_irrefl _)
    refine .snoc ((Function.update_of_ne other _ _).trans found) (ih ?_)
    exact (le_self_add.trans le).trans_lt nearer

/-- A chain that runs through a node runs through it by the way that was found last. -/
theorem Chain.update {far : α} {found : Option (α × ε)} {path : List (α × ε)}
    (chain : Chain prev source hops a)
    (apart : source ≠ far) (new : Chain (Function.update prev far found) source path far) :
    ∃ hops, Chain (Function.update prev far found) source hops a := by
  induction chain with
  | nil first => exact ⟨[], .nil ((Function.update_of_ne apart _ _).trans first)⟩
  | @snoc v p e hops old rest ih =>
    by_cases same : v = far
    · exact ⟨path, same ▸ new⟩
    · obtain ⟨hops', before⟩ := ih
      exact ⟨_, .snoc ((Function.update_of_ne same _ _).trans old) before⟩

/-- **An edge that shortens the way to a node** keeps what was found a tree. -/
theorem Tree.relax (tree : Tree succ weight source state) (here : state.dist node = cost)
    (step : hop ∈ succ node) : Tree succ weight source (relax weight node cost state hop) := by
  unfold Lib.relax
  split
  · rename_i shorter
    obtain ⟨v, e⟩ := hop
    dsimp only at shorter ⊢
    have nearer : state.dist node < state.dist v := by
      rw [here]
      exact lt_of_le_of_lt (by exact_mod_cast Nat.le_add_right _ _) shorter
    have other : node ≠ v := fun same => absurd nearer (same ▸ lt_irrefl _)
    have apart : source ≠ v := by
      rintro rfl
      rw [tree.zero] at nearer
      exact absurd nearer (not_lt.mpr zero_le)
    refine ⟨(Function.update_of_ne apart _ _).trans tree.zero,
      (Function.update_of_ne apart _ _).trans tree.first, fun u p e' found => ?_, fun u finite => ?_⟩
    · dsimp only at found ⊢
      by_cases same : u = v
      · subst same
        rw [Function.update_self, Option.some.injEq, Prod.mk.injEq] at found
        obtain ⟨rfl, rfl⟩ := found
        refine ⟨step, ?_⟩
        rw [Function.update_of_ne other, Function.update_self, here, Nat.cast_add]
      · rw [Function.update_of_ne same] at found ⊢
        obtain ⟨step', le⟩ := tree.linked u p e' found
        refine ⟨step', le_trans (add_le_add_left ?_ _) le⟩
        by_cases under : p = v
        · subst under
          rw [Function.update_self]
          exact shorter.le
        · rw [Function.update_of_ne under]
    · dsimp only at finite ⊢
      obtain ⟨back, chain⟩ := tree.chain node (by rw [here]; exact ENat.natCast_ne_top _)
      have new := Chain.snoc (Function.update_self v (some (node, e)) state.prev)
        (tree.chain_update chain nearer)
      by_cases same : u = v
      · subst same
        exact ⟨_, new⟩
      · obtain ⟨hops, old⟩ := tree.chain u (by rwa [Function.update_of_ne same] at finite)
        exact old.update apart new
  · exact tree

/-! ### One round -/

/-- No entry of the queue is below the distance of its node. -/
def Above (state : Search α ε) : Prop := ∀ v, ∀ c : ℕ, toLex (c, v) ∈ state.heap → state.dist v ≤ c

/-- Distances became less, and those that did are queued. -/
structure Improved (before after : Search α ε) : Prop where
  le : ∀ v, after.dist v ≤ before.dist v
  heap : ∀ entry ∈ before.heap, entry ∈ after.heap
  queued : ∀ v, after.dist v = before.dist v ∨ ∃ d : ℕ, after.dist v = d ∧ toLex (d, v) ∈ after.heap

theorem Improved.refl : Improved state state := ⟨fun _ => le_rfl, fun _ => id, fun _ => .inl rfl⟩

theorem Improved.trans {mid after : Search α ε} (first : Improved state mid)
    (second : Improved mid after) :
    Improved state after := by
  refine ⟨fun v => (second.le v).trans (first.le v), fun entry among =>
    second.heap entry (first.heap entry among),
    fun v => ?_⟩
  rcases second.queued v with same | new
  · rcases first.queued v with same' | ⟨d, reads, among⟩
    · exact .inl (same.trans same')
    · exact .inr ⟨d, same.trans reads, second.heap _ among⟩
  · exact .inr new

theorem relax_improved : Improved state (relax weight node cost state hop) := by
  unfold relax
  split
  · rename_i shorter
    refine ⟨fun v => ?_, fun entry among => List.mem_cons_of_mem _ among, fun v => ?_⟩
    · by_cases same : v = hop.1
      · subst same
        dsimp only
        rw [Function.update_self]
        exact shorter.le
      · exact (Function.update_of_ne same _ _).le
    · by_cases same : v = hop.1
      · subst same
        exact .inr ⟨_, Function.update_self _ _ _, List.mem_cons_self⟩
      · exact .inl (Function.update_of_ne same _ _)
  · exact .refl

theorem relax_le : (relax weight node cost state hop).dist hop.1 ≤ (cost + weight hop.2 : ℕ) := by
  unfold relax
  split
  · exact (Function.update_self _ _ _).le
  · rename_i far
    exact not_lt.mp far

theorem relax_here (here : state.dist node = cost) :
    (relax weight node cost state hop).dist node = cost := by
  unfold relax
  split
  · rename_i shorter
    have other : node ≠ hop.1 := by
      intro same
      rw [← same, here] at shorter
      exact absurd shorter (not_lt.mpr (by exact_mod_cast Nat.le_add_right _ _))
    exact (Function.update_of_ne other _ _).trans here
  · exact here

theorem Above.relax (above : Above state) : Above (relax weight node cost state hop) := by
  unfold Lib.relax
  split
  · rename_i shorter
    intro v c among
    dsimp only at among ⊢
    rcases List.mem_cons.mp among with same | before
    · obtain ⟨rfl, rfl⟩ := Prod.mk.inj (toLex.injective same)
      rw [Function.update_self]
    · by_cases same : v = hop.1
      · subst same
        rw [Function.update_self]
        exact shorter.le.trans (above _ c before)
      · rw [Function.update_of_ne same]
        exact above v c before
  · exact above

/-- **All edges of a node are followed**, at its distance. -/
theorem foldl_relax (tree : Tree succ weight source state) (above : Above state)
    (here : state.dist node = cost) (steps : ∀ hop ∈ hops, hop ∈ succ node) :
    let after := hops.foldl (relax weight node cost) state
    Tree succ weight source after ∧ Above after ∧ after.dist node = cost ∧ Improved state after ∧
      ∀ hop ∈ hops, after.dist hop.1 ≤ (cost + weight hop.2 : ℕ) := by
  induction hops generalizing state with
  | nil => exact ⟨tree, above, here, .refl, fun hop among => by cases among⟩
  | cons hop hops ih =>
    have step := steps hop List.mem_cons_self
    obtain ⟨tree', above', here', improved, followed⟩ :=
      ih (tree.relax here step) (Above.relax above) (relax_here here)
        fun hop among => steps hop (List.mem_cons_of_mem _ among)
    refine ⟨tree', above', here', relax_improved.trans improved, fun other among => ?_⟩
    rcases List.mem_cons.mp among with rfl | later
    · exact (improved.le _).trans relax_le
    · exact followed other later

/-! ### The run -/

/-- A node's distance is queued. -/
def Queued (state : Search α ε) (v : α) : Prop :=
  ∀ d : ℕ, state.dist v = d → toLex (d, v) ∈ state.heap

/-- A node's edges were followed at its distance. -/
def Followed (succ : α → List (α × ε)) (weight : ε → ℕ) (state : Search α ε) (v : α) : Prop :=
  ∀ hop ∈ succ v, state.dist hop.1 ≤ state.dist v + weight hop.2

/-- What holds before each round. -/
structure Inv (succ : α → List (α × ε)) (weight : ε → ℕ) (source target : α) (state : Search α ε) :
    Prop where
  tree : Tree succ weight source state
  above : Above state
  settled : ∀ v, Queued state v ∨ (v ≠ target ∧ Followed succ weight state v)

theorem inv_start : Inv succ weight source target (Search.start source : Search α ε) := by
  have far : ∀ v, v ≠ source → (Search.start source : Search α ε).dist v = ⊤ :=
    fun v other => @Function.update_of_ne α (fun _ => ℕ∞) _ _ _ other 0 fun _ => ⊤
  have zero : (Search.start source : Search α ε).dist source = 0 :=
    @Function.update_self α (fun _ => ℕ∞) _ source 0 fun _ => ⊤
  refine ⟨⟨zero, rfl, (fun v p e found => by cases found), fun v finite => ?_⟩, fun v c among =>
    ?_, fun v => .inl ?_⟩
  · by_cases same : v = source
    · exact ⟨[], same ▸ .nil rfl⟩
    · exact absurd (far v same) finite
  · obtain ⟨rfl, rfl⟩ := Prod.mk.inj (toLex.injective (List.mem_singleton.mp among))
    exact zero.le
  · intro d reads
    by_cases same : v = source
    · subst same
      rw [zero] at reads
      obtain rfl : 0 = d := by exact_mod_cast reads
      exact List.mem_singleton.mpr rfl
    · rw [far v same] at reads
      cases reads

/-- **The queue bounds every walk from below.** -/
theorem Inv.le_walk (inv : Inv succ weight source target state) {bound : ℕ}
    (least : ∀ v, ∀ c : ℕ, toLex (c, v) ∈ state.heap → bound ≤ c)
    (walk : Walk succ a hops target) {k : ℕ}
    (near : state.dist a ≤ k) : bound ≤ k + costOf weight hops := by
  induction walk generalizing k with
  | nil a =>
    obtain ⟨d, reads, le⟩ := ENat.le_natCast_iff.mp near
    rcases inv.settled a with queued | ⟨other, -⟩
    · exact (least a d (queued d reads)).trans
        ((by exact_mod_cast le : d ≤ k).trans (Nat.le_add_right _ _))
    · exact absurd rfl other
  | @cons a b hop hops step rest ih =>
    obtain ⟨d, reads, le⟩ := ENat.le_natCast_iff.mp near
    replace le : d ≤ k := by exact_mod_cast le
    rcases inv.settled a with queued | ⟨-, followed⟩
    · exact (least a d (queued d reads)).trans (le.trans (Nat.le_add_right _ _))
    · rw [costOf_cons, ← Nat.add_assoc]
      refine ih inv (k := k + weight hop.2) ?_
      refine (followed hop step).trans ?_
      rw [reads]
      exact_mod_cast Nat.add_le_add_right le _

theorem pop_eq_none : pop heap = none ↔ heap = [] := by
  rw [pop, Option.map_eq_none_iff, List.min?_eq_none_iff]

theorem pop_eq_some {rest : List (ℕ ×ₗ α)} (popped : pop heap = some ((cost, node), rest)) :
    toLex (cost, node) ∈ heap ∧ rest = heap.erase (toLex (cost, node)) ∧
      ∀ v, ∀ c : ℕ, toLex (c, v) ∈ heap → cost ≤ c := by
  obtain ⟨least, found, same⟩ := Option.map_eq_some_iff.mp popped
  obtain ⟨among, le⟩ := List.min?_eq_some_iff.mp found
  obtain ⟨entry, rfl⟩ := Prod.mk.inj same
  obtain rfl : toLex (cost, node) = least := by rw [← entry, toLex_ofLex]
  refine ⟨among, rfl, fun v c other => ?_⟩
  rcases Prod.Lex.le_iff.mp (le _ other) with less | same
  · exact less.le
  · exact same.1.le

variable {heap : List (ℕ ×ₗ α)}

/-- An entry that is left behind is dropped. -/
theorem Inv.stale (inv : Inv succ weight source target state)
    (popped : pop state.heap = some ((cost, node), heap))
    (stale : state.dist node < cost) : Inv succ weight source target { state with heap := heap } := by
  obtain ⟨-, rfl, -⟩ := pop_eq_some popped
  refine ⟨⟨inv.tree.zero, inv.tree.first, inv.tree.linked, inv.tree.chain⟩,
    fun v c among => inv.above v c (List.mem_of_mem_erase among), fun v => ?_⟩
  rcases inv.settled v with queued | followed
  · refine .inl fun d reads => (List.mem_erase_of_ne fun same => ?_).mpr (queued d reads)
    obtain ⟨rfl, rfl⟩ := Prod.mk.inj (toLex.injective same)
    exact absurd stale (reads ▸ lt_irrefl _)
  · exact .inr followed

/-- **One round** follows the edges of the node that is taken off. -/
theorem Inv.round (inv : Inv succ weight source target state)
    (popped : pop state.heap = some ((cost, node), heap))
    (fresh : ¬ state.dist node < cost) (other : node ≠ target) :
    Inv succ weight source target ((succ node).foldl (relax weight node cost) { state
      with heap := heap }) := by
  obtain ⟨among, rfl, -⟩ := pop_eq_some popped
  have here : state.dist node = cost := le_antisymm (inv.above node cost among) (not_lt.mp fresh)
  obtain ⟨tree, above, here', improved, followed⟩ :=
    @foldl_relax _ _ _ succ weight source node cost
      { state with heap := state.heap.erase (toLex (cost, node)) } (succ node)
      ⟨inv.tree.zero, inv.tree.first, inv.tree.linked, inv.tree.chain⟩
      (fun v c among => inv.above v c (List.mem_of_mem_erase among)) here fun _ => id
  refine ⟨tree, above, fun v => ?_⟩
  by_cases same : v = node
  · subst same
    refine .inr ⟨other, fun hop step => ?_⟩
    rw [here']
    exact_mod_cast followed hop step
  · rcases improved.queued v with kept | ⟨d, reads, queued⟩
    · rcases inv.settled v with queued | ⟨apart, followed'⟩
      · refine .inl fun d reads => improved.heap _ ((List.mem_erase_of_ne fun entry => ?_).mpr
          (queued d (kept.symm.trans reads)))
        exact same (Prod.mk.inj (toLex.injective entry)).2
      · refine .inr ⟨apart, fun hop step => (improved.le _).trans ?_⟩
        rw [kept]
        exact followed' hop step
    · refine .inl fun d' reads' => ?_
      obtain rfl : d = d' := by exact_mod_cast reads.symm.trans reads'
      exact queued

/-- What a search ends with: there is no walk to the target, or its way back is a shortest one. -/
inductive Solved (succ : α → List (α × ε)) (weight : ε → ℕ) (source target : α)
    (state : Search α ε) : Prop where
  | nowhere (far : state.dist target = ⊤) (none : ∀ hops, ¬ Walk succ source hops target)
  | found {hops : List (α × ε)} (near : state.dist target = costOf weight hops)
      (chain : Chain state.prev source hops target) (walk : Walk succ source hops target)
      (least : ∀ other, Walk succ source other target → costOf weight hops ≤ costOf weight other)

/-- **What is found is shortest.** -/
theorem explore_solved (inv : Inv succ weight source target state)
    (ran : explore succ weight target fuel state = some final) :
    Solved succ weight source target final := by
  induction fuel generalizing state with
  | zero => cases ran
  | succ fuel ih =>
    rw [explore] at ran
    cases popped : pop state.heap with
    | none =>
      rw [popped] at ran
      obtain rfl := Option.some.inj ran
      have empty := pop_eq_none.mp popped
      refine .nowhere ?_ fun hops walk => ?_
      · by_contra finite
        obtain ⟨d, reads⟩ := ENat.ne_top_iff_exists.mp finite
        rcases inv.settled target with queued | ⟨other, -⟩
        · have among := queued d reads.symm
          rw [empty] at among
          cases among
        · exact other rfl
      · have beyond : costOf weight hops + 1 ≤ 0 + costOf weight hops :=
          inv.le_walk (fun v c among => by rw [empty] at among; cases among) walk inv.tree.zero.le
        omega
    | some entry =>
      obtain ⟨⟨cost, node⟩, heap⟩ := entry
      rw [popped] at ran
      dsimp only at ran
      split_ifs at ran with stop stale
      · subst stop
        obtain rfl := Option.some.inj ran
        obtain ⟨among, -, least⟩ := pop_eq_some popped
        have below := inv.above node cost among
        have walks : ∀ hops, Walk succ source hops node → cost ≤ costOf weight hops := by
          intro hops walk
          have bound := inv.le_walk least walk (k := 0) inv.tree.zero.le
          omega
        obtain ⟨d, reads, le⟩ := ENat.le_natCast_iff.mp below
        obtain ⟨hops, chain⟩ := inv.tree.chain node (by rw [reads]; exact ENat.natCast_ne_top _)
        obtain ⟨walk, short⟩ := inv.tree.walk chain
        have long := walks hops walk
        rw [reads] at short
        replace short : costOf weight hops ≤ d := by exact_mod_cast short
        replace le : d ≤ cost := by exact_mod_cast le
        have equal : d = costOf weight hops := by omega
        refine .found (by rw [reads, equal]) chain walk fun other walk' => ?_
        have long' := walks other walk'
        omega
      · exact ih (inv.stale popped stale) ran
      · exact ih (inv.round popped stale stop) ran

/-! ### The end of the run -/

section Ends

variable [Fintype α]

/-- How many nodes are still without a distance, and the sum of the others' distances. -/
def mass (dist : α → ℕ∞) : ℕ ×ₗ ℕ :=
  toLex ((Finset.univ.filter fun v => dist v = ⊤).card, ∑ v, (dist v).toNat)

theorem mass_update {dist : α → ℕ∞} {v : α} {d : ℕ} (less : (d : ℕ∞) < dist v) :
    mass (Function.update dist v d) < mass dist := by
  rw [mass, mass, Prod.Lex.toLex_lt_toLex]
  have tops : (Finset.univ.filter fun u => Function.update dist v (d : ℕ∞) u = ⊤) =
      (Finset.univ.filter fun u => dist u = ⊤).erase v := by
    ext u
    rw [Finset.mem_filter_univ, Finset.mem_erase, Finset.mem_filter_univ]
    by_cases same : u = v
    · subst same
      rw [Function.update_self]
      exact iff_of_false (ENat.natCast_ne_top d) fun both => both.1 rfl
    · rw [Function.update_of_ne same, and_iff_right same]
  by_cases far : dist v = ⊤
  · refine .inl ?_
    rw [tops]
    exact Finset.card_erase_lt_of_mem ((Finset.mem_filter_univ v).mpr far)
  · refine .inr ⟨?_, ?_⟩
    · rw [tops, Finset.erase_eq_of_notMem fun among => far ((Finset.mem_filter_univ v).mp among)]
    · obtain ⟨k, reads⟩ := ENat.ne_top_iff_exists.mp far
      rw [← reads] at less
      refine Finset.sum_lt_sum (fun u _ => ?_) ⟨v, Finset.mem_univ v, ?_⟩
      · by_cases same : u = v
        · subst same
          rw [Function.update_self, ← reads, ENat.toNat_natCast, ENat.toNat_natCast]
          exact_mod_cast less.le
        · rw [Function.update_of_ne same]
      · rw [Function.update_self, ← reads, ENat.toNat_natCast, ENat.toNat_natCast]
        exact_mod_cast less

theorem foldl_relax_mass : hops.foldl (relax weight node cost) state = state ∨
    mass (hops.foldl (relax weight node cost) state).dist < mass state.dist := by
  induction hops generalizing state with
  | nil => exact .inl rfl
  | cons hop hops ih =>
    rw [List.foldl_cons]
    by_cases shorter : ((cost + weight hop.2 : ℕ) : ℕ∞) < state.dist hop.1
    · have step : mass (relax weight node cost state hop).dist < mass state.dist := by
        rw [relax, if_pos shorter]
        exact mass_update shorter
      rcases @ih (relax weight node cost state hop) with same | less
      · exact .inr (by rwa [same])
      · exact .inr (less.trans step)
    · rw [relax, if_neg shorter]
      exact ih

/-- **The search ends**: a round takes an entry off, or some distance becomes less. -/
theorem explore_ends (succ : α → List (α × ε)) (weight : ε → ℕ) (target : α) (state : Search α ε) :
    ∃ rounds final, ∀ fuel, rounds ≤ fuel → explore succ weight target fuel state = some final := by
  have wf : WellFounded fun after before : Search α ε =>
      toLex (mass after.dist, after.heap.length) < toLex (mass before.dist, before.heap.length) :=
    InvImage.wf (fun state : Search α ε => toLex (mass state.dist, state.heap.length)) wellFounded_lt
  induction state using wf.induction with
  | _ state ih =>
    have round : ∀ {next : Search α ε}, (∀ fuel, explore succ weight target (fuel + 1) state =
        explore succ weight target fuel next) →
        toLex (mass next.dist, next.heap.length) < toLex (mass state.dist, state.heap.length) →
        ∃ rounds final, ∀ fuel, rounds ≤ fuel →
        explore succ weight target fuel state = some final := by
      intro next step less
      obtain ⟨rounds, final, ends⟩ := ih next less
      refine ⟨rounds + 1, final, fun fuel enough => ?_⟩
      obtain ⟨fuel, rfl⟩ : ∃ k, fuel = k + 1 := ⟨fuel - 1, by omega⟩
      rw [step]
      exact ends fuel (Nat.le_of_succ_le_succ enough)
    cases popped : pop state.heap with
    | none =>
      refine ⟨1, state, fun fuel enough => ?_⟩
      obtain ⟨fuel, rfl⟩ : ∃ k, fuel = k + 1 := ⟨fuel - 1, by omega⟩
      rw [explore, popped]
    | some entry =>
      obtain ⟨⟨cost, node⟩, heap⟩ := entry
      obtain ⟨among, rest, -⟩ := pop_eq_some popped
      have shorter : heap.length < state.heap.length := by
        rw [rest, List.length_erase_of_mem among]
        exact Nat.sub_one_lt (List.length_pos_of_mem among).ne'
      by_cases stop : node = target
      · refine ⟨1, { state with heap := heap }, fun fuel enough => ?_⟩
        obtain ⟨fuel, rfl⟩ : ∃ k, fuel = k + 1 := ⟨fuel - 1, by omega⟩
        rw [explore, popped]
        exact if_pos stop
      · by_cases stale : state.dist node < cost
        · refine @round { state with heap := heap } (fun fuel => ?_) ?_
          · rw [explore, popped]
            dsimp only
            rw [if_neg stop, if_pos stale]
          · exact Prod.Lex.toLex_lt_toLex.mpr (.inr ⟨rfl, shorter⟩)
        · refine @round ((succ node).foldl (relax weight node cost) { state with heap := heap })
            (fun fuel => ?_) ?_
          · rw [explore, popped]
            dsimp only
            rw [if_neg stop, if_neg stale]
          · rw [Prod.Lex.toLex_lt_toLex]
            rcases @foldl_relax_mass _ _ _ weight node cost { state with heap := heap } (succ node) _
              with same | less
            · rw [same]
              exact .inr ⟨rfl, shorter⟩
            · exact .inl less

end Ends

end DrStrange.Lib
