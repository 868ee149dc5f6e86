/-
**The communities of a scope.**

Level after level the partition of the nodes is worth no less, and whatever no edge of the scope
leaves is parted from the rest at every level (`Level`). So every loop ends, no community spans two
components, and the communities are worth no less than the single nodes (`louvain_sound`).
-/

import DrStrange.Api.Planes
import DrStrange.Compute.Components
import DrStrange.Compute.LocalMoving

namespace DrStrange.Compute

open Std (ExtTreeMap LawfulEqCmp)
open DrStrange.Graph Lib

variable {n k fuel count : ℕ} {base : WGraph n} {g : WGraph k} {community : Fin n → Fin k}
  {minGain : ℚ}

/-! ### Levels -/

/-- A level of a graph: partitions are worth the same on both, and what no edge leaves below, none
leaves here. -/
structure Level (base : WGraph n) (g : WGraph k) (community : Fin n → Fin k) : Prop where
  sound : g.Sound
  small : k ≤ n
  worth : ∀ σ : Fin k → ℕ, modularity base.entry (fun i => σ (community i)) = modularity g.entry σ
  parts : ∀ {X : Type} [Nonempty X] {p : Fin n → X}, base.Keyed (fun i j => p i = p j) →
    ∃ q : Fin k → X, (∀ i, p i = q (community i)) ∧ g.Keyed fun i j => q i = q j

theorem level_base (sound : base.Sound) : Level base base id :=
  ⟨sound, le_rfl, fun _ => rfl, fun keyed => ⟨_, fun _ => rfl, keyed⟩⟩

theorem width_le {membership : Fin n → ℕ} (small : ∀ i, membership i < k) : width membership ≤ k := by
  unfold width
  cases most : (List.ofFn membership).max? with
  | none => exact Nat.zero_le _
  | some m =>
    obtain ⟨i, rfl⟩ := List.mem_ofFn.mp (List.max?_mem most)
    exact small i

/-- **The next level.** -/
theorem Level.condense {membership : Fin k → ℕ} (level : Level base g community)
    (improved : Improved g membership) :
    Level base (g.condense membership) fun i => label membership (community i) := by
  refine ⟨level.sound.condense, (width_le improved.small).trans level.small, fun σ =>
    ?_, fun keyed => ?_⟩
  · exact (level.worth fun a => σ (label membership a)).trans (modularity_comp joins_condense σ)
  · rename_i X _ p
    obtain ⟨q, same, keyed⟩ := level.parts keyed
    have factors : Function.FactorsThrough q (label membership) := fun a b together =>
      improved.within keyed a b (Fin.ext_iff.mp together)
    refine ⟨Function.extend (label membership) q fun _ => Classical.arbitrary X, fun i => ?_, ?_⟩
    · rw [factors.extend_apply, same]
    · refine keyed_condense fun a b inside _ => ?_
      rw [factors.extend_apply, factors.extend_apply]
      exact keyed a b inside

/-- What the levels leave: communities that are worth no less than those they began with and span no
two classes that no edge leaves. -/
structure Settled (base : WGraph n) (community : Fin n → ℕ) (result : Fin n → ℕ) : Prop where
  worth : modularity base.entry community ≤ modularity base.entry result
  within : ∀ {X : Type} [Nonempty X] {p : Fin n → X}, base.Keyed (fun i j => p i = p j) →
    ∀ i j, result i = result j → p i = p j

theorem Level.settled (level : Level base g community) :
    Settled base (fun i => community i) fun i => community i := by
  refine ⟨le_rfl, fun keyed i j together => ?_⟩
  obtain ⟨q, same, -⟩ := level.parts keyed
  rw [same, same, Fin.ext together]

/-- **The levels end**, whatever the rounds to spare. -/
theorem levels_end (nonneg : 0 ≤ minGain) (level : Level base g community) :
    ∃ result, (∀ fuel, n ^ n ≤ fuel → levels minGain fuel count g community = some result) ∧
      Settled base (fun i => community i) result := by
  induction count generalizing k g community with
  | zero => exact ⟨_, fun _ _ => rfl, level.settled⟩
  | succ count ih =>
    obtain ⟨membership, ended, improved⟩ := oneLevel_ends level.sound nonneg
    have enough : ∀ fuel, n ^ n ≤ fuel → g.oneLevel minGain fuel = some membership := fun fuel le =>
      ended fuel ((Nat.pow_self_mono level.small).trans le)
    have next := level.condense improved
    have higher : modularity base.entry (fun i => (community i : ℕ)) ≤
        modularity base.entry fun i => membership (community i) := by
      rw [level.worth membership, level.worth fun a => a]
      exact (modularity_congr fun a b => Fin.ext_iff.symm).le.trans improved.worth
    by_cases moved : ∀ i, membership i = i
    · refine ⟨fun i => membership (community i), fun fuel le => ?_, higher, next.settled.within⟩
      unfold levels
      rw [enough fuel le, Option.bind_eq_bind, Option.bind_some, if_pos moved]
      rfl
    · obtain ⟨result, returns, settled⟩ := ih next
      refine ⟨result, fun fuel le => ?_, higher.trans settled.worth, settled.within⟩
      unfold levels
      rw [enough fuel le, Option.bind_eq_bind, Option.bind_some, if_neg moved]
      exact returns fuel le

/-! ### Representatives -/

/-- **The representative of a community is its smallest node.** -/
theorem representatives_least {nodes : List (NodeId × ℕ)} {c : ℕ} :
    ((representatives nodes)[c]? = none ∧ ∀ id, (id, c) ∉ nodes) ∨
      ∃ r, (representatives nodes)[c]? = some r ∧ (r, c) ∈ nodes ∧ ∀ id, (id, c) ∈ nodes →
      r ≤ id := by
  induction nodes using List.reverseRecOn with
  | nil => exact .inl ⟨ExtTreeMap.getElem?_empty, fun id among => by cases among⟩
  | append_singleton nodes last ih =>
    obtain ⟨id, d⟩ := last
    have step : representatives (nodes ++ [(id, d)]) = (representatives nodes).insert d
        ((representatives nodes)[d]?.elim id fun e => if id < e then id else e) := by
      rw [representatives, List.foldl_append, ← representatives]
      change (representatives nodes).insert d _ = _
      refine congrArg _ ?_
      cases (representatives nodes)[d]? <;> rfl
    rw [step, ExtTreeMap.getElem?_insert]
    by_cases own : d = c
    · subst own
      rw [if_pos (LawfulEqCmp.compare_eq_iff_eq.mpr rfl)]
      refine .inr ⟨_, rfl, ?_⟩
      obtain ⟨none, absent⟩ | ⟨e, found, there, least⟩ := ih
      · rw [none, Option.elim_none]
        refine ⟨by simp, fun other among => ?_⟩
        obtain among | among := List.mem_append.mp among
        · exact absurd among (absent other)
        · rw [(Prod.mk.inj (List.mem_singleton.mp among)).1]
      · rw [found, Option.elim_some]
        split_ifs with smaller
        · refine ⟨by simp, fun other among => ?_⟩
          obtain among | among := List.mem_append.mp among
          · exact smaller.le.trans (least other among)
          · rw [(Prod.mk.inj (List.mem_singleton.mp among)).1]
        · refine ⟨List.mem_append_left _ there, fun other among => ?_⟩
          obtain among | among := List.mem_append.mp among
          · exact least other among
          · rw [(Prod.mk.inj (List.mem_singleton.mp among)).1]
            exact not_lt.mp smaller
    · rw [if_neg fun same => own (LawfulEqCmp.eq_of_compare same)]
      have elsewhere : ∀ other, (other, c) ∈ nodes ++ [(id, d)] ↔ (other, c) ∈ nodes := by
        intro other
        simp [Ne.symm own]
      simpa only [elsewhere] using ih

/-! ### The communities of a scope -/

variable {tables : Tables} {plane : PlaneId} {scopeLabel : Option String}

/-- What no edge of a frame leaves is a union of connected parts. -/
theorem keyed_component : (planeFrame tables plane scopeLabel).weights.Keyed fun i j =>
    Quot.mk (fun a b => (a, b) ∈ (planeFrame tables plane scopeLabel).links) i =
      Quot.mk (fun a b => (a, b) ∈ (planeFrame tables plane scopeLabel).links) j := by
  refine keyed_weights fun i j leads _ => ?_
  have same := Quot.sound (r := fun a b => (a, b) ∈ (planeFrame tables plane scopeLabel).links)
    (mem_links.mpr leads)
  exact ⟨same, same.symm⟩

/-- A loop of local moving on one graph: a visit keeps the totals and raises the modularity if it
moves the node, and the loop ends. Condensing keeps the total weight and what every partition is
worth that parts no community. -/
structure MovesLocally (g : WGraph n) (minGain : ℚ) : Prop where
  visits : 2 * g.totalWeight ≠ 0 → ∀ (run : Moving n × Bool) (i : Fin n), run.1.Consistent g →
    (g.visit minGain run i).1.Consistent g ∧ ((g.visit minGain run i).1.comm = run.1.comm ∨
      modularity g.entry run.1.comm < modularity g.entry (g.visit minGain run i).1.comm)
  ends : ∃ membership, ∀ fuel, n ^ n ≤ fuel → g.oneLevel minGain fuel = some membership
  sound : ∀ membership, (g.condense membership).Sound
  total : ∀ membership, (g.condense membership).totalWeight = g.totalWeight
  condenses : ∀ (membership : Fin n → ℕ) (τ : Fin n → ℕ), (∀ i j, membership i = membership j →
    τ i = τ j) →
    ∃ σ, (∀ i, σ (label membership i) = τ i) ∧
      modularity (g.condense membership).entry σ = modularity g.entry τ

theorem volume_pos (sound : base.Sound) (edges : 2 * base.totalWeight ≠ 0) :
    0 < volume base.entry := by
  rw [totalWeight_eq] at edges
  have nonneg := Finset.sum_nonneg fun i (_ : i ∈ Finset.univ) =>
    Finset.sum_nonneg fun j (_ : j ∈ Finset.univ) =>
    sound.nonneg i j
  exact lt_of_le_of_ne nonneg (Ne.symm edges)

theorem movesLocally (sound : base.Sound) (nonneg : 0 ≤ minGain) : MovesLocally base minGain := by
  refine ⟨fun edges run i consistent => ?_, ?_, fun membership =>
    sound.condense, fun membership => ?_,
    fun membership τ coarser => ?_⟩
  · obtain ⟨kept, same | ⟨-, higher, -⟩⟩ :=
      visit_spec (i := i) sound (volume_pos sound edges) nonneg consistent
    · exact ⟨kept, .inl same.1⟩
    · exact ⟨kept, .inr higher⟩
  · obtain ⟨membership, ended, -⟩ := oneLevel_ends sound nonneg
    exact ⟨membership, ended⟩
  · have doubled : 2 * (base.condense membership).totalWeight = 2 * base.totalWeight := by
      rw [totalWeight_eq, totalWeight_eq, volume_joins joins_condense]
    exact mul_left_cancel₀ two_ne_zero doubled
  · have factors : Function.FactorsThrough τ (label membership) := fun i j together =>
      coarser i j (Fin.ext_iff.mp together)
    have restores : Function.extend (label membership) τ (fun _ => 0) ∘ label membership = τ :=
      funext fun i => factors.extend_apply (fun _ => 0) i
    refine ⟨Function.extend (label membership) τ fun _ => 0, congrFun restores, ?_⟩
    exact (modularity_comp joins_condense _).symm.trans (congrArg _ restores)

/-- The communities that are returned: every node of the scope once with its community, none across
components, and worth no less than the single nodes. -/
structure AreCommunities (tables : Tables) (plane : PlaneId) (scopeLabel : Option String)
    (assigned : List (NodeId × NodeId)) (community : Fin (scope tables plane scopeLabel).length →
      NodeId) : Prop where
  nodes : (assigned.map Prod.fst).Perm (scope tables plane scopeLabel)
  rows : ∀ a r, (a, r) ∈ assigned ↔ ∃ i, (scope tables plane scopeLabel).get i = a ∧ community i = r
  connected : ∀ a b r, (a, r) ∈ assigned → (b, r) ∈ assigned → Connected tables plane scopeLabel a b
  worth : modularity (planeFrame tables plane scopeLabel).weights.entry
      (id : Fin (scope tables plane scopeLabel).length → Fin (scope tables plane scopeLabel).length) ≤
    modularity (planeFrame tables plane scopeLabel).weights.entry community

theorem mapM_some {α β : Type} {f : α → Option β} {h : α → β} {xs : List α}
    (each : ∀ x ∈ xs, f x = some (h x)) :
    xs.mapM f = some (xs.map h) := by
  induction xs with
  | nil => rfl
  | cons x xs ih =>
    rw [List.mapM_cons, each x List.mem_cons_self, ih fun x among =>
      each x (List.mem_cons_of_mem _ among)]
    rfl

/-- The nodes with the numbers of their communities. -/
def numbered (tables : Tables) (plane : PlaneId) (scopeLabel : Option String)
    (result : Fin (scope tables plane scopeLabel).length → ℕ) : List (NodeId × ℕ) :=
  List.ofFn fun i => ((scope tables plane scopeLabel).get i, result i)

/-- The community of a row, as its smallest node. -/
def communityOf (nodes : List (NodeId × ℕ)) (row : NodeId × ℕ) : NodeId :=
  (representatives nodes)[row.2]?.getD row.1

variable {result : Fin (scope tables plane scopeLabel).length → ℕ}

theorem mem_numbered {a : NodeId} {c : ℕ} : (a, c) ∈ numbered tables plane scopeLabel result ↔
    ∃ i, (scope tables plane scopeLabel).get i = a ∧ result i = c := by
  simp only [numbered, List.mem_ofFn, Prod.mk.injEq]

/-- A node's community is named after one of its nodes. -/
theorem communityOf_spec (result : Fin (scope tables plane scopeLabel).length → ℕ)
    (i : Fin (scope tables plane scopeLabel).length) :
    (representatives (numbered tables plane scopeLabel result))[result i]? =
        some (communityOf (numbered tables plane scopeLabel result)
          ((scope tables plane scopeLabel).get i, result i)) ∧
      ∃ j, (scope tables plane scopeLabel).get j =
        communityOf (numbered tables plane scopeLabel result)
          ((scope tables plane scopeLabel).get i, result i) ∧
          result j = result i := by
  obtain ⟨-, absent⟩ | ⟨r, found, member, -⟩ :=
    @representatives_least (numbered tables plane scopeLabel result) (result i)
  · exact absurd (mem_numbered.mpr ⟨i, rfl, rfl⟩) (absent _)
  · rw [communityOf, found]
    exact ⟨rfl, mem_numbered.mp member⟩

/-- **What a settled numbering returns.** -/
theorem areCommunities
    (settled : Settled (planeFrame tables plane scopeLabel).weights (fun i => i) result) :
    AreCommunities tables plane scopeLabel
      (((numbered tables plane scopeLabel result).map fun row =>
        (row.1, communityOf (numbered tables plane scopeLabel result) row)).mergeSort
          fun a b => a.1 ≤ b.1)
      fun i => communityOf (numbered tables plane scopeLabel result)
      ((scope tables plane scopeLabel).get i, result i) := by
  have rows : ∀ a r, (a, r) ∈ ((numbered tables plane scopeLabel result).map fun row =>
      (row.1, communityOf (numbered tables plane scopeLabel result) row)).mergeSort
        (fun a b => a.1 ≤ b.1) ↔
        ∃ i, (scope tables plane scopeLabel).get i = a ∧
          communityOf (numbered tables plane scopeLabel result)
            ((scope tables plane scopeLabel).get i, result i) = r := by
    intro a r
    simp only [List.mem_mergeSort, List.mem_map, numbered, List.mem_ofFn, Prod.mk.injEq]
    constructor
    · rintro ⟨_, ⟨i, rfl⟩, rfl, rfl⟩
      exact ⟨i, rfl, rfl⟩
    · rintro ⟨i, rfl, rfl⟩
      exact ⟨_, ⟨i, rfl⟩, rfl, rfl⟩
  have together : ∀ i j, communityOf (numbered tables plane scopeLabel result)
      ((scope tables plane scopeLabel).get i, result i) =
      communityOf (numbered tables plane scopeLabel result) ((scope tables plane scopeLabel).get j,
        result j) ↔
        result i = result j := by
    intro i j
    obtain ⟨found, k, here, same⟩ := communityOf_spec result i
    obtain ⟨found', l, here', same'⟩ := communityOf_spec result j
    constructor
    · intro equal
      obtain rfl : k = l :=
        Fin.ext ((List.Nodup.getElem_inj_iff nodup_scope).mp (here.trans (equal.trans here'.symm)))
      exact same.symm.trans same'
    · intro equal
      rw [congrArg ((representatives (numbered tables plane scopeLabel result))[·]?) equal] at found
      exact Option.some.inj (found.symm.trans found')
  refine ⟨?_, rows, fun a b r first second => ?_, ?_⟩
  · refine ((List.mergeSort_perm _ _).map Prod.fst).trans (List.Perm.of_eq ?_)
    rw [List.map_map, numbered, List.map_ofFn]
    exact List.ofFn_getElem
  · obtain ⟨i, rfl, rfl⟩ := (rows a r).mp first
    obtain ⟨j, rfl, same⟩ := (rows b _).mp second
    have : Nonempty (Quot fun a b => (a, b) ∈ (planeFrame tables plane scopeLabel).links) :=
      ⟨Quot.mk _ i⟩
    have component := settled.within keyed_component i j ((together i j).mp same.symm)
    exact eqvGen_links.mp (Quot.eqvGen_exact component)
  · refine ((modularity_congr fun i j => ?_).le.trans settled.worth).trans (modularity_congr
      fun i j => ?_).le
    · exact Fin.ext_iff
    · exact (together i j).symm

/-- Every community has its representative. -/
theorem mapM_numbered : (numbered tables plane scopeLabel result).mapM (fun (id, c) => do
      return (id, ← (representatives (numbered tables plane scopeLabel result))[c]?)) =
    some ((numbered tables plane scopeLabel result).map fun row =>
      (row.1, communityOf (numbered tables plane scopeLabel result) row)) := by
  refine mapM_some fun row among => ?_
  obtain ⟨i, rfl⟩ := List.mem_ofFn.mp among
  dsimp only
  rw [(communityOf_spec result i).1]
  rfl

/-- **Louvain terminates and never spans components.** In exact arithmetic and with a gain that is
not negative, local moving raises the modularity with every move and ends on every graph that is as
much weighted both ways, condensing keeps the weight and the worth of partitions, and for every
graph the run ends with communities of connected nodes that are worth no less than the single nodes.
-/
theorem louvain_sound {opts : LouvainOptions} (nonneg : 0 ≤ opts.minGain) (tables : Tables)
    (plane : PlaneId) (scopeLabel : Option String) (vector : VectorSearch)
    (keyword : KeywordSearch) :
    (∀ {n : ℕ} (g : WGraph n), g.Sound → MovesLocally g opts.minGain) ∧
      (planeFrame tables plane scopeLabel).weights.Sound ∧
      ∃ assigned count community,
        (∀ fuel, (scope tables plane scopeLabel).length ^ (scope tables plane scopeLabel).length ≤
          fuel →
          louvain fuel (planeReader tables plane vector keyword) scopeLabel opts =
          .ok (some (assigned, count))) ∧
        AreCommunities tables plane scopeLabel assigned community := by
  refine ⟨fun g sound => movesLocally sound nonneg, sound_weights, ?_⟩
  by_cases empty : (scope tables plane scopeLabel).length = 0
  · have none : scope tables plane scopeLabel = [] := List.eq_nil_of_length_eq_zero empty
    refine ⟨[], 0, fun i => (scope tables plane scopeLabel).get i, fun fuel _ => ?_, ?_, fun a r =>
      ?_, ?_, ?_⟩
    · exact bind_eq_ok.mpr ⟨_, build_plane, if_pos empty⟩
    · rw [none]
      exact .refl _
    · refine iff_of_false List.not_mem_nil fun ⟨i, _⟩ => ?_
      exact absurd i.isLt (by omega)
    · exact fun a b r among => absurd among List.not_mem_nil
    · have absent : ∀ i : Fin (scope tables plane scopeLabel).length, False := fun i =>
        absurd i.isLt (Nat.not_lt.mpr (empty.le.trans (Nat.zero_le _)))
      exact (modularity_congr fun i => (absent i).elim).le
  · obtain ⟨result, ended, settled⟩ : ∃ result : Fin (scope tables plane scopeLabel).length → ℕ,
        (∀ fuel, (scope tables plane scopeLabel).length ^ (scope tables plane scopeLabel).length ≤
          fuel →
          levels opts.minGain fuel opts.maxLevels (planeFrame tables plane scopeLabel).weights id =
          some result) ∧
        Settled (planeFrame tables plane scopeLabel).weights (fun i => i) result :=
      levels_end nonneg (level_base sound_weights)
    refine ⟨_, (representatives (numbered tables plane scopeLabel result)).size, _,
      fun fuel enough => ?_,
      areCommunities settled⟩
    refine bind_eq_ok.mpr ⟨_, build_plane, ?_⟩
    have several : (planeFrame tables plane scopeLabel).nodes.length ≠ 0 := empty
    rw [if_neg several, ended fuel enough]
    exact congrArg (fun out : Option (List (NodeId × NodeId)) => Except.ok (out.bind fun out =>
      some (out.mergeSort (fun a b => a.1 ≤ b.1),
        (representatives (numbered tables plane scopeLabel result)).size)))
        mapM_numbered

/-- Three nodes, and an edge between the first two. -/
def pairAndOne : Database := (Database.new plainHost 0).run plainHost
  [(1, .write 0 [.createNode [] ∅, .createNode [] ∅, .createNode [] ∅,
    .createEdge 1 2 "KNOWS" ∅] true)]

/-- Three nodes have their communities. -/
theorem louvain_sound_pairAndOne :
    0 ≤ LouvainOptions.default.minGain ∧ scope pairAndOne.tables 0 none = [1, 2, 3] ∧
    ∃ assigned count community,
      (∀ fuel, 27 ≤ fuel → louvain fuel (planeReader pairAndOne.tables 0 (fun _ _ _ _ _ => .ok [])
        (fun _ _ _ _ => .ok [])) none .default = .ok (some (assigned, count))) ∧
      AreCommunities pairAndOne.tables 0 none assigned community := by
  have nonneg : 0 ≤ LouvainOptions.default.minGain := by norm_num [LouvainOptions.default]
  have nodes : scope pairAndOne.tables 0 none = [1, 2, 3] := by with_unfolding_all decide
  have three : (scope pairAndOne.tables 0 none).length ^ (scope pairAndOne.tables 0 none).length =
      27 := by rw [nodes]; rfl
  obtain ⟨-, -, assigned, count, community, ended, communities⟩ :=
    louvain_sound nonneg pairAndOne.tables 0 none
    (fun _ _ _ _ _ => .ok []) fun _ _ _ _ => .ok []
  exact ⟨nonneg, nodes, assigned, count, community, fun fuel enough =>
    ended fuel (three.le.trans enough), communities⟩

end DrStrange.Compute
