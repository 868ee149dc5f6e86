/-
**Communities by local moving.**

Nodes move to the community of a neighbour while that gains, with the degrees of each community kept
in running totals, and the communities become the nodes of the next level. Gains are exact rational
numbers here. The weights of a level are a symmetric matrix whose loops count twice (`entry`), and
`degree`, `totalWeight` and `condense` are what they are called on it.
-/

import DrStrange.Compute.Frame
import DrStrange.Lib.Modularity

namespace DrStrange.Compute

open Std DrStrange.Graph Lib

/-! ### The code -/

structure LouvainOptions where
  maxLevels : ℕ
  minGain : ℚ

def LouvainOptions.default : LouvainOptions := ⟨10, 1 / 10 ^ 9⟩

/-- An undirected weighted graph, with the weights of its loops apart. -/
structure WGraph (n : ℕ) where
  adj : Fin n → ExtTreeMap (Fin n) ℚ compare
  selfW : Fin n → ℚ

def WGraph.empty {n : ℕ} : WGraph n := ⟨fun _ => ∅, fun _ => 0⟩

/-- Adds to the entry of a key. -/
def addTo {n : ℕ} (map : ExtTreeMap (Fin n) ℚ compare) (key : Fin n) (w : ℚ) :
    ExtTreeMap (Fin n) ℚ compare :=
  map.insert key (map[key]?.getD 0 + w)

def WGraph.addSelf {n : ℕ} (g : WGraph n) (i : Fin n) (w : ℚ) : WGraph n :=
  { g with selfW := Function.update g.selfW i (g.selfW i + w) }

def WGraph.addAdj {n : ℕ} (g : WGraph n) (i j : Fin n) (w : ℚ) : WGraph n :=
  { g with adj := Function.update g.adj i (addTo (g.adj i) j w) }

/-- An edge weighs one. -/
def WGraph.link {n : ℕ} (g : WGraph n) (i j : Fin n) : WGraph n :=
  if i = j then g.addSelf i 1 else (g.addAdj i j 1).addAdj j i 1

/-- The undirected view of a frame. -/
def Frame.weights (frame : Frame) : WGraph frame.nodes.length :=
  (List.finRange _).foldl (fun g i => (frame.out i).foldl (fun g target => g.link i target.1) g)
    .empty

/-- The weights to the neighbours of a node. -/
def weightsOf {n : ℕ} (map : ExtTreeMap (Fin n) ℚ compare) : List ℚ := map.toList.map Prod.snd

/-- Each pair once, and the loops. -/
def WGraph.totalWeight {n : ℕ} (g : WGraph n) : ℚ :=
  ((List.finRange n).map fun i => (weightsOf (g.adj i)).sum).sum / 2 +
    ((List.finRange n).map g.selfW).sum

/-- Loops count twice. -/
def WGraph.degree {n : ℕ} (g : WGraph n) (i : Fin n) : ℚ := (weightsOf (g.adj i)).sum + 2 * g.selfW i

/-- The community of each node, and the degrees of each community. -/
structure Moving (n : ℕ) where
  comm : Fin n → Fin n
  tot : Fin n → ℚ

/-- The weight from a node into each neighbouring community. -/
def WGraph.wTo {n : ℕ} (g : WGraph n) (comm : Fin n → Fin n) (i : Fin n) :
    ExtTreeMap (Fin n) ℚ compare :=
  (g.adj i).foldl (fun wTo j w => addTo wTo (comm j) w) ∅

/-- A community that gains more than the best so far. -/
def better {n : ℕ} (deg twoM minGain : ℚ) (tot : Fin n → ℚ) (best : Fin n × ℚ) (c : Fin n) (w : ℚ) :
    Fin n × ℚ :=
  let gain := w - tot c * deg / twoM
  if best.2 + minGain < gain then (c, gain) else best

/-- Moves a node to the community where it gains most, if that is another. -/
def WGraph.visit {n : ℕ} (g : WGraph n) (minGain : ℚ) (run : Moving n × Bool) (i : Fin n) :
    Moving n × Bool :=
  let twoM := 2 * g.totalWeight
  let ci := run.1.comm i
  let wTo := g.wTo run.1.comm i
  let tot := Function.update run.1.tot ci (run.1.tot ci - g.degree i)
  let best := wTo.foldl (better (g.degree i) twoM minGain tot) (ci,
    wTo[ci]?.getD 0 - tot ci * g.degree i / twoM)
  let tot := Function.update tot best.1 (tot best.1 + g.degree i)
  if best.1 ≠ ci then (⟨Function.update run.1.comm i best.1, tot⟩, true)
  else (⟨run.1.comm, tot⟩, run.2)

/-- Visits all the nodes while that moves any, for so many rounds at most. -/
def WGraph.rounds {n : ℕ} (g : WGraph n) (minGain : ℚ) : ℕ → Moving n → Option (Fin n → Fin n)
  | 0, _ => none
  | fuel + 1, state =>
    let (state, improved) := (List.finRange n).foldl (g.visit minGain) (state, false)
    if improved then g.rounds minGain fuel state else some state.comm

/-- Labels numbered in the order in which they are first seen. -/
def renumberFrom {n : ℕ} : ExtTreeMap (Fin n) ℕ compare → List (Fin n) → List ℕ
  | _, [] => []
  | map, l :: labels =>
    match map[l]? with
    | some id => id :: renumberFrom map labels
    | none => map.size :: renumberFrom (map.insert l map.size) labels

theorem length_renumberFrom {n : ℕ} {map : ExtTreeMap (Fin n) ℕ compare} {labels : List (Fin n)} :
    (renumberFrom map labels).length = labels.length := by
  induction labels generalizing map with
  | nil => rfl
  | cons l labels ih =>
    unfold renumberFrom
    split
    · rw [List.length_cons, ih, List.length_cons]
    · rw [List.length_cons, ih, List.length_cons]

def renumber {n : ℕ} (labels : Fin n → Fin n) (i : Fin n) : ℕ :=
  (renumberFrom ∅ (List.ofFn labels)).get (i.cast (by rw [length_renumberFrom, List.length_ofFn]))

/-- One level of local moving; without an edge every node is its own community. -/
def WGraph.oneLevel {n : ℕ} (g : WGraph n) (minGain : ℚ) (fuel : ℕ) : Option (Fin n → ℕ) :=
  if 2 * g.totalWeight = 0 then some fun i => i
  else (g.rounds minGain fuel ⟨fun i => i, g.degree⟩).map renumber

/-- One more than the largest label. -/
def width {n : ℕ} (membership : Fin n → ℕ) : ℕ := (List.ofFn membership).max?.elim 0 (· + 1)

theorem lt_width {n : ℕ} {membership : Fin n → ℕ} (i : Fin n) : membership i < width membership := by
  unfold width
  have inside : membership i ∈ List.ofFn membership := List.mem_ofFn.mpr ⟨i, rfl⟩
  cases most : (List.ofFn membership).max? with
  | none => simp [List.max?_eq_none_iff.mp most] at inside
  | some m => exact Nat.lt_succ_of_le ((List.max?_eq_some_iff.mp most).2 _ inside)

/-- The node of the next level that a node belongs to. -/
def label {n : ℕ} (membership : Fin n → ℕ) (i : Fin n) : Fin (width membership) :=
  ⟨membership i, lt_width i⟩

/-- The graph of the communities; the weight inside of one is a loop, halved since both ends are
seen. -/
def WGraph.condense {n : ℕ} (g : WGraph n) (membership : Fin n → ℕ) : WGraph (width membership) :=
  (List.finRange n).foldl (fun acc i =>
    (g.adj i).foldl (fun acc j w =>
      if label membership i = label membership j then acc.addSelf (label membership i) (w / 2)
      else acc.addAdj (label membership i) (label membership j) w)
        (acc.addSelf (label membership i) (g.selfW i)))
    .empty

/-- Level after level, the community of each node at the last one. -/
def levels {n : ℕ} (minGain : ℚ) (fuel : ℕ) :
    ℕ → {k : ℕ} → WGraph k → (Fin n → Fin k) → Option (Fin n → ℕ)
  | 0, _, _, community => some fun i => community i
  | count + 1, _, level, community => do
    let membership ← level.oneLevel minGain fuel
    if ∀ i, membership i = i then return fun i => membership (community i)
    else levels minGain fuel count (level.condense membership) fun i => label membership (community i)

/-- The smallest node of each community. -/
def representatives (nodes : List (NodeId × ℕ)) : ExtTreeMap ℕ NodeId compare :=
  nodes.foldl (fun rep (id, c) => rep.insert c (match rep[c]? with
    | some e => if id < e then id else e
    | none => id)) ∅

/-- The community of every node of a scope, as its smallest node, and how many there are; nothing if
a loop does not end within so many rounds. -/
def louvain (fuel : ℕ) (reader : GraphReader) (label : Option String) (opts : LouvainOptions) :
    Except Error (Option (List (NodeId × NodeId) × ℕ)) := do
  let frame ← Frame.build reader label
  if frame.nodes.length = 0 then return some ([], 0)
  return do
    let community ← levels opts.minGain fuel opts.maxLevels frame.weights id
    let nodes := List.ofFn fun i => (frame.nodes[i], community i)
    let rep := representatives nodes
    let out ← nodes.mapM fun (id, c) => do return (id, ← rep[c]?)
    return (out.mergeSort fun a b => a.1 ≤ b.1, rep.size)

end DrStrange.Compute
