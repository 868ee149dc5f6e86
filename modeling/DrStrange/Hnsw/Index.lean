/-
**The vector index: a layered graph of nearest neighbours.**

A node stands on the layers 0 up to its level, with a list of neighbours on each. A search descends
from the entry point by the nearest node of each layer and ends with a beam over layer 0; an insertion
descends the same way and links the new node on every layer it stands on. A removed or replaced node
is a tombstone: it stays in the graph to be passed through, and is not returned.

The code indexes its arrays and subtracts without checks of its own, so every such access is an
operation that may panic, and whether it does is part of the model. Floats are bit patterns. Their
arithmetic, the dot product of the machine's vector unit and the logarithm that draws a level are
fields of `Arith`; which of two equal distances comes first where the code reads a heap is left to
`Ties`.
-/

import DrStrange.Graph.Types
import DrStrange.Lib.Binary
import DrStrange.Lib.BestFirst

namespace DrStrange.Hnsw

open Std DrStrange.Graph Lib BestFirst

/-! ### Floats -/

abbrev F32 := UInt32

def infinity : F32 := 0x7f800000

/-- The place of a single in the order of `total_cmp`. -/
def totalKey (bits : F32) : ℤ :=
  if bits.toNat < 2 ^ 31 then bits.toNat else 2 ^ 31 - 1 - bits.toNat

/-- The place of a single on the number line, both zeros at zero. -/
def lineKey (bits : F32) : ℤ :=
  if bits.toNat < 2 ^ 31 then bits.toNat else 2 ^ 31 - bits.toNat

def isNan (bits : F32) : Bool := !finite32 bits && bits.toNat % 2 ^ 23 ≠ 0

/-- `<` of floats. -/
def lt (a b : F32) : Bool := !isNan a && !isNan b && lineKey a < lineKey b

/-- `f32::clamp`. -/
def clamp (value low high : F32) : F32 :=
  let value := if lt value low then low else value
  if lt high value then high else value

/-- What the code takes from the machine: its arithmetic on singles, the dot product of two vectors of
one length, and the level `floor(-ln(u) * ml)` of 53 drawn bits. -/
structure Arith where
  add : F32 → F32 → F32
  sub : F32 → F32 → F32
  mul : F32 → F32 → F32
  div : F32 → F32 → F32
  max : F32 → F32 → F32
  neg : F32 → F32
  sqrt : F32 → F32
  dot : List F32 → List F32 → F32
  level : ℕ → UInt64 → ℕ

/-- A distance, ordered by `total_cmp`. -/
structure Dist where
  bits : F32
  deriving DecidableEq, Repr

theorem totalKey_injective : Function.Injective fun d : Dist => totalKey d.bits := by
  intro ⟨a⟩ ⟨b⟩ same
  have smallA := a.toNat_lt
  have smallB := b.toNat_lt
  simp only [totalKey] at same
  rw [Dist.mk.injEq, ← UInt32.toNat_inj]
  split_ifs at same <;> omega

instance : LinearOrder Dist := LinearOrder.lift' (fun d : Dist => totalKey d.bits) totalKey_injective

/-! ### Panics -/

inductive Panic where
  | outOfBounds
  | overflow
  | capacity
  /-- Not a panic: the rounds of a search ran out, which never happens, or a schedule of threads
  did. -/
  | unfinished
  deriving DecidableEq, Repr

abbrev Run := Except Panic

/-- `xs[i]`. -/
def fetch {α : Type} (xs : List α) (i : ℕ) : Run α :=
  match xs[i]? with
  | some x => .ok x
  | none => .error .outOfBounds

/-- `xs[i] = f(xs[i])`. -/
def alter {α : Type} (xs : List α) (i : ℕ) (f : α → Run α) : Run (List α) := do
  return xs.set i (← f (← fetch xs i))

/-- The result of an addition or a multiplication of `usize`. -/
def usize (value : ℕ) : Run ℕ := if value < 2 ^ 64 then .ok value else .error .overflow

/-- Room for `count` values of `size` bytes. -/
def reserve (size count : ℕ) : Run Unit :=
  if size * count < 2 ^ 63 then .ok () else .error .capacity

/-! ### The index -/

structure HnswParams where
  m : ℕ
  m0 : ℕ
  efConstruction : ℕ
  efSearch : ℕ
  ml : UInt64
  seed : UInt64

structure Node where
  id : ℕ
  vector : List F32
  norm : F32
  deleted : Bool
  layers : List (List ℕ)

structure HnswIndex where
  metric : Metric
  params : HnswParams
  nodes : List Node
  entry : Option ℕ
  topLayer : ℕ
  rng : UInt64
  idToIdx : ExtTreeMap ℕ ℕ compare

def HnswIndex.withParams (metric : Metric) (params : HnswParams) : HnswIndex :=
  ⟨metric, params, [], none, 0, params.seed, ∅⟩

def HnswParams.maxConn (params : HnswParams) (layer : ℕ) : ℕ :=
  if layer = 0 then params.m0 else params.m

/-- Every neighbour stands on the layer it is listed on, and the entry point on the top layer. -/
def HnswIndex.isWellformed (index : HnswIndex) : Bool :=
  (index.entry.all fun e => index.nodes[e]?.any fun node => index.topLayer < node.layers.length) &&
    index.nodes.all fun node => node.layers.zipIdx.all fun list => list.1.all fun e =>
      index.nodes[e]?.any fun target => list.2 < target.layers.length

/-- The lookup of live ids, made again from the nodes. -/
def HnswIndex.reindex (index : HnswIndex) : HnswIndex :=
  { index with
    idToIdx := index.nodes.zipIdx.foldl (fun ids entry =>
      if entry.1.deleted then ids else ids.insert entry.1.id entry.2) ∅ }

/-! ### Distances -/

section

variable (arith : Arith)

/-- A distance from a dot product and the two norms. -/
def metricDist (metric : Metric) (d na nb : F32) : F32 :=
  match metric with
  | .dot => arith.neg d
  | .cosine =>
    let denom := arith.mul na nb
    if lineKey denom = 0 then 0x3f800000
    else arith.sub 0x3f800000 (clamp (arith.div d denom) 0xbf800000 0x3f800000)
  | .l2 =>
    arith.sqrt (arith.max (arith.sub (arith.add (arith.mul na na) (arith.mul nb nb))
      (arith.mul 0x40000000 d)) 0)

/-- Vectors of different lengths are infinitely far. -/
def guardedDist (metric : Metric) (a : List F32) (na : F32) (b : List F32) (nb : F32) : F32 :=
  if a.length ≠ b.length then infinity else metricDist arith metric (arith.dot a b) na nb

/-- A vector and its norm. -/
structure Query where
  vec : List F32
  norm : F32

def prepare (vector : List F32) : Query := ⟨vector, arith.sqrt (arith.dot vector vector)⟩

def distQ (metric : Metric) (q : Query) (node : Node) : Dist :=
  ⟨guardedDist arith metric q.vec q.norm node.vector node.norm⟩

def distNN (metric : Metric) (a b : Node) : Dist :=
  ⟨guardedDist arith metric a.vector a.norm b.vector b.norm⟩

end

/-! ### Search -/

/-- The order in which a heap is read, on each layer of one operation and for its hits. -/
structure Ties where
  order : ℕ → List (Dist × ℕ) → List (Dist × ℕ)
  perm : ∀ layer xs, (order layer xs).Perm xs
  hits : List (Dist × ℕ) → List (Dist × ℕ)
  permHits : ∀ xs, (hits xs).Perm xs

/-- Some order of equal distances. -/
def Ties.steady : Ties := ⟨fun _ xs => xs, fun _ _ => .refl _, fun xs => xs, fun _ => .refl _⟩

/-- A stable sort by distance. -/
def sortByDistance (xs : List (Dist × ℕ)) : List (Dist × ℕ) := xs.mergeSort fun a b => a.1 ≤ b.1

section

variable (arith : Arith) (ties : Ties)

def layerReads (nodes : List Node) (metric : Metric) (q : Query) (layer : ℕ) : Reads Run Dist where
  dist e := do return distQ arith metric q (← fetch nodes e)
  live e := do return !(← fetch nodes e).deleted
  links c := do fetch (← fetch nodes c).layers layer
  closer a b := lt a.bits b.bits
  far := ⟨infinity⟩
  unfinished := .error .unfinished

/-- The nearest live nodes that can be reached on one layer, at most `ef`, nearest first. -/
def searchLayer (nodes : List Node) (metric : Metric) (q : Query) (starts : List ℕ) (ef layer : ℕ) :
    Run (List (Dist × ℕ)) := do
  let kept ← BestFirst.search (layerReads arith nodes metric q layer) ef starts nodes.length
  return sortByDistance (ties.order layer kept)

/-- The greedy descent from a layer down to the one above `floor`. -/
def descend (nodes : List Node) (metric : Metric) (q : Query) (floor : ℕ) : ℕ → ℕ → Run ℕ
  | 0, ep => .ok ep
  | layer + 1, ep =>
    if floor < layer + 1 then do
      let w ← searchLayer arith ties nodes metric q [ep] 1 (layer + 1)
      descend nodes metric q floor layer ((w.head?.map Prod.snd).getD ep)
    else .ok ep

/-- The `k` nearest of a list. The code streams it through a heap of `k` items, which drops any
farthest one: ties are broken as the order of the hits has it. -/
def topK (items : List (Dist × ℕ)) (k : ℕ) : Run (List (Dist × ℕ)) :=
  if k = 0 then .ok []
  else do
    reserve 16 (← usize (k + 1))
    return (sortByDistance (ties.hits items)).take k

/-- A hit from a node found. -/
def hitOf (nodes : List Node) (x : Dist × ℕ) : Run (Dist × ℕ) := do
  return (x.1, (← fetch nodes x.2).id)

/-- An id filter, if there is one, keeps a hit. -/
def passes (filter : Option (ℕ → Bool)) (item : Dist × ℕ) : Bool :=
  filter.all fun keep => keep item.2

def HnswIndex.searchWithEf (index : HnswIndex) (query : List F32) (k : ℕ)
    (filter : Option (ℕ → Bool)) (ef : ℕ) : Run (List (Dist × ℕ)) :=
  if k = 0 then .ok []
  else
    match index.entry with
    | none => .ok []
    | some entry => do
      let q := prepare arith query
      let ep ← descend arith ties index.nodes index.metric q 0 index.topLayer entry
      let w ← searchLayer arith ties index.nodes index.metric q [ep] ef 0
      let items ← w.mapM (hitOf index.nodes)
      topK ties (items.filter (passes filter)) k

/-- Up to `k` hits, each a distance and an id, nearest first. -/
def HnswIndex.search (index : HnswIndex) (query : List F32) (k : ℕ) (filter : Option (ℕ → Bool)) :
    Run (List (Dist × ℕ)) := do
  let wide ← usize (k * if filter.isSome then 8 else 2)
  index.searchWithEf arith ties query k filter (max index.params.efSearch wide)

/-! ### Insert and remove -/

/-- The list of a node on a layer changed. -/
def setLinks (nodes : List Node) (c layer : ℕ) (f : List ℕ → List ℕ) : Run (List Node) :=
  alter nodes c fun node => do
    return { node with layers := ← alter node.layers layer fun list => .ok (f list) }

/-- A neighbour with its distance. -/
def scoreOf (metric : Metric) (nodes : List Node) (here : Node) (x : ℕ) : Run (Dist × ℕ) := do
  return (distNN arith metric here (← fetch nodes x), x)

/-- Only the nearest neighbours of a node stay on a layer. -/
def prune (params : HnswParams) (metric : Metric) (node layer : ℕ) (nodes : List Node) :
    Run (List Node) := do
  let here ← fetch nodes node
  let list ← fetch here.layers layer
  if list.length ≤ params.maxConn layer then return nodes
  else do
    let scored ← list.mapM (scoreOf arith metric nodes here)
    let kept := (sortByDistance scored).take (params.maxConn layer)
    setLinks nodes node layer fun _ => kept.map Prod.snd

/-- Links two nodes both ways on a layer. -/
def link (params : HnswParams) (metric : Metric) (idx layer : ℕ) (nodes : List Node) (nb : ℕ) :
    Run (List Node) := do
  let nodes ← setLinks nodes idx layer (· ++ [nb])
  let nodes ← setLinks nodes nb layer (· ++ [idx])
  prune arith params metric nb layer nodes

/-- The new node linked on every layer below the given one, from the top down. -/
def connect (params : HnswParams) (metric : Metric) (q : Query) (idx ep : ℕ) :
    ℕ → List ℕ → List Node → Run (List Node)
  | 0, _, nodes => .ok nodes
  | layer + 1, starts, nodes => do
    let w ← searchLayer arith ties nodes metric q starts params.efConstruction layer
    let chosen := (w.take (params.maxConn layer)).map Prod.snd
    let nodes ← chosen.foldlM (link arith params metric idx layer) nodes
    let nodes ← prune arith params metric idx layer nodes
    connect params metric q idx ep layer (if w.isEmpty then [ep] else w.map Prod.snd) nodes

/-- Xorshift. -/
def nextRand (rng : UInt64) : UInt64 :=
  let rng := rng ^^^ (rng <<< 13)
  let rng := rng ^^^ (rng >>> 7)
  rng ^^^ (rng <<< 17)

/-- The level that is drawn next. -/
def HnswIndex.drawn (index : HnswIndex) : ℕ :=
  arith.level (nextRand index.rng >>> 11).toNat index.params.ml

/-- The live node of an id, if there is one, made a tombstone. -/
def HnswIndex.bury (index : HnswIndex) (id : ℕ) : Run HnswIndex :=
  match index.idToIdx[id]? with
  | none => .ok index
  | some idx => do
    let nodes ← alter index.nodes idx fun node => .ok { node with deleted := true }
    return { index with nodes, idToIdx := index.idToIdx.erase id }

/-- Room for the lists of a node, 24 bytes each. -/
def roomFor (level : ℕ) : Run Unit := do reserve 24 (← usize (level + 1))

/-- The node that an insertion adds. -/
def HnswIndex.fresh (index : HnswIndex) (id : ℕ) (vector : List F32) : Node where
  id := id
  vector := vector
  norm := (prepare arith vector).norm
  deleted := false
  layers := List.replicate (index.drawn arith + 1) []

/-- The new node in the arena, not yet linked. -/
def HnswIndex.push (index : HnswIndex) (id : ℕ) (vector : List F32) : HnswIndex :=
  { index with
    nodes := index.nodes ++ [index.fresh arith id vector]
    idToIdx := index.idToIdx.insert id index.nodes.length
    rng := nextRand index.rng }

/-- The new node linked in, and made the entry point if it is the first or the tallest. -/
def HnswIndex.linkIn (index : HnswIndex) (idx level : ℕ) (q : Query) : Run HnswIndex :=
  match index.entry with
  | none => .ok { index with entry := some idx, topLayer := level }
  | some entry => do
    let ep ← descend arith ties index.nodes index.metric q level index.topLayer entry
    let nodes ← connect arith ties index.params index.metric q idx ep
      (min level index.topLayer + 1) [ep] index.nodes
    if index.topLayer < level then
      return { index with nodes, topLayer := level, entry := some idx }
    else return { index with nodes }

def HnswIndex.insert (index : HnswIndex) (id : ℕ) (vector : List F32) : Run HnswIndex := do
  let index ← index.bury id
  roomFor (index.drawn arith)
  (index.push arith id vector).linkIn arith ties index.nodes.length (index.drawn arith)
    (prepare arith vector)

/-- The tallest of the live nodes and the number of its layers, the first in the arena among equals.
-/
def tallest (nodes : List Node) (ids : ExtTreeMap ℕ ℕ compare) : Run (Option (ℕ × ℕ)) :=
  ids.toList.foldlM (fun best entry => do
    let height := (← fetch nodes entry.2).layers.length
    match best with
    | none => return some (entry.2, height)
    | some (i, most) =>
      if most < height ∨ most = height ∧ entry.2 ≤ i then return some (entry.2, height)
      else return best) none

def HnswIndex.remove (index : HnswIndex) (id : ℕ) : Run HnswIndex :=
  match index.idToIdx[id]? with
  | none => .ok index
  | some idx => do
    let index ← index.bury id
    if index.entry = some idx then do
      match ← tallest index.nodes index.idToIdx with
      | none => return { index with entry := none, topLayer := 0 }
      | some (_, 0) => .error .overflow
      | some (i, height + 1) => return { index with entry := some i, topLayer := height }
    else return index

end

end DrStrange.Hnsw
