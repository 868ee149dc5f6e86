/-
**Vector search of a plane, by an index or by brute force.**

Brute force reads the vector of every candidate and keeps the finite distances; a vector of another
dimension is infinitely far and so no candidate. A declared index answers with whatever its search
finds, and is not filtered: a node it holds with a vector of another dimension is found at an infinite
distance.
-/

import DrStrange.Api.Reachable
import DrStrange.Hnsw.WellFormed

namespace DrStrange.Hnsw

open Std DrStrange.Graph Lib BestFirst

/-! ### The metric -/

/-- The kernel of squared differences, besides. -/
structure Kernel extends Arith where
  l2sq : List F32 → List F32 → F32

def cosine (kernel : Kernel) (a b : List F32) : F32 :=
  let na := kernel.sqrt (kernel.dot a a)
  let nb := kernel.sqrt (kernel.dot b b)
  if lineKey na = 0 ∨ lineKey nb = 0 then 0
  else clamp (kernel.div (kernel.dot a b) (kernel.mul na nb)) 0xbf800000 0x3f800000

/-- `Metric::distance`. -/
def distance (kernel : Kernel) (metric : Metric) (a b : List F32) : Dist :=
  if a.length ≠ b.length then ⟨infinity⟩
  else
    match metric with
    | .cosine => ⟨kernel.sub 0x3f800000 (cosine kernel a b)⟩
    | .dot => ⟨kernel.neg (kernel.dot a b)⟩
    | .l2 => ⟨kernel.sqrt (kernel.l2sq a b)⟩

/-! ### The search -/

/-- Why a search fails: a read of the store, or a panic. -/
inductive Failure where
  | store (error : Error)
  | panic (panic : Panic)

abbrev Searched := Except Failure

/-- A declared index with its metric. -/
structure Declared where
  metric : Metric
  index : HnswIndex
  sound : index.Sound

/-- An index that has passed the check, as a run of searches and updates has left it. -/
def Declared.ofRun (metric : Metric) {arith : Arith} {index after : HnswIndex}
    (wellformed : index.isWellformed)
    {ops : List (Ties × Op)} (ran : runs arith index.reindex ops = .ok after) : Declared :=
  ⟨metric, after, runs_sound (sound_reindex wellformed) ran⟩

section

variable (kernel : Kernel) (ties : Ties) (tables : Tables) (registry : Option (Registry Declared))
  (plane : PlaneId) (label : Option String) (property : String) (query : List F32) (metric : Metric)
  (k : ℕ)

/-- The nodes that are scanned. -/
def candidates : List NodeId :=
  match label with
  | some label => scanLabel tables plane label
  | none => scanAll tables plane

/-- A candidate with its distance, if that is finite. -/
def near (item : NodeId × List F32) : Option (Dist × ℕ) :=
  if finite32 (distance kernel metric query item.2).bits then
    some (distance kernel metric query item.2, item.1)
  else none

def bruteForceSearch : Searched (List (Dist × ℕ)) := do
  let items ← (itemsOf PropValue.asVector tables plane property
    (candidates tables plane label)).mapError .store
  (topK ties (items.filterMap (near kernel query metric)) k).mapError .panic

/-- The index declared for a label and a property with this metric. -/
def covering : Option Declared :=
  registry.bind fun registry => label.bind fun label =>
    registry[(plane, label, property)]?.filter fun entry => entry.metric = metric

def indexedOrBrute : Searched (List (Dist × ℕ)) :=
  match covering registry plane label property metric with
  | some entry => (entry.index.search kernel.toArith ties query k none).mapError .panic
  | none => bruteForceSearch kernel ties tables plane label property query metric k

/-- The snapshot holds the node of a hit, with the label if one is asked for. -/
def isVisible (hit : Dist × ℕ) : Except Error Bool := do
  match ← getNode tables plane hit.2 with
  | some node => return label.all (· ∈ node.labels)
  | none => return false

/-- The hits that are visible. -/
def visibleHits : List (Dist × ℕ) → Except Error (List (Dist × ℕ))
  | [] => .ok []
  | hit :: hits => do
    let visible ← isVisible tables plane label hit
    let rest ← visibleHits hits
    return if visible then hit :: rest else rest

def vectorSearch : Searched (List (Dist × ℕ)) := do
  let hits ← indexedOrBrute kernel ties tables registry plane label property query metric k
  (visibleHits tables plane label hits).mapError .store

end

end DrStrange.Hnsw
