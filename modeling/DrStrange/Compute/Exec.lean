/-
**The executor: a plan as a stream of rows.**

A stream is the list of what pulling its iterator to the end yields, rows and errors. The steps that
need their whole input fail with its first error. Deadlines are left out.
-/

import DrStrange.Compute.Walks

namespace DrStrange.Compute

open Std DrStrange.Graph Lib

/-- The rows of a stream, or its first error. -/
def drain : List Item → Except Error (List Row)
  | [] => .ok []
  | .error e :: _ => .error e
  | .ok row :: rest => return row :: (← drain rest)

section

variable (machine : Machine) (reader : GraphReader)

/-! ### Steps -/

def expandOne (dir : Dir) (ty : Option String) : Item → List Item
  | .error e => [.error e]
  | .ok row =>
    match reader.neighbors row.head dir ty with
    | .error e => [.error e]
    | .ok ns => ns.map fun n => .ok (row.step n.edge n.node)

def expandVar (dir : Dir) (ty : Option String) (min max : ℕ) : Item → List Item
  | .error e => [.error e]
  | .ok row => (ExpandVar.new row).drain reader dir ty min max

def filterOne (pred : Expr) (need : BindingNeed) : Item → Option Item
  | .error e => some (.error e)
  | .ok row =>
    match matchesPred machine reader row pred need with
    | .error e => some (.error e)
    | .ok true => some (.ok row)
    | .ok false => none

/-- The rows whose head was not seen before. -/
def distinctRows (seen : List NodeId) : List Item → List Item
  | [] => []
  | .error e :: rest => .error e :: distinctRows seen rest
  | .ok row :: rest =>
    if row.head ∈ seen then distinctRows seen rest
    else .ok row :: distinctRows (row.head :: seen) rest

def cmpKeys : List SortKey → List PropValue → List PropValue → Ordering
  | key :: keys, a :: as, b :: bs =>
    let order := totalCmp a b
    (if key.descending then order.swap else order).then (cmpKeys keys as bs)
  | _, _, _ => .eq

/-- Each row's keys are evaluated once, and the sort is stable. -/
def sortRows (keys : List SortKey) (need : BindingNeed) (rows : List Item) :
    Except Error (List Row) := do
  let decorated ← rows.mapM fun item => do
    let row ← item
    return (← rowValues machine reader row (keys.map SortKey.expr) need, row)
  return (decorated.mergeSort fun a b => cmpKeys keys a.1 b.1 ≠ .gt).map Prod.snd

/-- A node's vector, if the property holds one. -/
def nodeVector (head : NodeId) (property : String) : Except Error (Option (List UInt32)) := do
  let node ← reader.node head
  return node.bind fun node => (node.properties[property]?).bind fun prop => prop.value.asVector

/-- `similarity_from_distance`. -/
def similarityFromDistance (metric : Metric) (distance : UInt32) : UInt32 :=
  match metric with
  | .cosine => machine.sub 0x3f800000 distance
  | .dot | .l2 => machine.neg distance

/-- The `k` candidates with a vector that is nearest, scored. A `k` too large to reserve a heap for is
left out. -/
def vectorTopKRows (candidates : List NodeId) (property : String) (query : List UInt32)
    (metric : Metric) (k : ℕ) : Except Error (List Row) := do
  let near ← candidates.mapM fun id => do
    let vector ← nodeVector reader id property
    return vector.bind fun vector => Hnsw.near machine.toKernel query metric (id, vector)
  return ((Hnsw.sortByDistance (machine.hits near.reduceOption)).take k).map fun hit =>
    .scored hit.2 (similarityFromDistance machine metric hit.1.bits)

/-- The first row of each node. -/
def firstRows (seen : List NodeId) : List Row → List Row
  | [] => []
  | row :: rest =>
    if row.head ∈ seen then firstRows seen rest else row :: firstRows (row.head :: seen) rest

/-- A ranked node keeps the first row that reached it, with the new score. -/
def frontierTopK (property : String) (query : List UInt32) (metric : Metric) (k : ℕ)
    (frontier : List Row) : Except Error (List Row) := do
  let firsts := firstRows [] frontier
  let ranked ← vectorTopKRows machine reader (firsts.map Row.head) property query metric k
  return ranked.map fun scored =>
    { (firsts.find? fun row => row.head = scored.head).getD scored with score := scored.score }

/-- The neighbours of a row with their similarities, the least one where there is no vector. -/
def beamCandidates (dir : Dir) (ty : Option String) (property : String) (query : List UInt32)
    (metric : Metric) (row : Row) : Except Error (List (UInt32 × Row)) := do
  (← reader.neighbors row.head dir ty).mapM fun n => do
    let vector ← nodeVector reader n.node property
    let sim := vector.elim 0xff800000 (similarity machine metric query)
    return (sim, (row.step n.edge n.node).withScore sim)

/-- At each level the best `width` of all the candidates are kept and emitted. -/
def expandBeam (dir : Dir) (ty : Option String) (property : String) (query : List UInt32)
    (metric : Metric) (width : ℕ) : ℕ → List Row → Except Error (List Row)
  | 0, _ => .ok []
  | depth + 1, frontier => do
    let candidates := (← frontier.mapM
      (beamCandidates machine reader dir ty property query metric)).flatten
    if candidates = [] then return []
    let best := ((candidates.mergeSort fun a b => totalCmp32 b.1 a.1 ≠ .gt).take width).map Prod.snd
    return best ++ (← expandBeam dir ty property query metric width depth best)

def applyStep (need : BindingNeed) (rows : List Item) : Step → Except Error (List Item)
  | .expand dir ty => .ok (rows.flatMap (expandOne reader dir ty))
  | .expandVar dir ty min max => .ok (rows.flatMap (expandVar reader dir ty min max))
  | .filter pred => .ok (rows.filterMap (filterOne machine reader pred need))
  | .skip n => .ok (rows.drop n)
  | .limit n => .ok (rows.take n)
  | .distinct => .ok (distinctRows [] rows)
  | .sort keys => do return (← sortRows machine reader keys need rows).map .ok
  | .frontierTopK property query metric k => do
    let frontier ← drain rows
    let out ← frontierTopK machine reader property query metric k frontier
    return out.map .ok
  | .expandBeam dir ty property query metric width depth => do
    let frontier ← drain rows
    let out ← expandBeam machine reader dir ty property query metric width depth frontier
    return out.map .ok

/-! ### Sources -/

/-- The ids that resolve to a node. -/
def seekIds (ids : List NodeId) : Except Error (List NodeId) :=
  ids.foldlM (fun out id => do return if (← reader.node id).isSome then out ++ [id] else out) []

/-- The nodes that the keys resolve to, key by key. -/
def seekKeys (keys : List String) : Except Error (List NodeId) :=
  keys.foldlM (fun out key => do return out ++ (← reader.nodeIdByKey key).toList) []

def sourceRows : Source → Except Error (List Row)
  | .scanAll => do return (← reader.scanAll).map .start
  | .scanLabel label => do return (← reader.scanLabel label).map .start
  | .seekIds ids => do return (← seekIds reader ids).map .start
  | .seekKeys keys => do return (← seekKeys reader keys).map .start
  | .vectorTopK label property query metric k => do
    return (← reader.vectorSearch label property query metric k).map fun hit =>
      .scored hit.2 (similarityFromDistance machine metric hit.1)
  | .keywordTopK label property query k => do
    return (← reader.keywordSearch label property query k).map fun hit => .scored hit.1 hit.2

/-- The row stream of a plan. -/
def execute (plan : LogicalPlan) : Except Error (List Item) := do
  let source ← sourceRows machine reader plan.source
  plan.steps.foldlM (applyStep machine reader plan.bindingNeed) (source.map .ok)

end

end DrStrange.Compute
