/-
**The rows of the executor, and what a row gives an expression.**

A row is a current node with the trail of hops that reached it. Slot 0 of a pattern is the row's
origin, slot `i` the node that hop `i - 1` reached, and hop `i` the edge between two slots.
-/

import DrStrange.Compute.Plan

namespace DrStrange.Compute

open Std DrStrange.Graph Lib

/-! ### Rows -/

/-- One row. The trail is newest hop first, and shared by the rows that branch from it. -/
structure Row where
  head : NodeId
  /-- The node the row started at. -/
  origin : NodeId
  trail : List (EdgeId × NodeId)
  hops : UInt32
  score : Option UInt32
  deriving DecidableEq, Repr

def Row.start (head : NodeId) : Row := ⟨head, head, [], 0, none⟩

def Row.scored (head : NodeId) (score : UInt32) : Row := ⟨head, head, [], 0, some score⟩

/-- Extends the path by one hop. -/
def Row.step (row : Row) (edge : EdgeId) (node : NodeId) : Row :=
  { row with head := node, trail := (edge, node) :: row.trail, hops := row.hops + 1 }

def Row.withScore (row : Row) (score : UInt32) : Row := { row with score := some score }

/-- The path from the source, in the order of traversal. -/
def Row.path (row : Row) : List (EdgeId × NodeId) := row.trail.reverse

/-! ### Reading the graph -/

/-- A search by vector: label, property, query, metric, how many. -/
abbrev VectorSearch :=
  Option String → String → List UInt32 → Metric → ℕ → Except Error (List (UInt32 × NodeId))

/-- A search by keywords: label, property, text, how many. -/
abbrev KeywordSearch := String → String → String → ℕ → Except Error (List (NodeId × UInt32))

/-- What the executor reads a snapshot through. -/
structure GraphReader where
  node : NodeId → Except Error (Option NodeRecord)
  edge : EdgeId → Except Error (Option EdgeRecord)
  neighbors : NodeId → Dir → Option String → Except Error (List Neighbor)
  scanAll : Except Error (List NodeId)
  scanLabel : String → Except Error (List NodeId)
  nodeIdByKey : String → Except Error (Option NodeId)
  vectorSearch : VectorSearch
  keywordSearch : KeywordSearch

/-- An item of a stream. -/
abbrev Item := Except Error Row

section

variable (machine : Machine) (reader : GraphReader)

/-- The edge of a hop and the way the row took it; a self-loop reads as outgoing. -/
def loadEdge (edge : EdgeId) (start stop : NodeId) : Except Error (Option (EdgeRecord × Dir)) := do
  let found ← reader.edge edge
  return found.map fun record =>
    (record, if record.src = start ∧ record.dst = stop then .out else .in)

/-- The node at a slot of the row's path. -/
def Row.nodeAt (row : Row) (slot : ℕ) : NodeId :=
  if slot = 0 then row.origin else ((row.path[slot - 1]?).map Prod.snd).getD row.origin

/-- The edge of a hop of the row, if it has that hop. -/
def hopEdge (row : Row) (hop : ℕ) : Except Error (Option (EdgeRecord × Dir)) :=
  match row.path[hop]? with
  | some (edge, dst) => loadEdge reader edge (row.nodeAt hop) dst
  | none => .ok none

/-- The edge the row arrived on, if it is asked for. -/
def arrivalEdge (row : Row) (need : BindingNeed) : Except Error (Option (EdgeRecord × Dir)) :=
  if need.lastEdge ∧ row.path ≠ [] then hopEdge reader row (row.path.length - 1) else .ok none

/-- Loads the bindings that are needed out of a row's trail. -/
def resolveBindings (row : Row) (need : BindingNeed) : Except Error Bindings := do
  let nodes ← (List.range (need.nodes.elim 0 (· + 1))).mapM fun slot =>
    if slot ≤ row.path.length then reader.node (row.nodeAt slot) else .ok none
  let edges ← (List.range (need.edges.elim 0 (· + 1))).mapM (hopEdge reader row)
  let last ← arrivalEdge reader row need
  return ⟨nodes, edges, last⟩

def Row.ctx (row : Row) (node : Option NodeRecord) (bindings : Bindings) : EvalCtx :=
  ⟨node, row.score, row.hops, bindings⟩

/-- The expressions evaluated against one row. -/
def rowValues (row : Row) (exprs : List Expr) (need : BindingNeed) :
    Except Error (List PropValue) := do
  let node ← reader.node row.head
  let bound ← resolveBindings reader row need
  return exprs.map (eval machine (row.ctx node bound))

def matchesPred (row : Row) (pred : Expr) (need : BindingNeed) : Except Error Bool := do
  let node ← reader.node row.head
  let bound ← resolveBindings reader row need
  return isTrue (eval machine (row.ctx node bound) pred)

end

/-! ### The reader of a plane -/

/-- A snapshot of one plane, with its searches. -/
def planeReader (tables : Tables) (plane : PlaneId)
    (vectorSearch : Option String → String → List UInt32 → Metric → ℕ →
      Except Error (List (UInt32 × NodeId)))
    (keywordSearch : String → String → String → ℕ → Except Error (List (NodeId × UInt32))) :
    GraphReader where
  node := getNode tables plane
  edge := getEdge tables plane
  neighbors node dir ty := .ok (neighbors tables plane node dir ty)
  scanAll := .ok (scanAll tables plane)
  scanLabel label := .ok (scanLabel tables plane label)
  nodeIdByKey key := .ok (nodeIdByExternalKey tables plane key)
  vectorSearch := vectorSearch
  keywordSearch := keywordSearch

end DrStrange.Compute
