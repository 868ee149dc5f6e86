/-
**The graph that the algorithms share.**

The nodes of a scope are renumbered in the order in which they are scanned, and each keeps the edges
that leave it for a node of the scope (`mem_out`).
-/

import DrStrange.Api.Registry
import DrStrange.Compute.Walks
import DrStrange.Lib.Fallible

namespace DrStrange.Compute

open Std DrStrange.Graph Lib

/-! ### The code -/

structure Frame where
  nodes : List NodeId
  out : Fin nodes.length → List (Fin nodes.length × EdgeId)

/-- The number of a node, if it is in the scope. -/
def indexOf (nodes : List NodeId) (id : NodeId) : Option (Fin nodes.length) :=
  (List.finRange nodes.length).reverse.find? fun i => nodes[i] = id

/-- The whole plane, or one label. -/
def scanned (reader : GraphReader) : Option String → Except Error (List NodeId)
  | some label => reader.scanLabel label
  | none => reader.scanAll

def Frame.build (reader : GraphReader) (label : Option String) : Except Error Frame := do
  let nodes ← scanned reader label
  let rows ← nodes.mapM fun id => reader.neighbors id .out none
  return ⟨nodes, fun i => (rows[i]?.getD []).filterMap fun n =>
    (indexOf nodes n.node).map (·, n.edge)⟩

/-- The edges that arrive at each node. -/
def Frame.transpose (frame : Frame) (j : Fin frame.nodes.length) :
    List (Fin frame.nodes.length × EdgeId) :=
  (List.finRange frame.nodes.length).flatMap fun i =>
    (frame.out i).filterMap fun (target, e) => if target = j then some (i, e) else none

/-! ### The frame of a plane -/

variable {tables : Tables} {plane : PlaneId} {label : Option String} {nodes : List NodeId}
  {id : NodeId}
  {vector : VectorSearch}
  {keyword : KeywordSearch} {edge : EdgeId}

/-- The nodes of a scope. -/
def scope (tables : Tables) (plane : PlaneId) (label : Option String) : List NodeId :=
  match label with
  | some label => scanLabel tables plane label
  | none => scanAll tables plane

/-- An edge leads from one node to another. -/
def Leads (tables : Tables) (plane : PlaneId) (edge : EdgeId) (a b : NodeId) : Prop :=
  ⟨b, edge⟩ ∈ neighbors tables plane a .out none

def planeFrame (tables : Tables) (plane : PlaneId) (label : Option String) : Frame where
  nodes := scope tables plane label
  out i := (neighbors tables plane (scope tables plane label)[i] .out none).filterMap fun n =>
    (indexOf (scope tables plane label) n.node).map (·, n.edge)

theorem build_plane : Frame.build (planeReader tables plane vector keyword) label =
    .ok (planeFrame tables plane label) := by
  have rows : ((scope tables plane label).mapM fun id =>
      (planeReader tables plane vector keyword).neighbors id .out none) =
        .ok ((scope tables plane label).map fun id => neighbors tables plane id .out none) :=
    List.mapM_pure
  have nodes : scanned (planeReader tables plane vector keyword) label =
      .ok (scope tables plane label) := by
    cases label <;> rfl
  refine bind_eq_ok.mpr ⟨_, nodes, bind_eq_ok.mpr ⟨_, rows, ?_⟩⟩
  refine congrArg (fun out => Except.ok (Frame.mk (scope tables plane label) out)) ?_
  funext i
  simp

theorem nodup_scope : (scope tables plane label).Nodup := by
  cases label with
  | some label => exact nodup_scanLabel
  | none =>
    refine List.Nodup.map_on ?_ (ExtTreeMap.nodup_keys.filter _)
    intro key member key' member' same
    simp only [List.mem_filter, decide_eq_true_eq] at member member'
    exact Prod.ext (member.2.trans member'.2.symm) same

/-- Under its number stands the node. -/
theorem indexOf_eq_some (distinct : nodes.Nodup) {i : Fin nodes.length} :
    indexOf nodes id = some i ↔ nodes[i] = id := by
  constructor
  · intro found
    simpa using List.find?_some found
  · intro same
    cases found : indexOf nodes id with
    | none =>
      have other := List.find?_eq_none.mp found i (by simp)
      exact absurd same (by simpa using other)
    | some j =>
      have same' : nodes[j] = id := by simpa using List.find?_some found
      exact congrArg some (Fin.ext ((List.Nodup.getElem_inj_iff distinct).mp (same'.trans same.symm)))

theorem indexOf_eq_none : indexOf nodes id = none ↔ id ∉ nodes := by
  rw [indexOf, List.find?_eq_none]
  constructor
  · intro none member
    obtain ⟨i, bound, same⟩ := List.getElem_of_mem member
    exact absurd same (by simpa using none ⟨i, bound⟩ (by simp))
  · intro absent i _
    simp only [decide_eq_true_eq]
    rintro rfl
    exact absent (List.getElem_mem _)

/-- **The edges of a frame** are those that lead from a node of the scope to another. -/
theorem mem_out {i j : Fin (scope tables plane label).length} {edge : EdgeId} :
    (j, edge) ∈ (planeFrame tables plane label).out i ↔
      Leads tables plane edge (scope tables plane label)[i] (scope tables plane label)[j] := by
  refine List.mem_filterMap.trans ?_
  simp only [Option.map_eq_some_iff, Prod.mk.injEq]
  constructor
  · rintro ⟨⟨node, edge⟩, inside, j, found, rfl, rfl⟩
    obtain rfl := (indexOf_eq_some nodup_scope).mp found
    exact inside
  · intro inside
    exact ⟨_, inside, j, (indexOf_eq_some nodup_scope).mpr rfl, rfl, rfl⟩

theorem mem_transpose {frame : Frame} {i j : Fin frame.nodes.length} :
    (i, edge) ∈ frame.transpose j ↔ (j, edge) ∈ frame.out i := by
  simp only [Frame.transpose, List.mem_flatMap, List.mem_finRange, true_and, List.mem_filterMap,
    Prod.exists]
  constructor
  · rintro ⟨i', target, e, inside, same⟩
    split_ifs at same with here
    obtain ⟨rfl, rfl⟩ := Prod.mk.inj (Option.some.inj same)
    exact here ▸ inside
  · intro inside
    exact ⟨i, j, edge, inside, if_pos rfl⟩

/-- Where the tables agree, an edge leads from its source to its target. -/
theorem leads_iff (exact : Exact tables) {a b : NodeId} :
    Leads tables plane edge a b ↔ Tables.Joins tables plane none edge a b := by
  rw [Leads, neighbors_eq, Dir.sides, List.flatMap_singleton]
  exact mem_sideHops exact

end DrStrange.Compute
