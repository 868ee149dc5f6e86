/-
**Which line of a load made which node.**

A load makes a node for every line that does not keep one, in input order: with the key, the labels
and the properties of the line (`StagesNodes.lines`). The nodes kept were there before.
-/

import DrStrange.Graph.BulkSound

namespace DrStrange.Graph

open Std Lib ExtTreeMap

variable {tables : Tables} {plane : PlaneId} {onConflict : OnConflict} {start position : ℕ}
  {staged final : StagedNodes}

/-- The lines that made a node, with the id each got. -/
def linesOf (nodeIds : List NodeId) (existing : List (ℕ × NodeId)) (nodes : List BulkNode) :
    List (NodeId × BulkNode) :=
  ((nodeIds.zip nodes).zipIdx.filter fun line => line.2 ∉ existing.map Prod.fst).map Prod.fst

section Lines

variable {ids : List NodeId} {existing : List (ℕ × NodeId)} {nodes : List BulkNode}
  {node : BulkNode} {id : NodeId}

theorem linesOf_keep (each : ids.length = nodes.length) :
    linesOf (ids ++ [id]) (existing ++ [(ids.length, id)]) (nodes ++ [node]) =
      linesOf ids existing nodes := by
  rw [linesOf, linesOf, List.zip_append each, List.zipIdx_append, List.filter_append]
  have others : (ids.zip nodes).zipIdx.filter (fun line =>
      line.2 ∉ (existing ++ [(ids.length, id)]).map Prod.fst) =
      (ids.zip nodes).zipIdx.filter fun line => line.2 ∉ existing.map Prod.fst := by
    refine List.filter_congr fun line member => ?_
    have below := List.snd_lt_of_mem_zipIdx member
    have apart : line.2 ≠ ids.length := by
      simp only [List.length_zip] at below
      omega
    simp [apart]
  rw [others]
  simp [each]

theorem linesOf_make (each : ids.length = nodes.length)
    (earlier : ∀ entry ∈ existing, entry.1 < nodes.length) :
    linesOf (ids ++ [id]) existing (nodes ++ [node]) =
      linesOf ids existing nodes ++ [(id, node)] := by
  have fresh : nodes.length ∉ existing.map Prod.fst := by
    intro member
    obtain ⟨entry, inside, same⟩ := List.mem_map.mp member
    have below := earlier entry inside
    omega
  rw [linesOf, linesOf, List.zip_append each, List.zipIdx_append, List.filter_append,
    List.map_append]
  simp [fresh, each]

end Lines

/-- The row of a line. -/
structure Made (tables : Tables) (plane : PlaneId) (row : NodeKey × NodeRow)
    (line : NodeId × BulkNode) : Prop where
  id : row.1 = (plane, line.1)
  externalKey : row.2.externalKey = line.2.externalKey
  labels : tables.Names .label line.2.labels row.2.labels
  props : row.2.props = line.2.props

/-- The lines staged so far: each made its row, or kept the node its key leads to. -/
structure Lines (tables : Tables) (plane : PlaneId) (staged : StagedNodes) (past : List BulkNode) :
    Prop where
  made : List.Forall₂ (Made tables plane) staged.nodes (linesOf staged.nodeIds staged.existing past)
  kept : ∀ entry ∈ staged.existing, ∃ key : String, tables.extKeys[(plane, key)]? = some entry.2
  count : staged.nodeIds.length = past.length
  earlier : ∀ entry ∈ staged.existing, entry.1 < past.length

variable {past nodes : List BulkNode} {node : BulkNode}

theorem Lines.empty : Lines tables plane .empty [] where
  made := .nil
  kept _ member := nomatch member
  count := rfl
  earlier _ member := nomatch member

theorem Lines.keep {key : String} {owner : NodeId} (held : Lines tables plane staged past)
    (owned : tables.extKeys[(plane, key)]? = some owner) :
    Lines tables plane (staged.keep past.length key owner) (past ++ [node]) where
  made := by
    have same := @linesOf_keep staged.nodeIds staged.existing past node owner held.count
    rw [held.count] at same
    exact same ▸ held.made
  kept entry member := by
    rcases List.mem_append.mp member with old | single
    · exact held.kept entry old
    · rw [List.mem_singleton.mp single]
      exact ⟨key, owned⟩
  count := by simp [StagedNodes.keep, held.count]
  earlier entry member := by
    rw [List.length_append, List.length_singleton]
    rcases List.mem_append.mp member with old | single
    · exact Nat.lt_succ_of_lt (held.earlier entry old)
    · rw [List.mem_singleton.mp single]
      exact Nat.lt_succ_self _

theorem Lines.make {labels : List ℕ} {id : NodeId} (held : Lines tables plane staged past)
    (named : tables.Names .label node.labels labels) :
    Lines tables plane ((staged.claim plane id node.externalKey).push plane id
      ⟨node.externalKey, labels, node.props⟩) (past ++ [node]) := by
  obtain ⟨nodes, nodeIds, existing⟩ : (staged.claim plane id node.externalKey).nodes = staged.nodes ∧
      (staged.claim plane id node.externalKey).nodeIds = staged.nodeIds ∧
      (staged.claim plane id node.externalKey).existing = staged.existing := by
    cases node.externalKey <;> exact ⟨rfl, rfl, rfl⟩
  refine ⟨?_, ?_, ?_, ?_⟩
  · simp only [StagedNodes.push, nodes, nodeIds, existing]
    rw [linesOf_make held.count held.earlier]
    exact List.rel_append held.made (.cons ⟨rfl, rfl, named, rfl⟩ .nil)
  · simpa only [StagedNodes.push, existing] using held.kept
  · simp [StagedNodes.push, nodeIds, held.count]
  · intro entry member
    simp only [StagedNodes.push, existing] at member
    rw [List.length_append, List.length_singleton]
    exact Nat.lt_succ_of_lt (held.earlier entry member)

theorem StagesNodes.lines
    (stages : StagesNodes tables plane onConflict start position staged nodes final)
    (held : Lines tables plane staged past) (here : position = past.length) :
    Lines tables plane final (past ++ nodes) := by
  induction stages generalizing past with
  | done => rwa [List.append_nil]
  | @keep _ _ _ node _ _ _ taken _ ih =>
    obtain ⟨-, -, owned, -⟩ := claimKey_kept taken
    have next := @ih (past ++ [node]) (here ▸ held.keep owned) (by simp [here])
    rwa [List.append_assoc] at next
  | @make _ _ _ node _ _ free named _ ih =>
    have next := @ih (past ++ [node]) (held.make named) (by simp [here])
    rwa [List.append_assoc] at next

end DrStrange.Graph
