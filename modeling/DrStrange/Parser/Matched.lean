/-
**What a statement's match finds.**

The match of a statement compiles to a scan or a seek whose rows are kept apart by their nodes, so a
statement that compiles runs for each node that its match finds once, and each of them is there
(`WriteStatement.ids_live`, `WriteStatement.ids_nodup`).
-/

import DrStrange.Compute.Live
import DrStrange.Parser.Write

namespace DrStrange.Parser

open Std DrStrange.Graph DrStrange.Compute Lib

variable {tables : Tables} {plane : PlaneId} {machine : Machine} {searches : Searches}
  {params : Params} {debug : PropValue → String} {ast : WriteAst} {stmt : WriteStatement}
  {ids : List NodeId} {plan : LogicalPlan} {id : NodeId} {slot0' slot0 : List PExpr}
  {source' source : Source} {first : NodePat}

/-! ### Compilation -/

/-- A statement that compiles: its operations, checked against the variable that its match binds. -/
theorem compileWrite_ok (compiled : compileWrite params debug ast = .ok stmt) :
    stmt.binding = none ∧ (∀ op ∈ stmt.ops, validateStandalone op = .ok ()) ∨
      ∃ clause var plan, stmt.binding = some (var, plan) ∧
        (∀ op ∈ stmt.ops, validateAfterMatch var op = .ok ()) ∧
        compile none params debug (matchQuery clause) = .ok plan := by
  obtain ⟨ops, -, rest⟩ := bind_eq_ok.mp compiled
  obtain ⟨binding, bound, same⟩ := bind_eq_ok.mp rest
  obtain rfl := Except.ok.inj same
  cases found : ast.matchClause with
  | none =>
    rw [found] at bound
    obtain ⟨⟨⟩, checked, same⟩ := bind_eq_ok.mp bound
    exact .inl ⟨(Except.ok.inj same).symm, forM_forall checked⟩
  | some clause =>
    rw [found] at bound
    simp only [compileBinding] at bound
    split at bound
    · cases bound
    · rename_i var _
      obtain ⟨⟨⟩, checked, rest⟩ := bind_eq_ok.mp bound
      obtain ⟨plan, planned, same⟩ := bind_eq_ok.mp rest
      exact .inr ⟨clause, var, plan, (Except.ok.inj same).symm, forM_forall checked, planned⟩

/-- The conjunct that stands for the label of a scan. -/
def labelConjunct (first : NodePat) : Source → List PExpr
  | .scanLabel label => [.hasLabel (first.var.getD "") label]
  | .scanAll | .seekIds _ | .seekKeys _ | .vectorTopK .. | .keywordTopK .. => []

/-- The conjunct that a rewrite has found, and what it pins. -/
theorem seek_pinned {var : Option String} {pos : ℕ}
    (pinned : slot0.findIdx? (fun conj => (keySeekKeys params debug var conj).isSome) = some pos) :
    ∃ conj result, slot0[pos]? = some conj ∧ keySeekKeys params debug var conj = some result ∧
      (slot0[pos]?.bind (keySeekKeys params debug var)).getD (.ok []) = result := by
  obtain ⟨inside, isSeek, -⟩ := List.findIdx?_eq_some_iff_getElem.mp pinned
  obtain ⟨result, seeks⟩ := Option.isSome_iff_exists.mp isSeek
  refine ⟨slot0[pos], result, List.getElem?_eq_getElem inside, seeks, ?_⟩
  rw [List.getElem?_eq_getElem inside, Option.bind_some, seeks, Option.getD_some]

/-- A rewrite leaves the source as it is, or turns its scan into a seek of the keys that a conjunct
pins. -/
theorem keySeekRewrite_ok
    (rewritten : keySeekRewrite params debug source slot0 first = .ok (source', slot0')) :
    source' = source ∧ slot0' = slot0 ∨
      ∃ pos conj keys, scans source = true ∧ slot0[pos]? = some conj ∧
        keySeekKeys params debug first.var conj = some (.ok keys) ∧ source' = .seekKeys keys ∧
        slot0' = labelConjunct first source ++ slot0.eraseIdx pos := by
  unfold keySeekRewrite at rewritten
  split_ifs at rewritten with plain
  · obtain ⟨rfl, rfl⟩ := Prod.mk.inj (Except.ok.inj rewritten)
    exact .inl ⟨rfl, rfl⟩
  · have scanned : scans source = true := by simpa using plain
    dsimp only at rewritten
    cases pinned : slot0.findIdx? fun conj => (keySeekKeys params debug first.var conj).isSome with
    | none =>
      rw [pinned] at rewritten
      obtain ⟨rfl, rfl⟩ : source = source' ∧ slot0 = slot0' := by
        cases source <;> exact Prod.mk.inj (Except.ok.inj rewritten)
      exact .inl ⟨rfl, rfl⟩
    | some pos =>
      obtain ⟨conj, result, held, seeks, read⟩ := seek_pinned pinned
      rw [pinned] at rewritten
      refine .inr ⟨pos, conj, ?_⟩
      cases source with
      | scanLabel label =>
        obtain ⟨keys, ran, same⟩ := bind_eq_ok.mp rewritten
        obtain ⟨rfl, rfl⟩ := Prod.mk.inj (Except.ok.inj same)
        exact ⟨keys, rfl, held, seeks.trans (congrArg some (read ▸ ran)), rfl, rfl⟩
      | scanAll =>
        obtain ⟨keys, ran, same⟩ := bind_eq_ok.mp rewritten
        obtain ⟨rfl, rfl⟩ := Prod.mk.inj (Except.ok.inj same)
        exact ⟨keys, rfl, held, seeks.trans (congrArg some (read ▸ ran)), rfl, rfl⟩
      | seekIds | seekKeys | vectorTopK | keywordTopK => cases scanned

theorem keySeekRewrite_matches (matched : source.Matches)
    (rewritten : keySeekRewrite params debug source slot0 first = .ok (source', slot0')) :
    source'.Matches := by
  rcases keySeekRewrite_ok rewritten with ⟨rfl, -⟩ | ⟨-, -, keys, -, -, -, rfl, -⟩
  · exact matched
  · exact trivial

/-- The plan of a statement's match starts from a scan or a seek and keeps its rows apart at the
end. -/
theorem compile_match {clause : MatchClause}
    (compiled : compile none params debug (matchQuery clause) = .ok plan) :
    plan.source.Matches ∧ ∃ steps, plan.steps = steps ++ [.distinct] := by
  obtain ⟨source, sourced, rest⟩ := bind_eq_ok.mp compiled
  obtain ⟨varSlot, -, rest⟩ := bind_eq_ok.mp rest
  obtain ⟨slotFilters, -, rest⟩ := bind_eq_ok.mp rest
  obtain ⟨⟨source', slot0⟩, rewritten, rest⟩ := bind_eq_ok.mp rest
  obtain ⟨filters, -, rest⟩ := bind_eq_ok.mp rest
  obtain ⟨hops, -, rest⟩ := bind_eq_ok.mp rest
  obtain ⟨⟨tail, project⟩, returned, rest⟩ := bind_eq_ok.mp rest
  obtain rfl := Except.ok.inj rest
  have matched : source.Matches := by
    obtain rfl := Except.ok.inj sourced
    show (clause.pattern.first.label.elim Source.scanAll Source.scanLabel).Matches
    cases clause.pattern.first.label <;> exact trivial
  refine ⟨keySeekRewrite_matches matched rewritten, filters ++ hops, ?_⟩
  obtain ⟨keys, -, same⟩ : ∃ keys, _ ∧ _ := bind_eq_ok.mp returned
  obtain ⟨rfl, -⟩ := Prod.mk.inj (Except.ok.inj same)
  rfl

/-! ### Nodes found -/

/-- The nodes found end the rows of the plan, and each is found once. -/
theorem WriteStatement.ids_found (exact : Exact tables)
    (compiled : compileWrite params debug ast = .ok stmt)
    (found : stmt.ids machine searches tables plane = .ok ids) :
    ids.Nodup ∧ ∀ id ∈ ids, (plane, id) ∈ tables.nodes := by
  rcases compileWrite_ok compiled with ⟨bare, -⟩ | ⟨clause, var, plan, bound, -, planned⟩
  · rw [WriteStatement.ids, bare] at found
    obtain rfl := Except.ok.inj found
    exact ⟨List.nodup_nil, nofun⟩
  · rw [WriteStatement.ids, bound] at found
    obtain ⟨items, ran, rest⟩ := bind_eq_ok.mp found
    obtain ⟨rows, drained, same⟩ := bind_eq_ok.mp rest
    obtain rfl := Except.ok.inj same
    obtain ⟨matched, steps, split⟩ := compile_match planned
    have live := execute_live exact matched ran
    obtain ⟨first, sourced, ran⟩ := bind_eq_ok.mp ran
    rw [split, List.foldlM_append] at ran
    obtain ⟨middle, -, last⟩ := bind_eq_ok.mp ran
    obtain ⟨items', distinct, same⟩ := bind_eq_ok.mp last
    obtain rfl := Except.ok.inj same
    obtain rfl := Except.ok.inj distinct
    refine ⟨(distinctRows_nodup drained).1, fun id member => ?_⟩
    obtain ⟨row, inside, rfl⟩ := List.mem_map.mp member
    exact live row (drain_ok drained ▸ List.mem_map_of_mem inside)

/-- A statement that finds a node has a match. -/
theorem WriteStatement.binding_of_ids (found : stmt.ids machine searches tables plane = .ok ids)
    (some : ids ≠ []) : ∃ var plan, stmt.binding = Option.some (var, plan) := by
  cases bound : stmt.binding with
  | none =>
    rw [WriteStatement.ids, bound] at found
    exact absurd (Except.ok.inj found).symm some
  | some binding => exact ⟨binding.1, binding.2, rfl⟩

end DrStrange.Parser
