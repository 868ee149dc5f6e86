/-
**What a `DELETE` takes out.**

The first `DELETE` of a statement takes out the nodes of the match with every edge at one of them
(`deletes_shrink`), and leaves no edge there. A later one finds its nodes gone and changes nothing,
but is counted all the same (`runOps_grow`).
-/

import DrStrange.Parser.Reached

namespace DrStrange.Parser

open Std DrStrange.Graph DrStrange.Compute Lib

variable {base : Tables} {plane : PlaneId} {params : Params} {id : NodeId} {ids : List NodeId}
  {before after : Running base} {nodes : List NodeId} {edges : List EdgeId} {deleted : ℕ}
  {detach : Bool} {binding : Option String}

/-! ### Nodes that are gone -/

/-- None of the nodes is there. -/
def Running.Gone (running : Running base) (ids : List NodeId) : Prop :=
  ∀ id ∈ ids, running.write.record (.node, id) = none

/-- All of the nodes were made. -/
def Running.Made (running : Running base) (ids : List NodeId) : Prop :=
  ∀ id ∈ ids, id ∈ running.write.madeNodes

theorem Running.Made.grew (made : before.Made ids) (grew : before.Grew after nodes edges deleted) :
    after.Made ids := by
  intro id member
  rw [grew.write.madeNodes]
  exact List.mem_append_left _ (made id member)

/-- What was made has an id of its own. -/
theorem Running.Grew.fresh (valid : before.Valid) (grew : before.Grew after nodes edges deleted)
    (made : id ∈ before.write.madeNodes) : id ∉ nodes := by
  have nodup : (before.write.madeNodes ++ nodes).Nodup :=
    grew.write.madeNodes ▸ (valid.grew grew).sound.nodes.nodup
  exact List.disjoint_of_nodup_append nodup made

/-- An id is not given to another node. -/
theorem Running.Gone.grew (valid : before.Valid) (gone : before.Gone ids) (made : before.Made ids)
    (grew : before.Grew after nodes edges deleted) : after.Gone ids := by
  intro id member
  by_contra here
  rcases (grew.write.held _).mp here with old | new
  · exact old (gone id member)
  · have inside : id ∈ nodes := by simpa [entities] using new
    exact grew.fresh valid (made id member) inside

/-- A delete of a node that is gone changes no record. -/
theorem deleteOne_gone (valid : before.Valid) (gone : before.write.record (.node, id) = none)
    (ran : deleteOne plane detach id before = .ok () after) : before.Grew after [] [] 1 := by
  obtain ⟨-, write, called, rfl⟩ := deleteOne_run ran
  have absent : before.write.txn.tables.nodes[(before.write.plane, id)]? = none := by
    simpa [WriteTxn.record, Tables.record] using gone
  have noted := (deleteNodeTxn_notes valid.sound).returns called
  obtain ⟨madeNodes, madeEdges⟩ := (deleteNodeTxn_makesNothing before.write).returns called
  have exact : Exact before.write.txn.tables := valid.sound.tables.exact
  rw [Tables.cascade, exact.incident_absent absent, List.map_nil] at noted
  have same : write.record = before.write.record := by
    obtain ⟨gone', -, rest⟩ := noted.takes
    funext entity
    by_cases own : entity = (.node, id)
    · rw [own, gone', gone]
    · exact rest entity own List.not_mem_nil
  refine ⟨⟨deleteNodeTxn_keeps.returns called, by simpa using madeNodes, by simpa using madeEdges,
    fun entity => ?_, fun edge row found => ?_⟩, rfl, rfl, rfl, rfl, fun _ member => .inl member⟩
  · rw [same]
    simp [entities]
  · rw [same, found]

theorem deletes_gone (valid : before.Valid) (gone : before.Gone ids) (made : before.Made ids)
    (ran : ids.forM (deleteOne plane detach) before = .ok () after) :
    before.Grew after [] [] ids.length := by
  induction ids generalizing before with
  | nil => exact (run_pure_ok.mp ran).2 ▸ Running.Same.refl.grew
  | cons id ids ih =>
    obtain ⟨⟨⟩, middle, first, rest⟩ := run_bind_ok.mp ran
    have grew := deleteOne_gone valid (gone id List.mem_cons_self) first
    have further := ih (valid.grew grew)
      (Running.Gone.grew valid (fun other member => gone other (List.mem_cons_of_mem _ member))
        (fun other member => made other (List.mem_cons_of_mem _ member)) grew)
      (Running.Made.grew (fun other member => made other (List.mem_cons_of_mem _ member)) grew) rest
    have both := grew.trans further
    rwa [List.append_nil, Nat.add_comm] at both

/-- A clause that finds no node to delete only adds. -/
theorem runOp_grow {op : WriteOp} (valid : before.Valid)
    (bare : op.isDelete = true → before.Gone ids ∧ before.Made ids)
    (ran : runOp plane params binding ids op before = .ok () after) :
    ∃ nodes edges, before.Grew after nodes edges (if op.isDelete then ids.length else 0) := by
  cases kind : op.isDelete with
  | false => exact runOp_grows kind valid ran
  | true =>
    obtain ⟨gone, made⟩ := bare kind
    cases op with
    | delete detach vars => exact ⟨[], [], deletes_gone valid gone made ran⟩
    | create | merge | set | remove => cases kind

/-- So do clauses one after the other. -/
theorem runOps_grow {ops : List WriteOp} (valid : before.Valid)
    (bare : (∀ op ∈ ops, op.isDelete = false) ∨ before.Gone ids ∧ before.Made ids)
    (ran : ops.forM (runOp plane params binding ids) before = .ok () after) :
    ∃ nodes edges, before.Grew after nodes edges (ids.length * ops.countP WriteOp.isDelete) := by
  induction ops generalizing before with
  | nil => exact ⟨[], [], (run_pure_ok.mp ran).2 ▸ Running.Same.refl.grew⟩
  | cons op ops ih =>
    obtain ⟨⟨⟩, middle, first, rest⟩ := run_bind_ok.mp ran
    have here : op.isDelete = true → before.Gone ids ∧ before.Made ids := by
      intro kind
      rcases bare with none | gone
      · exact absurd kind (by simp [none op List.mem_cons_self])
      · exact gone
    obtain ⟨nodes, edges, grew⟩ := runOp_grow valid here first
    have later : (∀ op ∈ ops, op.isDelete = false) ∨ middle.Gone ids ∧ middle.Made ids := by
      rcases bare with none | ⟨gone, made⟩
      · exact .inl fun op member => none op (List.mem_cons_of_mem _ member)
      · exact .inr ⟨gone.grew valid made grew, made.grew grew⟩
    obtain ⟨nodes', edges', grew'⟩ := ih (valid.grew grew) later rest
    refine ⟨nodes ++ nodes', edges ++ edges', ?_⟩
    have count : (if op.isDelete then ids.length else 0) +
        ids.length * ops.countP WriteOp.isDelete =
          ids.length * (op :: ops).countP WriteOp.isDelete := by
      rw [List.countP_cons]
      split_ifs <;> ring
    exact count ▸ grew.trans grew'

/-! ### Nodes and edges taken out -/

/-- The edge stands at one of the nodes. -/
def Running.EdgeAt (running : Running base) (ids : List NodeId) (edge : EdgeId) : Prop :=
  ∃ row, running.write.record (.edge, edge) = some (.inr row) ∧ (row.src ∈ ids ∨ row.dst ∈ ids)

/-- What goes with the nodes. -/
def Running.Takes (running : Running base) (ids : List NodeId) : Entity → Prop
  | (.node, id) => id ∈ ids
  | (.edge, edge) => running.EdgeAt ids edge

/-- A statement further on that has taken out these nodes with the edges at them, and counted the
nodes. -/
structure Running.Shrunk (before after : Running base) (ids : List NodeId) : Prop where
  follows : before.write.Follows after.write
  madeNodes : after.write.madeNodes = before.write.madeNodes
  madeEdges : after.write.madeEdges = before.write.madeEdges
  nodesCreated : after.staged.summary.nodesCreated = before.staged.summary.nodesCreated
  edgesCreated : after.staged.summary.edgesCreated = before.staged.summary.edgesCreated
  nodesDeleted : after.staged.summary.nodesDeleted = before.staged.summary.nodesDeleted + ids.length
  edgesDeleted : after.staged.summary.edgesDeleted = before.staged.summary.edgesDeleted
  taken : ∀ entity, before.Takes ids entity → after.write.record entity = none
  rest : ∀ entity, ¬ before.Takes ids entity → after.write.record entity = before.write.record entity

/-- The edges found from a node are the edges at it. -/
theorem mem_cascade (valid : before.Valid) {edge : EdgeId} :
    ((.edge, edge) : Entity) ∈ before.write.txn.tables.cascade before.write.plane id ↔
      before.EdgeAt [id] edge := by
  have exact := valid.sound.tables.exact
  have incident : ((.edge, edge) : Entity) ∈ before.write.txn.tables.cascade before.write.plane id ↔
      edge ∈ incidentEdges before.write.txn.tables before.write.plane id := by
    simp [Tables.cascade]
  rw [incident]
  refine exact.mem_incident.trans ⟨?_, ?_⟩
  · rintro ⟨row, side, found, near⟩
    have there : before.write.txn.tables.edges[(before.write.plane, edge)]? = some row := found
    refine ⟨row, by simp [WriteTxn.record, Tables.record, there], ?_⟩
    cases side with
    | fwd => exact .inl (List.mem_singleton.mpr near)
    | rev => exact .inr (List.mem_singleton.mpr near)
  · rintro ⟨row, found, ends⟩
    have there : before.write.txn.tables.edges[(before.write.plane, edge)]? = some row := by
      simpa [WriteTxn.record, Tables.record] using found
    rcases ends with src | dst
    · exact ⟨row, .fwd, there, List.mem_singleton.mp src⟩
    · exact ⟨row, .rev, there, List.mem_singleton.mp dst⟩

theorem deleteOne_shrinks (valid : before.Valid)
    (ran : deleteOne plane detach id before = .ok () after) : before.Shrunk after [id] := by
  obtain ⟨-, write, called, rfl⟩ := deleteOne_run ran
  obtain ⟨madeNodes, madeEdges⟩ := (deleteNodeTxn_makesNothing before.write).returns called
  obtain ⟨gone, gone', rest⟩ := ((deleteNodeTxn_notes valid.sound).returns called).takes
  refine ⟨deleteNodeTxn_keeps.returns called, madeNodes, madeEdges, rfl, rfl, rfl, rfl, ?_, ?_⟩
  · rintro ⟨kind, other⟩ takes
    cases kind with
    | node =>
      obtain rfl := List.mem_singleton.mp takes
      exact gone
    | edge => exact gone' _ ((mem_cascade valid).mpr takes)
  · rintro ⟨kind, other⟩ clear
    cases kind with
    | node =>
      refine rest _ (fun same => clear ?_) (by simp [Tables.cascade])
      exact List.mem_singleton.mpr (Prod.mk.inj same).2
    | edge => exact rest _ (by simp) fun inside => clear ((mem_cascade valid).mp inside)

/-- **The first delete of a statement** takes out its nodes and every edge at one of them. -/
theorem deletes_shrink (valid : before.Valid)
    (ran : ids.forM (deleteOne plane detach) before = .ok () after) : before.Shrunk after ids := by
  induction ids generalizing before with
  | nil =>
    obtain rfl := (run_pure_ok.mp ran).2
    refine ⟨.refl, rfl, rfl, rfl, rfl, rfl, rfl, ?_, fun _ _ => rfl⟩
    rintro ⟨kind, other⟩ takes
    cases kind with
    | node => exact absurd takes List.not_mem_nil
    | edge =>
      obtain ⟨row, -, src | dst⟩ := takes
      · exact absurd src List.not_mem_nil
      · exact absurd dst List.not_mem_nil
  | cons id ids ih =>
    obtain ⟨⟨⟩, middle, first, last⟩ := run_bind_ok.mp ran
    have one := deleteOne_shrinks valid first
    have two := ih (valid.follows one.follows) last
    -- what the two steps take is what goes with all the nodes
    have split : ∀ entity, before.Takes (id :: ids) entity ↔
        before.Takes [id] entity ∨ before.Takes ids entity := by
      rintro ⟨kind, other⟩
      cases kind with
      | node => simp [Running.Takes]
      | edge =>
        simp only [Running.Takes, Running.EdgeAt, List.mem_cons, List.not_mem_nil, or_false,
          ← exists_or, ← and_or_left]
        refine exists_congr fun row => and_congr_right fun _ => ?_
        tauto
    have same : ∀ entity, ¬ before.Takes [id] entity →
        (middle.Takes ids entity ↔ before.Takes ids entity) := by
      rintro ⟨kind, other⟩ clear
      cases kind with
      | node => exact Iff.rfl
      | edge => simp only [Running.Takes, Running.EdgeAt, one.rest _ clear]
    refine ⟨one.follows.trans two.follows, two.madeNodes.trans one.madeNodes,
      two.madeEdges.trans one.madeEdges, two.nodesCreated.trans one.nodesCreated,
      two.edgesCreated.trans one.edgesCreated, ?_, two.edgesDeleted.trans one.edgesDeleted, ?_, ?_⟩
    · rw [two.nodesDeleted, one.nodesDeleted]
      simp only [List.length_cons, List.length_nil]
      ring
    · intro entity takes
      by_cases own : before.Takes [id] entity
      · by_cases again : middle.Takes ids entity
        · exact two.taken entity again
        · rw [two.rest entity again, one.taken entity own]
      · exact two.taken entity ((same entity own).mpr (((split entity).mp takes).resolve_left own))
    · intro entity clear
      rw [split, not_or] at clear
      rw [two.rest entity (fun again => clear.2 ((same entity clear.1).mp again)),
        one.rest entity clear.1]

end DrStrange.Parser
