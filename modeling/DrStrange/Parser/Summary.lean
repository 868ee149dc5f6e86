/-
**When a write summary tells the truth.**

Every clause counts the nodes and edges that it makes, but a `DELETE` counts the nodes it was asked to
delete, whether they are still there, and no edges at all. So the summary of a statement is true
unless it deletes again, or its deleted nodes have edges (`apply_truthful`).
-/

import DrStrange.Api.Difference
import DrStrange.Compute.Groups
import DrStrange.Parser.Touched

namespace DrStrange.Parser

open Std DrStrange.Graph DrStrange.Compute Lib

variable {base tables : Tables} {plane : PlaneId} {params : Params} {ids : List NodeId}
  {host : Host} {machine : Machine} {db db' : Database} {millis : ℤ} {stmt : WriteStatement}
  {summary : WriteSummary} {debug : PropValue → String} {ast : WriteAst} {id : NodeId}

/-! ### What a statement did -/

/-- The nodes of the plane, there before the statement or made by it, that are not there after it. -/
def nodesRemoved (plane : PlaneId) (db db' : Database) : List NodeId :=
  (scanAll db.tables plane ++ nodesMade db db').filter fun id => (plane, id) ∉ db'.tables.nodes

/-- The edges likewise. -/
def edgesRemoved (plane : PlaneId) (db db' : Database) : List EdgeId :=
  (scanEdges db.tables plane ++ edgesMade db db').filter fun id => (plane, id) ∉ db'.tables.edges

/-- The summary of a statement counts what it made and removed. -/
structure WriteSummary.Truthful (summary : WriteSummary) (plane : PlaneId) (db db' : Database) :
    Prop where
  nodesCreated : summary.nodesCreated = (nodesMade db db').length
  edgesCreated : summary.edgesCreated = (edgesMade db db').length
  nodesDeleted : summary.nodesDeleted = (nodesRemoved plane db db').length
  edgesDeleted : summary.edgesDeleted = (edgesRemoved plane db db').length

/-- The statement deletes nothing, or once, and then nodes without edges: those it finds have none in
the plane, and no clause before the delete gives them one. -/
def WriteStatement.DeletesBare (stmt : WriteStatement) (tables : Tables) (plane : PlaneId)
    (ids : List NodeId) : Prop :=
  ids = [] ∨ (∀ op ∈ stmt.ops, op.isDelete = false) ∨
    stmt.ops.countP WriteOp.isDelete = 1 ∧
      (∀ id ∈ ids, neighbors tables plane id .both none = []) ∧
      ∀ var plan, stmt.binding = some (var, plan) →
        ∀ op ∈ stmt.ops.takeWhile (!·.isDelete), op.attaches var = false

/-! ### Records before and after -/

section Records

variable {start before after last : Running base} {nodes nodes' : List NodeId}
  {edges edges' : List EdgeId} {deleted deleted' : ℕ} {entity : Entity}

/-- What was made before is none of what is made. -/
theorem Running.Grew.apart (valid : before.Valid) (grew : before.Grew after nodes edges deleted)
    (made : before.write.world.Made entity) : entity ∉ entities nodes edges := by
  have valid' := valid.grew grew
  obtain ⟨kind, id⟩ := entity
  cases kind with
  | node => simpa [entities] using grew.fresh valid made
  | edge =>
    have nodup : (before.write.madeEdges ++ edges).Nodup :=
      grew.write.madeEdges ▸ valid'.sound.edges.nodup
    simpa [entities] using List.disjoint_of_nodup_append nodup made

/-- What a statement that only adds has removed: nothing. -/
theorem Running.Grew.not_removed (grew : start.Grew last nodes edges deleted) :
    ¬ ((start.write.record entity ≠ none ∨ entity ∈ entities nodes edges) ∧
      last.write.record entity = none) :=
  fun ⟨here, gone⟩ => (grew.write.held entity).mpr here gone

/-- What a statement that deletes has removed is what went with its nodes. -/
theorem Running.Shrunk.removed (valid : start.Valid) (one : start.Grew before nodes edges deleted)
    (shrunk : before.Shrunk after ids) (two : after.Grew last nodes' edges' deleted') :
    ((start.write.record entity ≠ none ∨ entity ∈ entities (nodes ++ nodes') (edges ++ edges')) ∧
      last.write.record entity = none) ↔
        before.write.record entity ≠ none ∧ before.Takes ids entity := by
  have valid' := valid.grew one
  have valid'' := valid'.follows shrunk.follows
  rw [entities_append, ← or_assoc, ← one.write.held]
  constructor
  · rintro ⟨here, gone⟩
    have gone' : after.write.record entity = none ∧ entity ∉ entities nodes' edges' := by
      rw [← not_ne_iff, two.write.held, not_or, not_ne_iff] at gone
      exact gone
    have held := here.resolve_right gone'.2
    refine ⟨held, ?_⟩
    by_contra clear
    exact held ((shrunk.rest entity clear).symm.trans gone'.1)
  · rintro ⟨held, takes⟩
    refine ⟨.inl held, ?_⟩
    have made : after.write.world.Made entity := by
      have made := valid'.recorded.made held
      obtain ⟨kind, id⟩ := entity
      cases kind with
      | node => exact (congrArg (id ∈ ·) shrunk.madeNodes).mpr made
      | edge => exact (congrArg (id ∈ ·) shrunk.madeEdges).mpr made
    by_contra here
    rcases (two.write.held entity).mp here with old | new
    · exact old (shrunk.taken entity takes)
    · exact two.apart valid'' made new

end Records

/-! ### Lists of what was removed -/

theorem record_node : tables.record plane (.node, id) ≠ none ↔ (plane, id) ∈ tables.nodes := by
  rw [ExtTreeMap.mem_iff_isSome_getElem?, Option.isSome_iff_ne_none]
  simp [Tables.record]

theorem record_edge {id : EdgeId} :
    tables.record plane (.edge, id) ≠ none ↔ (plane, id) ∈ tables.edges := by
  rw [ExtTreeMap.mem_iff_isSome_getElem?, Option.isSome_iff_ne_none]
  simp [Tables.record]

theorem mem_nodesRemoved :
    id ∈ nodesRemoved plane db db' ↔
      (db.tables.record plane (.node, id) ≠ none ∨ id ∈ nodesMade db db') ∧
        db'.tables.record plane (.node, id) = none := by
  rw [nodesRemoved, List.mem_filter, List.mem_append, mem_scanAll, ← record_node,
    decide_eq_true_iff, ← record_node, not_ne_iff]

theorem mem_edgesRemoved {id : EdgeId} :
    id ∈ edgesRemoved plane db db' ↔
      (db.tables.record plane (.edge, id) ≠ none ∨ id ∈ edgesMade db db') ∧
        db'.tables.record plane (.edge, id) = none := by
  have scanned : id ∈ scanEdges db.tables plane ↔ (plane, id) ∈ db.tables.edges := by
    simp [scanEdges]
  rw [edgesRemoved, List.mem_filter, List.mem_append, scanned, ← record_edge,
    decide_eq_true_iff, ← record_edge, not_ne_iff]

theorem nodesRemoved_nodup (sound : db.Sound) {nodes : List NodeId}
    (made : db'.madeNodes = db.madeNodes ++ nodes) (nodup : db'.madeNodes.Nodup) :
    (nodesRemoved plane db db').Nodup := by
  rw [made] at nodup
  obtain ⟨-, fresh, apart⟩ := List.nodup_append'.mp nodup
  refine List.Nodup.filter _ (List.nodup_append'.mpr ⟨?_, ?_, fun id held new => ?_⟩)
  · refine List.Nodup.map_on ?_ (ExtTreeMap.nodup_keys.filter _)
    rintro ⟨p, id⟩ member ⟨p', id'⟩ member' rfl
    simp only [List.mem_filter, decide_eq_true_eq] at member member'
    rw [member.2, member'.2]
  · rwa [nodesMade, made, List.drop_left]
  · rw [nodesMade, made, List.drop_left] at new
    exact apart (sound.recorded.nodes plane id (mem_scanAll.mp held)) new

/-! ### Whole statements -/

section Statement

variable {start last : Running db.tables} {nodes : List NodeId} {edges : List EdgeId} {deleted : ℕ}

/-- What a run of a statement leaves in the database. -/
structure Leaves (plane : PlaneId) (start last : Running db.tables) (db' : Database) : Prop where
  valid : start.Valid
  from' : start.write.record = db.tables.record plane
  madeNodes : start.write.madeNodes = db.madeNodes
  madeEdges : start.write.madeEdges = db.madeEdges
  to' : db'.tables.record plane = last.write.record
  madeNodes' : db'.madeNodes = last.write.madeNodes
  madeEdges' : db'.madeEdges = last.write.madeEdges

theorem WriteStatement.apply_leaves {searches : Searches} (sound : db.Sound)
    (applied : stmt.apply host machine searches db plane millis = .ok (summary, db'))
    (found : stmt.ids machine searches db.tables plane = .ok ids) :
    ∃ start last : Running db.tables, Leaves plane start last db' ∧
      start.staged.summary = {} ∧ start.staged.edges = [] ∧ last.staged.summary = summary ∧
      stmt.ops.forM (runOp plane stmt.params (stmt.binding.map Prod.fst) ids) start =
        .ok () last := by
  obtain ⟨own, labels, last, found', -, ran, rfl, committed⟩ := WriteStatement.apply_ok applied
  obtain rfl := Except.ok.inj (found.symm.trans found')
  have valid : Running.Valid ⟨db.beginTxn host plane, { labels := labels }, ∅⟩ := start_valid sound
  have follows := runOps_follows valid ran
  refine ⟨_, last, ⟨valid, rfl, rfl, rfl, ?_, ?_, ?_⟩, rfl, rfl, rfl, ran⟩
  · rw [commit_ok committed]
    show (last.write.sealed millis).record plane = _
    rw [WriteTxn.sealed_record, WriteTxn.record, follows.plane]
    rfl
  · rw [commit_ok committed]
  · rw [commit_ok committed]

theorem Leaves.made (leaves : Leaves plane start last db')
    (madeNodes : last.write.madeNodes = start.write.madeNodes ++ nodes)
    (madeEdges : last.write.madeEdges = start.write.madeEdges ++ edges) :
    nodesMade db db' = nodes ∧ edgesMade db db' = edges := by
  constructor
  · rw [nodesMade, leaves.madeNodes', madeNodes, leaves.madeNodes, List.drop_left]
  · rw [edgesMade, leaves.madeEdges', madeEdges, leaves.madeEdges, List.drop_left]

/-- A statement that only adds tells the truth. -/
theorem Leaves.grew_truthful (leaves : Leaves plane start last db')
    (empty : start.staged.summary = {}) (grew : start.Grew last nodes edges 0) :
    last.staged.summary.Truthful plane db db' := by
  obtain ⟨madeNodes, madeEdges⟩ := leaves.made grew.write.madeNodes grew.write.madeEdges
  have noNodes : nodesRemoved plane db db' = [] := by
    refine List.eq_nil_iff_forall_not_mem.mpr fun id member => ?_
    obtain ⟨here, gone⟩ := mem_nodesRemoved.mp member
    rw [madeNodes] at here
    rw [leaves.to'] at gone
    refine grew.not_removed ⟨here.imp (fun held => ?_) fun new => ?_, gone⟩
    · rwa [leaves.from']
    · simpa [entities] using new
  have noEdges : edgesRemoved plane db db' = [] := by
    refine List.eq_nil_iff_forall_not_mem.mpr fun id member => ?_
    obtain ⟨here, gone⟩ := mem_edgesRemoved.mp member
    rw [madeEdges] at here
    rw [leaves.to'] at gone
    refine grew.not_removed ⟨here.imp (fun held => ?_) fun new => ?_, gone⟩
    · rwa [leaves.from']
    · simpa [entities] using new
  refine ⟨?_, ?_, ?_, ?_⟩
  · rw [grew.nodesCreated, empty, madeNodes, Nat.zero_add]
  · rw [grew.edgesCreated, empty, madeEdges, Nat.zero_add]
  · rw [grew.nodesDeleted, empty, noNodes, List.length_nil]
  · rw [grew.edgesDeleted, empty, noEdges, List.length_nil]

/-- A statement that deletes tells the truth if it has counted each of its nodes once and they had no
edges. -/
theorem Leaves.shrunk_truthful {before after : Running db.tables} {nodes' : List NodeId}
    {edges' : List EdgeId} (sound : db.Sound) (leaves : Leaves plane start last db')
    (empty : start.staged.summary = {}) (nodup : ids.Nodup)
    (live : ∀ id ∈ ids, (plane, id) ∈ db.tables.nodes) (one : start.Grew before nodes edges 0)
    (shrunk : before.Shrunk after ids) (two : after.Grew last nodes' edges' deleted) :
    last.staged.summary.Truthful plane db db' ↔ deleted = 0 ∧ ¬ before.Touched ids := by
  have nodesOf : last.write.madeNodes = start.write.madeNodes ++ (nodes ++ nodes') := by
    rw [two.write.madeNodes, shrunk.madeNodes, one.write.madeNodes, List.append_assoc]
  have edgesOf : last.write.madeEdges = start.write.madeEdges ++ (edges ++ edges') := by
    rw [two.write.madeEdges, shrunk.madeEdges, one.write.madeEdges, List.append_assoc]
  obtain ⟨madeNodes, madeEdges⟩ := leaves.made nodesOf edgesOf
  have valid' : last.Valid :=
    ((leaves.valid.grew one).follows shrunk.follows).grew two
  have gone : ∀ id, id ∈ nodesRemoved plane db db' ↔ id ∈ ids := by
    intro id
    rw [mem_nodesRemoved, madeNodes, leaves.to', ← leaves.from']
    have entity : id ∈ nodes ++ nodes' ↔
        ((.node, id) : Entity) ∈ entities (nodes ++ nodes') (edges ++ edges') := by
      simp [entities]
    rw [entity, shrunk.removed leaves.valid one two]
    refine and_iff_right_of_imp fun member => (one.write.held _).mpr (.inl ?_)
    rw [leaves.from']
    exact record_node.mpr (live id member)
  have count : (nodesRemoved plane db db').length = ids.length := by
    refine ((List.perm_ext_iff_of_nodup ?_ nodup).mpr gone).length_eq
    refine nodesRemoved_nodup sound (leaves.madeNodes'.trans (leaves.madeNodes ▸ nodesOf)) ?_
    · rw [leaves.madeNodes']
      exact valid'.sound.nodes.nodup
  have goneEdges : ∀ id, id ∈ edgesRemoved plane db db' ↔ before.EdgeAt ids id := by
    intro id
    rw [mem_edgesRemoved, madeEdges, leaves.to', ← leaves.from']
    have entity : id ∈ edges ++ edges' ↔
        ((.edge, id) : Entity) ∈ entities (nodes ++ nodes') (edges ++ edges') := by
      simp [entities]
    rw [entity, shrunk.removed leaves.valid one two]
    refine and_iff_right_of_imp ?_
    rintro ⟨row, found, _⟩
    rw [found]
    rintro ⟨⟩
  have noEdges : (edgesRemoved plane db db').length = 0 ↔ ¬ before.Touched ids := by
    rw [List.length_eq_zero_iff, List.eq_nil_iff_forall_not_mem, Running.Touched, not_exists]
    exact forall_congr' fun id => not_congr (goneEdges id)
  have nodesDeleted : last.staged.summary.nodesDeleted = ids.length + deleted := by
    rw [two.nodesDeleted, shrunk.nodesDeleted, one.nodesDeleted, empty, Nat.zero_add]
  have edgesDeleted : last.staged.summary.edgesDeleted = 0 := by
    rw [two.edgesDeleted, shrunk.edgesDeleted, one.edgesDeleted, empty]
  constructor
  · intro truthful
    refine ⟨?_, noEdges.mp (truthful.edgesDeleted.symm.trans edgesDeleted)⟩
    have told := truthful.nodesDeleted
    omega
  · rintro ⟨rfl, untouched⟩
    refine ⟨?_, ?_, ?_, ?_⟩
    · rw [two.nodesCreated, shrunk.nodesCreated, one.nodesCreated, empty, madeNodes,
        List.length_append, Nat.zero_add]
    · rw [two.edgesCreated, shrunk.edgesCreated, one.edgesCreated, empty, madeEdges,
        List.length_append, Nat.zero_add]
    · rw [nodesDeleted, count, Nat.add_zero]
    · rw [edgesDeleted, noEdges.mpr untouched]

/-- Nodes without neighbours are nodes without edges. -/
theorem Leaves.untouched_iff (exact : Exact db.tables) (leaves : Leaves plane start last db') :
    ¬ start.Touched ids ↔ ∀ id ∈ ids, neighbors db.tables plane id .both none = [] := by
  have edgeAt : ∀ edge, start.EdgeAt ids edge ↔ ∃ row : EdgeRow,
      db.tables.edges[(plane, edge)]? = some row ∧ (row.src ∈ ids ∨ row.dst ∈ ids) := by
    intro edge
    rw [Running.EdgeAt, leaves.from']
    simp [Tables.record]
  constructor
  · intro untouched id member
    refine List.eq_nil_iff_forall_not_mem.mpr fun n near => untouched ⟨n.edge, (edgeAt _).mpr ?_⟩
    rw [neighbors_eq] at near
    obtain ⟨side, -, inside⟩ := List.mem_flatMap.mp near
    obtain ⟨row, found, rfl, -, -⟩ := (mem_sideHops exact).mp inside
    refine ⟨row, found, ?_⟩
    cases side with
    | fwd => exact .inl member
    | rev => exact .inr member
  · rintro bare ⟨edge, touched⟩
    obtain ⟨row, found, ends⟩ := (edgeAt edge).mp touched
    have near : ∀ side, row.near side ∈ ids → False := by
      intro side member
      have empty := bare _ member
      rw [neighbors_eq, List.flatMap_eq_nil_iff] at empty
      have inside : side ∈ Dir.sides .both := by cases side <;> simp [Dir.sides]
      have hop : (⟨row.far side, edge⟩ : Neighbor) ∈
          sideHops db.tables plane (row.near side) none side :=
        (mem_sideHops exact).mpr ⟨row, found, rfl, rfl, by rintro _ ⟨⟩⟩
      rw [empty side inside] at hop
      exact List.not_mem_nil hop
    exact ends.elim (near .fwd) (near .rev)

/-- A statement split at its first delete. -/
theorem split_at_delete {ops : List WriteOp} (deletes : ¬ ∀ op ∈ ops, op.isDelete = false) :
    ∃ detach vars rest, ops = ops.takeWhile (!·.isDelete) ++ .delete detach vars :: rest := by
  cases tail : ops.dropWhile (!·.isDelete) with
  | nil => exact absurd (by simpa using tail) deletes
  | cons op rest =>
    have first := List.head?_dropWhile_not (fun op : WriteOp => !op.isDelete) ops
    rw [tail] at first
    cases op with
    | delete detach vars =>
      exact ⟨detach, vars, rest, tail ▸ (List.takeWhile_append_dropWhile).symm⟩
    | create | merge | set | remove => simp [WriteOp.isDelete] at first

end Statement

/-- **A write summary tells the truth just in case the statement deletes bare nodes, once.** -/
theorem apply_truthful {searches : Tables → PlaneId → Searches}
    (reached : Reached host machine searches db)
    (compiled : compileWrite params debug ast = .ok stmt)
    (applied : stmt.apply host machine (searches db.tables plane) db plane millis =
      .ok (summary, db'))
    (found : stmt.ids machine (searches db.tables plane) db.tables plane = .ok ids) :
    summary.Truthful plane db db' ↔ stmt.DeletesBare db.tables plane ids := by
  have sound := reached.sound
  have exact : Exact db.tables := sound.world.tables.exact
  obtain ⟨nodup, live⟩ := WriteStatement.ids_found exact compiled found
  obtain ⟨start, last, leaves, empty, unstaged, rfl, ran⟩ :=
    WriteStatement.apply_leaves sound applied found
  by_cases quiet : ids = [] ∨ ∀ op ∈ stmt.ops, op.isDelete = false
  · have bare : (∀ op ∈ stmt.ops, op.isDelete = false) ∨ start.Gone ids ∧ start.Made ids := by
      rcases quiet with rfl | adds
      · exact .inr ⟨nofun, nofun⟩
      · exact .inl adds
    obtain ⟨nodes, edges, grew⟩ := runOps_grow leaves.valid bare ran
    have none : ids.length * stmt.ops.countP WriteOp.isDelete = 0 := by
      rcases quiet with rfl | adds
      · exact Nat.zero_mul _
      · rw [List.countP_eq_zero.mpr (by simpa using adds), Nat.mul_zero]
    rw [none] at grew
    exact iff_of_true (leaves.grew_truthful empty grew) (quiet.imp_right .inl)
  · obtain ⟨some, deletes⟩ := not_or.mp quiet
    obtain ⟨detach, vars, rest, split⟩ := split_at_delete deletes
    obtain ⟨var, plan, bound⟩ := WriteStatement.binding_of_ids found some
    have checked : ∀ op ∈ stmt.ops, validateAfterMatch var op = .ok () := by
      rcases compileWrite_ok compiled with ⟨alone, -⟩ | ⟨_, var', plan', bound', checked, -⟩
      · rw [alone] at bound
        cases bound
      · obtain ⟨rfl, rfl⟩ := Prod.mk.inj (Option.some.inj (bound'.symm.trans bound))
        exact checked
    generalize before : stmt.ops.takeWhile (!·.isDelete) = earlier at split
    have adds : ∀ op ∈ earlier, op.isDelete = false := by
      intro op member
      rw [← before] at member
      simpa using List.mem_takeWhile_imp member
    have made : start.Made ids := fun id member => by
      rw [leaves.madeNodes]
      exact sound.recorded.nodes plane id (live id member)
    rw [split, bound] at ran
    obtain ⟨middle, first, ran⟩ := forM_append_ok.mp ran
    obtain ⟨⟨⟩, after, deleted, ran⟩ := run_bind_ok.mp ran
    obtain ⟨nodes, edges, one⟩ := runOps_grow leaves.valid (.inl adds) first
    have noneBefore : earlier.countP WriteOp.isDelete = 0 :=
      List.countP_eq_zero.mpr (by simpa using adds)
    rw [noneBefore, Nat.mul_zero] at one
    have valid := leaves.valid.grew one
    have shrunk := deletes_shrink valid deleted
    have valid' := valid.follows shrunk.follows
    have gone : after.Gone ids := fun id member => shrunk.taken (.node, id) member
    have made' : after.Made ids := fun id member =>
      (congrArg (id ∈ ·) shrunk.madeNodes).mpr (made.grew one id member)
    obtain ⟨nodes', edges', two⟩ := runOps_grow valid' (.inr ⟨gone, made'⟩) ran
    have recalls : start.Recalls plane := by
      refine ⟨fun triple member => ?_, fun edge row there => ?_⟩
      · rw [unstaged] at member
        exact nomatch member
      · rw [leaves.from']
        simp [Tables.record, there]
    have touched := runOps_touched exact leaves.valid made recalls some
      (fun op member => checked op (split ▸ List.mem_append_left _ member)) adds first
    rw [leaves.shrunk_truthful sound empty nodup live one shrunk two, touched, not_or,
      leaves.untouched_iff exact, WriteStatement.DeletesBare]
    have once : ids.length * rest.countP WriteOp.isDelete = 0 ↔
        stmt.ops.countP WriteOp.isDelete = 1 := by
      rw [split, List.countP_append, List.countP_cons, noneBefore, Nat.mul_eq_zero,
        List.length_eq_zero_iff]
      simp [some, WriteOp.isDelete]
    rw [once]
    simp [some, deletes, bound, before]

/-- Two nodes with an edge between them. -/
def linkedStore : Database :=
  (Database.new plainHost 0).after plainHost 1
    (.write 0 [.createNode ["A"] ∅, .createNode ["B"] ∅, .createEdge 1 2 "T" ∅] true)

/-- `MATCH (n) DETACH DELETE n`. -/
def detachDeleteAll : WriteAst where
  matchClause := some ⟨⟨⟨some "n", none⟩, []⟩, none⟩
  ops := [.delete true ["n"]]

theorem linkedStore_reached : Reached plainHost .scalar noSearches linkedStore := .call (.new 0) 1 _

theorem detachDeleteAll_runs : ∃ stmt summary db',
    compileWrite ∅ (fun _ => "") detachDeleteAll = .ok stmt ∧
      stmt.apply plainHost .scalar (noSearches linkedStore.tables 0) linkedStore 0 2 =
        .ok (summary, db') ∧
      stmt.ids .scalar (noSearches linkedStore.tables 0) linkedStore.tables 0 = .ok [1, 2] ∧
      summary = { nodesDeleted := 2 } ∧ edgesRemoved 0 linkedStore db' = [1] := by
  have ran : ((compileWrite ∅ (fun _ => "") detachDeleteAll).toOption.bind fun stmt =>
      ((stmt.ids .scalar (noSearches linkedStore.tables 0) linkedStore.tables 0).toOption.bind
        fun ids =>
          ((stmt.apply plainHost .scalar (noSearches linkedStore.tables 0) linkedStore 0
            2).toOption.map
            fun result => (ids, result.1, edgesRemoved 0 linkedStore result.2)))) =
      some ([1, 2], { nodesDeleted := 2 }, [1]) := by decide +kernel
  cases compiled : compileWrite ∅ (fun _ => "") detachDeleteAll with
  | error message => simp [compiled, Except.toOption] at ran
  | ok stmt =>
    cases found : stmt.ids .scalar (noSearches linkedStore.tables 0) linkedStore.tables 0 with
    | error error => simp [compiled, found, Except.toOption] at ran
    | ok ids =>
      cases applied :
          stmt.apply plainHost .scalar (noSearches linkedStore.tables 0) linkedStore 0 2 with
      | error message => simp [compiled, found, applied, Except.toOption] at ran
      | ok result =>
        simp only [compiled, found, applied, Except.toOption, Option.bind_some,
          Option.map_some, Option.some.injEq, Prod.mk.injEq] at ran
        obtain ⟨rfl, counted, removed⟩ := ran
        exact ⟨stmt, result.1, result.2, rfl, applied, found, counted, removed⟩

theorem apply_truthful_of_cascade :
    ∃ (stmt : WriteStatement) (summary : WriteSummary) (db' : Database),
    stmt.apply plainHost .scalar (noSearches linkedStore.tables 0) linkedStore 0 2 =
        .ok (summary, db') ∧
      (summary.Truthful 0 linkedStore db' ↔ stmt.DeletesBare linkedStore.tables 0 [1, 2]) := by
  obtain ⟨stmt, summary, db', compiled, applied, found, -⟩ := detachDeleteAll_runs
  exact ⟨stmt, summary, db', applied, apply_truthful linkedStore_reached compiled applied found⟩

/-- The edge that goes with its nodes is not counted. -/
theorem cascade_uncounted : ∃ stmt summary db',
    Reached plainHost .scalar noSearches linkedStore ∧
      compileWrite ∅ (fun _ => "") detachDeleteAll = .ok stmt ∧
      stmt.apply plainHost .scalar (noSearches linkedStore.tables 0) linkedStore 0 2 =
        .ok (summary, db') ∧
      edgesRemoved 0 linkedStore db' = [1] ∧ summary.edgesDeleted = 0 ∧
      ¬ summary.Truthful 0 linkedStore db' := by
  obtain ⟨stmt, summary, db', compiled, applied, -, rfl, removed⟩ := detachDeleteAll_runs
  refine ⟨stmt, _, db', linkedStore_reached, compiled, applied, removed, rfl, fun truthful => ?_⟩
  have told := truthful.edgesDeleted
  rw [removed] at told
  cases told

end DrStrange.Parser
