/-
**What each method changes of the nodes and edges of its plane, and what it records.**

A method on one entity that returns has made, rewritten or taken out the entity it records, and
changed nothing else but the edges of a node it deletes; one that fails leaves every record as it was
(`FeedTxn.after_steps`). A delete never fails, whether or not there was anything to delete.
-/

import DrStrange.Api.Balances
import DrStrange.Api.Feed

namespace DrStrange.Graph

open Std Lib ExtTreeMap

variable {base tables after : Tables} {plane : PlaneId} {nodes edges : Set ℕ} {α β : Type} {id : ℕ}
  {before middle last : WriteTxn base} {along : List Entity} {entity : Entity} {world next : World}
  {update : Properties → Properties} {labels : List String} {props : Properties} {row : NodeRow}
  {ty : String}

/-! ### The records of a plane -/

/-- The stored record of a node or an edge. -/
abbrev EntityRow := NodeRow ⊕ EdgeRow

def Tables.record (tables : Tables) (plane : PlaneId) : Entity → Option EntityRow
  | (.node, id) => (tables.nodes[(plane, id)]?).map .inl
  | (.edge, id) => (tables.edges[(plane, id)]?).map .inr

/-- The records a transaction sees on its plane. -/
def WriteTxn.record (write : WriteTxn base) : Entity → Option EntityRow :=
  write.txn.tables.record write.plane

theorem Tables.record_same (nodes : after.nodes = tables.nodes) (edges : after.edges = tables.edges) :
    after.record = tables.record := by
  funext plane entity
  obtain ⟨kind, id⟩ := entity
  cases kind with
  | node => rw [Tables.record, Tables.record, nodes]
  | edge => rw [Tables.record, Tables.record, edges]

theorem Grows.record (grows : Grows tables after) : after.record = tables.record :=
  Tables.record_same grows.nodes_eq grows.edges_eq

theorem Tables.record_writeNode {row : Option NodeRow}
    (nodes : after.nodes = tables.nodes.write (plane, id) row) (edges : after.edges = tables.edges) :
    after.record plane = Function.update (tables.record plane) (.node, id) (row.map .inl) := by
  funext entity
  obtain ⟨kind, other⟩ := entity
  cases kind with
  | node =>
    rw [Tables.record, nodes, getElem?_write, Function.update_apply]
    by_cases same : id = other
    · rw [if_pos (congrArg _ same), if_pos (congrArg _ same.symm)]
    · rw [if_neg (by simpa using same), if_neg (by simpa using Ne.symm same)]
      rfl
  | edge =>
    rw [Tables.record, edges, Function.update_of_ne (by simp)]
    rfl

theorem Tables.record_writeEdge {row : Option EdgeRow} (nodes : after.nodes = tables.nodes)
    (edges : after.edges = tables.edges.write (plane, id) row) :
    after.record plane = Function.update (tables.record plane) (.edge, id) (row.map .inr) := by
  funext entity
  obtain ⟨kind, other⟩ := entity
  cases kind with
  | node =>
    rw [Tables.record, nodes, Function.update_of_ne (by simp)]
    rfl
  | edge =>
    rw [Tables.record, edges, getElem?_write, Function.update_apply]
    by_cases same : id = other
    · rw [if_pos (congrArg _ same), if_pos (congrArg _ same.symm)]
    · rw [if_neg (by simpa using same), if_neg (by simpa using Ne.symm same)]
      rfl

/-- The entity is one of those made so far. -/
def World.Made (world : World) : Entity → Prop
  | (.node, id) => id ∈ world.madeNodes
  | (.edge, id) => id ∈ world.madeEdges

/-- What was made stays made. -/
theorem Change.made (change : Change plane world next) (made : world.Made entity) :
    next.Made entity := by
  obtain ⟨kind, id⟩ := entity
  cases change with
  | insertNode | insertEdge =>
    cases kind
    · first | exact List.mem_append_left _ made | exact made
    · first | exact List.mem_append_left _ made | exact made
  | _ => cases kind <;> exact made

theorem Changes.made (changes : Changes plane world next) (made : world.Made entity) :
    next.Made entity := by
  induction changes with
  | refl => exact made
  | tail _ change ih => exact change.made ih

theorem World.Recorded.made (recorded : world.Recorded)
    (found : world.tables.record plane entity ≠ none) : world.Made entity := by
  obtain ⟨kind, id⟩ := entity
  cases kind with
  | node => exact recorded.nodes plane id (mem_iff_isSome_getElem?.mpr
      (Option.isSome_map.symm.trans (Option.isSome_iff_ne_none.mpr found)))
  | edge => exact recorded.edges plane id (mem_iff_isSome_getElem?.mpr
      (Option.isSome_map.symm.trans (Option.isSome_iff_ne_none.mpr found)))

/-! ### What a method records -/

/-- From `before` to `after` one entity was made, rewritten or taken out as it was recorded, and of
the others those in `along` were taken out. -/
inductive Noted (before after : WriteTxn base) : List Entity → Entity × ChangeOp → Prop where
  | created {entity : Entity} {row : EntityRow} (fresh : ¬ before.world.Made entity)
      (made : after.world.Made entity)
      (written : after.record = Function.update before.record entity (some row)) :
      Noted before after [] (entity, .created)
  | updated {entity : Entity} {old new : EntityRow} (found : before.record entity = some old)
      (written : after.record = Function.update before.record entity (some new)) :
      Noted before after [] (entity, .updated)
  | deleted {entity : Entity} {along : List Entity} (gone : after.record entity = none)
      (held : ∀ other ∈ along, before.record other ≠ none)
      (gone' : ∀ other ∈ along, after.record other = none)
      (rest : ∀ other, other ≠ entity → other ∉ along → after.record other = before.record other) :
      Noted before after along (entity, .deleted)

/-- A method that records a change if it returns and leaves every record alone if it fails. -/
def Notes (before : WriteTxn base) (run : WriteM base α) (change : α → Entity × ChangeOp) : Prop :=
  Does before run (fun result after => Noted before after [] (change result))
    (fun after => after.record = before.record)

/-- A node written is the one record changed. -/
theorem Tables.record_putNode (nodes : after.nodes = tables.nodes.write (plane, id) (some row))
    (edges : after.edges = tables.edges) :
    after.record plane = Function.update (tables.record plane) (.node, id) (some (.inl row)) :=
  Tables.record_writeNode nodes edges

theorem Tables.record_putEdge {row : EdgeRow} (nodes : after.nodes = tables.nodes)
    (edges : after.edges = tables.edges.write (plane, id) (some row)) :
    after.record plane = Function.update (tables.record plane) (.edge, id) (some (.inr row)) :=
  Tables.record_writeEdge nodes edges

theorem createNodeAs_notes {key : Option String} (sound : before.world.Sound) :
    Notes before (createNodeAs key labels props) fun id => ((.node, id), .created) := by
  refine (nextNodeId_does.mono (fun _ _ taken => taken) ?_).bind ?_
  · rintro _ ⟨txn, rfl, same⟩
    exact congrArg (Tables.record · before.plane) same
  rintro id _ ⟨txn, batch, rfl, reserved, taken, -⟩
  refine ((onTxn_does insertNode_runs).mono (fun _ _ inserted => inserted) ?_).bind ?_
  · rintro _ ⟨after, rfl, grows⟩
    exact congrFun (reserved.trans grows).record before.plane
  rintro _ _ ⟨after, rfl, -, named, numbers, grows, known, written⟩
  have fresh := (sound.changes taken).nodes.used id
  have same : named.record = before.txn.tables.record := (reserved.trans grows).record
  rw [applyAll_nodeWrites] at written
  have put : after.tables.record before.plane =
      Function.update (named.record before.plane) (.node, id) (some (.inl ⟨key, numbers, props⟩)) :=
    Tables.record_putNode (by rw [written]) (by rw [written])
  rw [same] at put
  exact .created (fun made => fresh made (Set.mem_insert id _))
    (List.mem_append_right _ (List.mem_singleton_self id)) put

theorem createEdge_notes {src dst : NodeId} (sound : before.world.Sound) :
    Notes before (createEdge src dst ty props) fun id => ((.edge, id), .created) := by
  refine (nextEdgeId_does.mono (fun _ _ taken => taken) ?_).bind ?_
  · rintro _ ⟨txn, rfl, same⟩
    exact congrArg (Tables.record · before.plane) same
  rintro id _ ⟨txn, batch, rfl, reserved, taken, -⟩
  refine ((onTxn_does insertEdge_runs).mono (fun _ _ inserted => inserted) ?_).bind ?_
  · rintro _ ⟨after, rfl, grows⟩
    exact congrFun (reserved.trans grows).record before.plane
  rintro _ _ ⟨after, rfl, -, -, named, number, grows, known, written⟩
  have fresh := (sound.changes taken).edges.used id
  have same : named.record = before.txn.tables.record := (reserved.trans grows).record
  rw [applyAll_edgeWrites] at written
  have put : after.tables.record before.plane =
      Function.update (named.record before.plane) (.edge, id)
        (some (.inr ⟨src, dst, number, props⟩)) :=
    Tables.record_putEdge (by rw [written]) (by rw [written])
  rw [same] at put
  exact .created (fun made => fresh made (Set.mem_insert id _))
    (List.mem_append_right _ (List.mem_singleton_self id)) put

/-! ### Records deleted -/

/-- The edges a deleted node takes along. -/
def Tables.cascade (tables : Tables) (plane : PlaneId) (id : NodeId) : List Entity :=
  (incidentEdges tables plane id).map fun edge => (.edge, edge)

/-- The edges found from a node are those that touch it. -/
theorem Exact.mem_incident (exact : Exact tables) {edge : EdgeId} :
    edge ∈ incidentEdges tables plane id ↔
      ∃ (row : EdgeRow) (side : Side), tables.edges[(plane, edge)]? = some row ∧
      row.near side = id := by
  constructor
  · intro member
    rw [incidentEdges, List.mem_dedup, List.mem_mergeSort, List.mem_flatMap] at member
    obtain ⟨side, -, inside⟩ := member
    obtain ⟨⟨p, near, ty, far, other⟩, entry, rfl⟩ := List.mem_map.mp inside
    rw [adjEntries, List.mem_filter, mem_keys, Bool.and_eq_true, decide_eq_true_eq,
      decide_eq_true_eq] at entry
    obtain ⟨held, rfl, rfl⟩ := entry
    obtain ⟨row, found, touches, -⟩ := (exact.adj side p near ty far other).mp held
    exact ⟨row, side, found, touches⟩
  · rintro ⟨row, side, found, touches⟩
    exact exact.incident found side touches

/-- No edge is found from a node that is not there. -/
theorem Exact.incident_absent (exact : Exact tables) (absent : tables.nodes[(plane, id)]? = none) :
    incidentEdges tables plane id = [] := by
  refine List.eq_nil_iff_forall_not_mem.mpr fun edge member => ?_
  obtain ⟨row, side, found, rfl⟩ := exact.mem_incident.mp member
  obtain ⟨src, dst⟩ := exact.endpoints plane edge row found
  have here : (plane, row.near side) ∈ tables.nodes := by
    cases side with
    | fwd => exact src
    | rev => exact dst
  exact absurd absent (by simp [getElem?_eq_some_getElem here])

theorem Tables.record_deleteNode :
    (tables.deleteNode plane id row).record plane entity =
      if entity = (.node, id) ∨ entity ∈ tables.cascade plane id then none
      else tables.record plane entity := by
  obtain ⟨kind, other⟩ := entity
  cases kind with
  | node =>
    rw [Tables.record, Tables.deleteNode, Tables.withoutNode, getElem?_write, withoutEdges_records]
    by_cases same : id = other
    · simp [same]
    · have apart : other ≠ id := Ne.symm same
      simp [same, apart, Tables.cascade, Tables.record]
  | edge =>
    rw [Tables.record, Tables.deleteNode, Tables.withoutNode, withoutEdges_edges]
    by_cases inside : other ∈ incidentEdges tables plane id
    · simp [inside, Tables.cascade]
    · simp [inside, Tables.cascade, Tables.record]

theorem deleteNodeTxn_notes (sound : before.world.Sound) :
    Does before (deleteNodeTxn id)
      (fun _ after => Noted before after (before.txn.tables.cascade before.plane id)
        ((.node, id), .deleted)) (fun _ => False) := by
  refine ((countNode_counted sound.tables).mono (fun _ _ counted => counted) fun _ failed =>
    failed.elim).bind ?_
  rintro _ counted ⟨same, -⟩
  rw [same]
  refine ((@onTxn_does base _ _ (fun plane => deleteNode plane id) _ _ deleteNode_runs).mono
    (fun _ _ gone => gone) ?_).bind ?_
  · rintro _ ⟨txn, -, failed⟩
    exact failed
  rintro _ _ ⟨txn, rfl, gone⟩
  have exact : Exact before.txn.tables := sound.tables.exact
  have held : ∀ entity ∈ before.txn.tables.cascade before.plane id, before.record entity ≠ none := by
    intro _ member
    obtain ⟨edge, inside, rfl⟩ := List.mem_map.mp member
    obtain ⟨row, side, found, -⟩ := exact.mem_incident.mp inside
    simp [WriteTxn.record, Tables.record, found]
  rcases gone with ⟨absent, same⟩ | ⟨row, found, same⟩
  · have absent' : before.txn.tables.nodes[(before.plane, id)]? = none := absent
    have still : txn.tables.record before.plane = before.record :=
      congrArg (Tables.record · before.plane) same
    have alone : before.txn.tables.cascade before.plane id = [] := by
      rw [Tables.cascade, exact.incident_absent absent', List.map_nil]
    refine .deleted ?_ held ?_ fun other _ _ => congrFun still other
    · refine (congrFun still _).trans ?_
      simp [WriteTxn.record, Tables.record, absent']
    · simp [alone]
  · have gone : ∀ other, txn.tables.record before.plane other = _ := fun other =>
      (congrArg (Tables.record · before.plane other) same).trans Tables.record_deleteNode
    refine .deleted ?_ held ?_ ?_
    · exact (gone _).trans (if_pos (Or.inl rfl))
    · exact fun other member => (gone other).trans (if_pos (Or.inr member))
    · exact fun other apart clear => (gone other).trans (if_neg (not_or.mpr ⟨apart, clear⟩))

theorem deleteEdgeTxn_notes (sound : before.world.Sound) :
    Does before (deleteEdgeTxn id) (fun _ after => Noted before after [] ((.edge, id), .deleted))
      (fun _ => False) := by
  have deletes : ∀ counters : CounterDelta,
      Does { before with counters := counters } (onTxn fun plane =>
        deleteEdge plane id : WriteM base _)
        (fun _ after => Noted before after [] ((.edge, id), .deleted)) (fun _ => False) := by
    intro counters
    refine (@onTxn_does base _ { before with counters := counters }
      (fun plane => deleteEdge plane id) _ _ deleteEdge_runs).mono ?_ ?_
    · rintro _ _ ⟨txn, rfl, gone⟩
      rw [applyAll_edgeDeletes] at gone
      have written : txn.tables.record before.plane =
          Function.update before.record (.edge, id) none := by
        cases stored : before.txn.tables.edges[(before.plane, id)]? with
        | none =>
          rw [stored] at gone
          refine (congrArg (Tables.record · before.plane) gone).trans ?_
          refine (Function.update_eq_self_iff.mpr ?_).symm
          simp [Tables.record, stored]
        | some row =>
          rw [stored, Option.elim_some] at gone
          exact @Tables.record_writeEdge before.txn.tables txn.tables before.plane id none
            (by rw [gone]) (by rw [gone])
      refine .deleted ?_ nofun nofun ?_
      · exact (congrFun written _).trans (Function.update_self ..)
      · exact fun other apart _ => (congrFun written other).trans (Function.update_of_ne apart ..)
    · rintro _ ⟨txn, -, failed⟩
      exact failed
  cases stored : before.txn.tables.edges[(before.plane, id)]? with
  | none => exact .read (getEdge_absent stored) (deletes before.counters)
  | some row =>
    obtain ⟨ty, -, read⟩ := sound.tables.getEdge stored
    refine .read read ?_
    refine Does.modify.bind ?_
    rintro _ _ rfl
    exact deletes _

/-! ### Records changed -/

/-- The record calls after a property change fail on a store that is not sound only. -/
theorem rewriteProp_notes {key : String} {value : Option PropValue} (sound : before.world.Sound) :
    Notes before (do
      onTxn fun plane => updateNodeProps plane id update
      recordPropEvent id key value
      recordKwPropEvent id key value : WriteM base Unit) fun _ => ((.node, id), .updated) := by
  have updated := @onTxn_does base _ before (fun plane => updateNodeProps plane id update) _ _
    updateNodeProps_runs
  refine (updated.mono (fun _ _ updated => updated) ?_).bind ?_
  · rintro _ ⟨txn, rfl, same, -⟩
    exact congrArg (Tables.record · before.plane) same
  rintro _ _ ⟨txn, rfl, row, found, written⟩
  have changes : Changes before.plane before.world
      ({ before with txn := txn } : WriteTxn base).world := by
    have change := @Change.rewriteNode before.plane before.world id row (update row.props) found
    rw [show before.world.tables.apply _ = txn.tables from written.symm] at change
    exact .single change
  have sound' := sound.changes changes
  have put : txn.tables.record before.plane = Function.update before.record (.node, id)
      (some (.inl { row with props := update row.props })) :=
    Tables.record_putNode (by rw [written]; rfl) (by rw [written]; rfl)
  have old : before.record (.node, id) = some (.inl row) := by
    simp [WriteTxn.record, Tables.record, found]
  refine (recordPropEvent_does.mono (fun _ _ recorded => recorded) ?_).bind ?_
  · rintro _ ⟨-, unsound⟩
    exact absurd sound' unsound
  rintro _ _ ⟨verdict, rfl, -⟩
  refine recordKwPropEvent_does.mono ?_ ?_
  · rintro _ _ ⟨kwVerdict, rfl, -⟩
    exact .updated old put
  · rintro _ ⟨-, unsound⟩
    exact absurd sound' unsound

theorem setLabels_notes (sound : before.world.Sound) :
    Notes before (setLabels id labels) fun _ => ((.node, id), .updated) := by
  have tables : Sound _ _ before.txn.tables := sound.tables
  cases stored : before.txn.tables.nodes[(before.plane, id)]? with
  | none => exact .read (getNode_absent stored) rfl
  | some row =>
    refine .read (tables.getNode stored) ?_
    refine ((@onTxn_does base _ _ (fun plane => setNodeLabels plane id labels) _ _
      setNodeLabels_runs).mono (fun _ _ relabelled => relabelled) ?_).bind ?_
    · rintro _ ⟨txn, rfl, grows⟩
      exact congrFun grows.record before.plane
    rintro _ _ ⟨txn, rfl, row', named, ids, found, grows, known, written⟩
    rw [applyAll_relabelWrites] at written
    have same : named.record = before.txn.tables.record := grows.record
    have put : txn.tables.record before.plane = Function.update (named.record before.plane)
        (.node, id) (some (.inl { row' with labels := ids })) :=
      Tables.record_putNode (by rw [written]) (by rw [written])
    rw [same] at put
    have old : before.record (.node, id) = some (.inl row) := by
      simp [WriteTxn.record, Tables.record, stored]
    exact .updated old put

theorem updateEdgeProps_notes :
    Notes before (onTxn fun plane => updateEdgeProps plane id update : WriteM base Unit)
      fun _ => ((.edge, id), .updated) := by
  refine (@onTxn_does base _ before (fun plane => updateEdgeProps plane id update) _ _
    updateEdgeProps_runs).mono ?_ ?_
  · rintro _ _ ⟨txn, rfl, row, found, written⟩
    have put : txn.tables.record before.plane = Function.update before.record (.edge, id)
        (some (.inr { row with props := update row.props })) :=
      Tables.record_putEdge (by rw [written]; rfl) (by rw [written]; rfl)
    have old : before.record (.edge, id) = some (.inr row) := by
      simp [WriteTxn.record, Tables.record, found]
    exact .updated old put
  · rintro _ ⟨txn, rfl, same⟩
    exact congrArg (Tables.record · before.plane) same

theorem setEdgeTypeTxn_notes (sound : before.world.Sound) :
    Notes before (setEdgeTypeTxn id ty) fun _ => ((.edge, id), .updated) := by
  have retypes : ∀ counters : CounterDelta,
      Does { before with counters := counters }
        (onTxn fun plane => setEdgeType plane id ty : WriteM base _)
        (fun _ after => Noted before after [] ((.edge, id), .updated))
        (fun after => after.record = before.record) := by
    intro counters
    refine (@onTxn_does base _ { before with counters := counters }
      (fun plane => setEdgeType plane id ty) _ _ setEdgeType_runs).mono ?_ ?_
    · rintro _ _ ⟨txn, rfl, row, named, number, found, grows, known, written⟩
      rw [applyAll_retypeWrites] at written
      have same : named.record = before.txn.tables.record := grows.record
      have put : txn.tables.record before.plane = Function.update (named.record before.plane)
          (.edge, id) (some (.inr { row with ty := number })) :=
        Tables.record_putEdge (by rw [written]) (by rw [written])
      rw [same] at put
      have old : before.record (.edge, id) = some (.inr row) := by
        simpa [WriteTxn.record, Tables.record] using found
      exact .updated old put
    · rintro _ ⟨txn, rfl, grows⟩
      exact congrFun (Grows.record grows) before.plane
  cases stored : before.txn.tables.edges[(before.plane, id)]? with
  | none => exact .read (getEdge_absent stored) (retypes before.counters)
  | some row =>
    obtain ⟨old, -, read⟩ := sound.tables.getEdge stored
    refine .read read ?_
    dsimp only
    split
    · refine Does.modify.bind ?_
      rintro _ _ rfl
      exact retypes _
    · exact retypes before.counters

/-! ### Every method -/

/-- A method on one node or edge: any but a bulk load. -/
def WriteOp.Single : WriteOp → Prop
  | .bulkUpsert .. => False
  | _ => True

/-- What a method that names an existing entity does to it. -/
def WriteOp.target : WriteOp → Option (Entity × ChangeOp)
  | .deleteNode id => some ((.node, id), .deleted)
  | .deleteEdge id => some ((.edge, id), .deleted)
  | .setProp id _ _ | .removeProp id _ | .setLabels id _ => some ((.node, id), .updated)
  | .setEdgeProp id _ _ | .removeEdgeProp id _ | .setEdgeType id _ => some ((.edge, id), .updated)
  | .createNode .. | .createNodeWithKey .. | .createEdge .. | .bulkUpsert .. => none

/-- The edges a method takes out without being given their ids. -/
def WriteOp.cascade (write : WriteTxn base) : WriteOp → List Entity
  | .deleteNode id => write.txn.tables.cascade write.plane id
  | _ => []

/-- The result of a method that returns. -/
def returned (run : WriteM base α) (write : WriteTxn base) : Option α :=
  match run write with
  | .ok result _ => some result
  | .error _ _ => none

/-- The change a method on one entity records, if it returns. -/
def WriteOp.note (write : WriteTxn base) : WriteOp → Option (Entity × ChangeOp)
  | .createNode labels props =>
    (returned (createNodeAs none labels props) write).map fun id => ((.node, id), .created)
  | .createNodeWithKey key labels props =>
    (returned (createNodeAs (some key) labels props) write).map fun id => ((.node, id), .created)
  | .createEdge src dst ty props =>
    (returned (Graph.createEdge src dst ty props) write).map fun id => ((.edge, id), .created)
  | op => (returned (op.call : WriteM base Unit) write).bind fun _ => op.target

/-- One call on a transaction with its buffer: it records a change or leaves every record alone. -/
inductive FeedTxn.Steps (feed next : FeedTxn base) :
    List Entity → Option (Entity × ChangeOp) → Prop where
  | noted {along : List Entity} {note : Entity × ChangeOp}
      (noted : Noted feed.write next.write along note)
      (pushed : next.changes = feed.changes.push note.1 note.2) : Steps feed next along (some note)
  | failed (same : next.write.record = feed.write.record) (kept : next.changes = feed.changes) :
      Steps feed next [] none

variable {feed next : FeedTxn base} {note : Entity × ChangeOp} {op : WriteOp}
  {run : WriteM base Unit}

theorem leaves_discard {recorded : FeedM base α} :
    leaves (discard recorded) feed = leaves recorded feed := by
  show leaves (EStateM.map (Function.const α ()) recorded) feed = _
  rw [leaves, leaves, EStateM.map]
  cases recorded feed <;> rfl

theorem recording_steps {run : WriteM base α} {change : α → Entity × ChangeOp}
    (notes : Notes feed.write run change) :
    feed.Steps (leaves (recording run change) feed) [] ((returned run feed.write).map change) := by
  rw [Notes, Does] at notes
  rw [leaves, returned]
  simp only [recording, Bind.bind, EStateM.bind, working]
  cases ran : run feed.write with
  | ok result write =>
    rw [ran] at notes
    exact .noted notes rfl
  | error error write =>
    rw [ran] at notes
    exact .failed notes rfl

/-- A method on an entity it is given. -/
theorem target_steps (notes : Notes feed.write run fun _ => note) :
    feed.Steps (leaves (recording run fun _ => note) feed) []
      ((returned run feed.write).bind fun _ => some note) := by
  have steps := recording_steps notes
  rwa [Option.map_eq_bind] at steps

/-- A method that does not fail. -/
theorem Does.returned {run : WriteM base α} {post : α → WriteTxn base → Prop}
    (does : Does before run post fun _ => False) :
      ∃ result, Graph.returned run before = some result := by
  rw [Does] at does
  rw [Graph.returned]
  cases ran : run before with
  | ok result write => exact ⟨result, rfl⟩
  | error error write =>
    rw [ran] at does
    exact does.elim

/-- A method that takes out the entity it is given, and does not fail. -/
theorem deleted_steps
    (does : Does feed.write run (fun _ after => Noted feed.write after along note) fun _ => False) :
    feed.Steps (leaves (recording run fun _ => note) feed) along
      ((returned run feed.write).bind fun _ => some note) := by
  rw [Does] at does
  rw [leaves, returned]
  simp only [recording, Bind.bind, EStateM.bind, working]
  cases ran : run feed.write with
  | ok result write =>
    rw [ran] at does
    exact .noted does rfl
  | error error write =>
    rw [ran] at does
    exact does.elim

theorem FeedTxn.after_steps {op : WriteOp} (single : op.Single) (sound : feed.write.world.Sound) :
    feed.Steps (feed.after op) (op.cascade feed.write) (op.note feed.write) := by
  rw [FeedTxn.after]
  cases op with
  | bulkUpsert => exact single.elim
  | createNode | createNodeWithKey =>
    rw [WriteOp.recorded, leaves_discard]
    exact recording_steps (createNodeAs_notes sound)
  | createEdge =>
    rw [WriteOp.recorded, leaves_discard]
    exact recording_steps (createEdge_notes sound)
  | deleteNode => exact deleted_steps (deleteNodeTxn_notes sound)
  | deleteEdge => exact deleted_steps (deleteEdgeTxn_notes sound)
  | setProp | removeProp => exact target_steps (rewriteProp_notes sound)
  | setLabels => exact target_steps (setLabels_notes sound)
  | setEdgeProp | removeEdgeProp => exact target_steps updateEdgeProps_notes
  | setEdgeType => exact target_steps (setEdgeTypeTxn_notes sound)

/-- A delete is always recorded. -/
theorem WriteOp.note_deleted (sound : before.world.Sound)
    (target : op.target = some (entity, .deleted)) : op.note before = some (entity, .deleted) := by
  cases op with
  | deleteNode id =>
    obtain ⟨result, ran⟩ := (deleteNodeTxn_notes sound).returned
    exact (congrArg (Option.bind · _) ran).trans target
  | deleteEdge id =>
    obtain ⟨result, ran⟩ := (deleteEdgeTxn_notes sound).returned
    exact (congrArg (Option.bind · _) ran).trans target
  | _ => simp [WriteOp.target] at target

/-- A method that names an existing entity records no other change than the one it is called for. -/
theorem WriteOp.note_target (noted : op.note before = some note) (named : note.2 ≠ .created) :
    op.target = some note := by
  cases op with
  | createNode | createNodeWithKey | createEdge =>
    obtain ⟨id, -, rfl⟩ := Option.map_eq_some_iff.mp noted
    exact absurd rfl named
  | bulkUpsert =>
    obtain ⟨_, -, absurd⟩ := Option.bind_eq_some_iff.mp noted
    exact nomatch absurd
  | _ =>
    obtain ⟨_, -, target⟩ := Option.bind_eq_some_iff.mp noted
    exact target

/-- It records it just in case it returns. -/
theorem WriteOp.note_eq (target : op.target = some note) :
    op.note before = some note ↔ (returned (op.call : WriteM base Unit) before).isSome := by
  cases op with
  | createNode | createNodeWithKey | createEdge | bulkUpsert => exact nomatch target
  | _ =>
    refine Option.bind_eq_some_iff.trans ?_
    rw [Option.isSome_iff_exists]
    exact exists_congr fun _ => and_iff_left target

end DrStrange.Graph
