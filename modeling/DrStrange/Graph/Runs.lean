/-
**What each graph function does.**

One triple for each function of the graph code but the bulk loader: the rows it writes when it
returns, and what it leaves behind when it fails. A failure only ever leaves names and spent ids
(`Grows`): the records and the indexes are written after the last check.
-/

import DrStrange.Graph.Sound

namespace DrStrange.Graph

open Std Lib ExtTreeMap Std.Do

set_option mvcgen.warning false

variable {base tables before after : Tables} {plane : PlaneId} {id : ℕ} {props : Properties}
  {labels : List String} {name ty : String} {update : Properties → Properties} {key : Option String}
  {counter : Counter} {src dst : NodeId} {dict : Dict}

/-! ### Names and spent ids -/

/-- A new name numbered, or ids spent on nothing. -/
inductive Growth : Tables → Tables → Prop where
  | name {tables : Tables} {dict : Dict} {name : String} {id : ℕ}
      (unknown : (tables.dictIds dict)[name]? = none) (found : tables.next dict.counter = some id)
      (narrow : id < 2 ^ 32) : Growth tables (tables.applyAll (internWrites dict name id))
  | spent {tables : Tables} {counter : Counter} {id : ℕ} (count : ℕ)
      (found : tables.next counter = some id) :
      Growth tables (tables.apply (.next counter (id + count)))

/-- Names numbered and ids spent, any number of them. -/
abbrev Grows : Tables → Tables → Prop := Relation.ReflTransGen Growth

theorem Grows.trans {first second third : Tables} (one : Grows first second)
    (two : Grows second third) : Grows first third :=
  Relation.ReflTransGen.trans one two

/-- What growth leaves alone: everything but counters and dictionaries. -/
theorem Grows.records (grows : Grows tables after) :
    after = { tables with
      next := after.next, dictIds := after.dictIds, dictNames := after.dictNames } := by
  induction grows with
  | refl => rfl
  | tail _ growth ih =>
    cases growth with
    | name => rw [ih]; rfl
    | spent => rw [ih]; rfl

/-- A name keeps its id. -/
theorem Grows.known (grows : Grows tables after) (found : (tables.dictIds dict)[name]? = some id) :
    (after.dictIds dict)[name]? = some id := by
  induction grows with
  | refl => exact found
  | tail _ growth ih =>
    cases growth with
    | @name other fresh number unknown =>
      by_cases same : dict = other
      · subst same
        have apart : fresh ≠ name := by
          rintro rfl
          exact nomatch unknown.symm.trans ih
        simpa [internWrites, Tables.apply, getElem?_insert, apart] using ih
      · simpa [internWrites, Tables.apply, Function.update_of_ne same] using ih
    | spent => exact ih

theorem Grows.nodes_eq (grows : Grows tables after) : after.nodes = tables.nodes := by
  rw [grows.records]

theorem Grows.edges_eq (grows : Grows tables after) : after.edges = tables.edges := by
  rw [grows.records]

/-- A key that is free stays free. -/
theorem Grows.takenKey (grows : Grows tables after) (key : Option String) :
    takenKey after plane key = takenKey tables plane key := by
  rw [grows.records]
  rfl

/-- The ids a dictionary has for names. -/
def Tables.Names (tables : Tables) (dict : Dict) : List String → List ℕ → Prop :=
  List.Forall₂ fun name id => (tables.dictIds dict)[name]? = some id

theorem Tables.Names.grows {after : Tables} {dict : Dict} {names : List String} {ids : List ℕ}
    (known : tables.Names dict names ids) (grows : Grows tables after) :
    after.Names dict names ids :=
  known.imp fun _ _ found => grows.known found

/-! ### Ids -/

theorem reserveIdBatch_runs {count : ℕ} :
    Runs before (reserveIdBatch counter count : TxnM base ℕ)
      (fun start after => before.next counter = some start ∧
        after = before.apply (.next counter (start + count)))
      (fun after => after = before) := by
  mvcgen [reserveIdBatch, stage]
  subst_vars
  next found => exact ⟨found, rfl⟩

/-- What an id taken from a batch is: the first of a new batch, or the next of the one at hand. -/
inductive IdBatch.Takes (counter : Counter) (before : Tables) (batch : IdBatch) :
    ℕ × IdBatch → Tables → Prop where
  | fresh {start : ℕ} (spent : batch.remaining = 0) (found : before.next counter = some start) :
    Takes counter before batch (start, ⟨start + 1, idBatchSize - 1⟩)
      (before.apply (.next counter (start + idBatchSize)))
  | held (left : batch.remaining ≠ 0) :
    Takes counter before batch (batch.next, ⟨batch.next + 1, batch.remaining - 1⟩) before

theorem take_runs {batch : IdBatch} :
    Runs before (batch.take counter : TxnM base (ℕ × IdBatch)) (batch.Takes counter before)
      (fun after => after = before) := by
  have reserves := @reserveIdBatch_runs base
  mvcgen [IdBatch.take, reserves]
  next spent _ same start _ reserved =>
    rw [reserved.2, same]
    exact .fresh spent (same ▸ reserved.1)
  next same _ _ => exact fun failed => failed.trans same
  next left _ same =>
    rw [same]
    exact .held left

/-! ### Dictionaries -/

theorem intern_runs :
    Runs before (intern dict name : TxnM base ℕ)
      (fun id after => Grows before after ∧ (after.dictIds dict)[name]? = some id)
      (Grows before) := by
  mvcgen [intern, nextId, stage] <;> subst_vars
  next found => exact ⟨.refl, found⟩
  next unknown id found narrow =>
    exact ⟨.single (.name unknown found narrow), by simp [Tables.apply]⟩
  next id found _ => exact .single (.spent 1 found)
  next => exact .refl

theorem internLabels_runs {names : List String} :
    Runs before (internLabels names : TxnM base (List ℕ))
      (fun ids after => Grows before after ∧ after.Names .label names ids) (Grows before) := by
  induction names generalizing before with
  | nil =>
    mvcgen [internLabels]
    subst_vars
    exact ⟨.refl, .nil⟩
  | cons name names ih =>
    have interns := @intern_runs base
    mvcgen [internLabels, internLabel, interns, ih] <;> subst_vars
    next first _ _ rest =>
      exact ⟨first.1.trans rest.1, .cons (rest.1.known first.2) rest.2⟩
    next first _ _ => exact fun rest => first.1.trans rest
    next => exact fun grows => grows

/-! ### Nodes -/

/-- A node is written once its labels are named, if its key is free. -/
theorem insertNode_runs :
    Runs before (insertNode plane id key labels props : TxnM base Unit)
      (fun _ after => takenKey before plane key = none ∧ ∃ named ids, Grows before named ∧
        named.Names .label labels ids ∧
        after = named.applyAll (nodeWrites plane id ⟨key, ids, props⟩))
      (Grows before) := by
  have interns := @internLabels_runs base
  mvcgen [insertNode, interns] <;> subst_vars
  next => exact .refl
  next unclaimed ids txn named => exact ⟨unclaimed, txn.tables, ids, named.1, named.2, rfl⟩
  next => exact fun grows => grows

/-- A node made by the graph code itself: the counter goes up by one, then the node is written. -/
theorem createNodeImpl_runs :
    Runs before (createNodeImpl plane key labels props : TxnM base NodeId)
      (fun id after => before.next .node = some id ∧ ∃ named ids,
        Grows (before.apply (.next .node (id + 1))) named ∧
        after = named.applyAll (nodeWrites plane id ⟨key, ids, props⟩))
      (Grows before) := by
  have inserts := @insertNode_runs base
  mvcgen [createNodeImpl, nextId, stage, inserts] <;> subst_vars
  next id found _ _ written =>
    obtain ⟨-, named, ids, grows, -, same⟩ := written
    exact ⟨found, named, ids, grows, same⟩
  next id found _ _ => exact fun grows => .head (.spent 1 found) grows
  next => exact .refl

theorem updateNodeProps_runs :
    Runs before (updateNodeProps plane id update : TxnM base Unit)
      (fun _ after => ∃ row, before.nodes[(plane, id)]? = some row ∧
        after = before.apply (.node (plane, id) (some { row with props := update row.props })))
      (fun after => after = before ∧ before.nodes[(plane, id)]? = none) := by
  mvcgen [updateNodeProps, stage] <;> subst_vars
  next row found => exact ⟨row, found, rfl⟩
  next absent => exact ⟨rfl, Option.eq_none_iff_forall_ne_some.mpr absent⟩

theorem setNodeLabels_runs :
    Runs before (setNodeLabels plane id labels : TxnM base Unit)
      (fun _ after => ∃ row named ids, before.nodes[(plane, id)]? = some row ∧
        Grows before named ∧ named.Names .label labels ids ∧
        after = named.applyAll (relabelWrites plane id row ids))
      (Grows before) := by
  have interns := @internLabels_runs base
  mvcgen [setNodeLabels, interns] <;> subst_vars
  next row found ids txn named => exact ⟨row, txn.tables, ids, found, named.1, named.2, rfl⟩
  next => exact fun grows => grows
  next => exact .refl

/-! ### Edges -/

theorem mem_of_nodeExists {node : NodeId} (exist : ¬nodeExists tables plane node = false) :
    (plane, node) ∈ tables.nodes :=
  mem_iff_isSome_getElem?.mpr (Bool.not_eq_false _ ▸ exist)

/-- An edge is written once its type is named, if both ends exist. -/
theorem insertEdge_runs :
    Runs before (insertEdge plane id src dst ty props : TxnM base Unit)
      (fun _ after => (plane, src) ∈ before.nodes ∧ (plane, dst) ∈ before.nodes ∧
        ∃ named number, Grows before named ∧ (named.dictIds .edgeType)[ty]? = some number ∧
          after = named.applyAll (edgeWrites plane id ⟨src, dst, number, props⟩))
      (Grows before) := by
  have interns := @intern_runs base
  mvcgen [insertEdge, internEdgeType, interns] <;> subst_vars
  next => exact .refl
  next => exact .refl
  next src dst number txn named =>
    exact ⟨mem_of_nodeExists src, mem_of_nodeExists dst, txn.tables, number, named.1, named.2, rfl⟩
  next => exact fun grows => grows

/-- An edge made by the graph code itself. -/
theorem createEdge_runs :
    Runs before (Txn.createEdge plane src dst ty props : TxnM base EdgeId)
      (fun id after => before.next .edge = some id ∧ ∃ named row,
        Grows (before.apply (.next .edge (id + 1))) named ∧
        after = named.applyAll (edgeWrites plane id row))
      (Grows before) := by
  have inserts := @insertEdge_runs base
  mvcgen [Txn.createEdge, nextId, stage, inserts] <;> subst_vars
  next id found _ _ written =>
    obtain ⟨-, -, named, number, grows, -, same⟩ := written
    exact ⟨found, named, _, grows, same⟩
  next id found _ _ => exact fun grows => .head (.spent 1 found) grows
  next => exact .refl

theorem updateEdgeProps_runs :
    Runs before (updateEdgeProps plane id update : TxnM base Unit)
      (fun _ after => ∃ row, before.edges[(plane, id)]? = some row ∧
        after = before.apply (.edge (plane, id) (some { row with props := update row.props })))
      (fun after => after = before) := by
  mvcgen [updateEdgeProps, stage]
  subst_vars
  next row found => exact ⟨row, found, rfl⟩

theorem setEdgeType_runs :
    Runs before (setEdgeType plane id ty : TxnM base Unit)
      (fun _ after => ∃ row named number, before.edges[(plane, id)]? = some row ∧
        Grows before named ∧ (named.dictIds .edgeType)[ty]? = some number ∧
        after = named.applyAll (retypeWrites plane id row number))
      (Grows before) := by
  have interns := @intern_runs base
  mvcgen [setEdgeType, internEdgeType, stage, interns] <;> subst_vars
  next row found number _ moved txn named =>
    refine ⟨row, txn.tables, number, found, named.1, named.2, ?_⟩
    rw [retypeWrites, if_pos moved, Tables.applyAll_append]
    rfl
  next row found number _ moved txn named =>
    refine ⟨row, txn.tables, number, found, named.1, named.2, ?_⟩
    rw [retypeWrites, if_neg moved]
    rfl
  next => exact fun grows => grows
  next => exact .refl

theorem deleteEdge_runs :
    Runs before (deleteEdge plane id : TxnM base Unit)
      (fun _ after => after = before.applyAll (edgeDeletes before plane id)) (fun _ => False) := by
  mvcgen [deleteEdge]
  subst_vars
  rfl

/-! ### Deleting a node -/

/-- The tables once the edges of a list are gone. -/
def Tables.withoutEdges (tables : Tables) (plane : PlaneId) (ids : List EdgeId) : Tables :=
  ids.foldl (fun tables id => tables.applyAll (edgeDeletes tables plane id)) tables

theorem deleteEdges_runs {ids : List EdgeId} :
    Runs before (deleteEdges plane ids : TxnM base Unit)
      (fun _ after => after = before.withoutEdges plane ids) (fun _ => False) := by
  induction ids generalizing before with
  | nil => mvcgen [deleteEdges]
  | cons id ids ih =>
    mvcgen [deleteEdges, deleteEdge, ih]
    subst_vars
    exact fun gone => gone

theorem applyAll_withoutNode {row : NodeRow} :
    ((((tables.applyAll (labelWrites plane id row.labels none)).applyAll
      (keyDeletes (tables.applyAll (labelWrites plane id row.labels none)) plane id
        row.externalKey)).applyAll [.nodePlane id none]).applyAll [.node (plane, id) none]) =
      tables.withoutNode plane id row := by
  simp only [applyAll_keyDeletes, applyAll_labelWrites]
  rfl

/-- The tables once a node is gone with every edge that touches it. -/
def Tables.deleteNode (tables : Tables) (plane : PlaneId) (id : NodeId) (row : NodeRow) : Tables :=
  (tables.withoutEdges plane (incidentEdges tables plane id)).withoutNode plane id row

theorem deleteNode_runs :
    Runs before (deleteNode plane id : TxnM base Unit)
      (fun _ after => (before.nodes[(plane, id)]? = none ∧ after = before) ∨
        ∃ row, before.nodes[(plane, id)]? = some row ∧ after = before.deleteNode plane id row)
      (fun _ => False) := by
  have deletes := @deleteEdges_runs base
  mvcgen [deleteNode, stage, deletes] <;> subst_vars
  next row found _ txn cleared =>
    refine .inr ⟨row, found, ?_⟩
    simp only [Txn.stageAll_tables, applyAll_withoutNode, cleared, Tables.deleteNode]
  next absent => exact .inl ⟨Option.eq_none_iff_forall_ne_some.mpr absent, rfl⟩

/-! ### Planes -/

/-- The rows of a plane at an id. -/
def planeWrites (id : PlaneId) (row : PlaneRecord) : List Write :=
  [.plane id (some row), .planeName row.name (some id)]

theorem createPlane_runs :
    Runs before (createPlane name props : TxnM base PlaneId)
      (fun id after => before.planeNames[name]? = none ∧ before.next .plane = some id ∧
        after = (before.apply (.next .plane (id + 1))).applyAll (planeWrites id ⟨name, props⟩))
      (Grows before) := by
  mvcgen [createPlane, nextId, writePlane, stage] <;> subst_vars
  next => exact .refl
  next id found _ _ => exact .single (.spent 1 found)
  next free id found _ _ => exact ⟨free, found, rfl⟩
  next id found _ => exact .single (.spent 1 found)
  next => exact .refl

theorem setPlaneProperties_runs :
    Runs before (setPlaneProperties id props : TxnM base Unit)
      (fun _ after => ∃ row : PlaneRecord, before.planes[id]? = some row ∧
        after = before.applyAll (planeWrites id { row with props := props }))
      (fun after => after = before) := by
  mvcgen [setPlaneProperties, writePlane, stage]
  subst_vars
  next row found _ => exact ⟨row, found, rfl⟩

/-- The rows of a rename: the old name goes, the record and the new name are written. -/
def renameWrites (id : PlaneId) (row : PlaneRecord) (name : String) : List Write :=
  .planeName row.name none :: planeWrites id { row with name := name }

/-- A rename that is refused may leave the old name deleted: its caller gives the transaction up. -/
theorem renamePlane_runs :
    Runs before (renamePlane id name : TxnM base Unit)
      (fun _ after => ∃ row : PlaneRecord, before.planes[id]? = some row ∧
        (row.name = name ∧ after = before ∨ before.planeNames[name]? = none ∧
          after = before.applyAll (renameWrites id row name)))
      (fun _ => True) := by
  mvcgen [renamePlane, writePlane, stage] <;> subst_vars
  next row found => exact ⟨row, found, .inl ⟨rfl, rfl⟩⟩
  next row found _ free _ => exact ⟨row, found, .inr ⟨free, rfl⟩⟩

theorem dropPlane_runs :
    Runs before (dropPlane plane : TxnM base Unit)
      (fun _ after => (before.planes[plane]? = none ∧ after = before) ∨
        ∃ row, before.planes[plane]? = some row ∧ after = before.dropPlane plane row.name)
      (fun after => after = before) := by
  mvcgen [dropPlane] <;> subst_vars
  next row found => exact .inr ⟨row, found, applyAll_planeDeletes⟩
  next absent => exact .inl ⟨absent, rfl⟩

end DrStrange.Graph
