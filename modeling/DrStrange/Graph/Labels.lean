/-
**Labels read back, and the room left for new ones.**

In a sound store every node reads back with the names of its labels, and a name it carries is
carried for as long as its row stays (`Tables.labelsOf`). New names are given until the dictionary
has given out every 32-bit id: as long as its counter has not run over (`Tables.RoomIn`), no call that
names labels or types fails for want of one.
-/

import DrStrange.Graph.BulkSound
import DrStrange.Lib.Fallible

namespace DrStrange.Graph

open Std Lib ExtTreeMap Std.Do

set_option mvcgen.warning false

variable {base tables after : Tables} {plane : PlaneId} {id : ℕ} {nodes edges : Set ℕ} {dict : Dict}
  {world next : World} {row : NodeRow}

/-! ### Room in the dictionaries -/

/-- A dictionary has not run over. -/
def Tables.RoomIn (tables : Tables) (dict : Dict) : Prop :=
  ∃ next, tables.next dict.counter = some next ∧ next ≤ 2 ^ 32

/-- The label dictionary has not run over. -/
def Tables.Room (tables : Tables) : Prop :=
  ∃ next, tables.next .label = some next ∧ next ≤ 2 ^ 32

/-- An id numbered or spent leaves no room that was not there. -/
theorem Tables.RoomIn.advanced {counter : Counter} {count : ℕ}
    (found : tables.next counter = some id)
    (room : (tables.apply (.next counter (id + count))).RoomIn dict) : tables.RoomIn dict := by
  obtain ⟨next, held, fits⟩ := room
  by_cases same : counter = dict.counter
  · subst same
    simp only [Tables.apply, Function.update_self, Option.some.injEq] at held
    exact ⟨id, found, by omega⟩
  · exact ⟨next, by simpa [Tables.apply, Function.update_of_ne (Ne.symm same)] using held, fits⟩

theorem Growth.roomIn (growth : Growth tables after) (room : after.RoomIn dict) :
    tables.RoomIn dict := by
  cases growth with
  | name unknown found narrow => exact Tables.RoomIn.advanced found room
  | spent count found => exact Tables.RoomIn.advanced found room

theorem Tables.RoomIn.same (room : after.RoomIn dict) (counters : after.next = tables.next) :
    tables.RoomIn dict := by
  rwa [Tables.RoomIn, ← counters]

/-- No change makes room. -/
theorem Change.roomIn (change : Change plane world next) (room : next.tables.RoomIn dict) :
    world.tables.RoomIn dict := by
  cases change with
  | grow growth => exact growth.roomIn room
  | reserveNodes found | reserveEdges found => exact Tables.RoomIn.advanced found room
  | forget | rewriteNode | removeNode | rewriteEdge => exact room
  | insertNode => exact room.same (by rw [applyAll_nodeWrites])
  | relabel => exact room.same (by rw [applyAll_relabelWrites])
  | insertEdge => exact room.same (by rw [applyAll_edgeWrites])
  | retype => exact room.same (by rw [applyAll_retypeWrites])
  | removeEdge edge =>
    refine room.same ?_
    rw [applyAll_edgeDeletes]
    cases world.tables.edges[(plane, edge)]? <;> rfl

theorem Changes.roomIn (changes : Changes plane world next) (room : next.tables.RoomIn dict) :
    world.tables.RoomIn dict := by
  induction changes with
  | refl => exact room
  | tail _ change ih => exact ih (change.roomIn room)

theorem Changes.room (changes : Changes plane world next) (room : next.tables.Room) :
    world.tables.Room :=
  changes.roomIn (show next.tables.RoomIn .label from room)

/-- A name is refused for want of room only. -/
theorem intern_fails {name : String} :
    Runs tables (intern dict name : TxnM base ℕ) (fun _ _ => True)
      (fun after => ¬ after.RoomIn dict) := by
  mvcgen [intern, nextId, stage]
  next id found wide =>
    rintro ⟨next, held, fits⟩
    simp only [Txn.stageAll_tables, Tables.applyAll_cons, Tables.applyAll_nil, Tables.apply,
      Function.update_self, Option.some.injEq] at held
    omega
  next missing found =>
    rintro ⟨next, held, -⟩
    exact missing next (found.symm.trans held)

theorem internLabels_fails {names : List String} :
    Runs tables (internLabels names : TxnM base (List ℕ)) (fun _ _ => True)
      (fun after => ¬ after.Room) := by
  induction names generalizing tables with
  | nil => mvcgen [internLabels]
  | cons name names ih =>
    have rest : ⦃fun _ => ⌜True⌝⦄ (internLabels names : TxnM base (List ℕ))
        ⦃post⟨fun _ _ => ⌜True⌝, fun _ txn => ⌜¬ txn.tables.Room⌝⟩⦄ := fun txn _ =>
      @ih txn.tables txn rfl
    mvcgen [internLabels, internLabel, intern_fails, rest]

theorem setNodeLabels_fails {labels : List String} :
    Runs tables (setNodeLabels plane id labels : TxnM base Unit) (fun _ _ => True)
      (fun after => tables.nodes[(plane, id)]? = none ∨ ¬ after.Room) := by
  mvcgen [setNodeLabels, internLabels_fails]
  next => exact .inr
  next same _ absent found =>
    exact .inl (same ▸ found.trans (Option.eq_none_iff_forall_ne_some.mpr absent))

theorem setEdgeType_fails {ty : String} :
    Runs tables (setEdgeType plane id ty : TxnM base Unit) (fun _ _ => True)
      (fun after => tables.edges[(plane, id)]? = none ∨ ¬ after.RoomIn .edgeType) := by
  mvcgen [setEdgeType, internEdgeType, stage, intern_fails]
  next => exact .inr
  next same _ absent found =>
    exact .inl (same ▸ found.trans (Option.eq_none_iff_forall_ne_some.mpr absent))

/-! ### Nodes read back -/

/-- The names of a node's labels. -/
def Tables.labelsOf (tables : Tables) (row : NodeRow) : List String :=
  row.labels.filterMap fun label => (tables.dictNames .label)[label]?

/-- Labels that all have names, resolved. -/
theorem mapM_resolveLabel {labels : List ℕ}
    (named : ∀ label ∈ labels, label ∈ tables.dictNames .label) :
    labels.mapM (resolveLabel tables) =
      .ok (labels.filterMap fun label => (tables.dictNames .label)[label]?) := by
  induction labels with
  | nil => rfl
  | cons label labels ih =>
    have rest := ih fun other member => named other (List.mem_cons_of_mem _ member)
    obtain ⟨name, found⟩ : ∃ name, (tables.dictNames .label)[label]? = some name :=
      ⟨_, getElem?_eq_some_getElem (named label List.mem_cons_self)⟩
    rw [List.mapM_cons, rest, resolveLabel, found, List.filterMap_cons, found]
    rfl

/-- A stored node reads back. -/
theorem Sound.getNode (sound : Sound nodes edges tables)
    (found : tables.nodes[(plane, id)]? = some row) :
    getNode tables plane id =
      .ok (some ⟨id, plane, row.externalKey, tables.labelsOf row, row.props⟩) := by
  rw [Graph.getNode, found]
  simp only [mapM_resolveLabel (sound.labels (plane, id) row found)]
  rfl

theorem getNode_absent (absent : tables.nodes[(plane, id)]? = none) :
    getNode tables plane id = .ok none := by
  rw [getNode, absent]

/-- What is read is what is stored, with its labels named. -/
theorem getNode_found {node : NodeRecord} (read : getNode tables plane id = .ok (some node)) :
    ∃ row labels, tables.nodes[(plane, id)]? = some row ∧
    row.labels.mapM (resolveLabel tables) = .ok labels ∧
      node = ⟨id, plane, row.externalKey, labels, row.props⟩ := by
  unfold getNode at read
  split at read
  · cases read
  · rename_i row found
    obtain ⟨labels, named, same⟩ := bind_eq_ok.mp read
    exact ⟨row, labels, found, named, (Option.some.inj (Except.ok.inj same)).symm⟩

/-- A stored edge reads back, under the name of its type. -/
theorem Sound.getEdge {row : EdgeRow} (sound : Sound nodes edges tables)
    (found : tables.edges[(plane, id)]? = some row) :
    ∃ ty, (tables.dictNames .edgeType)[row.ty]? = some ty ∧
      getEdge tables plane id = .ok (some ⟨id, plane, row.src, row.dst, ty, row.props⟩) := by
  have named := getElem?_eq_some_getElem (sound.types (plane, id) row found)
  refine ⟨_, named, ?_⟩
  rw [Graph.getEdge, found]
  simp only [named]

theorem getEdge_absent (absent : tables.edges[(plane, id)]? = none) :
    getEdge tables plane id = .ok none := by
  rw [getEdge, absent]

/-- Reading a node or an edge of a sound store never fails. -/
theorem Sound.getNode_returns (sound : Sound nodes edges tables) :
    ∃ found, Graph.getNode tables plane id = .ok found := by
  cases stored : tables.nodes[(plane, id)]? with
  | none => exact ⟨none, getNode_absent stored⟩
  | some row => exact ⟨_, sound.getNode stored⟩

theorem Sound.getEdge_returns (sound : Sound nodes edges tables) :
    ∃ found, Graph.getEdge tables plane id = .ok found := by
  cases stored : tables.edges[(plane, id)]? with
  | none => exact ⟨none, getEdge_absent stored⟩
  | some row =>
    obtain ⟨ty, -, read⟩ := sound.getEdge stored
    exact ⟨_, read⟩

/-- The labels of a row do not change while names are added. -/
theorem labelsOf_named (named : ∀ label ∈ row.labels, label ∈ tables.dictNames .label)
    (kept : ∀ (label : ℕ) (name : String), (tables.dictNames .label)[label]? = some name →
      (after.dictNames .label)[label]? = some name) : after.labelsOf row = tables.labelsOf row := by
  refine List.filterMap_congr fun label member => ?_
  have found := getElem?_eq_some_getElem (named label member)
  rw [found]
  exact kept label _ found

/-- Labels named in a row are the names they were named by. -/
theorem Tables.Names.labelsOf {names : List String} {labels : List ℕ} {key : Option String}
    {props : Properties} (known : tables.Names .label names labels)
    (inverse : Inverse (tables.dictIds .label) (tables.dictNames .label)) :
    tables.labelsOf ⟨key, labels, props⟩ = names := by
  rw [Tables.labelsOf]
  induction known with
  | nil => rfl
  | @cons name label _ _ found _ ih => rw [List.filterMap_cons, (inverse name label).mp found, ih]

end DrStrange.Graph
