/-
**No data without a plane.**

Every row of the graph lies under a plane and every row of summary counters is a plane's. The record
of that plane is there as long as every committed write is made on a plane that has one. A handle
keeps only the id of its plane, so a write through the handle of a plane dropped since puts rows back
under it, with nothing left to reach or delete them by.
-/

import DrStrange.Api.Reachable

namespace DrStrange.Graph

open Std Lib ExtTreeMap Std.Do

set_option mvcgen.warning false

variable {millis : ℤ} {base tables after : Tables} {plane : PlaneId} {host : Host} {db : Database}
  {α : Type}

/-! ### Rows and their planes -/

/-- Every row of the graph and of the summary counters belongs to a plane that has a record. -/
structure HavePlanes (tables : Tables) : Prop where
  nodes : ∀ key ∈ tables.nodes, key.1 ∈ tables.planes
  edges : ∀ key ∈ tables.edges, key.1 ∈ tables.planes
  adj : ∀ side, ∀ key ∈ tables.adj side, key.1 ∈ tables.planes
  labelIdx : ∀ key ∈ tables.labelIdx, key.1 ∈ tables.planes
  extKeys : ∀ key ∈ tables.extKeys, key.1 ∈ tables.planes
  nodePlane : ∀ (node : NodeId) (plane : PlaneId), tables.nodePlane[node]? = some plane →
    plane ∈ tables.planes
  counters : ∀ plane ∈ tables.counters, plane ∈ tables.planes

/-- The rows the others follow: nodes and counters. -/
structure Owned (tables : Tables) : Prop where
  nodes : ∀ key ∈ tables.nodes, key.1 ∈ tables.planes
  counters : ∀ plane ∈ tables.counters, plane ∈ tables.planes

/-- Where the tables agree, every row is filed under the plane of some node. -/
theorem Exact.havePlanes (exact : Exact tables) (owned : Owned tables) : HavePlanes tables where
  nodes := owned.nodes
  edges := by
    rintro ⟨plane, edge⟩ member
    obtain ⟨src, -⟩ := exact.endpoints plane edge _ (getElem?_eq_some_getElem member)
    have held := owned.nodes _ src
    exact held
  adj := by
    rintro side ⟨plane, near, ty, far, edge⟩ member
    obtain ⟨row, found, -⟩ := (exact.adj side plane near ty far edge).mp member
    have held := owned.nodes _ (exact.endpoints plane edge row found).1
    exact held
  labelIdx := by
    rintro ⟨plane, label, node⟩ member
    obtain ⟨row, found, -⟩ := (exact.labelIdx plane label node).mp member
    have held := owned.nodes _ (mem_of_getElem? found)
    exact held
  extKeys := by
    rintro ⟨plane, key⟩ member
    obtain ⟨row, found, -⟩ := (exact.extKeys plane key _).mp (getElem?_eq_some_getElem member)
    have held := owned.nodes _ (mem_of_getElem? found)
    exact held
  nodePlane node plane found := owned.nodes (plane, node) ((exact.nodePlane node plane).mp found)
  counters := owned.counters

/-! ### Changes on one plane -/

theorem Owned.changes {world next : World} (owned : Owned world.tables)
    (changes : Changes plane world next) (live : plane ∈ world.tables.planes) :
    Owned next.tables := by
  have planes : next.tables.planes = world.tables.planes := by rw [changes.sameMeta]
  have counters : next.tables.counters = world.tables.counters := by rw [changes.sameMeta]
  refine ⟨fun key member => ?_, fun plane member => ?_⟩
  · rw [planes]
    by_cases here : key.1 = plane
    · exact here ▸ live
    · rw [mem_iff_isSome_getElem?, changes.nodes_off here, ← mem_iff_isSome_getElem?] at member
      exact owned.nodes key member
  · rw [planes]
    exact owned.counters plane (counters ▸ member)

theorem Tables.SameMeta.planes (same : tables.SameMeta after) : after.planes = tables.planes := by
  rw [same]

theorem Tables.SameGraph.planes (same : tables.SameGraph after) : after.planes = tables.planes := by
  rw [same]

theorem Tables.SameGraph.nodes (same : tables.SameGraph after) : after.nodes = tables.nodes := by
  rw [same]

theorem Database.writeTxn_plane {ops : List WriteOp} : (db.writeTxn host plane ops).plane = plane :=
  (WriteTxn.afterAll_follows : (WriteTxn.begin db.tables plane _ _ _ _).Follows _).plane

/-! ### Calls -/

/-- A committed write is made on a plane that has a record when it begins. -/
def Command.Live (db : Database) : Command → Prop
  | .write plane _ true => plane ∈ db.tables.planes
  | _ => True

/-- Every committed write of a run is made on a plane that has a record when it begins. -/
def Database.Live (host : Host) (db : Database) : List (ℤ × Command) → Prop
  | [] => True
  | step :: steps => step.2.Live db ∧ (db.after host step.1 step.2).Live host steps

/-- No more rows, and no fewer planes. -/
theorem Owned.mono (owned : Owned tables) (nodes : ∀ key ∈ after.nodes, key ∈ tables.nodes)
    (counters : ∀ plane ∈ after.counters, plane ∈ tables.counters)
    (planes : ∀ plane ∈ tables.planes, plane ∈ after.planes) : Owned after :=
  ⟨fun key member => planes _ (owned.nodes key (nodes key member)),
    fun plane member => planes _ (owned.counters plane (counters plane member))⟩

/-- Rows of planes written take no plane away. -/
theorem mem_planes_write {row : PlaneRecord} (member : plane ∈ tables.planes) (id : PlaneId) :
    plane ∈ tables.planes.write id (some row) := by
  rw [mem_write]
  grind

theorem applyAll_counters {writes : List Write}
    (each : ∀ write ∈ writes, ∀ tables : Tables, (tables.apply write).counters = tables.counters) :
    (tables.applyAll writes).counters = tables.counters := by
  induction writes generalizing tables with
  | nil => rfl
  | cons write writes ih =>
    rw [Tables.applyAll_cons, ih fun write member => each write (List.mem_cons_of_mem _ member)]
    exact each write List.mem_cons_self tables

/-- The counters of a plane go with its declarations. -/
theorem planeMetaDeletes_counters :
    (tables.applyAll (planeMetaDeletes after plane)).counters = tables.counters.write plane none := by
  rw [planeMetaDeletes, List.cons_append, Tables.applyAll_cons]
  refine applyAll_counters fun write member => ?_
  rcases List.mem_append.mp member with vectors | keywords
  · obtain ⟨row, -, rfl⟩ := List.mem_map.mp vectors
    exact fun _ => rfl
  · obtain ⟨row, -, rfl⟩ := List.mem_map.mp keywords
    exact fun _ => rfl

/-- Dropping a plane takes its rows, its counters and its record. -/
theorem Owned.withoutPlane (owned : Owned tables) :
    Owned ((tables.withoutPlane plane).applyAll
      (planeMetaDeletes (tables.withoutPlane plane) plane)) := by
  have cleared : tables.withoutPlane plane |>.SameGraph ((tables.withoutPlane plane).applyAll
      (planeMetaDeletes (tables.withoutPlane plane) plane)) := planeMetaDeletes_sameGraph
  have counters := @planeMetaDeletes_counters (tables.withoutPlane plane)
    (tables.withoutPlane plane) plane
  generalize (tables.withoutPlane plane).applyAll _ = after at *
  have nodes : after.nodes = (tables.withoutPlane plane).nodes := by rw [cleared]
  have planes : after.planes = (tables.withoutPlane plane).planes := by rw [cleared]
  refine ⟨fun key member => ?_, fun other member => ?_⟩
  · rw [nodes] at member
    rw [planes]
    cases found : tables.planes[plane]? with
    | none =>
      simp only [Tables.withoutPlane, found] at member ⊢
      exact owned.nodes key member
    | some row =>
      simp only [Tables.withoutPlane, found, Tables.dropPlane, mem_withoutPlane, mem_write]
        at member ⊢
      rw [if_neg member.1.symm]
      exact owned.nodes key member.2
  · rw [counters, mem_write] at member
    rw [planes]
    cases found : tables.planes[plane]? with
    | none =>
      simp only [Tables.withoutPlane, found] at member ⊢
      grind [owned.counters other]
    | some row =>
      simp only [Tables.withoutPlane, found, Tables.dropPlane, mem_write] at member ⊢
      grind [owned.counters other]

theorem Owned.sealed {write : WriteTxn base} (owned : Owned write.txn.tables)
    (live : write.plane ∈ write.txn.tables.planes) : Owned (write.sealed millis) := by
  rw [WriteTxn.sealed, WriteTxn.folded]
  split
  · exact ⟨owned.nodes, owned.counters⟩
  · refine ⟨owned.nodes, fun plane member => ?_⟩
    have counted : plane ∈ write.txn.tables.counters.write write.plane (some _) := member
    rw [mem_write] at counted
    split at counted
    · rename_i same
      exact same ▸ live
    · exact owned.counters plane counted

/-- The planes listed are the planes recorded. -/
theorem Exact.mem_of_listed (exact : Exact tables) (listed : plane ∈ planeIds tables) :
    plane ∈ tables.planes := by
  rw [planeIds, listPlanes] at listed
  obtain ⟨row, member, rfl⟩ := List.mem_map.mp listed
  obtain ⟨entry, held, rfl⟩ := List.mem_map.mp (List.mem_mergeSort.mp member)
  have found := (exact.planeNames entry.1 entry.2).mp (mem_toList_iff_getElem?_eq_some.mp held)
  obtain ⟨row, recorded, -⟩ := Option.map_eq_some_iff.mp found
  exact mem_of_getElem? recorded

theorem Owned.step {command : Command} {next : Database} (sound : db.Sound)
    (owned : Owned db.tables) (live : command.Live db)
    (step : Database.Step host millis db command next) : Owned next.tables := by
  cases step with
  | refused => exact owned
  | createPlane | setPlaneProperties | renamePlane =>
    exact owned.mono (fun _ member => member) (fun _ member => member)
      (fun _ member => mem_planes_write member _)
  | keepName => exact ⟨owned.nodes, owned.counters⟩
  | ensureVectorIndex declares | ensureKeywordIndex declares =>
    rcases declares with ⟨-, rfl⟩ | ⟨-, rfl⟩ <;> exact ⟨owned.nodes, owned.counters⟩
  | dropPlane => exact ⟨owned.withoutPlane.nodes, owned.withoutPlane.counters⟩
  | @write plane ops =>
    have changes := sound.writeTxn_changes host plane ops
    have planes : (db.writeTxn host plane ops).txn.tables.planes = db.tables.planes :=
      changes.sameMeta.planes
    have kept : Owned (db.writeTxn host plane ops).txn.tables := owned.changes changes live
    refine kept.sealed ?_
    rw [Database.writeTxn_plane, planes]
    exact live
  | reopen opened =>
    rcases openTables_ok opened with ⟨blank, -⟩ | ⟨-, filled⟩
    · exact nomatch blank.symm.trans sound.magic
    · have nodes := filled.same.nodes
      have planes := filled.same.planes
      refine ⟨fun key member => ?_, fun plane member => ?_⟩
      · rw [planes]
        exact owned.nodes key (nodes ▸ member)
      · rw [planes]
        rcases filled.counters plane member with old | listed
        · exact owned.counters plane old
        · exact sound.world.tables.exact.mem_of_listed listed

/-! ### Runs -/

theorem Owned.run (sound : db.Sound) (owned : Owned db.tables) {steps : List (ℤ × Command)}
    (live : db.Live host steps) : Owned (db.run host steps).tables := by
  induction steps generalizing db with
  | nil => exact owned
  | cons step steps ih =>
    have taken := Database.after_steps host step.1 db step.2
    exact ih (sound.step taken) (owned.step sound live.1 taken) live.2

/-- A store opened for the first time has the startup plane, and its counters. -/
theorem Database.new_owned : Owned (Database.new host millis).tables := by
  obtain ⟨tables, opened⟩ := @openTables_first millis
  obtain ⟨vectors, keywords, same⟩ := @Database.reopen_opened millis tables .blank host opened
  rw [Database.new, same]
  rcases openTables_ok opened with ⟨-, filled⟩ | ⟨formatted, -⟩
  · refine ⟨fun key member => ?_, fun plane member => ?_⟩
    · rw [filled.same.nodes] at member
      exact (not_mem_empty member).elim
    · rw [filled.same.planes]
      rcases filled.counters plane member with old | listed
      · exact (not_mem_empty old).elim
      · exact sound_first.exact.mem_of_listed listed
  · cases formatted

/-- **No data without a plane**: after every run of calls on an empty store whose committed writes
are all made on planes that are there, every row belongs to a plane that has a record. -/
theorem rows_have_planes (host : Host) (millis : ℤ) (steps : List (ℤ × Command))
    (live : (Database.new host millis).Live host steps) :
    HavePlanes ((Database.new host millis).run host steps).tables :=
  (Database.new_sound.run steps).world.tables.exact.havePlanes
    (Database.new_owned.run Database.new_sound live)

/-- One thread, and texts that are one token each. -/
def plainHost : Host := ⟨1, fun _ text => [text]⟩

theorem rows_have_planes_of_two : HavePlanes ((Database.new plainHost 0).run plainHost
    [(1, .createPlane "notes" ∅), (2, .write 1 [.createNode ["Note"] ∅] true), (3, .dropPlane 1),
      (4, .write 0 [.createNode ["Note"] ∅] true)]).tables :=
  rows_have_planes plainHost 0 _
    ⟨trivial, (by with_unfolding_all decide : (1 : PlaneId) ∈ Tables.planes _), trivial,
      (by with_unfolding_all decide : (0 : PlaneId) ∈ Tables.planes _), trivial⟩

/-- A plane is dropped, and a handle made before writes a node on it. -/
theorem dropped_plane_gets_rows : ¬ HavePlanes ((Database.new plainHost 0).run plainHost
    [(1, .createPlane "notes" ∅), (2, .dropPlane 1),
      (3, .write 1 [.createNode ["Note"] ∅] true)]).tables := by
  intro planes
  have recorded := planes.nodes (1, 1) (by with_unfolding_all decide)
  exact absurd recorded (by with_unfolding_all decide)

end DrStrange.Graph
