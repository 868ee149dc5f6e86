/-
**The counters row of every plane equals a recount.**

In every state reached from an empty store, `count` finds on every plane what its row holds
(`counters_recount`), as long as the transactions that commit have room in both dictionaries and no
plane is dropped that has no record but rows. A type change that is refused for want of room is
counted all the same, and once it is committed the row and a recount are at odds for good
(`refused_type_counted`).
-/

import DrStrange.Api.Balances
import DrStrange.Api.Planes

namespace DrStrange.Graph

open Std Lib ExtTreeMap Std.Do

set_option mvcgen.warning false

variable {base tables after : Tables} {plane other : PlaneId} {millis : ℤ} {nodes edges : Set ℕ}
  {id : ℕ} {host : Host} {db : Database} {ops : List WriteOp}

/-! ### Rows that show a census -/

/-- The row of a plane, zeros if there is none. -/
def Tables.countersOf (tables : Tables) (plane : PlaneId) : PlaneCounters :=
  (tables.counters[plane]?).getD .zero

/-- The row of every plane shows its census. -/
def Tables.Recounts (tables : Tables) : Prop :=
  ∀ plane, (tables.countersOf plane).Shows (tables.census plane)

/-- A recount finds what the row holds. -/
theorem Tables.Recounts.count (recounts : tables.Recounts) (sound : Sound nodes edges tables) :
    count tables plane = .ok (tables.countersOf plane) := by
  obtain ⟨counted, ran, shows⟩ := @Sound.count _ plane _ _ sound
  rw [ran, shows.unique (recounts plane)]

theorem Tables.Recounts.congr (recounts : tables.Recounts) (nodes : after.nodes = tables.nodes)
    (edges : after.edges = tables.edges) (names : after.dictNames = tables.dictNames)
    (counters : after.counters = tables.counters) : after.Recounts := by
  intro plane
  rw [Tables.countersOf, counters, census_congr nodes edges names]
  exact recounts plane

/-! ### Opening -/

/-- The row of a plane is as before, or counted. -/
def Backfills (before after : Tables) : Prop :=
  before.SameGraph after ∧ ∀ plane, after.counters[plane]? = before.counters[plane]? ∨
    ∃ counted, after.counters[plane]? = some counted ∧ count before plane = .ok counted

theorem Tables.SameGraph.census (same : tables.SameGraph after) :
    after.census plane = tables.census plane :=
  census_congr (by rw [same]) (by rw [same]) (by rw [same])

/-- A recount reads nothing that opening a store writes. -/
theorem Tables.SameGraph.count (same : tables.SameGraph after) :
    Graph.count after plane = Graph.count tables plane := by
  have nodes : ∀ ids counters, countNodes after plane ids counters =
      countNodes tables plane ids counters := by
    intro ids
    induction ids with
    | nil => exact fun _ => rfl
    | cons id ids ih =>
      intro counters
      have read : getNode after plane id = getNode tables plane id := by
        rw [same]
        rfl
      rw [countNodes, countNodes, read]
      simp only [ih]
  have edges : ∀ ids counters, countEdges after plane ids counters =
      countEdges tables plane ids counters := by
    intro ids
    induction ids with
    | nil => exact fun _ => rfl
    | cons id ids ih =>
      intro counters
      have read : getEdge after plane id = getEdge tables plane id := by
        rw [same]
        rfl
      rw [countEdges, countEdges, read]
      simp only [ih]
  have listed : scanAll after plane = scanAll tables plane ∧
      scanEdges after plane = scanEdges tables plane := by
    rw [same]
    exact ⟨rfl, rfl⟩
  simp only [Graph.count, nodes, edges, listed]

theorem backfill_counts {planes : List (PlaneId × String)} :
    ⦃fun txn => ⌜Backfills tables txn.tables⌝⦄ (backfill planes : TxnM base Unit)
    ⦃post⟨fun _ txn => ⌜Backfills tables txn.tables⌝, fun _ _ => ⌜True⌝⟩⦄ := by
  induction planes with
  | nil => mvcgen [backfill]
  | cons plane planes ih =>
    obtain ⟨id, name⟩ := plane
    mvcgen [backfill, stage, ih]
    next txn backfills absent counted ran =>
      refine ⟨backfills.1.trans rfl, fun other => ?_⟩
      simp only [Txn.stageAll_tables, Tables.applyAll_cons, Tables.applyAll_nil, Tables.apply,
        getElem?_write]
      split
      · rename_i here
        subst here
        exact .inr ⟨counted, rfl, backfills.1.count.symm.trans ran⟩
      · exact backfills.2 other

theorem Backfills.recounts (backfills : Backfills tables after) (sound : Sound nodes edges tables)
    (recounts : tables.Recounts) : after.Recounts := by
  intro plane
  rw [backfills.1.census]
  rcases backfills.2 plane with same | ⟨counted, found, ran⟩
  · rw [Tables.countersOf, same]
    exact recounts plane
  · obtain ⟨_, ran', shows⟩ := @Sound.count _ plane _ _ sound
    obtain rfl := Except.ok.inj (ran.symm.trans ran')
    rw [Tables.countersOf, found]
    exact shows

theorem openTables_backfills (opened : openTables tables millis = .ok after) :
    (tables.magic = none ∧ Backfills (tables.applyAll firstWrites) after) ∨
      (tables.magic = some magicBytes ∧ Backfills tables after) :=
  openTables_fills (fun _ => ⟨.refl, fun _ => .inl rfl⟩)
    (fun _ _ filled => ⟨filled.1.trans Tables.sameGraph_stamped, filled.2⟩)
    (fun _ => backfill_counts) opened

theorem Database.new_recounts : (Database.new host millis).tables.Recounts := by
  obtain ⟨tables, opened⟩ := @openTables_first millis
  obtain ⟨vectors, keywords, same⟩ := @Database.reopen_opened millis tables .blank host opened
  rw [Database.new, same]
  rcases openTables_backfills opened with ⟨-, filled⟩ | ⟨formatted, -⟩
  · refine filled.recounts sound_first fun plane => ?_
    rw [census_zero (fun _ => rfl) fun _ => rfl]
    exact .zero
  · cases formatted

/-! ### Calls -/

/-- A transaction that commits has not run over a dictionary, and a plane that is dropped has a record
or no rows. -/
def Command.Counted (host : Host) (db : Database) : Command → Prop
  | .write plane ops true => (db.writeTxn host plane ops).txn.tables.Roomy
  | .dropPlane plane => plane ∈ db.tables.planes ∨ db.tables.census plane = 0
  | _ => True

/-- Every call of a run is so when it is made. -/
def Database.Counted (host : Host) (db : Database) : List (ℤ × Command) → Prop
  | [] => True
  | step :: steps => step.2.Counted host db ∧ (db.after host step.1 step.2).Counted host steps

/-- The row of the plane after a transaction, if it has counted what it has changed. -/
theorem WriteTxn.sealed_counters (write : WriteTxn base) :
    (write.sealed millis).counters = write.txn.tables.counters.write write.plane
      (if write.counters.isEmpty then write.txn.tables.counters[write.plane]?
        else some (write.counters.apply (write.txn.tables.countersOf write.plane))) := by
  rw [WriteTxn.sealed, WriteTxn.folded]
  split
  · refine ext_getElem? fun key => ?_
    rw [getElem?_write]
    split
    · rename_i here
      rw [← here]
      rfl
    · rfl
  · rfl

theorem Tables.SameMeta.counters (same : tables.SameMeta after) :
    after.counters = tables.counters := by
  rw [same]

theorem Database.Sound.write_recounts (sound : db.Sound) (recounts : db.tables.Recounts)
    (roomy : (db.writeTxn host plane ops).txn.tables.Roomy) :
    ((db.writeTxn host plane ops).sealed millis).Recounts := by
  have balances : (db.beginTxn host plane).Balances (db.writeTxn host plane ops) :=
    WriteTxn.afterAll_balances
  have drift := balances.drift (db.beginTxn_world ▸ sound.world) roomy
  have changes := sound.writeTxn_changes host plane ops
  have counters : (db.writeTxn host plane ops).txn.tables.counters = db.tables.counters :=
    changes.sameMeta.counters
  have here : (db.writeTxn host plane ops).plane = plane := Database.writeTxn_plane
  generalize db.writeTxn host plane ops = write at *
  have whole : write.txn.tables.census plane = db.tables.census plane + write.counters.census := by
    rw [WriteTxn.drift, here] at drift
    have started : (CounterDelta.default).census = 0 := CounterDelta.census_default
    rw [sub_eq_iff_eq_add.mp drift]
    show db.tables.census plane - CounterDelta.default.census + _ = _
    rw [started, sub_zero]
  intro other
  rw [(write.sealed_sameGraph millis).census, Tables.countersOf, write.sealed_counters, here,
    getElem?_write, Tables.countersOf, counters]
  split
  · rename_i same
    subst same
    have row : ((db.tables.counters[plane]?).getD .zero).Shows (db.tables.census plane) :=
      recounts plane
    split
    · rename_i empty
      rw [whole, CounterDelta.census_isEmpty empty, add_zero]
      exact row
    · have enough : 0 ≤ db.tables.census plane + write.counters.census := by
        rw [← whole]
        exact Tables.census_nonneg
      rw [whole, Option.getD_some]
      exact row.apply enough
  · rename_i apart
    have off := sound.world.census_off changes (Ne.symm apart)
    rw [show write.txn.tables.census other = db.tables.census other from off]
    exact recounts other

/-- Dropping a plane takes its rows and its counters. -/
theorem Tables.Recounts.withoutPlane (recounts : tables.Recounts) (sound : Sound nodes edges tables)
    (counted : plane ∈ tables.planes ∨ tables.census plane = 0) :
    ((tables.withoutPlane plane).applyAll
      (planeMetaDeletes (tables.withoutPlane plane) plane)).Recounts := by
  have cleared : (tables.withoutPlane plane).SameGraph ((tables.withoutPlane plane).applyAll
      (planeMetaDeletes (tables.withoutPlane plane) plane)) := planeMetaDeletes_sameGraph
  have counters := @planeMetaDeletes_counters (tables.withoutPlane plane)
    (tables.withoutPlane plane) plane
  have kept : (tables.withoutPlane plane).counters = tables.counters := by
    rw [Tables.withoutPlane]
    split <;> rfl
  have census : ∀ other, (tables.withoutPlane plane).census other =
      if plane = other then 0 else tables.census other := by
    intro other
    cases found : tables.planes[plane]? with
    | none =>
      have zero : tables.census plane = 0 := by
        refine counted.resolve_left fun member => ?_
        cases found.symm.trans (getElem?_eq_some_getElem member)
      simp only [Tables.withoutPlane, found]
      split
      · rename_i same
        exact same ▸ zero
      · rfl
    | some row =>
      simp only [Tables.withoutPlane, found]
      split
      · rename_i same
        subst same
        exact census_zero (fun id => getElem?_withoutPlane.trans (if_pos rfl))
          fun id => getElem?_withoutPlane.trans (if_pos rfl)
      · rename_i apart
        exact sound.census_agree
          (fun id => getElem?_withoutPlane.trans (if_neg (Ne.symm apart)))
          (fun id => getElem?_withoutPlane.trans (if_neg (Ne.symm apart))) fun _ _ _ known => known
  intro other
  rw [cleared.census, census, Tables.countersOf, counters, kept, getElem?_write]
  split
  · exact .zero
  · exact recounts other

theorem Tables.Recounts.step {command : Command} {next : Database} (sound : db.Sound)
    (recounts : db.tables.Recounts) (counted : command.Counted host db)
    (step : Database.Step host millis db command next) : next.tables.Recounts := by
  cases step with
  | refused => exact recounts
  | createPlane | setPlaneProperties | keepName | renamePlane => exact recounts.congr rfl rfl rfl rfl
  | dropPlane => exact (recounts.withoutPlane sound.world.tables counted).congr rfl rfl rfl rfl
  | ensureVectorIndex declares | ensureKeywordIndex declares =>
    rcases declares with ⟨-, rfl⟩ | ⟨-, rfl⟩ <;> exact recounts.congr rfl rfl rfl rfl
  | write => exact sound.write_recounts recounts counted
  | reopen opened =>
    rcases openTables_backfills opened with ⟨blank, -⟩ | ⟨-, filled⟩
    · exact nomatch blank.symm.trans sound.magic
    · exact filled.recounts sound.world.tables recounts

theorem Tables.Recounts.run {steps : List (ℤ × Command)} (sound : db.Sound)
    (recounts : db.tables.Recounts) (counted : db.Counted host steps) :
    (db.run host steps).tables.Recounts := by
  induction steps generalizing db with
  | nil => exact recounts
  | cons step steps ih =>
    have taken := Database.after_steps host step.1 db step.2
    exact ih (sound.step taken) (recounts.step sound counted.1 taken) counted.2

/-- **The counters row of every plane equals a recount**, in every state reached from an empty store
by calls whose transactions have room. -/
theorem counters_recount (host : Host) (start : ℤ) (steps : List (ℤ × Command))
    (counted : (Database.new host start).Counted host steps) (plane : PlaneId) :
    count ((Database.new host start).run host steps).tables plane =
      .ok (((Database.new host start).run host steps).tables.countersOf plane) :=
  (Database.new_recounts.run Database.new_sound counted).count
    (Database.new_sound.run steps).world.tables

theorem counters_recount_of_cascade :
    count ((Database.new plainHost 0).run plainHost
      [(1, .write 0 [.createNode ["Note", "Draft"] ∅, .createNode ["Note"] ∅,
          .createEdge 1 2 "cites" ∅, .setEdgeType 1 "quotes", .createEdge 2 2 "cites" ∅] true),
        (2, .write 0 [.deleteNode 1, .setLabels 2 ["Done"]] true)]).tables 0 =
      .ok (((Database.new plainHost 0).run plainHost
        [(1, .write 0 [.createNode ["Note", "Draft"] ∅, .createNode ["Note"] ∅,
            .createEdge 1 2 "cites" ∅, .setEdgeType 1 "quotes", .createEdge 2 2 "cites" ∅] true),
          (2, .write 0 [.deleteNode 1, .setLabels 2 ["Done"]] true)]).tables.countersOf 0) := by
  refine counters_recount plainHost 0 _ ?_ 0
  exact ⟨⟨⟨3, by with_unfolding_all decide, by decide⟩, ⟨3, by with_unfolding_all decide, by decide⟩⟩,
    ⟨⟨4, by with_unfolding_all decide, by decide⟩, ⟨3, by with_unfolding_all decide, by decide⟩⟩,
    trivial⟩

/-! ### A type that is refused -/

/-- The name of the type an edge is given first, second and so on. -/
def typeName (count : ℕ) : String := Nat.repr count

/-- The edge given one new type after the other. -/
def retypings (start more : ℕ) : List WriteOp :=
  (List.range' start more).map fun number => .setEdgeType 1 (typeName number)

/-- A transaction that has numbered so many types, and whose edge is still there. -/
structure Exhausts (count : ℕ) (write : WriteTxn base) : Prop where
  sound : write.world.Sound
  plane : write.plane = 0
  next : write.txn.tables.next .edgeType = some (count + 1)
  labels : write.txn.tables.RoomIn .label
  edge : (0, 1) ∈ write.txn.tables.edges
  unnamed : ∀ number ≥ count, (write.txn.tables.dictIds .edgeType)[typeName number]? = none

/-- A new name is numbered while there is room. -/
theorem intern_new {dict : Dict} {name : String} {number : ℕ}
    (unknown : (tables.dictIds dict)[name]? = none) (next : tables.next dict.counter = some number)
    (narrow : number < 2 ^ 32) :
    Runs tables (intern dict name : TxnM base ℕ)
      (fun id after => id = number ∧ after = tables.applyAll (internWrites dict name number))
      (fun _ => False) := by
  mvcgen [intern, nextId, stage] <;> subst_vars
  next known => cases unknown.symm.trans known
  next id found _ =>
    obtain rfl := Option.some.inj (next.symm.trans found)
    exact ⟨rfl, rfl⟩
  next id found wide =>
    obtain rfl := Option.some.inj (next.symm.trans found)
    exact wide narrow
  next missing => exact missing number next

theorem setEdgeType_new {ty : String} {number : ℕ} (found : (plane, id) ∈ tables.edges)
    (unknown : (tables.dictIds .edgeType)[ty]? = none) (next : tables.next .edgeType = some number)
    (narrow : number < 2 ^ 32) :
    Runs tables (setEdgeType plane id ty : TxnM base Unit)
      (fun _ after => ∃ row, after = (tables.applyAll (internWrites .edgeType ty number)).applyAll
        (retypeWrites plane id row number)) (fun _ => False) := by
  have named := @intern_new base tables .edgeType ty number unknown next narrow
  mvcgen [setEdgeType, internEdgeType, stage, named] <;> subst_vars
  next start row _ _ _ moved txn held =>
    obtain ⟨rfl, held⟩ := held
    refine ⟨row, ?_⟩
    rw [retypeWrites, if_pos moved, Tables.applyAll_append, ← held]
    rfl
  next start row _ _ _ moved txn held =>
    obtain ⟨rfl, held⟩ := held
    refine ⟨row, ?_⟩
    rw [retypeWrites, if_neg moved, ← held]
    rfl
  next absent => exact absent _ (getElem?_eq_some_getElem found)

variable {count : ℕ} {write : WriteTxn base}

/-- One more type numbered. -/
theorem Exhausts.retype (exhausts : Exhausts count write) (room : count + 1 < 2 ^ 32) :
    Exhausts (count + 1) (WriteOp.after (.setEdgeType 1 (typeName count)) write) := by
  refine @WriteOp.after_does _ _ (.setEdgeType 1 (typeName count)) _ (setEdgeTypeTxn_keeps.also ?_)
  have moved : ∀ counters : CounterDelta, Does { write with counters := counters }
      (onTxn fun plane => setEdgeType plane 1 (typeName count) : WriteM base _)
      (fun _ after => write.Follows after → Exhausts (count + 1) after)
      (fun after => write.Follows after → Exhausts (count + 1) after) := by
    intro counters
    have edge : (write.plane, 1) ∈ write.txn.tables.edges := exhausts.plane ▸ exhausts.edge
    have triple := @setEdgeType_new base _ _ _ _ _ edge (exhausts.unnamed count le_rfl)
      exhausts.next room
    refine (@onTxn_does base _ { write with counters := counters }
      (fun plane => setEdgeType plane 1 (typeName count)) _ _ triple).mono ?_ ?_
    · rintro _ _ ⟨txn, rfl, row, written⟩ follows
      have next : txn.tables.next =
          Function.update write.txn.tables.next .edgeType (some (count + 1 + 1)) := by
        rw [written, applyAll_retypeWrites]
        rfl
      have named : txn.tables.dictIds .edgeType =
          (write.txn.tables.dictIds .edgeType).insert (typeName count) (count + 1) := by
        rw [written, applyAll_retypeWrites]
        simp [internWrites, Tables.apply]
      have edges : txn.tables.edges = write.txn.tables.edges.write (write.plane, 1)
          (some { row with ty := count + 1 }) := by
        rw [written, applyAll_retypeWrites]
        rfl
      obtain ⟨label, found, fits⟩ := exhausts.labels
      refine ⟨exhausts.sound.changes (follows.changes exhausts.sound), exhausts.plane, ?_, ?_, ?_, ?_⟩
      · exact (congrFun next _).trans (Function.update_self _ _ _)
      · exact ⟨label, (congrFun next _).trans
          ((Function.update_of_ne (by decide) _ _).trans found), fits⟩
      · show (0, 1) ∈ txn.tables.edges
        rw [edges, mem_write]
        split
        · trivial
        · exact exhausts.edge
      · intro number later
        show (txn.tables.dictIds .edgeType)[typeName number]? = none
        have apart : typeName count ≠ typeName number := by
          intro same
          exact absurd (Nat.repr_injective same) (by omega)
        rw [named, getElem?_insert, if_neg (by simpa using apart)]
        exact exhausts.unnamed number (by omega)
    · rintro _ ⟨txn, rfl, failed⟩
      exact failed.elim
  have tables : Sound _ _ write.txn.tables := exhausts.sound.tables
  obtain ⟨row, stored⟩ : ∃ row, write.txn.tables.edges[(write.plane, 1)]? = some row :=
    ⟨_, getElem?_eq_some_getElem (exhausts.plane ▸ exhausts.edge)⟩
  obtain ⟨old, -, read⟩ := tables.getEdge stored
  refine .read read ?_
  dsimp only
  split
  · refine Does.modify.bind ?_
    rintro _ _ rfl
    exact moved _
  · exact moved write.counters

theorem Exhausts.run {more : ℕ} (exhausts : Exhausts count write) (room : count + more < 2 ^ 32) :
    Exhausts (count + more) (write.afterAll (retypings count more)) := by
  induction more generalizing count write with
  | zero => exact exhausts
  | succ more ih =>
    have rest := ih (exhausts.retype (by omega)) (by omega)
    rw [show count + 1 + more = count + (more + 1) by omega] at rest
    rwa [retypings, List.range'_succ, List.map_cons, WriteTxn.afterAll, List.foldl_cons]

/-- There is no id left for a new name. -/
theorem intern_full {dict : Dict} {name : String} {number : ℕ}
    (unknown : (tables.dictIds dict)[name]? = none) (next : tables.next dict.counter = some number)
    (wide : 2 ^ 32 ≤ number) :
    Runs tables (intern dict name : TxnM base ℕ) (fun _ _ => False)
      (fun after => Grows tables after ∧ after.dictIds = tables.dictIds) := by
  mvcgen [intern, nextId, stage] <;> subst_vars
  next known => cases unknown.symm.trans known
  next id found narrow =>
    obtain rfl := Option.some.inj (next.symm.trans found)
    exact absurd narrow (Nat.not_lt.mpr wide)
  next id found _ => exact ⟨.single (.spent 1 found), rfl⟩
  next => exact ⟨.refl, rfl⟩

theorem setEdgeType_full {ty : String} {number : ℕ}
    (unknown : (tables.dictIds .edgeType)[ty]? = none) (next : tables.next .edgeType = some number)
    (wide : 2 ^ 32 ≤ number) :
    Runs tables (setEdgeType plane id ty : TxnM base Unit) (fun _ _ => False)
      (fun after => Grows tables after ∧ after.dictIds = tables.dictIds) := by
  have named := @intern_full base tables .edgeType ty number unknown next wide
  mvcgen [setEdgeType, internEdgeType, stage, named]
  subst_vars
  exact ⟨.refl, rfl⟩

/-- The type that is refused has been counted. -/
theorem Exhausts.refused (exhausts : Exhausts count write) (full : 2 ^ 32 ≤ count + 1) :
    ∃ ty, ty ≠ typeName count ∧
      (WriteOp.after (.setEdgeType 1 (typeName count)) write).drift =
        write.drift + (Census.ofEdge ty - Census.ofEdge (typeName count)) ∧
      ((WriteOp.after (.setEdgeType 1 (typeName count)) write).txn.tables.dictIds
        .edgeType)[typeName count]? = none := by
  have tables : Sound _ _ write.txn.tables := exhausts.sound.tables
  obtain ⟨row, stored⟩ : ∃ row, write.txn.tables.edges[(write.plane, 1)]? = some row :=
    ⟨_, getElem?_eq_some_getElem (exhausts.plane ▸ exhausts.edge)⟩
  obtain ⟨old, named, read⟩ := tables.getEdge stored
  have unnamed := exhausts.unnamed count le_rfl
  have apart : old ≠ typeName count := by
    rintro rfl
    exact nomatch unnamed.symm.trans ((tables.exact.dict .edgeType _ _).mpr named)
  refine ⟨old, apart, @WriteOp.after_does _ _ (.setEdgeType 1 (typeName count)) (fun after =>
    after.drift = write.drift + (Census.ofEdge old - Census.ofEdge (typeName count)) ∧
      (after.txn.tables.dictIds .edgeType)[typeName count]? = none) ?_⟩
  refine .read read ?_
  simp only [apart, ne_eq, not_false_eq_true, if_true]
  refine Does.modify.bind ?_
  rintro _ _ rfl
  refine (@onTxn_does base _ { write with
    counters := write.counters.retyped old (typeName count) }
    (fun plane => setEdgeType plane 1 (typeName count)) _ _
    (setEdgeType_full unnamed exhausts.next full)).mono ?_ ?_
  · rintro _ _ ⟨txn, rfl, failed⟩
    exact failed.elim
  · rintro _ ⟨txn, rfl, grows, same⟩
    refine ⟨?_, ?_⟩
    · have census : txn.tables.census write.plane = write.txn.tables.census write.plane :=
        @Grows.census _ _ write.world grows exhausts.sound
      show txn.tables.census write.plane - (write.counters.retyped old (typeName count)).census = _
      rw [census, CounterDelta.census_retyped, WriteTxn.drift]
      abel
    · rwa [same]

/-- What is counted of a type and never written ends up in the row. -/
theorem WriteTxn.sealed_overcounts {name : String} (negative : write.drift.2.2.2 name < 0)
    (zero : (write.txn.tables.census write.plane).2.2.2 name = 0) :
    0 < ((write.sealed millis).countersOf write.plane).edgeTypes.getD name 0 := by
  have counted : 0 < numbers write.counters.edgeTypes name := by
    have parts : write.drift.2.2.2 name = (write.txn.tables.census write.plane).2.2.2 name -
        numbers write.counters.edgeTypes name := rfl
    omega
  rw [Tables.countersOf, write.sealed_counters, getElem?_write, if_pos rfl]
  split
  · rename_i empty
    have none := CounterDelta.census_isEmpty empty
    have parts : numbers write.counters.edgeTypes name = 0 :=
      congrArg (fun census : Census => census.2.2.2 name) none
    omega
  · show 0 < (shiftCounts _ write.counters.edgeTypes).getD name 0
    rw [getD_shiftCounts, shiftCount]
    omega

/-- Committed, the row has an edge of a type that no edge has. -/
theorem Exhausts.miscounts (sound : db.Sound) (empty : db.tables.census 0 = 0)
    (exhausts : Exhausts count (db.writeTxn host 0 ops)) (full : count + 1 = 2 ^ 32) :
    Graph.count (db.after host millis
        (.write 0 (ops ++ [.setEdgeType 1 (typeName count)]) true)).tables 0 ≠
      .ok ((db.after host millis
        (.write 0 (ops ++ [.setEdgeType 1 (typeName count)]) true)).tables.countersOf 0) := by
  intro counts
  obtain ⟨ty, apart, drift, unnamed⟩ := exhausts.refused full.ge
  have last : db.writeTxn host 0 (ops ++ [.setEdgeType 1 (typeName count)]) =
      WriteOp.after (.setEdgeType 1 (typeName count)) (db.writeTxn host 0 ops) := by
    rw [Database.writeTxn, WriteTxn.afterAll, List.foldl_append]
    rfl
  have balances : (db.beginTxn host 0).Balances (db.writeTxn host 0 ops) :=
    WriteTxn.afterAll_balances
  have roomy : (db.writeTxn host 0 ops).txn.tables.Roomy :=
    ⟨exhausts.labels, count + 1, exhausts.next, full.le⟩
  have still := balances.drift (db.beginTxn_world ▸ sound.world) roomy
  have none : (db.writeTxn host 0 ops).drift = 0 := by
    refine still.trans ?_
    show db.tables.census 0 - CounterDelta.default.census = 0
    rw [empty, CounterDelta.census_default, sub_zero]
  have written : (db.after host millis
      (.write 0 (ops ++ [.setEdgeType 1 (typeName count)]) true)).Sound := sound.write
  obtain ⟨counted, ran, shows⟩ := @Sound.count _ 0 _ _ written.world.tables
  obtain rfl := Except.ok.inj (ran.symm.trans counts)
  have row := shows.edgeTypes.shows (typeName count)
  have plane : (db.writeTxn host 0 (ops ++ [.setEdgeType 1 (typeName count)])).plane = 0 :=
    Database.writeTxn_plane
  rw [Database.after_write] at row written
  rw [last] at row written plane
  generalize WriteOp.after (.setEdgeType 1 (typeName count)) (db.writeTxn host 0 ops) = write at *
  have same := write.sealed_sameGraph millis
  have exact : Exact (write.sealed millis) := written.world.tables.exact
  have zero : (write.txn.tables.census 0).2.2.2 (typeName count) = 0 := by
    rw [← same.census]
    exact exact.census_unnamed (by rw [same]; exact unnamed)
  have negative : write.drift.2.2.2 (typeName count) < 0 := by
    rw [drift, none, zero_add]
    show (Pi.single ty 1 : String → ℤ) _ - (Pi.single (typeName count) 1 : String → ℤ) _ < 0
    rw [Pi.single_eq_of_ne apart.symm, Pi.single_eq_same]
    exact Int.negSucc_lt_zero 0
  have counted := @WriteTxn.sealed_overcounts _ millis write _ negative (plane.symm ▸ zero)
  rw [plane] at counted
  have shown : (((write.sealed millis).countersOf 0).edgeTypes.getD (typeName count) 0 : ℤ) = 0 :=
    row.trans ((congrArg (fun census : Census => census.2.2.2 (typeName count)) same.census).trans
      zero)
  omega

/-- A node and an edge at it, and then the types up to this one. -/
def exhausting (count : ℕ) : List WriteOp :=
  [.createNode [] ∅, .createEdge 1 1 (typeName 0) ∅] ++ retypings 1 (count - 1)

theorem exhausts_one : Exhausts 1 ((Database.new plainHost 0).writeTxn plainHost 0
    [.createNode [] ∅, .createEdge 1 1 (typeName 0) ∅]) := by
  have sound : ((Database.new plainHost 0).writeTxn plainHost 0
      [.createNode [] ∅, .createEdge 1 1 (typeName 0) ∅]).world.Sound :=
    (@Database.new_sound 0 plainHost).world.changes
      (Database.new_sound.writeTxn_changes plainHost 0 _)
  have edge : (((Database.new plainHost 0).writeTxn plainHost 0
      [.createNode [] ∅, .createEdge 1 1 (typeName 0) ∅]).txn.tables.edges.contains (0, 1)) =
        true := by
    with_unfolding_all decide
  refine ⟨sound, by with_unfolding_all decide, by with_unfolding_all decide,
    ⟨1, by with_unfolding_all decide, by decide⟩,
    by simpa using edge, fun number later => ?_⟩
  cases known : (((Database.new plainHost 0).writeTxn plainHost 0
      [.createNode [] ∅, .createEdge 1 1 (typeName 0) ∅]).txn.tables.dictIds
        .edgeType)[typeName number]? with
  | none => rfl
  | some id =>
    -- The only type there is has number one and the first name.
    have named := (sound.tables.exact.dict .edgeType _ id).mp known
    obtain ⟨next, found, below⟩ := (sound.tables.dictIds .edgeType id (mem_of_getElem? named)).1
    obtain rfl : 2 = next := Option.some.inj (show some 2 = some next by
      rw [← found]
      decide +kernel)
    match id with
    | 0 =>
      have none : (((Database.new plainHost 0).writeTxn plainHost 0
        [.createNode [] ∅, .createEdge 1 1 (typeName 0) ∅]).txn.tables.dictNames
          .edgeType)[0]? = none := by decide +kernel
      exact nomatch none.symm.trans named
    | 1 =>
      have first : (((Database.new plainHost 0).writeTxn plainHost 0
        [.createNode [] ∅, .createEdge 1 1 (typeName 0) ∅]).txn.tables.dictNames
          .edgeType)[1]? = some (typeName 0) := by decide +kernel
      have same := Nat.repr_injective (Option.some.inj (first.symm.trans named))
      omega

theorem exhausts_exhausting (some : 0 < count) (room : count < 2 ^ 32) :
    Exhausts count ((Database.new plainHost 0).writeTxn plainHost 0 (exhausting count)) := by
  have run := @Exhausts.run _ _ _ (count - 1) exhausts_one (by omega)
  rw [show 1 + (count - 1) = count by omega] at run
  rwa [exhausting, Database.writeTxn, WriteTxn.afterAll, List.foldl_append]

theorem Database.run_one {step : ℤ × Command} :
    db.run host [step] = db.after host step.1 step.2 := rfl

/-- Every id of a type is given, and the edge is given one type more. -/
theorem refused_type_counted :
    Graph.count ((Database.new plainHost 0).run plainHost [(1, .write 0
        (exhausting (2 ^ 32 - 1) ++ [.setEdgeType 1 (typeName (2 ^ 32 - 1))]) true)]).tables 0 ≠
      .ok (((Database.new plainHost 0).run plainHost [(1, .write 0
        (exhausting (2 ^ 32 - 1) ++ [.setEdgeType 1 (typeName (2 ^ 32 - 1))])
          true)]).tables.countersOf
          0) := by
  have empty : (Database.new plainHost 0).tables.census 0 = 0 := by
    have nodes : (Database.new plainHost 0).tables.nodes.isEmpty = true := by
      with_unfolding_all decide
    have edges : (Database.new plainHost 0).tables.edges.isEmpty = true := by
      with_unfolding_all decide
    refine census_zero (fun id => ?_) fun id => ?_
    · rw [isEmpty_iff.mp nodes]
      rfl
    · rw [isEmpty_iff.mp edges]
      rfl
  rw [Database.run_one]
  exact (exhausts_exhausting (by norm_num) (by norm_num)).miscounts Database.new_sound empty
    (by norm_num)

end DrStrange.Graph
