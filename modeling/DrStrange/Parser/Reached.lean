/-
**What a statement that is applied leaves.**

An applied statement is one write transaction, committed (`WriteStatement.apply_ok`), and each of its
operations goes on from the transaction that the one before it left. So the databases reached by calls
and by statements are sound.
-/

import DrStrange.Compute.Live
import DrStrange.Parser.Growth

namespace DrStrange.Parser

open Std DrStrange.Graph DrStrange.Compute Lib

variable {base : Tables} {plane : PlaneId} {params : Params} {id : NodeId} {ids : List NodeId}
  {before after : Running base} {host : Host} {machine : Machine} {searches : Searches}
  {db db' : Database} {millis : ℤ} {stmt : WriteStatement} {summary : WriteSummary}
  {binding : Option String} {detach : Bool}

/-! ### Deleting -/

theorem deleteOne_run (ran : deleteOne plane detach id before = .ok () after) :
    (detach = false → neighbors base plane id .both none = []) ∧
      ∃ write, deleteNodeTxn id before.write = .ok () write ∧
        after = { before with
          write := write
          staged := { before.staged with
            labels := before.staged.labels.erase id
            summary := { before.staged.summary with
              nodesDeleted := before.staged.summary.nodesDeleted + 1 } } } := by
  rw [deleteOne] at ran
  split at ran
  · exact absurd ran throw_ne_ok
  · rename_i bare
    obtain ⟨⟨⟩, _, made, rest⟩ := run_bind_ok.mp ran
    obtain ⟨write, called, rfl⟩ := onWrite_ok.mp made
    refine ⟨?_, write, called, modify_ok.mp rest⟩
    rintro rfl
    simpa using bare

theorem deleteOne_follows (ran : deleteOne plane detach id before = .ok () after) :
    before.write.Follows after.write := by
  obtain ⟨-, write, called, rfl⟩ := deleteOne_run ran
  exact deleteNodeTxn_keeps.returns called

/-! ### Every operation -/

theorem runOp_follows {op : WriteOp} (valid : before.Valid)
    (ran : runOp plane params binding ids op before = .ok () after) :
    before.write.Follows after.write := by
  cases kind : op.isDelete with
  | false =>
    obtain ⟨nodes, edges, grew⟩ := runOp_grows kind valid ran
    exact grew.write.follows
  | true =>
    cases op with
    | delete detach vars =>
      refine forM_keeps (motive := fun running => before.write.Follows running.write)
        (fun id _ middle next here ran => ?_) ran .refl
      exact here.trans (deleteOne_follows ran)
    | create | merge | set | remove => cases kind

theorem runOps_follows {ops : List WriteOp} (valid : before.Valid)
    (ran : ops.forM (runOp plane params binding ids) before = .ok () after) :
    before.write.Follows after.write := by
  refine forM_keeps (motive := fun running => before.write.Follows running.write)
    (fun op _ middle next here ran => ?_) ran .refl
  exact here.trans (runOp_follows (valid.follows here) ran)

/-! ### The whole statement -/

/-- A statement that is applied: its match, the run of its operations, and the commit. -/
theorem WriteStatement.apply_ok
    (applied : stmt.apply host machine searches db plane millis = .ok (summary, db')) :
    ∃ ids labels running, stmt.ids machine searches db.tables plane = .ok ids ∧
      stmt.preloaded db.tables plane ids = .ok labels ∧
      stmt.ops.forM (runOp plane stmt.params (stmt.binding.map Prod.fst) ids)
        ⟨db.beginTxn host plane, { labels := labels }, ∅⟩ = .ok () running ∧
      summary = running.staged.summary ∧
      db.commit host running.write millis = .ok db' := by
  obtain ⟨ids, found, rest⟩ := bind_eq_ok.mp applied
  obtain ⟨start, started, rest⟩ := bind_eq_ok.mp rest
  cases matched : stmt.ids machine searches db.tables plane with
  | error e => simp [matched, Except.mapError] at found
  | ok own =>
    obtain rfl : own = ids := by simpa [matched, Except.mapError] using found
    cases labelled : stmt.preloaded db.tables plane own with
    | error e => simp [WriteStatement.start, labelled, Except.mapError, bind, Except.bind] at started
    | ok labels =>
      rw [WriteStatement.start, labelled] at started
      obtain rfl := Except.ok.inj started
      split at rest
      · cases rest
      · rename_i running ran
        obtain ⟨next, committed, same⟩ := bind_eq_ok.mp rest
        obtain ⟨rfl, rfl⟩ := Prod.mk.inj (Except.ok.inj same)
        cases sealed : db.commit host running.write millis with
        | error e => simp [sealed, Except.mapError] at committed
        | ok own' =>
          obtain rfl : own' = next := by simpa [sealed, Except.mapError] using committed
          exact ⟨own, labels, running, rfl, labelled, ran, rfl, sealed⟩

/-- A match, a run and a commit make an applied statement. -/
theorem WriteStatement.apply_of_run {labels : ExtTreeMap NodeId (List String) compare}
    {running : Running db.tables} (found : stmt.ids machine searches db.tables plane = .ok ids)
    (preloaded : stmt.preloaded db.tables plane ids = .ok labels)
    (ran : stmt.ops.forM (runOp plane stmt.params (stmt.binding.map Prod.fst) ids)
      ⟨db.beginTxn host plane, { labels := labels }, ∅⟩ = .ok () running)
    (committed : db.commit host running.write millis = .ok db') :
    stmt.apply host machine searches db plane millis = .ok (running.staged.summary, db') := by
  have started : stmt.start host db plane ids =
      .ok ⟨db.beginTxn host plane, { labels := labels }, ∅⟩ := by
    rw [WriteStatement.start, preloaded]
    rfl
  refine bind_eq_ok.mpr ⟨ids, by rw [found]; rfl, bind_eq_ok.mpr ⟨_, by rw [started]; rfl, ?_⟩⟩
  rw [ran]
  exact bind_eq_ok.mpr ⟨db', by rw [committed]; rfl, rfl⟩

theorem commit_ok {write : WriteTxn db.tables} (committed : db.commit host write millis = .ok db') :
    db' =
      { tables := write.sealed millis
        vectors := applyEvents (vectorKind host) write.plane db.vectors write.events
        keywords := applyEvents (keywordKind host) write.plane db.keywords write.kwEvents
        madeNodes := write.madeNodes
        madeEdges := write.madeEdges } := by
  obtain ⟨seq, txn, sealed, tables⟩ := sealCommit_eq write millis
  rw [Database.commit, sealed] at committed
  rw [← Except.ok.inj committed, ← tables]

/-- The nodes that a statement made. -/
def nodesMade (db db' : Database) : List NodeId := db'.madeNodes.drop db.madeNodes.length

/-- The edges likewise. -/
def edgesMade (db db' : Database) : List EdgeId := db'.madeEdges.drop db.madeEdges.length

theorem start_valid (sound : db.Sound) {staged : Staged} {vars : ExtTreeMap String NodeId compare} :
    Running.Valid ⟨db.beginTxn host plane, staged, vars⟩ := by
  have world : (db.beginTxn host plane).world = db.world := WriteTxn.begin_world
  exact ⟨world ▸ sound.world, world ▸ sound.recorded⟩

theorem apply_sound (sound : db.Sound)
    (applied : stmt.apply host machine searches db plane millis = .ok (summary, db')) :
    db'.Sound := by
  obtain ⟨ids, labels, running, -, -, ran, -, committed⟩ := WriteStatement.apply_ok applied
  have valid : Running.Valid ⟨db.beginTxn host plane, { labels := labels }, ∅⟩ := start_valid sound
  have follows := runOps_follows valid ran
  have world : (db.beginTxn host plane).world = db.world := WriteTxn.begin_world
  rw [commit_ok committed]
  exact sound.sealed (world ▸ follows.changes valid.sound)

/-- The databases reached from an empty store, by calls and by statements. -/
inductive Reached (host : Host) (machine : Machine) (searches : Tables → PlaneId → Searches) :
    Database → Prop where
  | new (millis : ℤ) : Reached host machine searches (Database.new host millis)
  | call {db : Database} (reached : Reached host machine searches db) (millis : ℤ)
      (command : Command) : Reached host machine searches (db.after host millis command)
  | statement {db db' : Database} (reached : Reached host machine searches db)
      {stmt : WriteStatement} {plane : PlaneId} {millis : ℤ} {summary : WriteSummary}
      (applied : stmt.apply host machine (searches db.tables plane) db plane millis =
        .ok (summary, db')) : Reached host machine searches db'

/-- The searches of a store without indexes. -/
def noSearches : Tables → PlaneId → Searches :=
  fun _ _ => ⟨fun _ _ _ _ _ => .ok [], fun _ _ _ _ => .ok []⟩

theorem Reached.sound {searches : Tables → PlaneId → Searches}
    (reached : Reached host machine searches db) : db.Sound := by
  induction reached with
  | new millis => exact Database.new_sound
  | @call db _ millis command ih => exact ih.step (Database.after_steps host millis db command)
  | statement _ applied ih => exact apply_sound ih applied

end DrStrange.Parser
