/-
**What a statement makes.**

Every clause but `DELETE` only adds: the nodes and edges that it made are noted, counted, and there at
the end with all that was there before (`runOp_grows`). The edges that the statement keeps in mind for
a later `MERGE` are there as well.
-/

import DrStrange.Api.Making
import DrStrange.Lib.Fallible
import DrStrange.Parser.Write

namespace DrStrange.Parser

open Std DrStrange.Graph DrStrange.Compute Lib

variable {base : Tables} {α β : Type} {plane : PlaneId} {params : Params} {id deleted : ℕ}
  {before after : Running base} {node : CreateNode} {change : Running base → Running base}
  {rel : CreateRel} {result : α} {src prev cur : NodeId} {key message : String}
  {var binding : Option String} {nodes ids : List NodeId} {edges : List EdgeId}
  {rest : List (CreateRel × CreateNode)} {run : α → RunM base Unit} {value : Except String α}
  {read : Except Error α} {first : RunM base α} {xs : List α}

/-! ### Steps that return -/

theorem onWrite_ok {run : WriteM base α} :
    onWrite run before = .ok result after ↔
      ∃ write, run before.write = .ok result write ∧ after = { before with write := write } := by
  rw [onWrite]
  cases run before.write with
  | ok own write => simp [eq_comm]
  | error error write => simp

theorem resolved_ok :
    (resolved value : RunM base α) before = .ok result after ↔
      value = .ok result ∧ before = after := by
  cases value with
  | ok own => simp [resolved, pure, EStateM.pure]
  | error message => simp [resolved, throw, throwThe, MonadExceptOf.throw, EStateM.throw]

theorem committed_ok :
    (committed read : RunM base α) before = .ok result after ↔
      read = .ok result ∧ before = after := by
  cases read with
  | ok own => simp [committed, pure, EStateM.pure]
  | error error => simp [committed, throw, throwThe, MonadExceptOf.throw, EStateM.throw]

theorem throw_ne_ok : (throw message : RunM base α) before ≠ .ok result after := nofun

theorem modify_ok {result : Unit} :
    (modify change : RunM base Unit) before = .ok result after ↔ after = change before := by
  show EStateM.Result.ok () (change before) = .ok result after ↔ _
  simp [eq_comm]

theorem get_ok {result : Running base} :
    (get : RunM base _) before = .ok result after ↔ result = before ∧ before = after := by
  show EStateM.Result.ok before before = .ok result after ↔ _
  simp [eq_comm]

theorem boundVar_ok {result : Option NodeId} :
    (boundVar var : RunM base _) before = .ok result after ↔
      result = var.bind (before.vars[·]?) ∧ before = after := by
  show EStateM.Result.ok (var.bind (before.vars[·]?)) before = .ok result after ↔ _
  simp [eq_comm]

theorem stagedNow_ok {result : Staged} :
    (stagedNow : RunM base _) before = .ok result after ↔
    result = before.staged ∧ before = after := by
  show EStateM.Result.ok before.staged before = .ok result after ↔ _
  simp [eq_comm]

/-! ### Statements that grow -/

/-- The tables are sound, and all that they hold was made. -/
structure Running.Valid (running : Running base) : Prop where
  sound : running.write.world.Sound
  recorded : running.write.world.Recorded

theorem Running.Valid.follows (valid : before.Valid) (follows : before.write.Follows after.write) :
    after.Valid :=
  ⟨valid.sound.changes (follows.changes valid.sound),
    valid.recorded.changes (follows.changes valid.sound)⟩

/-- An edge leads from one node to another. -/
def Running.Joined (running : Running base) (src dst : NodeId) : Prop :=
  ∃ edge row, running.write.record (.edge, edge) = some (.inr row) ∧ row.src = src ∧ row.dst = dst

/-- A statement further on that has made and counted these nodes and edges, has counted so many
deletions, and whose new staged edges are there. -/
structure Running.Grew (before after : Running base) (nodes : List NodeId) (edges : List EdgeId)
    (deleted : ℕ) : Prop where
  write : before.write.Grew after.write nodes edges
  nodesCreated :
    after.staged.summary.nodesCreated = before.staged.summary.nodesCreated + nodes.length
  edgesCreated :
    after.staged.summary.edgesCreated = before.staged.summary.edgesCreated + edges.length
  nodesDeleted : after.staged.summary.nodesDeleted = before.staged.summary.nodesDeleted + deleted
  edgesDeleted : after.staged.summary.edgesDeleted = before.staged.summary.edgesDeleted
  staged : ∀ triple ∈ after.staged.edges,
    triple ∈ before.staged.edges ∨ after.Joined triple.1 triple.2.1

theorem Running.Joined.grew {dst : NodeId} (joined : before.Joined src dst)
    (grew : before.write.Grew after.write nodes edges) :
    after.Joined src dst := by
  obtain ⟨edge, row, found, ends⟩ := joined
  exact ⟨edge, row, grew.kept edge _ found, ends⟩

theorem Running.Grew.trans {first second third : Running base} {nodes' : List NodeId}
    {edges' : List EdgeId} {deleted' : ℕ} (one : first.Grew second nodes edges deleted)
    (two : second.Grew third nodes' edges' deleted') :
    first.Grew third (nodes ++ nodes') (edges ++ edges') (deleted + deleted') where
  write := one.write.trans two.write
  nodesCreated := by rw [two.nodesCreated, one.nodesCreated, List.length_append, Nat.add_assoc]
  edgesCreated := by rw [two.edgesCreated, one.edgesCreated, List.length_append, Nat.add_assoc]
  nodesDeleted := by rw [two.nodesDeleted, one.nodesDeleted, Nat.add_assoc]
  edgesDeleted := two.edgesDeleted.trans one.edgesDeleted
  staged triple member := by
    rcases two.staged triple member with old | new
    · rcases one.staged triple old with older | new
      · exact .inl older
      · exact .inr (new.grew two.write)
    · exact .inr new

theorem Running.Valid.grew (valid : before.Valid) (grew : before.Grew after nodes edges deleted) :
    after.Valid :=
  valid.follows grew.write.follows

/-- A step that returns has only added. -/
def Grows (run : RunM base α) : Prop :=
  ∀ ⦃before after : Running base⦄ ⦃result : α⦄, before.Valid → run before = .ok result after →
    ∃ nodes edges, before.Grew after nodes edges 0

/-- Neither the transaction nor the counts of nodes and edges change. -/
structure Running.Same (before after : Running base) : Prop where
  write : after.write = before.write
  edges : after.staged.edges = before.staged.edges
  nodesCreated : after.staged.summary.nodesCreated = before.staged.summary.nodesCreated
  edgesCreated : after.staged.summary.edgesCreated = before.staged.summary.edgesCreated
  nodesDeleted : after.staged.summary.nodesDeleted = before.staged.summary.nodesDeleted
  edgesDeleted : after.staged.summary.edgesDeleted = before.staged.summary.edgesDeleted

theorem Running.Same.refl : before.Same before := ⟨rfl, rfl, rfl, rfl, rfl, rfl⟩

theorem Running.Same.grew (same : before.Same after) : before.Grew after [] [] 0 where
  write := same.write ▸ .refl
  nodesCreated := same.nodesCreated
  edgesCreated := same.edgesCreated
  nodesDeleted := same.nodesDeleted
  edgesDeleted := same.edgesDeleted
  staged _ member := .inl (same.edges ▸ member)

/-- A step that returns has made nothing. -/
def Quiet (run : RunM base α) : Prop :=
  ∀ ⦃before after : Running base⦄ ⦃result : α⦄, before.Valid → run before = .ok result after →
    before.Grew after [] [] 0

theorem Quiet.grows {run : RunM base α} (quiet : Quiet run) : Grows run :=
  fun _ _ _ valid ran => ⟨[], [], quiet valid ran⟩

theorem Quiet.of_same {run : RunM base α}
    (same : ∀ ⦃before after result⦄, run before = .ok result after → before.Same after) : Quiet run :=
  fun _ _ _ _ ran => (same ran).grew

theorem Quiet.bind {rest : α → RunM base β} (one : Quiet first)
    (two : ∀ result, Quiet (rest result)) : Quiet (first >>= rest) := by
  intro before after result valid ran
  obtain ⟨middle, state, left, right⟩ := run_bind_ok.mp ran
  have grew := one valid left
  exact grew.trans (two middle (valid.grew grew) right)

theorem Quiet.pure : Quiet (pure result : RunM base α) :=
  .of_same fun _ _ _ ran => (run_pure_ok.mp ran).2 ▸ .refl

theorem Quiet.forM (each : ∀ x ∈ xs, Quiet (run x)) : Quiet (xs.forM run) := by
  induction xs with
  | nil => exact .pure
  | cons x xs ih =>
    exact .bind (each x List.mem_cons_self) fun _ =>
      ih fun y member => each y (List.mem_cons_of_mem _ member)

theorem Quiet.resolved : Quiet (resolved value : RunM base α) :=
  .of_same fun _ _ _ ran => (resolved_ok.mp ran).2 ▸ .refl

theorem Quiet.committed : Quiet (committed read : RunM base α) :=
  .of_same fun _ _ _ ran => (committed_ok.mp ran).2 ▸ .refl

theorem Quiet.modify (same : ∀ running : Running base, running.Same (change running)) :
    Quiet (modify change : RunM base Unit) :=
  .of_same fun before _ _ ran => modify_ok.mp ran ▸ same before

theorem Quiet.get : Quiet (get : RunM base _) :=
  .of_same fun _ _ _ ran => (get_ok.mp ran).2 ▸ .refl

theorem Quiet.boundVar : Quiet (boundVar var : RunM base _) :=
  .bind .get fun _ => .pure

theorem Quiet.stagedNow : Quiet (stagedNow : RunM base _) := .bind .get fun _ => .pure

theorem Quiet.bindVar : Quiet (bindVar var id : RunM base _) :=
  .modify fun _ => ⟨rfl, rfl, rfl, rfl, rfl, rfl⟩

/-- A call that changes records it does not make. -/
theorem Quiet.onWrite {run : WriteM base α}
    (each : ∀ ⦃before after result⦄, before.world.Sound → run before = .ok result after →
      before.Grew after [] []) : Quiet (onWrite run) := by
  intro before after result valid ran
  obtain ⟨write, called, rfl⟩ := onWrite_ok.mp ran
  exact ⟨each valid.sound called, rfl, rfl, rfl, rfl, fun _ member => .inl member⟩

theorem Grows.bind {rest : α → RunM base β} (one : Grows first)
    (two : ∀ result, Grows (rest result)) : Grows (first >>= rest) := by
  intro before after result valid ran
  obtain ⟨middle, state, left, right⟩ := run_bind_ok.mp ran
  obtain ⟨nodes, edges, grew⟩ := one valid left
  obtain ⟨nodes', edges', grew'⟩ := two middle (valid.grew grew) right
  exact ⟨_, _, grew.trans grew'⟩

theorem Grows.pure : Grows (pure result : RunM base α) := Quiet.pure.grows

theorem Grows.modify (same : ∀ running : Running base, running.Same (change running)) :
    Grows (modify change : RunM base Unit) := (Quiet.modify same).grows

theorem Grows.throw : Grows (throw message : RunM base α) :=
  fun _ _ _ _ ran => absurd ran throw_ne_ok

theorem Grows.forM (each : ∀ x ∈ xs, Grows (run x)) : Grows (xs.forM run) := by
  induction xs with
  | nil => exact .pure
  | cons x xs ih =>
    exact .bind (each x List.mem_cons_self) fun _ =>
      ih fun y member => each y (List.mem_cons_of_mem _ member)

/-! ### Making -/

theorem createKeyed_run (ran : createKeyed params node key before = .ok id after) :
    ∃ props write, createNodeWithKey key node.label.toList props before.write = .ok id write ∧
      after = { before with
        write := write
        staged := { before.staged with summary := { before.staged.summary with
          nodesCreated := before.staged.summary.nodesCreated + 1 } } } := by
  obtain ⟨props, _, values, rest⟩ := run_bind_ok.mp ran
  obtain ⟨-, rfl⟩ := resolved_ok.mp values
  obtain ⟨own, _, made, rest⟩ := run_bind_ok.mp rest
  obtain ⟨write, called, rfl⟩ := onWrite_ok.mp made
  obtain ⟨⟨⟩, _, counted, last⟩ := run_bind_ok.mp rest
  obtain ⟨rfl, rfl⟩ := run_pure_ok.mp last
  exact ⟨props, write, called, modify_ok.mp counted⟩

theorem createKeyed_grew (valid : before.Valid)
    (ran : createKeyed params node key before = .ok id after) : before.Grew after [id] [] 0 := by
  obtain ⟨props, write, called, rfl⟩ := createKeyed_run ran
  exact ⟨createNodeAs_grew valid.sound called, rfl, rfl, rfl, rfl, fun _ member => .inl member⟩

theorem addEdge_run {dst : NodeId} (ran : addEdge params src dst rel before = .ok () after) :
    ∃ props edge write, createEdge src dst rel.ty props before.write = .ok edge write ∧
      after = { before with
        write := write
        staged := { before.staged with
          edges := (src, dst, rel.ty) :: before.staged.edges
          summary := { before.staged.summary with
            edgesCreated := before.staged.summary.edgesCreated + 1 } } } := by
  obtain ⟨props, _, values, rest⟩ := run_bind_ok.mp ran
  obtain ⟨-, rfl⟩ := resolved_ok.mp values
  obtain ⟨edge, _, made, rest⟩ := run_bind_ok.mp rest
  obtain ⟨write, called, rfl⟩ := onWrite_ok.mp made
  exact ⟨props, edge, write, called, modify_ok.mp rest⟩

/-- The edge of a hop is staged, committed or added. -/
theorem ensureEdge_ok (ran : ensureEdge plane params prev cur rel before = .ok () after) :
    ((rel.ends prev cur).1, (rel.ends prev cur).2, rel.ty) ∈ before.staged.edges ∧ before = after ∨
      (∃ n ∈ neighbors base plane (rel.ends prev cur).1 .out (some rel.ty),
        n.node = (rel.ends prev cur).2) ∧ before = after ∨
      ((rel.ends prev cur).1, (rel.ends prev cur).2, rel.ty) ∉ before.staged.edges ∧
        addEdge params (rel.ends prev cur).1 (rel.ends prev cur).2 rel before = .ok () after := by
  obtain ⟨staged, _, read, rest⟩ := run_bind_ok.mp ran
  obtain ⟨rfl, rfl⟩ := stagedNow_ok.mp read
  change (if ((rel.ends prev cur).1, (rel.ends prev cur).2, rel.ty) ∈ before.staged.edges then pure ()
    else if (neighbors base plane (rel.ends prev cur).1 .out (some rel.ty)).any
      fun n => n.node = (rel.ends prev cur).2 then pure ()
    else addEdge params (rel.ends prev cur).1 (rel.ends prev cur).2 rel : RunM base Unit) before =
      .ok () after at rest
  split at rest
  · exact .inl ⟨‹_›, (run_pure_ok.mp rest).2⟩
  · rename_i unstaged
    split at rest
    · rename_i found
      exact .inr (.inl ⟨by simpa using found, (run_pure_ok.mp rest).2⟩)
    · exact .inr (.inr ⟨unstaged, rest⟩)

/-- A new edge leads where it was asked to. -/
theorem createEdge_joins {write next : WriteTxn base} {dst : NodeId} {ty : String}
    {props : Properties} (sound : write.world.Sound)
    (called : createEdge src dst ty props write = .ok id next) :
    ∃ row : EdgeRow, next.record (.edge, id) = some (.inr row) ∧ row.src = src ∧ row.dst = dst := by
  obtain ⟨-, -, -, -, -, named, number, -, -, written⟩ := (createEdge_writes sound).returns called
  have plane : next.plane = write.plane := (createEdge_keeps.returns called).plane
  rw [applyAll_edgeWrites] at written
  refine ⟨⟨src, dst, number, props⟩, ?_, rfl, rfl⟩
  rw [WriteTxn.record, plane, written, Tables.record, ExtTreeMap.getElem?_write, if_pos rfl]
  rfl

theorem addEdge_grew {dst : NodeId} (valid : before.Valid)
    (ran : addEdge params src dst rel before = .ok () after) :
    (∃ edge, before.Grew after [] [edge] 0) ∧ after.Joined src dst := by
  obtain ⟨props, edge, write, called, rfl⟩ := addEdge_run ran
  have joined := createEdge_joins valid.sound called
  refine ⟨⟨edge, createEdge_grew valid.sound valid.recorded called, rfl, rfl, rfl, rfl, ?_⟩,
    edge, joined⟩
  rintro triple member
  rcases List.mem_cons.mp member with rfl | old
  · exact .inr ⟨edge, joined⟩
  · exact .inl old

/-- A node of a `CREATE` is made by one call, and counted once. -/
theorem createFresh_run (ran : getOrCreate.createFresh params node before = .ok id after) :
    ∃ key props write keyed,
      createNodeAs key node.label.toList props before.write = .ok id write ∧
      after = { before with
        write := write
        staged := { before.staged with
          keyed := keyed
          summary := { before.staged.summary with
            nodesCreated := before.staged.summary.nodesCreated + 1 } } } := by
  rw [getOrCreate.createFresh] at ran
  cases keyed : literalKey node with
  | some key =>
    rw [keyed] at ran
    obtain ⟨own, middle, made, rest⟩ := run_bind_ok.mp ran
    obtain ⟨⟨⟩, _, noted, last⟩ := run_bind_ok.mp rest
    obtain ⟨rfl, rfl⟩ := run_pure_ok.mp last
    obtain ⟨props, write, called, rfl⟩ := createKeyed_run made
    exact ⟨_, props, write, _, called, modify_ok.mp noted⟩
  | none =>
    rw [keyed] at ran
    obtain ⟨props, _, values, rest⟩ := run_bind_ok.mp ran
    obtain ⟨-, rfl⟩ := resolved_ok.mp values
    obtain ⟨own, _, made, rest⟩ := run_bind_ok.mp rest
    obtain ⟨write, called, rfl⟩ := onWrite_ok.mp made
    obtain ⟨⟨⟩, _, counted, last⟩ := run_bind_ok.mp rest
    obtain ⟨rfl, rfl⟩ := run_pure_ok.mp last
    exact ⟨_, props, write, _, called, modify_ok.mp counted⟩

theorem createFresh_grew (valid : before.Valid)
    (ran : getOrCreate.createFresh params node before = .ok id after) :
    before.Grew after [id] [] 0 := by
  obtain ⟨key, props, write, keyed, called, rfl⟩ := createFresh_run ran
  exact ⟨createNodeAs_grew valid.sound called, rfl, rfl, rfl, rfl, fun _ member => .inl member⟩

theorem Grows.createKeyed : Grows (createKeyed params node key : RunM base _) :=
  fun _ _ _ valid ran => ⟨_, _, createKeyed_grew valid ran⟩

theorem Grows.addEdge {dst : NodeId} : Grows (addEdge params src dst rel : RunM base _) :=
  fun _ _ _ valid ran => ⟨_, _, (addEdge_grew valid ran).1.choose_spec⟩

/-! ### Clauses -/

theorem Quiet.setOne {value : Val} : Quiet (setOne params id key value : RunM base _) :=
  .bind .resolved fun _ => .bind (.onWrite fun _ _ _ sound ran => setProp_grew sound ran) fun _ =>
    .modify fun _ => ⟨rfl, rfl, rfl, rfl, rfl, rfl⟩

theorem Quiet.writeLabels {labels : List String} : Quiet (writeLabels id labels : RunM base _) :=
  .bind (.modify fun _ => ⟨rfl, rfl, rfl, rfl, rfl, rfl⟩) fun _ =>
    .bind (.onWrite fun _ _ _ sound ran => setLabels_grew sound ran) fun _ =>
      .modify fun _ => ⟨rfl, rfl, rfl, rfl, rfl, rfl⟩

theorem Quiet.applySet {item : SetItem} : Quiet (applySet params id item : RunM base _) := by
  cases item with
  | prop var key value => exact .setOne
  | merge var props => exact .forM fun entry _ => .setOne
  | label var label =>
    refine .bind .stagedNow fun staged => ?_
    dsimp only
    split
    · exact .modify fun _ => ⟨rfl, rfl, rfl, rfl, rfl, rfl⟩
    · exact .writeLabels

theorem Quiet.applyRemove {item : RemoveItem} : Quiet (applyRemove id item : RunM base _) := by
  cases item with
  | prop var key =>
    exact .bind (.onWrite fun _ _ _ sound ran => removeProp_grew sound ran) fun _ =>
      .modify fun _ => ⟨rfl, rfl, rfl, rfl, rfl, rfl⟩
  | label var label =>
    refine .bind .stagedNow fun staged => ?_
    dsimp only
    split
    · exact .writeLabels
    · exact .modify fun _ => ⟨rfl, rfl, rfl, rfl, rfl, rfl⟩

theorem Grows.findOrCreate : Grows (findOrCreate plane params node key : RunM base _) := by
  refine .bind Quiet.committed.grows fun found => ?_
  cases found with
  | some found => exact .bind (.modify fun _ => ⟨rfl, rfl, rfl, rfl, rfl, rfl⟩) fun _ => .pure
  | none =>
    exact .bind .createKeyed fun _ =>
      .bind (.modify fun _ => ⟨rfl, rfl, rfl, rfl, rfl, rfl⟩) fun _ => .pure

theorem Grows.upsertMergeNode : Grows (upsertMergeNode plane params node : RunM base _) := by
  refine .bind Quiet.boundVar.grows fun bound => ?_
  cases bound with
  | some own => exact .pure
  | none =>
    dsimp only
    split
    · exact .throw
    · refine .bind Quiet.stagedNow.grows fun staged => ?_
      split
      · exact .bind Quiet.bindVar.grows fun _ => .pure
      · exact .bind .findOrCreate fun _ =>
          .bind (.modify fun _ => ⟨rfl, rfl, rfl, rfl, rfl, rfl⟩) fun _ =>
            .bind Quiet.bindVar.grows fun _ => .pure

theorem Grows.ensureEdge : Grows (ensureEdge plane params prev cur rel : RunM base _) := by
  refine .bind Quiet.stagedNow.grows fun staged => ?_
  split
  · exact .pure
  · split
    · exact .pure
    · exact .addEdge

theorem Grows.mergeHops : Grows (mergeHops plane params prev rest : RunM base _) := by
  induction rest generalizing prev with
  | nil => exact .pure
  | cons hop rest ih => exact .bind .upsertMergeNode fun _ => .bind .ensureEdge fun _ => ih

theorem Grows.mergePath {clause : MergeClause} :
    Grows (mergePath plane params clause : RunM base _) :=
  .bind .upsertMergeNode fun _ => .bind (Quiet.forM fun _ _ => .applySet).grows fun _ => .mergeHops

theorem Grows.getOrCreate : Grows (getOrCreate params node : RunM base _) := by
  refine .bind Quiet.boundVar.grows fun bound => ?_
  cases bound with
  | some own => exact .pure
  | none =>
    refine .bind (fun _ _ _ valid ran => ⟨_, _, createFresh_grew valid ran⟩) fun _ => ?_
    exact .bind Quiet.bindVar.grows fun _ => .pure

theorem Grows.createHops : Grows (createHops params prev rest : RunM base _) := by
  induction rest generalizing prev with
  | nil => exact .pure
  | cons hop rest ih => exact .bind .getOrCreate fun _ => .bind .addEdge fun _ => ih

theorem Grows.createPath {path : CreatePath} : Grows (createPath params path : RunM base _) :=
  .bind .getOrCreate fun _ => .createHops

theorem Grows.perRow {clause : RunM base Unit} (grows : Grows clause) :
    Grows (perRow binding ids clause) := by
  cases binding with
  | none => exact .bind (.modify fun _ => ⟨rfl, rfl, rfl, rfl, rfl, rfl⟩) fun _ => grows
  | some bound =>
    refine .forM fun _ _ => ?_
    exact .bind (.modify fun _ => ⟨rfl, rfl, rfl, rfl, rfl, rfl⟩) fun _ => grows

def WriteOp.isDelete : WriteOp → Bool
  | .delete .. => true
  | .create _ | .merge _ | .set _ | .remove _ => false

/-- **Every clause but a delete only adds.** -/
theorem runOp_grows {op : WriteOp} (adds : op.isDelete = false) :
    Grows (runOp plane params binding ids op : RunM base _) := by
  cases op with
  | create paths => exact .perRow (.forM fun _ _ => .createPath)
  | merge clause => exact .perRow .mergePath
  | set items => exact (Quiet.forM fun _ _ => .forM fun _ _ => .applySet).grows
  | remove items => exact (Quiet.forM fun _ _ => .forM fun _ _ => .applyRemove).grows
  | delete detach vars => cases adds

end DrStrange.Parser
