/-
**What each method makes.**

A method that returns has noted the nodes and edges that it made, and all that was there before it is
there after it (`WriteTxn.Grew`), but for a delete, which makes nothing.
-/

import DrStrange.Api.Noted

namespace DrStrange.Graph

open Std Lib ExtTreeMap

variable {base : Tables} {α β : Type} {id : ℕ} {before after : WriteTxn base} {props : Properties}
  {entity : Entity} {result : α} {labels : List String} {value : Option PropValue}
  {nodes' nodes : List NodeId} {edges' edges : List EdgeId} {run : WriteM base α} {src dst : NodeId}
  {ty : String}

/-! ### Calls that return -/

/-- What a triple says of a call that returns. -/
theorem Does.returns {post : α → WriteTxn base → Prop} {failed : WriteTxn base → Prop}
    (does : Does before run post failed) (ran : run before = .ok result after) :
    post result after := by
  rw [Does, ran] at does
  exact does

theorem Keeps.returns (keeps : Keeps run) (ran : run before = .ok result after) :
    before.Follows after := by
  have does := keeps before
  rw [Does, ran] at does
  exact does

/-- Taking an id and writing a node under it: the id is fresh and noted, and the key was free. -/
theorem createNodeAs_writes {key : Option String} (sound : before.world.Sound) :
    Does before (createNodeAs key labels props)
      (fun id after => after.madeNodes = before.madeNodes ++ [id] ∧
        after.madeEdges = before.madeEdges ∧ id ∉ before.madeNodes ∧
        takenKey before.txn.tables before.plane key = none ∧
        ∃ named numbers, Grows before.txn.tables named ∧
          after.txn.tables = named.applyAll (nodeWrites before.plane id ⟨key, numbers, props⟩))
      (fun _ => True) := by
  refine (nextNodeId_does.mono (fun _ _ taken => taken) fun _ _ => trivial).bind ?_
  rintro id _ ⟨txn, batch, rfl, reserved, taken, -⟩
  refine ((onTxn_does insertNode_runs).mono (fun _ _ inserted => inserted) fun _ _ => trivial).bind ?_
  rintro _ _ ⟨after, rfl, unclaimed, named, numbers, grows, -, written⟩
  refine ⟨rfl, rfl, ?_, ?_, named, numbers, reserved.trans grows, written⟩
  · exact fun made => (sound.changes taken).nodes.used id made (Set.mem_insert id _)
  · rw [← unclaimed]
    exact (reserved.takenKey key).symm

/-- Taking an id and writing an edge under it: the id is fresh and noted, and both ends are there. -/
theorem createEdge_writes (sound : before.world.Sound) :
    Does before (createEdge src dst ty props)
      (fun id after => after.madeEdges = before.madeEdges ++ [id] ∧
        after.madeNodes = before.madeNodes ∧ id ∉ before.madeEdges ∧
        (before.plane, src) ∈ before.txn.tables.nodes ∧
        (before.plane, dst) ∈ before.txn.tables.nodes ∧
        ∃ named number, Grows before.txn.tables named ∧
          (named.dictIds .edgeType)[ty]? = some number ∧
          after.txn.tables = named.applyAll (edgeWrites before.plane id ⟨src, dst, number, props⟩))
      (fun _ => True) := by
  refine (nextEdgeId_does.mono (fun _ _ taken => taken) fun _ _ => trivial).bind ?_
  rintro id _ ⟨txn, batch, rfl, reserved, taken, -⟩
  refine ((onTxn_does insertEdge_runs).mono (fun _ _ inserted => inserted) fun _ _ => trivial).bind ?_
  rintro _ _ ⟨after, rfl, source, target, named, number, grows, known, written⟩
  refine ⟨rfl, rfl, ?_, ?_, ?_, named, number, reserved.trans grows, known, written⟩
  · exact fun made => (sound.changes taken).edges.used id made (Set.mem_insert id _)
  · exact reserved.nodes_eq ▸ source
  · exact reserved.nodes_eq ▸ target

/-! ### Transactions that grow -/

/-- The entities of these nodes and edges. -/
def entities (nodes : List NodeId) (edges : List EdgeId) : List Entity :=
  nodes.map (.node, ·) ++ edges.map (.edge, ·)

theorem entities_append :
    entity ∈ entities (nodes ++ nodes') (edges ++ edges') ↔
      entity ∈ entities nodes edges ∨ entity ∈ entities nodes' edges' := by
  simp only [entities, List.map_append, List.mem_append]
  tauto

/-- A transaction further on that has made these nodes and edges and taken nothing out. -/
structure WriteTxn.Grew (before after : WriteTxn base) (nodes : List NodeId) (edges : List EdgeId) :
    Prop where
  follows : before.Follows after
  madeNodes : after.madeNodes = before.madeNodes ++ nodes
  madeEdges : after.madeEdges = before.madeEdges ++ edges
  held : ∀ entity, after.record entity ≠ none ↔
    before.record entity ≠ none ∨ entity ∈ entities nodes edges
  kept : ∀ edge row, before.record (.edge, edge) = some row → after.record (.edge, edge) = some row

theorem WriteTxn.Grew.refl {write : WriteTxn base} : write.Grew write [] [] where
  follows := .refl
  madeNodes := (List.append_nil _).symm
  madeEdges := (List.append_nil _).symm
  held entity := by simp [entities]
  kept _ _ found := found

theorem WriteTxn.Grew.trans {first second third : WriteTxn base}
    (one : first.Grew second nodes edges) (two : second.Grew third nodes' edges') :
    first.Grew third (nodes ++ nodes') (edges ++ edges') where
  follows := one.follows.trans two.follows
  madeNodes := by rw [two.madeNodes, one.madeNodes, List.append_assoc]
  madeEdges := by rw [two.madeEdges, one.madeEdges, List.append_assoc]
  held entity := by rw [two.held, one.held, entities_append, or_assoc]
  kept edge row found := two.kept edge row (one.kept edge row found)

/-- A record made. -/
theorem held_update {other : Entity} {row : EntityRow}
    (written : after.record = Function.update before.record entity (some row)) :
    after.record other ≠ none ↔ before.record other ≠ none ∨ other = entity := by
  rw [written, Function.update_apply]
  split_ifs with same
  · exact ⟨fun _ => .inr same, fun _ => nofun⟩
  · exact (or_iff_left same).symm

theorem createNodeAs_grew {key : Option String} (sound : before.world.Sound)
    (ran : createNodeAs key labels props before = .ok id after) :
    before.Grew after [id] [] := by
  obtain ⟨madeNodes, madeEdges, -, -, -⟩ := (createNodeAs_writes sound).returns ran
  have noted : Noted before after [] ((.node, id), .created) :=
    Does.returns (createNodeAs_notes sound) ran
  cases noted with
  | created fresh made written =>
    refine ⟨createNodeAs_keeps.returns ran, madeNodes, by simpa using madeEdges,
      fun entity => ?_, fun edge row found => ?_⟩
    · rw [held_update written]
      simp [entities]
    · rw [written, Function.update_of_ne (by simp), found]

theorem createEdge_grew (sound : before.world.Sound) (recorded : before.world.Recorded)
    (ran : createEdge src dst ty props before = .ok id after) :
    before.Grew after [] [id] := by
  obtain ⟨madeEdges, madeNodes, -⟩ := (createEdge_writes sound).returns ran
  have noted : Noted before after [] ((.edge, id), .created) :=
    Does.returns (createEdge_notes sound) ran
  cases noted with
  | created fresh made written =>
    refine ⟨createEdge_keeps.returns ran, by simpa using madeNodes, madeEdges,
      fun entity => ?_, fun edge row found => ?_⟩
    · rw [held_update written]
      simp [entities]
    · have apart : edge ≠ id := by
        rintro rfl
        have there : before.world.tables.record before.plane (.edge, edge) ≠ none := by
          rw [show before.world.tables.record before.plane = before.record from rfl, found]
          nofun
        exact fresh (recorded.made there)
      rw [written, Function.update_of_ne (by simpa using apart), found]

/-! ### Calls that make nothing -/

/-- A call that notes nothing as made. -/
def MakesNothing (run : WriteM base α) : Prop :=
  ∀ before, Does before run
    (fun _ after => after.madeNodes = before.madeNodes ∧ after.madeEdges = before.madeEdges)
    (fun _ => True)

theorem MakesNothing.bind {first : WriteM base α} {rest : α → WriteM base β}
    (one : MakesNothing first) (two : ∀ result, MakesNothing (rest result)) :
    MakesNothing (first >>= rest) :=
  fun before => (one before).bind fun result write same =>
    (two result write).mono (fun _ _ same' => ⟨same'.1.trans same.1, same'.2.trans same.2⟩)
      fun _ _ => trivial

theorem MakesNothing.pure : MakesNothing (pure result : WriteM base α) :=
  fun _ => ⟨rfl, rfl⟩

theorem MakesNothing.throw {error : Error} : MakesNothing (throw error : WriteM base α) :=
  fun _ => trivial

theorem MakesNothing.get : MakesNothing (get : WriteM base _) := fun _ => ⟨rfl, rfl⟩

theorem MakesNothing.modify {change : WriteTxn base → WriteTxn base}
    (nodes : ∀ write, (change write).madeNodes = write.madeNodes)
    (edges : ∀ write, (change write).madeEdges = write.madeEdges) : MakesNothing (modify change) :=
  fun before => ⟨nodes before, edges before⟩

theorem MakesNothing.reading {read : Tables → PlaneId → Except Error α} :
    MakesNothing (reading read : WriteM base _) :=
  fun _ => reading_does.mono (fun _ _ same => same.1 ▸ ⟨rfl, rfl⟩) fun _ _ => trivial

theorem MakesNothing.onTxn {run : PlaneId → TxnM base α} : MakesNothing (onTxn run) := by
  intro before
  rw [Does, Graph.onTxn]
  cases run before.plane before.txn with
  | ok result txn => exact ⟨rfl, rfl⟩
  | error error txn => trivial

theorem recordPropEvent_makesNothing {key : String} :
    MakesNothing (recordPropEvent id key value : WriteM base _) := by
  refine .bind .get fun write => ?_
  split
  · refine .bind .reading fun found => ?_
    cases found with
    | some node => exact .modify (fun _ => rfl) fun _ => rfl
    | none => exact .pure
  · exact .pure

theorem recordKwPropEvent_makesNothing {key : String} :
    MakesNothing (recordKwPropEvent id key value : WriteM base _) := by
  refine .bind .get fun write => ?_
  split
  · refine .bind .reading fun found => ?_
    cases found with
    | some node => exact .modify (fun _ => rfl) fun _ => rfl
    | none => exact .pure
  · exact .pure

theorem setLabels_makesNothing : MakesNothing (setLabels id labels : WriteM base _) := by
  refine .bind .reading fun found => ?_
  cases found with
  | some node => exact .bind .onTxn fun _ => .modify (fun _ => rfl) fun _ => rfl
  | none => exact .throw

theorem countRemoved_makesNothing {ids : List EdgeId} :
    MakesNothing (countRemoved ids : WriteM base _) := by
  induction ids with
  | nil => exact .pure
  | cons id ids ih =>
    refine .bind .reading fun found => ?_
    cases found with
    | some edge =>
      refine .bind (.modify (fun _ => rfl) fun _ => rfl) fun _ => ?_
      exact ih
    | none => exact ih

theorem deleteNodeTxn_makesNothing : MakesNothing (deleteNodeTxn id : WriteM base _) := by
  refine .bind (.bind .reading fun found => ?_) fun _ =>
    .bind .onTxn fun _ => .modify (fun _ => rfl) fun _ => rfl
  cases found with
  | some node =>
    exact .bind .reading fun _ => .bind countRemoved_makesNothing fun _ =>
      .modify (fun _ => rfl) fun _ => rfl
  | none => exact .pure

/-- What a delete takes out. -/
theorem Noted.takes {along : List Entity} (noted : Noted before after along (entity, .deleted)) :
    after.record entity = none ∧ (∀ other ∈ along, after.record other = none) ∧
      ∀ other, other ≠ entity → other ∉ along → after.record other = before.record other := by
  cases noted with
  | deleted gone held gone' rest => exact ⟨gone, gone', rest⟩

/-- A record rewritten. -/
theorem updated_grew {run : WriteM base Unit} (keeps : Keeps run)
    (notes : Notes before run fun _ => ((.node, id), .updated)) (nothing : MakesNothing run)
    (ran : run before = .ok () after) : before.Grew after [] [] := by
  have noted : Noted before after [] ((.node, id), .updated) := Does.returns notes ran
  obtain ⟨madeNodes, madeEdges⟩ := (nothing before).returns ran
  cases noted with
  | updated found written =>
    refine ⟨keeps.returns ran, by simpa using madeNodes, by simpa using madeEdges,
      fun entity => ?_, fun edge row found => ?_⟩
    · rw [held_update written]
      simp only [entities, List.map_nil, List.append_nil, List.not_mem_nil, or_false,
        or_iff_left_iff_imp]
      rintro rfl
      rw [found]
      nofun
    · rw [written, Function.update_of_ne (by simp), found]

theorem setProp_grew {key : String} {prop : PropDesc} (sound : before.world.Sound)
    (ran : setProp id key prop before = .ok () after) :
    before.Grew after [] [] :=
  updated_grew setProp_keeps (rewriteProp_notes sound)
    (.bind .onTxn fun _ => .bind recordPropEvent_makesNothing fun _ => recordKwPropEvent_makesNothing)
    ran

theorem removeProp_grew {key : String} (sound : before.world.Sound)
    (ran : removeProp id key before = .ok () after) :
    before.Grew after [] [] :=
  updated_grew removeProp_keeps (rewriteProp_notes sound)
    (.bind .onTxn fun _ => .bind recordPropEvent_makesNothing fun _ => recordKwPropEvent_makesNothing)
    ran

theorem setLabels_grew (sound : before.world.Sound)
    (ran : setLabels id labels before = .ok () after) :
    before.Grew after [] [] :=
  updated_grew setLabels_keeps (setLabels_notes sound) setLabels_makesNothing ran

end DrStrange.Graph
