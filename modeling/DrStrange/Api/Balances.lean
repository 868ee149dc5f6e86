/-
**Every method counts what it changes.**

What a transaction has changed of its plane's census, less what it has counted, is its drift. A method
leaves the drift as it is, whether it returns or fails (`WriteOp.balances`), and so do all methods of
a transaction.

Two methods do so only while there is room in the dictionaries. A type change is counted before the
type is named, and the nodes and edges of a bulk load after its lines are merged into the nodes they
keep. Where a name is refused in between, the one has counted too much and the other too little.
-/

import DrStrange.Api.Isolation
import DrStrange.Api.Recount

namespace DrStrange.Graph

open Std Lib ExtTreeMap

variable {base tables after : Tables} {plane : PlaneId} {nodes edges : Set ℕ} {α β : Type} {id : ℕ}
  {before middle last : WriteTxn base} {run : WriteM base α} {key ty : String}
  {update : Properties → Properties} {failed : WriteTxn base → Prop} {rest : α → WriteM base β}
  {value : Option PropValue} {labels : List String} {delta : CounterDelta} {props : Properties}
  {result : α}

/-! ### Drift -/

/-- Neither dictionary has run over. -/
def Tables.Roomy (tables : Tables) : Prop := tables.RoomIn .label ∧ tables.RoomIn .edgeType

/-- What a transaction has changed and not counted, or counted and not changed. -/
def WriteTxn.drift (write : WriteTxn base) : Census :=
  write.txn.tables.census write.plane - write.counters.census

/-- A transaction further on that has counted what it has changed since. -/
structure WriteTxn.Balances (before after : WriteTxn base) : Prop where
  follows : before.Follows after
  drift : before.world.Sound → after.txn.tables.Roomy → after.drift = before.drift

theorem WriteTxn.Balances.refl {write : WriteTxn base} : write.Balances write :=
  ⟨.refl, fun _ _ => rfl⟩

theorem WriteTxn.Balances.trans (here : before.Balances middle) (there : middle.Balances last) :
    before.Balances last where
  follows := here.follows.trans there.follows
  drift sound roomy := by
    have further := sound.changes (here.follows.changes sound)
    have room : middle.txn.tables.Roomy :=
      ⟨(there.follows.changes further).roomIn roomy.1, (there.follows.changes further).roomIn roomy.2⟩
    exact (there.drift further roomy).trans (here.drift sound room)

/-- A method that counts what it changes, whether it returns or fails. -/
def Balanced (run : WriteM base α) : Prop :=
  ∀ before, Does before run (fun _ => before.Balances) before.Balances

theorem Balanced.bind (one : Balanced run) (two : ∀ result, Balanced (rest result)) :
    Balanced (run >>= rest) :=
  fun before => (one before).bind fun result write balances =>
    (two result write).mono (fun _ _ further => balances.trans further) fun _ further =>
      balances.trans further

theorem Balanced.pure : Balanced (pure result : WriteM base α) :=
  fun _ => WriteTxn.Balances.refl

theorem Balanced.discard (balanced : Balanced run) : Balanced (discard run) :=
  balanced.bind fun _ => .pure

/-- A method that goes on from where it is called and leaves the drift as it is. -/
theorem Keeps.balanced (keeps : Keeps run)
    (drifts : ∀ before : WriteTxn base, before.world.Sound → Does before run
      (fun _ after => after.txn.tables.Roomy → after.drift = before.drift)
      (fun after => after.txn.tables.Roomy → after.drift = before.drift)) : Balanced run := by
  intro before
  by_cases sound : before.world.Sound
  · refine keeps.also ((drifts before sound).mono ?_ ?_)
    · exact fun _ _ same follows => ⟨follows, fun _ => same⟩
    · exact fun _ same follows => ⟨follows, fun _ => same⟩
  · refine (keeps before).mono ?_ ?_
    · exact fun _ _ follows => ⟨follows, fun held => absurd held sound⟩
    · exact fun _ follows => ⟨follows, fun held => absurd held sound⟩

/-- Where the census and the count move by the same, the drift is as before. -/
theorem drift_eq {moved : Census} (plane : last.plane = before.plane)
    (census : last.txn.tables.census before.plane = before.txn.tables.census before.plane + moved)
    (counted : last.counters.census = before.counters.census + moved) :
    last.drift = before.drift := by
  rw [WriteTxn.drift, WriteTxn.drift, plane, census, counted]
  abel

theorem drift_still (plane : last.plane = before.plane)
    (census : last.txn.tables.census before.plane = before.txn.tables.census before.plane)
    (counted : last.counters = before.counters) : last.drift = before.drift := by
  rw [WriteTxn.drift, WriteTxn.drift, plane, census, counted]

/-- What follows a read that succeeds. -/
theorem Does.read {read : Tables → PlaneId → Except Error α} {after : β → WriteTxn base → Prop}
    (ran : read before.txn.tables before.plane = .ok result)
    (does : Does before (rest result) after failed) :
    Does before (reading read >>= rest) after failed := by
  simp only [Does, Bind.bind, EStateM.bind, reading, ran] at *
  exact does

/-! ### Records made -/

theorem createNodeAs_balanced {key : Option String} :
    Balanced (createNodeAs key labels props : WriteM base _) := by
  refine createNodeAs_keeps.balanced fun before sound => ?_
  refine (nextNodeId_does.mono (fun _ _ taken => taken) ?_).bind ?_
  · rintro _ ⟨txn, rfl, same⟩ -
    exact drift_still rfl (by rw [same]) rfl
  rintro id _ ⟨txn, batch, rfl, reserved, taken, -⟩
  refine ((onTxn_does insertNode_runs).mono (fun _ _ inserted => inserted) ?_).bind ?_
  · rintro _ ⟨after, rfl, grows⟩ -
    exact drift_still rfl (@Grows.census _ _ before.world (reserved.trans grows) sound) rfl
  rintro _ _ ⟨after, rfl, -, named, numbers, grows, known, written⟩ -
  have free := (sound.changes taken).tables.fresh (Set.mem_insert id _) before.plane
  have grown : Grows before.world.tables named := reserved.trans grows
  have absent : named.nodes[(before.plane, id)]? = none := by
    rw [grows.nodes_eq]
    exact getElem?_eq_none free
  have whole : after.tables.census before.plane =
      before.txn.tables.census before.plane + Census.ofNode labels := by
    rw [written, census_insertNode absent ((sound.grows grown).tables.exact.dict .label) known,
      grown.census sound]
    rfl
  exact drift_eq rfl whole CounterDelta.census_nodeAdded

theorem createEdge_balanced {src dst : NodeId} :
    Balanced (createEdge src dst ty props : WriteM base _) := by
  refine createEdge_keeps.balanced fun before sound => ?_
  refine (nextEdgeId_does.mono (fun _ _ taken => taken) ?_).bind ?_
  · rintro _ ⟨txn, rfl, same⟩ -
    exact drift_still rfl (by rw [same]) rfl
  rintro id _ ⟨txn, batch, rfl, reserved, taken, -⟩
  refine ((onTxn_does insertEdge_runs).mono (fun _ _ inserted => inserted) ?_).bind ?_
  · rintro _ ⟨after, rfl, grows⟩ -
    exact drift_still rfl (@Grows.census _ _ before.world (reserved.trans grows) sound) rfl
  rintro _ _ ⟨after, rfl, -, -, named, number, grows, known, written⟩ -
  have free := (sound.changes taken).tables.freshEdge (Set.mem_insert id _) before.plane
  have grown : Grows before.world.tables named := reserved.trans grows
  have absent : named.edges[(before.plane, id)]? = none := by
    rw [grows.edges_eq]
    exact getElem?_eq_none free
  have whole : after.tables.census before.plane =
      before.txn.tables.census before.plane + Census.ofEdge ty := by
    rw [written, census_insertEdge absent ((sound.grows grown).tables.exact.dict .edgeType) known,
      grown.census sound]
    rfl
  exact drift_eq rfl whole CounterDelta.census_edgeAdded

/-! ### Records deleted -/

theorem neighborEdges_eq : neighborEdges tables plane id = incidentEdges tables plane id := by
  simp [neighborEdges, incidentEdges, neighbors, Dir.sides, Function.comp_def]

/-- The types of edges counted off. -/
theorem countRemoved_counted {ids : List EdgeId} (sound : Sound nodes edges before.txn.tables) :
    Does before (countRemoved ids)
      (fun _ after => after = { before with counters := after.counters } ∧
        after.counters.census = before.counters.census -
          (ids.map (before.txn.tables.edgeCensus before.plane)).sum) (fun _ => False) := by
  induction ids generalizing before with
  | nil => exact ⟨rfl, by simp⟩
  | cons id ids ih =>
    cases stored : before.txn.tables.edges[(before.plane, id)]? with
    | none =>
      refine .read (getEdge_absent stored) ?_
      refine (ih sound).mono ?_ fun _ failed => failed
      rintro _ after ⟨same, counted⟩
      refine ⟨same, ?_⟩
      rw [counted, List.map_cons, List.sum_cons, edgeCensus_absent stored, zero_add]
    | some row =>
      obtain ⟨ty, named, read⟩ := sound.getEdge stored
      refine .read read ?_
      refine Does.modify.bind ?_
      rintro _ _ rfl
      refine Does.mono (ih sound) ?_ fun _ failed => failed
      rintro _ after ⟨same, counted⟩
      refine ⟨same, ?_⟩
      rw [counted, CounterDelta.census_edgeRemoved, List.map_cons, List.sum_cons,
        edgeCensus_found stored named]
      abel

/-- A node and its edges counted off, if it is there. -/
theorem countNode_counted (sound : Sound nodes edges before.txn.tables) :
    Does before (countNode id)
      (fun _ after => after = { before with counters := after.counters } ∧
        after.counters.census = before.counters.census -
          (before.txn.tables.nodes[(before.plane, id)]?).elim 0 fun row =>
            ((incidentEdges before.txn.tables before.plane id).map
              (before.txn.tables.edgeCensus before.plane)).sum +
              Census.ofNode (before.txn.tables.labelsOf row)) (fun _ => False) := by
  cases stored : before.txn.tables.nodes[(before.plane, id)]? with
  | none =>
    refine .read (getNode_absent stored) ?_
    exact ⟨rfl, by simp⟩
  | some row =>
    refine .read (sound.getNode stored) (.read rfl ?_)
    refine (countRemoved_counted sound).bind ?_
    rintro _ middle ⟨same, counted⟩
    rw [same]
    refine ⟨rfl, ?_⟩
    show (middle.counters.nodeRemoved _).census = _
    rw [CounterDelta.census_nodeRemoved, counted, neighborEdges_eq, Option.elim_some]
    abel

theorem deleteNodeTxn_balanced {id : NodeId} : Balanced (deleteNodeTxn id : WriteM base _) := by
  refine deleteNodeTxn_keeps.balanced fun before sound => ?_
  refine ((countNode_counted sound.tables).mono (fun _ _ counted => counted) fun _ failed =>
    failed.elim).bind ?_
  rintro _ middle ⟨same, counted⟩
  rw [same]
  refine ((@onTxn_does base _ _ (fun plane => deleteNode plane id) _ _ deleteNode_runs).mono
    (fun _ _ gone => gone) ?_).bind ?_
  · rintro _ ⟨txn, rfl, failed⟩
    exact failed.elim
  rintro _ _ ⟨txn, rfl, gone⟩ -
  refine drift_eq rfl ?_ (counted.trans (sub_eq_add_neg _ _))
  rcases gone with ⟨absent, same⟩ | ⟨row, found, same⟩
  · rw [absent, Option.elim_none, neg_zero, add_zero]
    exact congrArg (Tables.census · before.plane) same
  · rw [found, Option.elim_some]
    refine (congrArg (Tables.census · before.plane) same).trans ((census_deleteNode found).trans ?_)
    abel

theorem deleteEdgeTxn_balanced {id : EdgeId} : Balanced (deleteEdgeTxn id : WriteM base _) := by
  refine deleteEdgeTxn_keeps.balanced fun before sound => ?_
  have deletes : ∀ counters : CounterDelta,
      counters.census = before.counters.census - before.txn.tables.edgeCensus before.plane id →
      Does { before with counters := counters }
        (onTxn fun plane => deleteEdge plane id : WriteM base _)
        (fun _ after => after.txn.tables.Roomy → after.drift = before.drift)
        (fun after => after.txn.tables.Roomy → after.drift = before.drift) := by
    intro counters counted
    refine (@onTxn_does base _ _ (fun plane => deleteEdge plane id) _ _ deleteEdge_runs).mono ?_ ?_
    · rintro _ _ ⟨txn, rfl, gone⟩ -
      refine drift_eq rfl ?_ (counted.trans (sub_eq_add_neg _ _))
      rw [← sub_eq_add_neg]
      exact (congrArg (Tables.census · before.plane) gone).trans census_edgeDeletes
    · rintro _ ⟨txn, rfl, failed⟩
      exact failed.elim
  cases stored : before.txn.tables.edges[(before.plane, id)]? with
  | none =>
    refine .read (getEdge_absent stored) ?_
    exact deletes before.counters (by rw [edgeCensus_absent stored, sub_zero])
  | some row =>
    obtain ⟨ty, named, read⟩ := sound.tables.getEdge stored
    refine .read read ?_
    refine Does.modify.bind ?_
    rintro _ _ rfl
    refine deletes _ (CounterDelta.census_edgeRemoved.trans ?_)
    exact congrArg _ (edgeCensus_found stored named).symm

/-! ### Records changed -/

theorem updateNodeProps_balanced {id : NodeId} :
    Balanced (onTxn fun plane => updateNodeProps plane id update : WriteM base _) := by
  refine updateNodeProps_keeps.balanced fun before _ => ?_
  refine (@onTxn_does base _ _ (fun plane => updateNodeProps plane id update) _ _
    updateNodeProps_runs).mono ?_ ?_
  · rintro _ _ ⟨txn, rfl, row, found, written⟩ -
    exact drift_still rfl ((congrArg (Tables.census · before.plane) written).trans
      (census_rewriteNode found)) rfl
  · rintro _ ⟨txn, rfl, same, -⟩ -
    exact drift_still rfl (congrArg (Tables.census · before.plane) same) rfl

theorem updateEdgeProps_balanced {id : EdgeId} :
    Balanced (onTxn fun plane => updateEdgeProps plane id update : WriteM base _) := by
  refine updateEdgeProps_keeps.balanced fun before _ => ?_
  refine (@onTxn_does base _ _ (fun plane => updateEdgeProps plane id update) _ _
    updateEdgeProps_runs).mono ?_ ?_
  · rintro _ _ ⟨txn, rfl, row, found, written⟩ -
    exact drift_still rfl ((congrArg (Tables.census · before.plane) written).trans
      (census_rewriteEdge found)) rfl
  · rintro _ ⟨txn, rfl, same⟩ -
    exact drift_still rfl (congrArg (Tables.census · before.plane) same) rfl

theorem recordPropEvent_balanced {id : NodeId} :
    Balanced (recordPropEvent id key value : WriteM base Unit) := by
  refine recordPropEvent_keeps.balanced fun before _ => recordPropEvent_does.mono ?_ ?_
  · rintro _ _ ⟨verdict, rfl, -⟩ -
    rfl
  · rintro _ ⟨rfl, -⟩ -
    rfl

theorem recordKwPropEvent_balanced {id : NodeId} :
    Balanced (recordKwPropEvent id key value : WriteM base Unit) := by
  refine recordKwPropEvent_keeps.balanced fun before _ => recordKwPropEvent_does.mono ?_ ?_
  · rintro _ _ ⟨verdict, rfl, -⟩ -
    rfl
  · rintro _ ⟨rfl, -⟩ -
    rfl

theorem setProp_balanced {id : NodeId} {prop : PropDesc} :
    Balanced (setProp id key prop : WriteM base Unit) :=
  .bind updateNodeProps_balanced fun _ => .bind recordPropEvent_balanced fun _ =>
    recordKwPropEvent_balanced

theorem removeProp_balanced {id : NodeId} : Balanced (removeProp id key : WriteM base Unit) :=
  .bind updateNodeProps_balanced fun _ => .bind recordPropEvent_balanced fun _ =>
    recordKwPropEvent_balanced

theorem setLabels_balanced {id : NodeId} : Balanced (setLabels id labels : WriteM base Unit) := by
  refine setLabels_keeps.balanced fun before sound => ?_
  cases stored : before.txn.tables.nodes[(before.plane, id)]? with
  | none => exact .read (getNode_absent stored) fun _ => rfl
  | some row =>
    have tables : Sound _ _ before.txn.tables := sound.tables
    refine .read (tables.getNode stored) ?_
    refine ((@onTxn_does base _ _ (fun plane => setNodeLabels plane id labels) _ _
      setNodeLabels_runs).mono (fun _ _ relabelled => relabelled) ?_).bind ?_
    · rintro _ ⟨txn, rfl, grows⟩ -
      exact drift_still rfl (@Grows.census _ _ before.world grows sound) rfl
    rintro _ _ ⟨txn, rfl, row', named, ids, found, grows, known, written⟩ -
    obtain rfl := Option.some.inj (stored.symm.trans found)
    have inverse := (@World.Sound.grows before.world _ sound grows).tables.exact.dict .label
    have same : named.labelsOf row = before.txn.tables.labelsOf row :=
      labelsOf_named (tables.labels _ row stored) fun _ _ known =>
        sound.named (grows.changes : Changes 0 before.world _) known
    have found' : named.nodes[(before.plane, id)]? = some row := by rw [grows.nodes_eq, stored]
    have whole : txn.tables.census before.plane = before.txn.tables.census before.plane +
        (Census.ofNode labels - Census.ofNode (before.txn.tables.labelsOf row)) := by
      have grown : named.census before.plane = before.txn.tables.census before.plane :=
        @Grows.census _ before.plane before.world grows sound
      rw [written, census_relabel found' inverse known, same, grown]
      abel
    refine drift_eq rfl whole (CounterDelta.census_relabelled.trans ?_)
    abel

theorem setEdgeTypeTxn_balanced {id : EdgeId} :
    Balanced (setEdgeTypeTxn id ty : WriteM base Unit) := by
  refine setEdgeTypeTxn_keeps.balanced fun before sound => ?_
  cases stored : before.txn.tables.edges[(before.plane, id)]? with
  | none =>
    refine .read (getEdge_absent stored) ?_
    refine (@onTxn_does base _ _ (fun plane => setEdgeType plane id ty) _ _ setEdgeType_runs).mono
      ?_ ?_
    · rintro _ _ ⟨txn, rfl, row, named, number, found, -⟩ -
      exact nomatch stored.symm.trans found
    · rintro _ ⟨txn, rfl, grows⟩ -
      exact drift_still rfl (@Grows.census _ _ before.world grows sound) rfl
  | some row =>
    obtain ⟨old, named, read⟩ := sound.tables.getEdge stored
    -- Written, the edge has moved from one type to the other; counted first, it must be written.
    have retypes : ∀ counters : CounterDelta, counters.census =
        before.counters.census + (Census.ofEdge ty - Census.ofEdge old) →
        Does { before with counters := counters }
          (onTxn fun plane => setEdgeType plane id ty : WriteM base _)
          (fun _ after => after.txn.tables.Roomy → after.drift = before.drift)
          (fun after => after.txn.tables.Roomy → after.drift = before.drift) := by
      intro counters counted
      refine (@onTxn_does base _ _ (fun plane => setEdgeType plane id ty) _ _
        (setEdgeType_runs.and setEdgeType_fails)).mono ?_ ?_
      · rintro _ _ ⟨txn, rfl, ⟨row', names, number, found, grows, known, written⟩, -⟩ -
        obtain rfl := Option.some.inj (stored.symm.trans found)
        have inverse := (@World.Sound.grows before.world _ sound grows).tables.exact.dict .edgeType
        have found' : names.edges[(before.plane, id)]? = some row := by
          rw [grows.edges_eq]
          exact stored
        have named' : (names.dictNames .edgeType)[row.ty]? = some old :=
          sound.named (grows.changes : Changes 0 before.world _) named
        have whole : txn.tables.census before.plane = before.txn.tables.census before.plane +
            (Census.ofEdge ty - Census.ofEdge old) := by
          have grown : names.census before.plane = before.txn.tables.census before.plane :=
            @Grows.census _ before.plane before.world grows sound
          rw [written, census_retype inverse known, edgeCensus_found found' named', grown]
          abel
        exact drift_eq rfl whole counted
      · rintro _ ⟨txn, rfl, -, absent | full⟩ roomy
        · exact nomatch stored.symm.trans absent
        · exact absurd roomy.2 full
    refine .read read ?_
    dsimp only
    split
    · refine Does.modify.bind ?_
      rintro _ _ rfl
      refine retypes _ (CounterDelta.census_retyped.trans ?_)
      abel
    · rename_i same
      obtain rfl := not_not.mp same
      exact retypes before.counters (by simp)

/-! ### Bulk loads -/

theorem setProps_balanced {id : NodeId} {props : List (String × PropDesc)} :
    Balanced (setProps id props : WriteM base Unit) := by
  induction props with
  | nil => exact .pure
  | cons prop props ih => exact .bind setProp_balanced fun _ => ih

theorem mergeKept_balanced {nodes : List BulkNode} {existing : List (ℕ × NodeId)} :
    Balanced (mergeKept nodes existing : WriteM base Unit) := by
  induction existing with
  | nil => exact .pure
  | cons kept existing ih =>
    obtain ⟨position, id⟩ := kept
    rw [mergeKept]
    split
    · refine .bind setProps_balanced fun _ => ?_
      split
      · exact ih
      · exact .bind setLabels_balanced fun _ => ih
    · exact ih

/-- What a load adds: the nodes it made and its edges. -/
def loadedCensus (nodes : List BulkNode) (edges : List BulkEdge) (stats : BulkStats) : Census :=
  ((madeLines nodes stats).map fun line => Census.ofNode line.2.labels).sum +
    (edges.map fun edge => Census.ofEdge edge.ty).sum

theorem BulkLoads.census {world : World} {onConflict : OnConflict} {nodes : List BulkNode}
    {edges : List BulkEdge} {result : BulkStats × List EdgeId} (sound : world.Sound)
    (loads : BulkLoads plane onConflict nodes edges world.tables result after) :
    after.census plane = world.tables.census plane + loadedCensus nodes edges result.1 := by
  obtain ⟨nodeStart, edgeStart, nodesNamed, named, staged, batches, foundNode, grewNodes, foundEdge,
    grewEdges, stagesNodes, stagesEdges, rfl, rfl⟩ := loads
  have chain : Changes plane world _ := (reservedNodes_changes foundNode grewNodes).trans
    (reservedEdges_changes foundEdge grewEdges)
  have grows : Grows world.tables named :=
    (Grows.reserved ⟨foundNode, rfl⟩).trans
      (grewNodes.trans ((Grows.reserved ⟨foundEdge, rfl⟩).trans grewEdges))
  have sound' := sound.changes chain
  have exact := sound'.tables.exact
  obtain ⟨rows, staging⟩ := stagesNodes.staging Staging.empty
  rw [Nat.zero_add] at staging
  have made := (stagesNodes.lines Lines.empty rfl).made
  rw [List.nil_append, staging.holds.nodes, List.forall₂_map_left_iff] at made
  have absent : ∀ row ∈ rows, named.nodes[(plane, row.1)]? = none := fun row member =>
    getElem?_eq_none (sound'.tables.fresh (.inr (staging.ids row member)) plane)
  have fresh : ∀ row ∈ batches, named.edges[(plane, row.1)]? = none := by
    intro row member
    refine getElem?_eq_none (sound'.tables.freshEdge (.inr ?_) plane)
    have inside : row.1 ∈ batches.map Prod.fst := List.mem_map_of_mem member
    rw [stagesEdges.ids, List.mem_range'_1] at inside
    exact ⟨by omega, by omega⟩
  have records := @insertNodes_eq named plane rows
  rw [staging.holds.applyAll staging.keysApart, applyAll_bulkEdgeWrites,
    stagesEdges.census (by rw [records]) (by rw [records]) (exact.dict .edgeType)
      (by rw [records]; exact fresh),
    census_insertNodes rfl rfl (exact.dict .label) staging.nodup absent made, grows.census sound,
    add_assoc]
  rfl

theorem CounterDelta.census_nodesAdded {lines : List (NodeId × BulkNode)} :
    (lines.foldl (fun delta line => delta.nodeAdded line.2.labels) delta).census =
      delta.census + (lines.map fun line => Census.ofNode line.2.labels).sum := by
  induction lines generalizing delta with
  | nil => simp
  | cons line lines ih =>
    rw [List.foldl_cons, ih, census_nodeAdded, List.map_cons, List.sum_cons, add_assoc]

theorem CounterDelta.census_edgesAdded {edges : List BulkEdge} :
    ((edges.map BulkEdge.ty).foldl CounterDelta.edgeAdded delta).census =
      delta.census + (edges.map fun edge => Census.ofEdge edge.ty).sum := by
  induction edges generalizing delta with
  | nil => simp
  | cons edge edges ih =>
    rw [List.map_cons, List.foldl_cons, ih, census_edgeAdded, List.map_cons, List.sum_cons,
      add_assoc]

theorem Does.and {one two : α → WriteTxn base → Prop} {failed' : WriteTxn base → Prop}
    (does : Does before run one failed) (does' : Does before run two failed') :
    Does before run (fun result write => one result write ∧ two result write)
      (fun write => failed write ∧ failed' write) := by
  rw [Does] at *
  cases ran : run before with
  | ok result write =>
    rw [ran] at does does'
    exact ⟨does, does'⟩
  | error error write =>
    rw [ran] at does does'
    exact ⟨does, does'⟩

theorem bulkUpsert_balanced {nodes : List BulkNode} {edges : List BulkEdge}
    {onConflict : OnConflict} : Balanced (bulkUpsert nodes edges onConflict : WriteM base _) := by
  refine bulkUpsert_keeps.balanced fun before sound => ?_
  refine ((onTxn_does bulkLoadIds_runs).mono (fun _ _ loaded => loaded) ?_).bind ?_
  · rintro _ ⟨txn, rfl, grows⟩ -
    exact drift_still rfl (@Grows.census _ _ before.world grows sound) rfl
  rintro ⟨stats, edgeIds⟩ _ ⟨txn, rfl, loads⟩
  refine Does.modify.bind ?_
  rintro _ loaded same
  have further : loaded.world.Sound := same ▸ sound.changes (loads.changes sound)
  have plane : loaded.plane = before.plane := same ▸ rfl
  have lands : Lands loaded.plane nodes stats before.txn.tables loaded.txn.tables :=
    same ▸ @BulkLoads.lands _ _ before.world _ _ _ _ sound loads
  have drift : loaded.drift = before.drift + loadedCensus nodes edges stats := by
    have census := @BulkLoads.census _ _ before.world _ _ _ _ sound loads
    subst same
    show txn.tables.census before.plane - before.counters.census = _
    rw [census]
    exact add_sub_right_comm _ _ _
  -- What a merge that has gone through, or none at all, leaves to be counted.
  have rest : ∀ merged : WriteTxn base, (merged.txn.tables.Roomy → merged.drift = loaded.drift) →
      merged.txn.tables.Roomy →
        { merged with
          counters := (edges.map BulkEdge.ty).foldl CounterDelta.edgeAdded
            ((madeLines nodes stats).foldl
              (fun delta (line : NodeId × BulkNode) => delta.nodeAdded line.2.labels) merged.counters)
          events := merged.events ++
            bulkEvents PropValue.asVector merged.decls (madeLines nodes stats)
          kwEvents := merged.kwEvents ++
            bulkEvents PropValue.asText merged.kwDecls (madeLines nodes stats) }.drift =
          before.drift := by
    intro merged merges roomy
    have counted : merged.drift = before.drift + loadedCensus nodes edges stats :=
      (merges roomy).trans drift
    rw [WriteTxn.drift] at counted ⊢
    rw [CounterDelta.census_edgesAdded, CounterDelta.census_nodesAdded, add_assoc, ← sub_sub]
    exact (congrArg (· - loadedCensus nodes edges stats) counted).trans (add_sub_cancel_right _ _)
  split
  · refine (((mergeKept_settles loaded).and (mergeKept_balanced loaded)).mono
      (fun _ _ held => held.2) ?_).bind ?_
    · rintro merged ⟨⟨-, failed⟩, -⟩ roomy
      -- The nodes to merge into are there, so only the label dictionary can have failed.
      exact absurd roomy.1 (failed further fun id member => lands.stays id (lands.kept id member))
    · rintro _ merged balances
      refine Does.modify.bind ?_
      rintro _ _ rfl
      exact rest merged (balances.drift further)
  · refine Does.modify.bind ?_
    rintro _ _ rfl
    exact rest loaded fun _ => rfl

/-! ### Every method -/

theorem WriteOp.balanced (op : WriteOp) : Balanced (op.call : WriteM base _) := by
  cases op with
  | createNode | createNodeWithKey => exact createNodeAs_balanced.discard
  | createEdge => exact createEdge_balanced.discard
  | bulkUpsert => exact bulkUpsert_balanced.discard
  | deleteNode => exact deleteNodeTxn_balanced
  | deleteEdge => exact deleteEdgeTxn_balanced
  | setProp => exact setProp_balanced
  | removeProp => exact removeProp_balanced
  | setLabels => exact setLabels_balanced
  | setEdgeProp | removeEdgeProp => exact updateEdgeProps_balanced
  | setEdgeType => exact setEdgeTypeTxn_balanced

theorem WriteOp.balances (op : WriteOp) : before.Balances (op.after before) :=
  WriteOp.after_does (op.balanced before)

/-- A transaction has counted what it has changed. -/
theorem WriteTxn.afterAll_balances {ops : List WriteOp} : before.Balances (before.afterAll ops) := by
  induction ops generalizing before with
  | nil => exact .refl
  | cons op ops ih => exact op.balances.trans ih

end DrStrange.Graph
