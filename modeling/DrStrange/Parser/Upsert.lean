/-
**What a `MERGE` finds and makes.**

A node of a `MERGE` is bound, staged, committed or new (`Upserted`), and an edge is staged, committed
or new. What is there stays there (`Stays`), and no other node or edge is made.
-/

import DrStrange.Parser.Reached

namespace DrStrange.Parser

open Std DrStrange.Graph DrStrange.Compute Lib

variable {base tables : Tables} {plane : PlaneId} {params : Params} {id src dst : NodeId}
  {before after start : Running base} {write next : WriteTxn base} {props : Properties}
  {node : CreateNode} {ty : String}

/-! ### What stays -/

/-- Every key of the plane and every edge of a type. -/
structure Stays (plane : PlaneId) (tables after : Tables) : Prop where
  keys : ∀ key id, nodeIdByExternalKey tables plane key = some id →
    nodeIdByExternalKey after plane key = some id
  joins : ∀ ty edge src dst, Tables.Joins tables plane (some ty) edge src dst →
    Tables.Joins after plane (some ty) edge src dst

theorem Stays.refl : Stays plane tables tables :=
  ⟨fun _ _ found => found, fun _ _ _ _ joins => joins⟩

theorem Stays.trans {first second third : Tables} (one : Stays plane first second)
    (two : Stays plane second third) : Stays plane first third :=
  ⟨fun key id found => two.keys key id (one.keys key id found),
    fun ty edge src dst joins => two.joins ty edge src dst (one.joins ty edge src dst joins)⟩

/-- Edges stay under names that keep their numbers. -/
theorem Stays.of_grows {named after : Tables} (grows : Graph.Grows tables named)
    (dictIds : after.dictIds = named.dictIds)
    (keys : ∀ key id, nodeIdByExternalKey tables plane key = some id →
      nodeIdByExternalKey after plane key = some id)
    (edges : ∀ (edge : EdgeId) (row : EdgeRow), tables.edges[(plane, edge)]? = some row →
      after.edges[(plane, edge)]? = some row) : Stays plane tables after where
  keys := keys
  joins ty edge src dst joins := by
    obtain ⟨row, found, from', to', typed⟩ := joins
    refine ⟨row, edges edge row found, from', to', fun name same => ?_⟩
    rw [lookupEdgeType, dictIds]
    exact grows.known (typed name same)

theorem createNodeWithKey_stays {key : String} {labels : List String} (sound : write.world.Sound)
    (ran : createNodeWithKey key labels props write = .ok id next) :
    Stays write.plane write.txn.tables next.txn.tables ∧
      nodeIdByExternalKey next.txn.tables write.plane key = some id := by
  obtain ⟨-, -, -, free, named, numbers, grows, written⟩ := (createNodeAs_writes sound).returns ran
  rw [applyAll_nodeWrites] at written
  have keys : next.txn.tables.extKeys = named.extKeys.write (write.plane, key) (some id) := by
    rw [written]
    rfl
  have unclaimed : nodeIdByExternalKey write.txn.tables write.plane key = none := by
    simpa [takenKey] using free
  constructor
  · refine .of_grows grows (by rw [written]) (fun other own found => ?_) fun edge row found => ?_
    · have apart : key ≠ other := by
        rintro rfl
        rw [unclaimed] at found
        cases found
      rw [nodeIdByExternalKey, keys, ExtTreeMap.getElem?_write, if_neg (by simpa using apart),
        grows.records]
      exact found
    · rw [written]
      show named.edges[(write.plane, edge)]? = some row
      rw [grows.edges_eq, found]
  · rw [nodeIdByExternalKey, keys, ExtTreeMap.getElem?_write, if_pos rfl]

theorem createEdge_stays (sound : write.world.Sound) (recorded : write.world.Recorded)
    (ran : createEdge src dst ty props write = .ok id next) :
    Stays write.plane write.txn.tables next.txn.tables ∧
      Tables.Joins next.txn.tables write.plane (some ty) id src dst := by
  obtain ⟨-, -, fresh, -, -, named, number, grows, known, written⟩ :=
    (createEdge_writes sound).returns ran
  rw [applyAll_edgeWrites] at written
  have edges : next.txn.tables.edges =
      named.edges.write (write.plane, id) (some ⟨src, dst, number, props⟩) := by
    rw [written]
  have dictIds : next.txn.tables.dictIds = named.dictIds := by
    rw [written]
  constructor
  · refine .of_grows grows dictIds (fun key own found => ?_) fun edge row found => ?_
    · rw [written]
      show named.extKeys[(write.plane, key)]? = some own
      rw [grows.records]
      exact found
    · have apart : id ≠ edge := by
        rintro rfl
        exact fresh (recorded.edges write.plane id
          (ExtTreeMap.mem_iff_isSome_getElem?.mpr (Option.isSome_of_eq_some found)))
      rw [edges, ExtTreeMap.getElem?_write, if_neg (by simpa using apart), grows.edges_eq, found]
  · refine ⟨⟨src, dst, number, props⟩, ?_, rfl, rfl, fun name same => ?_⟩
    · rw [edges, ExtTreeMap.getElem?_write, if_pos rfl]
    · obtain rfl := Option.some.inj same
      rw [lookupEdgeType, dictIds, known]

/-! ### Nodes -/

/-- The variable of a node bound to an id. -/
def Running.binding (running : Running base) (var : Option String) (id : NodeId) : Running base :=
  { running with vars := var.elim running.vars fun var => running.vars.insert var id }

/-- A key noted, and the labels of its node. -/
def Running.noting (running : Running base) (key : String) (id : NodeId) (labels : List String) :
    Running base :=
  { running with staged := { running.staged with
      keyed := running.staged.keyed.insert key id
      labels := orInsert running.staged.labels id labels } }

/-- A node counted as made. -/
def Running.made (running : Running base) (write : WriteTxn base) : Running base :=
  { running with
    write := write
    staged := { running.staged with summary := { running.staged.summary with
      nodesCreated := running.staged.summary.nodesCreated + 1 } } }

/-- Where the node of a `MERGE` comes from. -/
inductive Upserted (plane : PlaneId) (node : CreateNode) (before : Running base) :
    NodeId → Bool → Running base → Prop where
  | bound {id : NodeId} (known : node.var.bind (before.vars[·]?) = some id) :
      Upserted plane node before id false before
  | keyed {id : NodeId} {key : String} (unbound : node.var.bind (before.vars[·]?) = none)
      (literal : literalKey node = some key) (known : before.staged.keyed[key]? = some id) :
      Upserted plane node before id false (before.binding node.var id)
  | found {found : NodeRecord} {key : String} (unbound : node.var.bind (before.vars[·]?) = none)
      (literal : literalKey node = some key) (unknown : before.staged.keyed[key]? = none)
      (read : getNodeByExternalKey base plane key = .ok (some found)) :
      Upserted plane node before found.id false
        ((before.noting key found.id found.labels).binding node.var found.id)
  | created {id : NodeId} {key : String} {props : Properties} {write : WriteTxn base}
      (unbound : node.var.bind (before.vars[·]?) = none) (literal : literalKey node = some key)
      (unknown : before.staged.keyed[key]? = none)
      (made : createNodeWithKey key node.label.toList props before.write = .ok id write) :
      Upserted plane node before id true
        (((before.made write).noting key id node.label.toList).binding node.var id)

theorem upsertMergeNode_ok {created : Bool}
    (ran : upsertMergeNode plane params node before = .ok (id, created) after) :
    Upserted plane node before id created after := by
  obtain ⟨found, _, read, rest⟩ := run_bind_ok.mp ran
  obtain ⟨rfl, rfl⟩ := boundVar_ok.mp read
  cases bound : node.var.bind (before.vars[·]?) with
  | some own =>
    rw [bound] at rest
    obtain ⟨same, rfl⟩ := run_pure_ok.mp rest
    obtain ⟨rfl, rfl⟩ := Prod.mk.inj same
    exact .bound bound
  | none =>
    rw [bound] at rest
    dsimp only at rest
    cases literal : literalKey node with
    | none =>
      rw [literal] at rest
      exact absurd rest throw_ne_ok
    | some key =>
      rw [literal] at rest
      obtain ⟨staged, _, read, rest⟩ := run_bind_ok.mp rest
      obtain ⟨rfl, rfl⟩ := stagedNow_ok.mp read
      cases known : before.staged.keyed[key]? with
      | some own =>
        rw [known] at rest
        obtain ⟨⟨⟩, _, named, last⟩ := run_bind_ok.mp rest
        obtain ⟨same, rfl⟩ := run_pure_ok.mp last
        obtain ⟨rfl, rfl⟩ := Prod.mk.inj same
        obtain rfl := modify_ok.mp named
        exact .keyed bound literal known
      | none =>
        rw [known] at rest
        obtain ⟨⟨own, created'⟩, middle, resolved, rest⟩ := run_bind_ok.mp rest
        obtain ⟨⟨⟩, _, noted, rest⟩ := run_bind_ok.mp rest
        obtain ⟨⟨⟩, _, named, last⟩ := run_bind_ok.mp rest
        obtain ⟨same, rfl⟩ := run_pure_ok.mp last
        obtain ⟨rfl, rfl⟩ := Prod.mk.inj same
        obtain rfl := modify_ok.mp named
        obtain rfl := modify_ok.mp noted
        obtain ⟨stored, _, read, resolved⟩ := run_bind_ok.mp resolved
        obtain ⟨stored, rfl⟩ := committed_ok.mp read
        cases stored' : ‹Option NodeRecord› with
        | some found =>
          subst stored'
          obtain ⟨⟨⟩, _, labelled, last⟩ := run_bind_ok.mp resolved
          obtain ⟨same, rfl⟩ := run_pure_ok.mp last
          obtain ⟨rfl, rfl⟩ := Prod.mk.inj same
          obtain rfl := modify_ok.mp labelled
          exact .found bound literal known stored
        | none =>
          subst stored'
          obtain ⟨fresh, _, made, resolved⟩ := run_bind_ok.mp resolved
          obtain ⟨⟨⟩, _, labelled, last⟩ := run_bind_ok.mp resolved
          obtain ⟨same, rfl⟩ := run_pure_ok.mp last
          obtain ⟨rfl, rfl⟩ := Prod.mk.inj same
          obtain rfl := modify_ok.mp labelled
          obtain ⟨props, write, called, rfl⟩ := createKeyed_run made
          exact .created bound literal known called

/-- A node that is there is found. -/
theorem Upserted.runs (upserted : Upserted plane node before id false after) :
    upsertMergeNode plane params node before = .ok (id, false) after := by
  cases upserted with
  | bound known =>
    refine run_bind_ok.mpr ⟨_, _, boundVar_ok.mpr ⟨rfl, rfl⟩, ?_⟩
    rw [known]
    rfl
  | keyed unbound literal known =>
    refine run_bind_ok.mpr ⟨_, _, boundVar_ok.mpr ⟨rfl, rfl⟩, ?_⟩
    rw [unbound]
    dsimp only
    rw [literal]
    refine run_bind_ok.mpr ⟨_, _, stagedNow_ok.mpr ⟨rfl, rfl⟩, ?_⟩
    rw [known]
    rfl
  | found unbound literal unknown read =>
    refine run_bind_ok.mpr ⟨_, _, boundVar_ok.mpr ⟨rfl, rfl⟩, ?_⟩
    rw [unbound]
    dsimp only
    rw [literal]
    refine run_bind_ok.mpr ⟨_, _, stagedNow_ok.mpr ⟨rfl, rfl⟩, ?_⟩
    rw [unknown]
    have resolved : findOrCreate plane params node _ before = _ :=
      run_bind_ok.mpr ⟨_, _, committed_ok.mpr ⟨read, rfl⟩, rfl⟩
    exact run_bind_ok.mpr ⟨_, _, resolved, rfl⟩

/-! ### Edges -/

/-- A node has a neighbour along an edge of the type. -/
theorem neighbors_joins (exact : Exact tables) :
    (∃ n ∈ neighbors tables plane src .out (some ty), n.node = dst) ↔
      ∃ edge, Tables.Joins tables plane (some ty) edge src dst := by
  simp only [neighbors_eq, Dir.sides, List.flatMap_singleton]
  constructor
  · rintro ⟨n, member, rfl⟩
    exact ⟨n.edge, (mem_sideHops exact).mp member⟩
  · rintro ⟨edge, joins⟩
    exact ⟨⟨dst, edge⟩, (mem_sideHops exact).mpr joins, rfl⟩

/-- An edge that is there is found. -/
theorem ensureEdge_runs {prev cur : NodeId} {rel : CreateRel}
    (found : ∃ n ∈ neighbors base plane (rel.ends prev cur).1 .out (some rel.ty),
      n.node = (rel.ends prev cur).2) :
    ensureEdge plane params prev cur rel before = .ok () before := by
  refine run_bind_ok.mpr ⟨_, _, stagedNow_ok.mpr ⟨rfl, rfl⟩, ?_⟩
  have any : ((neighbors base plane (rel.ends prev cur).1 .out (some rel.ty)).any
      fun n => n.node = (rel.ends prev cur).2) = true := by simpa using found
  show (if ((rel.ends prev cur).1, (rel.ends prev cur).2, rel.ty) ∈ before.staged.edges then pure ()
    else if (neighbors base plane (rel.ends prev cur).1 .out (some rel.ty)).any
      fun n => n.node = (rel.ends prev cur).2 then pure ()
    else addEdge params (rel.ends prev cur).1 (rel.ends prev cur).2 rel : RunM base Unit) before = _
  rw [if_pos any, ite_self]
  rfl

end DrStrange.Parser
