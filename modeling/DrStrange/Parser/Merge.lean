/-
**A `MERGE` is done once.**

The run of a `MERGE` keeps a log of what it makes (`Logged`): each node is under a key, and no two
edges have the same source, target and type. A second run on what the first one left goes along with
it step by step (`Echoes`), and finds every node and every edge (`merge_idempotent`).
-/

import DrStrange.Compute.Groups
import DrStrange.Parser.Upsert

namespace DrStrange.Parser

open Std DrStrange.Graph DrStrange.Compute Lib

variable {base done tables : Tables} {plane : PlaneId} {params : Params} {id prev : NodeId}
  {before after start : Running base} {nodes : List NodeId}
  {log : List (EdgeId × NodeId × NodeId × String)} {free freeEdges : Set ℕ} {key : String}
  {node : CreateNode} {created : Bool}

/-! ### The log of a run -/

/-- What a run has made since it started: nodes with keys, and edges, each from its source to its
target by its type. -/
structure Logged (plane : PlaneId) (start now : Running base) (nodes : List NodeId)
    (log : List (EdgeId × NodeId × NodeId × String)) : Prop where
  place : now.write.plane = plane
  grew : start.Grew now nodes (log.map Prod.fst) 0
  staged : now.staged.edges = (log.map Prod.snd).reverse
  once : (log.map Prod.snd).Nodup
  joins : ∀ edge src dst ty, (edge, src, dst, ty) ∈ log →
    Tables.Joins now.write.txn.tables plane (some ty) edge src dst
  keys : ∀ id ∈ nodes, ∃ key, nodeIdByExternalKey now.write.txn.tables plane key = some id
  stays : Stays plane base now.write.txn.tables

/-- A step that makes nothing keeps the log. -/
theorem Logged.same (logged : Logged plane start before nodes log) (same : before.Same after) :
    Logged plane start after nodes log where
  place := same.write ▸ logged.place
  grew := by simpa using logged.grew.trans same.grew
  staged := same.edges.trans logged.staged
  once := logged.once
  joins := same.write ▸ logged.joins
  keys := same.write ▸ logged.keys
  stays := same.write ▸ logged.stays

theorem Upserted.logged (valid : before.Valid) (logged : Logged plane start before nodes log)
    (upserted : Upserted plane node before id created after) :
    Stays plane before.write.txn.tables after.write.txn.tables ∧
      ∃ nodes', Logged plane start after nodes' log := by
  cases upserted with
  | bound known => exact ⟨.refl, nodes, logged⟩
  | keyed unbound literal known =>
    exact ⟨.refl, nodes, logged.same ⟨rfl, rfl, rfl, rfl, rfl, rfl⟩⟩
  | found unbound literal unknown read =>
    exact ⟨.refl, nodes, logged.same ⟨rfl, rfl, rfl, rfl, rfl, rfl⟩⟩
  | @created id key props write unbound literal unknown made =>
    obtain ⟨stays, known⟩ := createNodeWithKey_stays valid.sound made
    have grew : before.Grew (before.made write) [id] [] 0 :=
      ⟨createNodeAs_grew valid.sound made, rfl, rfl, rfl, rfl, fun _ member => .inl member⟩
    rw [logged.place] at stays known
    have kept : Logged plane start (before.made write) (nodes ++ [id]) log := by
      refine ⟨grew.write.follows.plane.trans logged.place, by simpa using logged.grew.trans grew,
        logged.staged, logged.once, fun edge src dst ty member => ?_, fun own member => ?_,
        logged.stays.trans stays⟩
      · exact stays.joins ty edge src dst (logged.joins edge src dst ty member)
      · rcases List.mem_append.mp member with old | new
        · obtain ⟨key, found⟩ := logged.keys own old
          exact ⟨key, stays.keys key own found⟩
        · obtain rfl := List.mem_singleton.mp new
          exact ⟨key, known⟩
    exact ⟨stays, _, kept.same ⟨rfl, rfl, rfl, rfl, rfl, rfl⟩⟩

/-- After the hop there is an edge, and if it is new it is the first of its kind. -/
theorem ensureEdge_logged {cur : NodeId} {rel : CreateRel} (exact : Exact base)
    (valid : before.Valid) (logged : Logged plane start before nodes log)
    (ran : ensureEdge plane params prev cur rel before = .ok () after) :
    Stays plane before.write.txn.tables after.write.txn.tables ∧
      (∃ edge, Tables.Joins after.write.txn.tables plane (some rel.ty) edge (rel.ends prev cur).1
        (rel.ends prev cur).2) ∧
      after.vars = before.vars ∧ after.staged.keyed = before.staged.keyed ∧
      ∃ log', Logged plane start after nodes log' := by
  rcases ensureEdge_ok ran with ⟨known, rfl⟩ | ⟨found, rfl⟩ | ⟨unstaged, added⟩
  · rw [logged.staged, List.mem_reverse] at known
    obtain ⟨⟨edge, src, dst, ty⟩, member, same⟩ := List.mem_map.mp known
    have joins := logged.joins edge src dst ty member
    obtain ⟨rfl, rfl, rfl⟩ : src = _ ∧ dst = _ ∧ ty = _ := by simpa using same
    exact ⟨.refl, ⟨edge, joins⟩, rfl, rfl, log, logged⟩
  · obtain ⟨edge, joins⟩ := (neighbors_joins exact).mp found
    exact ⟨.refl, ⟨edge, logged.stays.joins _ edge _ _ joins⟩, rfl, rfl, log, logged⟩
  · generalize rel.ends prev cur = ends at unstaged added ⊢
    obtain ⟨src, dst⟩ := ends
    obtain ⟨⟨own, grew⟩, -⟩ := addEdge_grew valid added
    obtain ⟨props, edge, write, called, rfl⟩ := addEdge_run added
    obtain ⟨stays, joins⟩ := createEdge_stays valid.sound valid.recorded called
    obtain rfl : own = edge := by
      have made := grew.write.madeEdges
      rw [((createEdge_writes valid.sound).returns called).1] at made
      simpa using made.symm
    rw [logged.place] at stays joins
    refine ⟨stays, ⟨own, joins⟩, rfl, rfl, log ++ [(own, src, dst, rel.ty)],
      grew.write.follows.plane.trans logged.place, ?_, ?_, ?_, ?_, ?_, logged.stays.trans stays⟩
    · simpa using logged.grew.trans grew
    · simp [logged.staged]
    · rw [logged.staged, List.mem_reverse] at unstaged
      rw [List.map_append, List.nodup_append']
      exact ⟨logged.once, List.nodup_singleton _, by simpa using unstaged⟩
    · intro edge src' dst' ty member
      rcases List.mem_append.mp member with old | new
      · exact stays.joins ty edge src' dst' (logged.joins edge src' dst' ty old)
      · obtain ⟨rfl, rfl, rfl, rfl⟩ : edge = own ∧ src' = src ∧ dst' = dst ∧ ty = rel.ty := by
          simpa using new
        exact joins
    · intro own' member
      obtain ⟨key, found⟩ := logged.keys own' member
      exact ⟨key, stays.keys key own' found⟩

/-! ### The second run -/

/-- The second run has the variables and the keys of the first, and has made nothing. -/
structure Echoes (write : WriteTxn done) (first : Running base) (second : Running done) : Prop where
  write : second.write = write
  vars : second.vars = first.vars
  keyed : second.staged.keyed = first.staged.keyed
  edges : second.staged.edges = []
  summary : second.staged.summary = {}

/-- A key read back. -/
theorem getNodeByExternalKey_found (sound : Sound free freeEdges done)
    (known : nodeIdByExternalKey done plane key = some id) :
    ∃ found, getNodeByExternalKey done plane key = .ok (some found) ∧ found.id = id := by
  obtain ⟨row, stored, -⟩ := (sound.exact.extKeys plane key id).mp known
  rw [getNodeByExternalKey, known]
  exact ⟨_, sound.getNode stored, rfl⟩

theorem getNodeByExternalKey_known {found : NodeRecord}
    (read : getNodeByExternalKey tables plane key = .ok (some found)) :
    nodeIdByExternalKey tables plane key = some found.id := by
  rw [getNodeByExternalKey] at read
  cases known : nodeIdByExternalKey tables plane key with
  | none => simp [known] at read
  | some id =>
    rw [known] at read
    simp only [getNode] at read
    split at read
    · cases read
    · obtain ⟨labels, -, same⟩ := bind_eq_ok.mp read
      rw [← Option.some.inj (Except.ok.inj same)]

section Second

variable {write : WriteTxn done} {second : Running done}

theorem Echoes.binding (echoes : Echoes write before second) (var : Option String) :
    Echoes write (before.binding var id) (second.binding var id) := by
  refine ⟨echoes.write, ?_, echoes.keyed, echoes.edges, echoes.summary⟩
  rw [Running.binding, Running.binding, echoes.vars]

theorem Echoes.noting {labels labels' : List String} (echoes : Echoes write before second) :
    Echoes write (before.noting key id labels) (second.noting key id labels') := by
  refine ⟨echoes.write, echoes.vars, ?_, echoes.edges, echoes.summary⟩
  rw [Running.noting, Running.noting, echoes.keyed]

/-- The node of the first run is found by the second. -/
theorem Upserted.echoes (valid : before.Valid) (place : before.write.plane = plane)
    (upserted : Upserted plane node before id created after) (sound : Sound free freeEdges done)
    (committed : Stays plane base done) (stays : Stays plane after.write.txn.tables done)
    (echoes : Echoes write before second) :
    ∃ second', Upserted plane node second id false second' ∧ Echoes write after second' := by
  cases upserted with
  | bound known => exact ⟨second, .bound (echoes.vars ▸ known), echoes⟩
  | keyed unbound literal known =>
    exact ⟨_, .keyed (echoes.vars ▸ unbound) literal (echoes.keyed ▸ known), echoes.binding _⟩
  | found unbound literal unknown read =>
    have known := committed.keys _ _ (getNodeByExternalKey_known read)
    obtain ⟨found, read', same⟩ := getNodeByExternalKey_found sound known
    rw [← same]
    exact ⟨_, .found (echoes.vars ▸ unbound) literal (echoes.keyed ▸ unknown) read',
      echoes.noting.binding _⟩
  | @created id key props own unbound literal unknown made =>
    have known := (createNodeWithKey_stays valid.sound made).2
    rw [place] at known
    obtain ⟨found, read', rfl⟩ := getNodeByExternalKey_found sound (stays.keys _ _ known)
    refine ⟨_, .found (echoes.vars ▸ unbound) literal (echoes.keyed ▸ unknown) read', ?_⟩
    have same : Echoes write (before.made own) second :=
      ⟨echoes.write, echoes.vars, echoes.keyed, echoes.edges, echoes.summary⟩
    exact same.noting.binding _

/-- The second run takes the path of the first, and makes nothing. -/
theorem mergeHops_echoes {rest : List (CreateRel × CreateNode)} (exact : Exact base)
    (valid : before.Valid) (logged : Logged plane start before nodes log)
    (ran : mergeHops plane params prev rest before = .ok () after) :
    (∃ nodes' log', Logged plane start after nodes' log') ∧
      Stays plane before.write.txn.tables after.write.txn.tables ∧
      (Sound free freeEdges done → Stays plane after.write.txn.tables done →
        ∀ second, Echoes write before second →
          ∃ second', mergeHops plane params prev rest second = .ok () second' ∧
            Echoes write after second') := by
  induction rest generalizing before prev nodes log with
  | nil =>
    obtain ⟨-, rfl⟩ := run_pure_ok.mp ran
    exact ⟨⟨nodes, log, logged⟩, .refl, fun _ _ second echoes => ⟨second, rfl, echoes⟩⟩
  | cons hop rest ih =>
    obtain ⟨⟨cur, created⟩, middle, node, ran⟩ := run_bind_ok.mp ran
    obtain ⟨⟨⟩, joined, edge, ran⟩ := run_bind_ok.mp ran
    have upserted := upsertMergeNode_ok node
    obtain ⟨stays, nodes', logged'⟩ := upserted.logged valid logged
    have valid' : middle.Valid :=
      let ⟨_, _, grew⟩ := Grows.upsertMergeNode valid node
      valid.grew grew
    obtain ⟨stays', ⟨own, joins⟩, vars, keyed, log', logged''⟩ :=
      ensureEdge_logged exact valid' logged' edge
    have valid'' : joined.Valid :=
      let ⟨_, _, grew⟩ := Grows.ensureEdge valid' edge
      valid'.grew grew
    obtain ⟨logs, stays'', further⟩ := ih valid'' logged'' ran
    refine ⟨logs, (stays.trans stays').trans stays'', fun sound last second echoes => ?_⟩
    have later := stays''.trans last
    obtain ⟨again, found, echoes'⟩ := upserted.echoes valid logged.place sound
      (logged.stays.trans ((stays.trans stays').trans later)) (stays'.trans later) echoes
    have echoes'' : Echoes write joined again :=
      ⟨echoes'.write, echoes'.vars.trans vars.symm, echoes'.keyed.trans keyed.symm, echoes'.edges,
        echoes'.summary⟩
    obtain ⟨end', ran', echoed⟩ := further sound last again echoes''
    refine ⟨end', ?_, echoed⟩
    have there := (neighbors_joins sound.exact).mpr ⟨own, later.joins _ own _ _ joins⟩
    exact run_bind_ok.mpr ⟨_, _, found.runs, run_bind_ok.mpr ⟨⟨⟩, _, ensureEdge_runs there, ran'⟩⟩

theorem mergePath_echoes {path : CreatePath} (exact : Exact base) (valid : before.Valid)
    (logged : Logged plane start before nodes log)
    (ran : mergePath plane params ⟨path, [], []⟩ before = .ok () after) :
    (∃ nodes' log', Logged plane start after nodes' log') ∧
      (Sound free freeEdges done → Stays plane after.write.txn.tables done →
        ∀ second, Echoes write before second →
          ∃ second', mergePath plane params ⟨path, [], []⟩ second = .ok () second' ∧
            Echoes write after second') := by
  obtain ⟨⟨first, created⟩, middle, node, ran⟩ := run_bind_ok.mp ran
  obtain ⟨⟨⟩, unset, set, ran⟩ := run_bind_ok.mp ran
  obtain rfl : middle = unset := by
    rw [ite_self] at set
    exact (run_pure_ok.mp set).2
  have upserted := upsertMergeNode_ok node
  obtain ⟨stays, nodes', logged'⟩ := upserted.logged valid logged
  have valid' : middle.Valid :=
    let ⟨_, _, grew⟩ := Grows.upsertMergeNode valid node
    valid.grew grew
  obtain ⟨logs, stays', further⟩ := mergeHops_echoes exact valid' logged' ran
  refine ⟨logs, fun sound last second echoes => ?_⟩
  have later := stays'.trans last
  obtain ⟨again, found, echoes'⟩ := upserted.echoes valid logged.place sound
    (logged.stays.trans (stays.trans later)) later echoes
  obtain ⟨end', ran', echoed⟩ := further sound last again echoes'
  exact ⟨end', run_bind_ok.mpr ⟨_, _, found.runs, run_bind_ok.mpr ⟨⟨⟩, again, rfl, ran'⟩⟩, echoed⟩

end Second

/-! ### Statements -/

section Statement

variable {host : Host} {machine : Machine} {searches : Searches} {db db' : Database} {millis : ℤ}
  {stmt : WriteStatement} {summary : WriteSummary} {debug : PropValue → String} {path : CreatePath}

/-- `MERGE` of a path, without `ON CREATE` or `ON MATCH`. -/
def mergeStatement (path : CreatePath) : WriteAst := ⟨none, [.merge ⟨path, [], []⟩]⟩

theorem compileWrite_merge (compiled : compileWrite params debug (mergeStatement path) = .ok stmt) :
    ∃ path', stmt = ⟨none, [.merge ⟨path', [], []⟩], false, params⟩ := by
  obtain ⟨ops, resolved, rest⟩ := bind_eq_ok.mp compiled
  obtain ⟨path', rfl⟩ : ∃ path', ops = [.merge ⟨path', [], []⟩] := by
    obtain ⟨op, tail, first, none, rfl⟩ := List.forall₂_cons_left_iff.mp (mapM_eq_ok.mp resolved)
    obtain rfl := List.forall₂_nil_left_iff.mp none
    obtain ⟨path', -, same⟩ := bind_eq_ok.mp first
    obtain rfl := Except.ok.inj same
    exact ⟨path', rfl⟩
  obtain ⟨binding, bound, same⟩ := bind_eq_ok.mp rest
  obtain rfl := Except.ok.inj same
  obtain ⟨⟨⟩, -, same⟩ := bind_eq_ok.mp bound
  obtain rfl := Except.ok.inj same
  exact ⟨path', rfl⟩

/-- The run of the one clause. -/
theorem mergeStatement_run :
    [WriteOp.merge ⟨path, [], []⟩].forM (runOp plane params none []) before = .ok () after ↔
      mergePath plane params ⟨path, [], []⟩ { before with vars := ∅ } = .ok () after := by
  constructor
  · intro ran
    obtain ⟨⟨⟩, middle, one, rest⟩ := run_bind_ok.mp ran
    obtain ⟨-, rfl⟩ := run_pure_ok.mp rest
    obtain ⟨⟨⟩, _, reset, one⟩ := run_bind_ok.mp one
    obtain rfl := modify_ok.mp reset
    exact one
  · intro ran
    refine run_bind_ok.mpr ⟨⟨⟩, after, ?_, rfl⟩
    exact run_bind_ok.mpr ⟨⟨⟩, _, modify_ok.mpr rfl, ran⟩

/-- A transaction that has written nothing commits its time and nothing else. -/
theorem commit_begun :
    db.commit host (db.beginTxn host plane) millis =
      .ok { db with tables := db.tables.stamped millis } := by
  obtain ⟨seq, txn, sealed, tables⟩ := sealCommit_eq (db.beginTxn host plane) millis
  rw [Database.commit, sealed]
  have same : (db.beginTxn host plane).sealed millis = db.tables.stamped millis := by
    rw [WriteTxn.sealed, WriteTxn.folded, if_pos (by rfl)]
    rfl
  rw [← tables] at same
  simp only [same]
  rfl

/-- What a commit leaves of the graph stays. -/
theorem Stays.of_sameGraph {after : Tables} (same : tables.SameGraph after) :
    Stays plane tables after := by
  rw [same]
  exact ⟨fun _ _ found => found, fun _ _ _ _ joins => joins⟩

/-- A `MERGE` that is applied: what it has made is committed, and the same `MERGE` of what it left
makes nothing. -/
theorem mergeStatement_applied (sound : db.Sound)
    (applied : WriteStatement.apply ⟨none, [.merge ⟨path, [], []⟩], false, params⟩ host machine
      searches db plane millis = .ok (summary, db')) :
    ∃ (start last : Running db.tables) (nodes : List NodeId)
      (log : List (EdgeId × NodeId × NodeId × String)),
      Logged plane start last nodes log ∧ start.write = db.beginTxn host plane ∧
      last.write.txn.tables.SameGraph db'.tables ∧ db'.madeNodes = last.write.madeNodes ∧
      db'.madeEdges = last.write.madeEdges ∧
      ∃ again : Running db'.tables, mergePath plane params ⟨path, [], []⟩
          ⟨db'.beginTxn host plane, {}, ∅⟩ = .ok () again ∧
        again.write = db'.beginTxn host plane ∧ again.staged.summary = {} := by
  have sound' := apply_sound sound applied
  obtain ⟨ids, labels, last, found, preloaded, ran, rfl, committed⟩ := WriteStatement.apply_ok applied
  obtain rfl := Except.ok.inj found
  obtain rfl := Except.ok.inj preloaded
  have merged := mergeStatement_run.mp ran
  have same : last.write.txn.tables.SameGraph db'.tables := by
    rw [commit_ok committed]
    exact last.write.sealed_sameGraph millis
  have begun : Logged plane ⟨db.beginTxn host plane, {}, ∅⟩ ⟨db.beginTxn host plane, {}, ∅⟩ [] [] :=
    ⟨rfl, Running.Same.refl.grew, rfl, List.nodup_nil, nofun, nofun, .refl⟩
  obtain ⟨⟨nodes, log, logged⟩, follows⟩ :=
    mergePath_echoes sound.world.tables.exact (start_valid sound) begun merged
  obtain ⟨again, ran', echoed⟩ := follows sound'.world.tables (.of_sameGraph same)
    ⟨db'.beginTxn host plane, {}, ∅⟩ ⟨rfl, rfl, rfl, rfl, rfl⟩
  refine ⟨_, last, nodes, log, logged, rfl, same, ?_, ?_, again, ran', echoed.write, echoed.summary⟩
  · rw [commit_ok committed]
  · rw [commit_ok committed]

/-- **`MERGE` is idempotent.** A second application changes nothing but the commit's number and time
and reports nothing, and the first makes one node for each key and one edge for each source, target
and type. -/
theorem merge_idempotent {searches : Tables → PlaneId → Searches}
    (reached : Reached host machine searches db)
    (compiled : compileWrite params debug (mergeStatement path) = .ok stmt)
    (applied : stmt.apply host machine (searches db.tables plane) db plane millis =
      .ok (summary, db')) :
    (∀ later, stmt.apply host machine (searches db'.tables plane) db' plane later =
      .ok ({}, { db' with tables := db'.tables.stamped later })) ∧
    (∀ id ∈ nodesMade db db', ∃ key row, db'.tables.nodes[(plane, id)]? = some row ∧
      row.externalKey = some key ∧ ∀ id' ∈ nodesMade db db', ∀ row',
        db'.tables.nodes[(plane, id')]? = some row' → row'.externalKey = some key → id' = id) ∧
    ∀ edge ∈ edgesMade db db', ∃ src dst ty, Tables.Joins db'.tables plane (some ty) edge src dst ∧
      ∀ edge' ∈ edgesMade db db', Tables.Joins db'.tables plane (some ty) edge' src dst →
        edge' = edge := by
  have sound := reached.sound
  obtain ⟨path, rfl⟩ := compileWrite_merge compiled
  have exact : Exact db'.tables := (apply_sound sound applied).world.tables.exact
  obtain ⟨start, last, nodes, log, logged, begun, same, madeNodes, madeEdges, again, ran, untouched,
    uncounted⟩ := mergeStatement_applied sound applied
  have stays : Stays plane last.write.txn.tables db'.tables := .of_sameGraph same
  refine ⟨fun later => ?_, fun id member => ?_, fun edge member => ?_⟩
  · have ran' : [WriteOp.merge ⟨path, [], []⟩].forM (runOp plane params none [])
        ⟨db'.beginTxn host plane, {}, ∅⟩ = .ok () again := mergeStatement_run.mpr ran
    rw [← uncounted]
    exact WriteStatement.apply_of_run rfl rfl ran' (untouched ▸ commit_begun)
  · have inside : id ∈ nodes := by
      rw [nodesMade, madeNodes, logged.grew.write.madeNodes, begun] at member
      simpa [Database.beginTxn, WriteTxn.begin] using member
    obtain ⟨key, found⟩ := logged.keys id inside
    have known := stays.keys key id found
    obtain ⟨row, stored, keyed⟩ := (exact.extKeys plane key id).mp known
    refine ⟨key, row, stored, keyed, fun id' _ row' stored' keyed' => ?_⟩
    have known' := (exact.extKeys plane key id').mpr ⟨row', stored', keyed'⟩
    exact Option.some.inj (known'.symm.trans known)
  · have inside : ∀ edge ∈ edgesMade db db', ∃ src dst ty, (edge, src, dst, ty) ∈ log := by
      intro edge member
      rw [edgesMade, madeEdges, logged.grew.write.madeEdges, begun] at member
      simpa [Database.beginTxn, WriteTxn.begin] using member
    obtain ⟨src, dst, ty, logged'⟩ := inside edge member
    have joins := stays.joins ty edge src dst (logged.joins edge src dst ty logged')
    refine ⟨src, dst, ty, joins, fun edge' member' joins' => ?_⟩
    obtain ⟨src', dst', ty', logged''⟩ := inside edge' member'
    have joins'' := stays.joins ty' edge' src' dst' (logged.joins edge' src' dst' ty' logged'')
    obtain ⟨row, stored, rfl, rfl, typed⟩ := joins'
    obtain ⟨row', stored', rfl, rfl, typed'⟩ := joins''
    obtain rfl := Option.some.inj (stored.symm.trans stored')
    have named : ty = ty' := by
      have one := (exact.dict .edgeType ty row.ty).mp (typed ty rfl)
      have two := (exact.dict .edgeType ty' row.ty).mp (typed' ty' rfl)
      exact Option.some.inj (one.symm.trans two)
    subst named
    exact congrArg Prod.fst (List.inj_on_of_nodup_map logged.once logged'' logged' rfl)

end Statement

/-- `MERGE (a:A {key: "a"})-[:T]->(b {key: "b"})<-[:T]-(a)-[:T]->({key: "a"})`. -/
def mergedTwice : CreatePath where
  first := ⟨some "a", some "A", some (.lit (.str "a")), []⟩
  rest := [(⟨.out, "T", []⟩, ⟨some "b", none, some (.lit (.str "b")), []⟩),
    (⟨.in, "T", []⟩, ⟨some "a", none, none, []⟩),
    (⟨.out, "T", []⟩, ⟨none, none, some (.lit (.str "a")), []⟩)]

/-- Two nodes and two edges, one of them a loop, and a second time nothing. -/
theorem merge_idempotent_of_loop : ∃ (stmt : WriteStatement) (db' : Database),
    stmt.apply plainHost .scalar (noSearches (Database.new plainHost 0).tables 0)
        (Database.new plainHost 0) 0 1 = .ok ({ nodesCreated := 2, edgesCreated := 2 }, db') ∧
      stmt.apply plainHost .scalar (noSearches db'.tables 0) db' 0 2 =
        .ok ({}, { db' with tables := db'.tables.stamped 2 }) := by
  have ran : (compileWrite ∅ (fun _ => "") (mergeStatement mergedTwice)).toOption.bind (fun stmt =>
      ((stmt.apply plainHost .scalar (noSearches (Database.new plainHost 0).tables 0)
        (Database.new plainHost 0) 0 1).toOption.map Prod.fst)) =
      some { nodesCreated := 2, edgesCreated := 2 } := by decide +kernel
  cases compiled : compileWrite ∅ (fun _ => "") (mergeStatement mergedTwice) with
  | error message => simp [compiled, Except.toOption] at ran
  | ok stmt =>
    cases applied : stmt.apply plainHost .scalar (noSearches (Database.new plainHost 0).tables 0)
        (Database.new plainHost 0) 0 1 with
    | error message => simp [compiled, applied, Except.toOption] at ran
    | ok result =>
      obtain ⟨summary, db'⟩ := result
      simp only [compiled, applied, Except.toOption, Option.bind_some, Option.map_some,
        Option.some.injEq] at ran
      subst ran
      exact ⟨stmt, db', applied, (merge_idempotent (.new 0) compiled applied).1 2⟩

end DrStrange.Parser
