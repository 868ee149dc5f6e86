/-
**Edges at the nodes of the match.**

Before it deletes, a statement gives the nodes of its match an edge in two ways: a `CREATE` whose path
has the matched variable at one end of a hop, and a `MERGE`, which starts from the matched node and
leaves an edge there if it finds none. No other clause does (`runOps_touched`).
-/

import DrStrange.Parser.Deletion
import DrStrange.Parser.Matched

namespace DrStrange.Parser

open Std DrStrange.Graph DrStrange.Compute Lib

variable {base : Tables} {α : Type} {plane : PlaneId} {params : Params}
  {id prev src dst cur : NodeId} {ids : List NodeId} {before after : Running base}
  {nodes : List NodeId} {edges : List EdgeId} {deleted : ℕ} {bound : String} {result : NodeId}
  {rel : CreateRel} {node : CreateNode} {edge : EdgeId}

/-! ### Edges at nodes -/

/-- An edge of a grown statement was there or is new. -/
theorem Running.EdgeAt.old (grew : before.Grew after nodes edges deleted)
    (edgeAt : after.EdgeAt ids edge) : before.EdgeAt ids edge ∨ edge ∈ edges := by
  obtain ⟨row, found, ends⟩ := edgeAt
  have held : after.write.record (.edge, edge) ≠ none := by
    rw [found]
    nofun
  rcases (grew.write.held _).mp held with old | new
  · obtain ⟨row', found'⟩ := Option.ne_none_iff_exists'.mp old
    have same := grew.write.kept edge row' found'
    rw [found, Option.some.injEq] at same
    exact .inl ⟨row, same ▸ found', ends⟩
  · exact .inr (by simpa [entities] using new)

theorem Running.EdgeAt.grew (edgeAt : before.EdgeAt ids edge)
    (grew : before.Grew after nodes edges deleted) : after.EdgeAt ids edge := by
  obtain ⟨row, found, ends⟩ := edgeAt
  exact ⟨row, grew.write.kept edge _ found, ends⟩

/-- Some edge stands at one of the nodes. -/
def Running.Touched (running : Running base) (ids : List NodeId) : Prop :=
  ∃ edge, running.EdgeAt ids edge

theorem Running.Touched.grew (touched : before.Touched ids)
    (grew : before.Grew after nodes edges deleted) : after.Touched ids := by
  obtain ⟨edge, edgeAt⟩ := touched
  exact ⟨edge, edgeAt.grew grew⟩

theorem Running.Joined.touched (joined : before.Joined src dst) (ends : src ∈ ids ∨ dst ∈ ids) :
    before.Touched ids := by
  obtain ⟨edge, row, found, rfl, rfl⟩ := joined
  exact ⟨edge, row, found, ends⟩

/-- Either end of a hop is an end of its edge. -/
theorem CreateRel.mem_ends :
    ((rel.ends prev cur).1 ∈ ids ∨ (rel.ends prev cur).2 ∈ ids) ↔ prev ∈ ids ∨ cur ∈ ids := by
  rw [CreateRel.ends]
  split_ifs
  · exact or_comm
  · exact Iff.rfl

/-- An edge added stands at the nodes just in case one of its ends does, if none did before. -/
theorem addEdge_touched (valid : before.Valid)
    (ran : addEdge params src dst rel before = .ok () after) :
    after.Touched ids ↔ before.Touched ids ∨ src ∈ ids ∨ dst ∈ ids := by
  obtain ⟨⟨edge, grew⟩, joined⟩ := addEdge_grew valid ran
  constructor
  · rintro ⟨other, edgeAt⟩
    rcases edgeAt.old grew with old | new
    · exact .inl ⟨other, old⟩
    · obtain rfl := List.mem_singleton.mp new
      obtain ⟨props, own, write, called, rfl⟩ := addEdge_run ran
      obtain ⟨row, found, rfl, rfl⟩ := createEdge_joins valid.sound called
      obtain ⟨row', found', ends⟩ := edgeAt
      have made := grew.write.madeEdges
      have made' := ((createEdge_writes valid.sound).returns called).1
      obtain rfl : own = other := by simpa [made'] using made
      obtain rfl : row = row' := by
        rw [show write.record (.edge, own) = _ from found'] at found
        simpa using found.symm
      exact .inr ends
  · rintro (old | ends)
    · exact old.grew grew
    · exact joined.touched ends

/-! ### Variables -/

/-- The variable of a match is the only one at a matched node, and is at one. -/
structure Running.Anchored (running : Running base) (bound : String) (ids : List NodeId) : Prop where
  anchor : ∃ id ∈ ids, running.vars[bound]? = some id
  apart : ∀ var id, running.vars[var]? = some id → id ∈ ids → var = bound

theorem createFresh_vars (ran : getOrCreate.createFresh params node before = .ok id after) :
    after.vars = before.vars := by
  obtain ⟨key, props, write, keyed, called, rfl⟩ := createFresh_run ran
  rfl

/-- A node of a `CREATE` is a matched node just in case it has the variable of the match. -/
theorem getOrCreate_anchored (valid : before.Valid) (anchored : before.Anchored bound ids)
    (made : before.Made ids) (ran : getOrCreate params node before = .ok result after) :
    (result ∈ ids ↔ node.var = some bound) ∧ after.Anchored bound ids ∧
      ∃ nodes, before.Grew after nodes [] 0 := by
  obtain ⟨found, _, read, rest⟩ := run_bind_ok.mp ran
  obtain ⟨rfl, rfl⟩ := boundVar_ok.mp read
  obtain ⟨anchor, held, stands⟩ := anchored.anchor
  cases known : node.var.bind (before.vars[·]?) with
  | some own =>
    rw [known] at rest
    obtain ⟨rfl, rfl⟩ := run_pure_ok.mp rest
    obtain ⟨var, named, inside⟩ := Option.bind_eq_some_iff.mp known
    refine ⟨⟨fun member => ?_, fun same => ?_⟩, anchored, [], Running.Same.refl.grew⟩
    · rw [named, anchored.apart var own inside member]
    · obtain rfl : var = bound := Option.some.inj (named.symm.trans same)
      rwa [Option.some.inj (inside.symm.trans stands)]
  | none =>
    rw [known] at rest
    obtain ⟨own, middle, fresh, rest⟩ := run_bind_ok.mp rest
    obtain ⟨⟨⟩, _, named, last⟩ := run_bind_ok.mp rest
    obtain ⟨rfl, rfl⟩ := run_pure_ok.mp last
    obtain rfl := modify_ok.mp named
    have grew := createFresh_grew valid fresh
    have outside : own ∉ ids := fun member =>
      grew.fresh valid (made own member) (List.mem_singleton_self own)
    have vars := createFresh_vars fresh
    have other : node.var ≠ some bound := by
      intro same
      rw [same, Option.bind_some, stands] at known
      cases known
    refine ⟨⟨fun member => absurd member outside, fun same => absurd same other⟩, ⟨?_, ?_⟩,
      [own], ⟨grew.write, grew.nodesCreated, grew.edgesCreated, grew.nodesDeleted,
        grew.edgesDeleted, grew.staged⟩⟩
    · refine ⟨anchor, held, ?_⟩
      cases var : node.var with
      | none => simpa [var, vars] using stands
      | some own' =>
        have apart : own' ≠ bound := fun same => other (var.trans (congrArg some same))
        simpa [var, vars, ExtTreeMap.getElem?_insert, apart] using stands
    · intro var id inside member
      cases named : node.var with
      | none =>
        rw [named] at inside
        exact anchored.apart var id (by simpa [vars] using inside) member
      | some own' =>
        rw [named] at inside
        simp only [Option.elim_some, vars, ExtTreeMap.getElem?_insert] at inside
        split_ifs at inside
        · exact absurd (Option.some.inj inside ▸ member) outside
        · exact anchored.apart var id inside member

/-! ### Paths -/

/-- The step keeps the variable of the match at its node, and where no edge stood at the matched nodes
it leaves one just in case of `here`. -/
def Attaches (run : RunM base Unit) (bound : String) (ids : List NodeId) (here : Prop) : Prop :=
  ∀ ⦃before after : Running base⦄, before.Valid → before.Made ids → before.Anchored bound ids →
    run before = .ok () after →
      (after.Touched ids ↔ before.Touched ids ∨ here) ∧ after.Anchored bound ids

theorem createHops_attaches {rest : List (CreateRel × CreateNode)} :
    Attaches (createHops params prev rest : RunM base _) bound ids
      (rest ≠ [] ∧ (prev ∈ ids ∨ ∃ hop ∈ rest, hop.2.var = some bound)) := by
  intro before after valid made anchored ran
  induction rest generalizing before prev with
  | nil =>
    obtain ⟨-, rfl⟩ := run_pure_ok.mp ran
    exact ⟨by simp, anchored⟩
  | cons hop rest ih =>
    obtain ⟨cur, middle, node, further⟩ := run_bind_ok.mp ran
    obtain ⟨⟨⟩, joined, edge, further⟩ := run_bind_ok.mp further
    obtain ⟨member, anchored', nodes, grew⟩ := getOrCreate_anchored valid anchored made node
    have valid' := valid.grew grew
    have touched' : _ ↔ middle.Touched ids ∨ (hop.1.ends prev cur).1 ∈ ids ∨
        (hop.1.ends prev cur).2 ∈ ids := addEdge_touched valid' edge
    obtain ⟨own, grew'⟩ := (addEdge_grew valid' edge).1
    obtain ⟨props, _, write, -, rfl⟩ := addEdge_run edge
    have old : middle.Touched ids ↔ before.Touched ids := by
      constructor
      · rintro ⟨edge, edgeAt⟩
        exact ⟨edge, (edgeAt.old grew).resolve_right List.not_mem_nil⟩
      · exact fun touched => touched.grew grew
    obtain ⟨touched, last⟩ := ih (valid'.grew grew') ((made.grew grew).grew grew')
      ⟨anchored'.anchor, anchored'.apart⟩ further
    refine ⟨?_, last⟩
    rw [touched, touched', CreateRel.mem_ends, old, member]
    simp only [List.exists_mem_cons_iff, ne_eq, reduceCtorEq, not_false_eq_true, true_and]
    -- a later hop can only touch the matched nodes through its own nodes
    have later : (∃ hop ∈ rest, hop.2.var = some bound) → rest ≠ [] := by
      rintro ⟨_, inside, -⟩ rfl
      exact List.not_mem_nil inside
    generalize (∃ hop ∈ rest, hop.2.var = some bound) = among at later ⊢
    clear * - later
    tauto

/-- The path has a hop, and the variable at one of its nodes. -/
def CreatePath.attaches (bound : String) (path : CreatePath) : Bool :=
  path.rest ≠ [] && path.nodes.any fun node => node.var = some bound

theorem createPath_attaches {path : CreatePath} :
    Attaches (createPath params path : RunM base _) bound ids (path.attaches bound = true) := by
  intro before after valid made anchored ran
  obtain ⟨first, middle, node, rest⟩ := run_bind_ok.mp ran
  obtain ⟨member, anchored', nodes, grew⟩ := getOrCreate_anchored valid anchored made node
  obtain ⟨touched, last⟩ := createHops_attaches (valid.grew grew) (made.grew grew) anchored' rest
  have old : middle.Touched ids ↔ before.Touched ids := by
    constructor
    · rintro ⟨edge, edgeAt⟩
      exact ⟨edge, (edgeAt.old grew).resolve_right List.not_mem_nil⟩
    · exact fun touched => touched.grew grew
  refine ⟨?_, last⟩
  rw [touched, old, member]
  simp [CreatePath.attaches, CreatePath.nodes]

theorem Attaches.forM {run : α → RunM base Unit} {here : α → Prop} {xs : List α}
    (grows : ∀ x, Grows (run x)) (each : ∀ x, Attaches (run x) bound ids (here x)) :
    Attaches (xs.forM run) bound ids (∃ x ∈ xs, here x) := by
  intro before after valid made anchored ran
  induction xs generalizing before with
  | nil =>
    obtain ⟨-, rfl⟩ := run_pure_ok.mp ran
    exact ⟨by simp, anchored⟩
  | cons x xs ih =>
    obtain ⟨⟨⟩, middle, first, rest⟩ := run_bind_ok.mp ran
    obtain ⟨nodes, edges, grew⟩ := grows x valid first
    obtain ⟨touched, anchored'⟩ := each x valid made anchored first
    obtain ⟨touched', last⟩ := ih (valid.grew grew) (made.grew grew) anchored' rest
    refine ⟨?_, last⟩
    rw [touched', touched, List.exists_mem_cons_iff, or_assoc]

theorem row_anchored {write : WriteTxn base} {staged : Staged} (member : id ∈ ids) :
    Running.Anchored ⟨write, staged, (∅ : ExtTreeMap String NodeId compare).insert bound id⟩ bound
      ids where
  anchor := ⟨id, member, ExtTreeMap.getElem?_insert_self⟩
  apart var other found _ := by
    by_contra apart
    have apart' : bound ≠ var := fun same => apart same.symm
    simp [apart'] at found

/-- A row binds the variable of the match to its node, so what the rows leave does not depend on
variables bound before. -/
theorem perRow_touched {clause : RunM base Unit} {here : Prop} (grows : Grows clause)
    (attaches : ∀ id ∈ ids, Attaches clause bound ids here) {rows : List NodeId} (subset : rows ⊆ ids)
    (valid : before.Valid) (made : before.Made ids)
    (ran : perRow (some bound) rows clause before = .ok () after) :
    after.Touched ids ↔ before.Touched ids ∨ rows ≠ [] ∧ here := by
  induction rows generalizing before with
  | nil =>
    obtain ⟨-, rfl⟩ := run_pure_ok.mp ran
    simp
  | cons id rows ih =>
    obtain ⟨⟨⟩, middle, first, rest⟩ := run_bind_ok.mp ran
    obtain ⟨⟨⟩, start, bind, first⟩ := run_bind_ok.mp first
    obtain rfl := modify_ok.mp bind
    have inside := subset List.mem_cons_self
    have valid' : Running.Valid ⟨before.write, before.staged,
        (∅ : ExtTreeMap String NodeId compare).insert bound id⟩ := ⟨valid.sound, valid.recorded⟩
    have made' : Running.Made ⟨before.write, before.staged,
        (∅ : ExtTreeMap String NodeId compare).insert bound id⟩ ids := made
    obtain ⟨nodes, edges, grew⟩ := grows valid' first
    obtain ⟨touched, -⟩ := attaches id inside valid' made' (row_anchored inside) first
    have touched' := ih (fun _ member => subset (List.mem_cons_of_mem _ member))
      (valid'.grew grew) (made'.grew grew) rest
    rw [touched', touched]
    show (before.Touched ids ∨ _) ∨ _ ↔ _
    simp only [ne_eq, reduceCtorEq, not_false_eq_true, true_and]
    tauto

/-! ### Merges -/

/-- What the statement looks up is there: the edges it has staged, and those of the committed plane.
-/
structure Running.Recalls (running : Running base) (plane : PlaneId) : Prop where
  staged : ∀ triple ∈ running.staged.edges, running.Joined triple.1 triple.2.1
  committed : ∀ edge row, base.edges[(plane, edge)]? = some row →
    running.write.record (.edge, edge) = some (.inr row)

theorem Running.Recalls.grew (recalls : before.Recalls plane)
    (grew : before.Grew after nodes edges deleted) : after.Recalls plane where
  staged triple member := by
    rcases grew.staged triple member with old | new
    · exact (recalls.staged triple old).grew grew.write
    · exact new
  committed edge row found := grew.write.kept edge _ (recalls.committed edge row found)

/-- After a hop of a `MERGE` an edge leads from node to node. -/
theorem ensureEdge_joined (exact : Exact base) (valid : before.Valid)
    (recalls : before.Recalls plane)
    (ran : ensureEdge plane params prev cur rel before = .ok () after) :
    after.Joined (rel.ends prev cur).1 (rel.ends prev cur).2 := by
  rcases ensureEdge_ok ran with ⟨known, rfl⟩ | ⟨⟨n, member, far⟩, rfl⟩ | ⟨-, added⟩
  · exact recalls.staged _ known
  · rw [neighbors_eq, Dir.sides, List.flatMap_singleton] at member
    obtain ⟨row, there, src, dst, -⟩ := (mem_sideHops exact).mp member
    exact ⟨n.edge, row, recalls.committed _ _ there, src, dst.trans far⟩
  · exact (addEdge_grew valid added).2

/-- A `MERGE` from a matched node leaves an edge there. -/
theorem mergePath_touched {clause : MergeClause} (exact : Exact base) (valid : before.Valid)
    (recalls : before.Recalls plane) (anchor : before.vars[bound]? = some id) (member : id ∈ ids)
    (first : clause.path.first.var = some bound) (hops : clause.path.rest ≠ [])
    (ran : mergePath plane params clause before = .ok () after) : after.Touched ids := by
  obtain ⟨⟨start, created⟩, middle, upserted, ran⟩ := run_bind_ok.mp ran
  obtain ⟨found, _, read, upserted⟩ := run_bind_ok.mp upserted
  obtain ⟨rfl, rfl⟩ := boundVar_ok.mp read
  rw [first, Option.bind_some, anchor] at upserted
  obtain ⟨same, rfl⟩ := run_pure_ok.mp upserted
  obtain ⟨rfl, rfl⟩ := Prod.mk.inj same
  obtain ⟨⟨⟩, set, onMatch, ran⟩ := run_bind_ok.mp ran
  have quiet := Quiet.forM (fun item _ => Quiet.applySet) valid onMatch
  cases rest : clause.path.rest with
  | nil => exact absurd rest hops
  | cons hop rest =>
    rw [rest] at ran
    obtain ⟨⟨cur, created⟩, further, node, ran⟩ := run_bind_ok.mp ran
    obtain ⟨nodes, edges, grew⟩ := Grows.upsertMergeNode (valid.grew quiet) node
    obtain ⟨⟨⟩, joined, edge, ran⟩ := run_bind_ok.mp ran
    have valid' := (valid.grew quiet).grew grew
    have recalls' := (recalls.grew quiet).grew grew
    obtain ⟨nodes', edges', grew'⟩ := Grows.ensureEdge valid' edge
    obtain ⟨nodes'', edges'', grew''⟩ := Grows.mergeHops (valid'.grew grew') ran
    have ends : (hop.1.ends id cur).1 ∈ ids ∨ (hop.1.ends id cur).2 ∈ ids :=
      CreateRel.mem_ends.mpr (.inl member)
    exact ((ensureEdge_joined exact valid' recalls' edge).touched ends).grew grew''

/-! ### Operations -/

/-- The operation gives the nodes of a match an edge if they have none. -/
def WriteOp.attaches (bound : String) : WriteOp → Bool
  | .create paths => paths.any (CreatePath.attaches bound)
  | .merge _ => true
  | .set _ | .remove _ | .delete .. => false

theorem Quiet.touched {run : RunM base Unit} (quiet : Quiet run) (valid : before.Valid)
    (ran : run before = .ok () after) : after.Touched ids ↔ before.Touched ids := by
  have grew := quiet valid ran
  constructor
  · rintro ⟨edge, edgeAt⟩
    exact ⟨edge, (edgeAt.old grew).resolve_right List.not_mem_nil⟩
  · exact fun touched => touched.grew grew

theorem runOp_touched {op : WriteOp} (exact : Exact base) (valid : before.Valid)
    (made : before.Made ids) (recalls : before.Recalls plane) (some : ids ≠ [])
    (checked : validateAfterMatch bound op = .ok ()) (adds : op.isDelete = false)
    (ran : runOp plane params (Option.some bound) ids op before = .ok () after) :
    after.Touched ids ↔ before.Touched ids ∨ op.attaches bound = true := by
  cases op with
  | create paths =>
    have touched := perRow_touched (Grows.forM fun _ _ => Grows.createPath)
      (fun _ _ => .forM (fun _ => .createPath) fun _ => createPath_attaches) (List.Subset.refl ids)
      valid made ran
    rw [touched]
    simp [WriteOp.attaches, some]
  | merge clause =>
    refine iff_of_true ?_ (.inr rfl)
    obtain ⟨first, hops⟩ : clause.path.first.var = Option.some bound ∧ clause.path.rest ≠ [] := by
      rw [validateAfterMatch, validateMergeAfterMatch] at checked
      split_ifs at checked with other alone
      exact ⟨not_not.mp other, alone⟩
    cases ids with
    | nil => exact absurd rfl some
    | cons id rows =>
      obtain ⟨⟨⟩, middle, one, rest⟩ := run_bind_ok.mp ran
      obtain ⟨⟨⟩, start, bind, one⟩ := run_bind_ok.mp one
      obtain rfl := modify_ok.mp bind
      have valid' : Running.Valid ⟨before.write, before.staged,
          (∅ : ExtTreeMap String NodeId compare).insert bound id⟩ :=
        ⟨valid.sound, valid.recorded⟩
      have recalls' : Running.Recalls ⟨before.write, before.staged,
          (∅ : ExtTreeMap String NodeId compare).insert bound id⟩ plane :=
        ⟨recalls.staged, recalls.committed⟩
      obtain ⟨nodes, edges, grew⟩ := Grows.mergePath valid' one
      have touched := mergePath_touched exact valid' recalls' ExtTreeMap.getElem?_insert_self
        (List.mem_cons_self (l := rows)) first hops one
      have rows' : perRow (Option.some bound) rows (mergePath plane params clause) middle =
        .ok () after := rest
      obtain ⟨nodes', edges', grew'⟩ := Grows.perRow Grows.mergePath (valid'.grew grew) rows'
      exact touched.grew grew'
  | set items =>
    rw [(Quiet.forM fun _ _ => Quiet.forM fun _ _ => Quiet.applySet).touched valid ran]
    simp [WriteOp.attaches]
  | remove items =>
    rw [(Quiet.forM fun _ _ => Quiet.forM fun _ _ => Quiet.applyRemove).touched valid ran]
    simp [WriteOp.attaches]
  | delete detach vars => cases adds

/-- **What clauses before a delete leave at the nodes of the match.** -/
theorem runOps_touched {ops : List WriteOp} (exact : Exact base) (valid : before.Valid)
    (made : before.Made ids) (recalls : before.Recalls plane) (some : ids ≠ [])
    (checked : ∀ op ∈ ops, validateAfterMatch bound op = .ok ())
    (adds : ∀ op ∈ ops, op.isDelete = false)
    (ran : ops.forM (runOp plane params (Option.some bound) ids) before = .ok () after) :
    after.Touched ids ↔ before.Touched ids ∨ ∃ op ∈ ops, op.attaches bound = true := by
  induction ops generalizing before with
  | nil =>
    obtain ⟨-, rfl⟩ := run_pure_ok.mp ran
    simp
  | cons op ops ih =>
    obtain ⟨checkedOp, checked⟩ := List.forall_mem_cons.mp checked
    obtain ⟨addsOp, adds⟩ := List.forall_mem_cons.mp adds
    obtain ⟨⟨⟩, middle, first, rest⟩ := run_bind_ok.mp ran
    obtain ⟨nodes, edges, grew⟩ := runOp_grows addsOp valid first
    rw [ih (valid.grew grew) (made.grew grew) (recalls.grew grew) checked adds rest,
      runOp_touched exact valid made recalls some checkedOp addsOp first, List.exists_mem_cons_iff,
      or_assoc]

end DrStrange.Parser
