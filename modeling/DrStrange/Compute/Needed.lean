/-
**The bindings that a plan names are enough.**

An expression reads the current node, the row's score and hops, and of the row's path what its
bindings name: a node of the pattern, the edge of a hop, or the edge the row arrived on. A plan's
need covers all that its expressions read (`LogicalPlan.Evaluates.covers`), so the values are those
of a row with its whole path loaded (`needed_suffices`).
-/

import DrStrange.Compute.Row
import DrStrange.Lib.Fallible

namespace DrStrange.Compute

open Std DrStrange.Graph Lib

/-! ### What an expression reads -/

/-- What an expression reads of the path of a row. -/
inductive Reading where
  | node (slot : ℕ)
  | edge (hop : ℕ)
  | lastEdge
  deriving DecidableEq, Repr

/-- The readings of an expression. Under an edge binding the row's last edge is out of reach. -/
def Expr.reads (inEdgeSwap : Bool) : Expr → List Reading
  | .at (.node slot) inner => .node slot :: inner.reads inEdgeSwap
  | .at (.edge hop) inner => .edge hop :: inner.reads true
  | .edgeType | .edgeDir | .edgeProperty _ => if inEdgeSwap then [] else [.lastEdge]
  | .isNull inner | .not inner => inner.reads inEdgeSwap
  | .compare _ lhs rhs | .logic _ lhs rhs | .arith _ lhs rhs | .stringMatch _ lhs rhs
  | .in lhs rhs => lhs.reads inEdgeSwap ++ rhs.reads inEdgeSwap
  | .property _ | .literal _ | .hasLabel _ | .nodeId | .externalKey | .score | .hops | .distance ..
  | .similarity .. => []

/-- Two rows' bindings are the same at a reading. -/
def Bindings.Agree (bound full : Bindings) : Reading → Prop
  | .node slot => bound.node slot = full.node slot
  | .edge hop => bound.edgeAt hop = full.edgeAt hop
  | .lastEdge => bound.edge = full.edge

variable {reading : Reading} {expr : Expr} {need : BindingNeed} {inEdgeSwap : Bool}
  {bound full : Bindings} {hop : ℕ}

/-- Under a binding of an edge on which they agree, bindings agree on that edge and as before. -/
theorem Bindings.Agree.rebind (here : bound.Agree full (.edge hop))
    (agree : reading ≠ .lastEdge → bound.Agree full reading) :
    Bindings.Agree { bound with edge := bound.edgeAt hop }
    { full with edge := full.edgeAt hop } reading := by
  cases reading with
  | node slot => exact agree nofun
  | edge other => exact agree nofun
  | lastEdge => exact here

/-- The value of an expression is decided by the row and what the expression reads of its bindings. -/
theorem eval_congr {machine : Machine} {node : Option NodeRecord} {score : Option UInt32}
    {hops : UInt32} (agree : ∀ reading ∈ expr.reads inEdgeSwap, bound.Agree full reading)
    (swapped : inEdgeSwap = true → bound.edge = full.edge) :
    eval machine ⟨node, score, hops, bound⟩ expr = eval machine ⟨node, score, hops, full⟩ expr := by
  induction expr generalizing inEdgeSwap node bound full with
  | property | literal | hasLabel | nodeId | externalKey | score | hops | distance | similarity =>
    simp only [eval, EvalCtx.vectorProp]
  | «at» binding inner ih =>
    cases binding with
    | node slot =>
      obtain ⟨here, agree⟩ := List.forall_mem_cons.mp agree
      have same : bound.node slot = full.node slot := here
      simp only [eval, same]
      exact ih agree swapped
    | edge hop =>
      obtain ⟨here, agree⟩ := List.forall_mem_cons.mp agree
      simp only [eval]
      exact ih (fun reading member => here.rebind fun _ => agree reading member) fun _ => here
  | edgeType | edgeDir | edgeProperty =>
    have same : bound.edge = full.edge := by
      cases inEdgeSwap with
      | false => exact agree .lastEdge (List.mem_singleton_self _)
      | true => exact swapped rfl
    simp only [eval, same]
  | isNull inner ih | not inner ih =>
    simp only [eval, ih agree swapped]
  | compare op lhs rhs left right | arith op lhs rhs left right | stringMatch op lhs rhs left right
  | «in» lhs rhs left right =>
    obtain ⟨agreeL, agreeR⟩ := List.forall_mem_append.mp agree
    simp only [eval, left agreeL swapped, right agreeR swapped]
  | logic op lhs rhs left right =>
    obtain ⟨agreeL, agreeR⟩ := List.forall_mem_append.mp agree
    cases op <;> simp only [eval, left agreeL swapped, right agreeR swapped]

/-! ### What a need covers -/

/-- The need's marks are at least as high as what is read. -/
def BindingNeed.Covers (need : BindingNeed) : Reading → Prop
  | .node slot => ∃ top ∈ need.nodes, slot ≤ top
  | .edge hop => ∃ top ∈ need.edges, hop ≤ top
  | .lastEdge => need.lastEdge = true

theorem bump_covers (mark : Option ℕ) (v : ℕ) : ∃ top ∈ bump mark v, v ≤ top := by
  cases mark with
  | none => exact ⟨v, rfl, le_rfl⟩
  | some m => exact ⟨max m v, by simp [bump, max_comm], le_max_right m v⟩

theorem bump_keeps {mark : Option ℕ} {v w : ℕ} (covered : ∃ top ∈ mark, w ≤ top) :
    ∃ top ∈ bump mark v, w ≤ top := by
  obtain ⟨top, rfl, below⟩ := covered
  exact ⟨max v top, rfl, le_max_of_le_right below⟩

/-- A walk covers what was covered, and what the expression reads. -/
theorem covers_walk (covered : need.Covers reading ∨ reading ∈ expr.reads inEdgeSwap) :
    (need.walk inEdgeSwap expr).Covers reading := by
  induction expr generalizing need inEdgeSwap with
  | property | literal | hasLabel | nodeId | externalKey | score | hops | distance | similarity =>
    exact covered.resolve_right List.not_mem_nil
  | «at» binding inner ih =>
    cases binding with
    | node slot =>
      refine ih ?_
      rcases covered with covered | read
      · cases reading with
        | node other => exact .inl (bump_keeps covered)
        | edge hop => exact .inl covered
        | lastEdge => exact .inl covered
      · rcases List.mem_cons.mp read with rfl | read
        · exact .inl (bump_covers need.nodes slot)
        · exact .inr read
    | edge hop =>
      refine ih ?_
      rcases covered with covered | read
      · cases reading with
        | node slot => exact .inl covered
        | edge other => exact .inl (bump_keeps covered)
        | lastEdge => exact .inl covered
      · rcases List.mem_cons.mp read with rfl | read
        · exact .inl (bump_covers need.edges hop)
        · exact .inr read
  | edgeType | edgeDir | edgeProperty =>
    cases inEdgeSwap with
    | false =>
      rcases covered with covered | read
      · cases reading with
        | node slot => exact covered
        | edge hop => exact covered
        | lastEdge => rfl
      · obtain rfl := List.mem_singleton.mp read
        rfl
    | true => exact covered.resolve_right List.not_mem_nil
  | isNull inner ih | not inner ih => exact ih covered
  | compare op lhs rhs left right | logic op lhs rhs left right | arith op lhs rhs left right
  | stringMatch op lhs rhs left right | «in» lhs rhs left right =>
    refine right ?_
    rcases covered with covered | read
    · exact .inl (left (.inl covered))
    · rcases List.mem_append.mp read with read | read
      · exact .inl (left (.inr read))
      · exact .inr read

theorem covers_foldl {exprs : List Expr}
    (covered : need.Covers reading ∨ ∃ expr ∈ exprs, reading ∈ expr.reads false) :
    (exprs.foldl BindingNeed.add need).Covers reading := by
  induction exprs generalizing need with
  | nil => exact covered.resolve_right fun ⟨_, member, _⟩ => List.not_mem_nil member
  | cons first exprs ih =>
    refine ih ?_
    rcases covered with covered | ⟨expr, member, read⟩
    · exact .inl (covers_walk (.inl covered))
    · rcases List.mem_cons.mp member with rfl | member
      · exact .inl (covers_walk (.inr read))
      · exact .inr ⟨expr, member, read⟩

/-- The expressions that a plan evaluates against rows. -/
inductive LogicalPlan.Evaluates (plan : LogicalPlan) : Expr → Prop where
  | filter {pred : Expr} (step : .filter pred ∈ plan.steps) : plan.Evaluates pred
  | sortKey {keys : List SortKey} {key : SortKey} (step : .sort keys ∈ plan.steps)
      (inside : key ∈ keys) :
      plan.Evaluates key.expr
  | value {proj : Projection} {item : ProjItem} {expr : Expr} (tail : plan.project = some proj)
      (inside : item ∈ proj.items) (here : item.expr = .value expr) : plan.Evaluates expr
  | aggArg {proj : Projection} {item : ProjItem} {fold : Agg} {expr : Expr}
      (tail : plan.project = some proj)
      (inside : item ∈ proj.items) (here : item.expr = .agg fold) (arg : fold.arg = some expr) :
      plan.Evaluates expr

/-- A plan's need covers what its expressions read. -/
theorem LogicalPlan.Evaluates.covers {plan : LogicalPlan} (evaluated : plan.Evaluates expr)
    (read : reading ∈ expr.reads false) : plan.bindingNeed.Covers reading := by
  refine covers_foldl (.inr ⟨expr, List.mem_append.mpr ?_, read⟩)
  cases evaluated with
  | filter step => exact .inl (List.mem_flatMap.mpr ⟨_, step, List.mem_singleton_self _⟩)
  | sortKey step inside => exact .inl (List.mem_flatMap.mpr ⟨_, step, List.mem_map_of_mem inside⟩)
  | value tail inside here =>
    rw [tail]
    exact .inr (List.mem_filterMap.mpr ⟨_, inside, by rw [here]; rfl⟩)
  | aggArg tail inside here arg =>
    rw [tail]
    exact .inr (List.mem_filterMap.mpr ⟨_, inside, by rw [here]; exact arg⟩)

/-! ### What is resolved -/

section

variable {reader : GraphReader} {row : Row} {need : BindingNeed} {bound full : Bindings} {n : ℕ}

/-- The whole path of a row: the node at every slot, the edge of every hop, and the last edge. -/
def allBindings (reader : GraphReader) (row : Row) : Except Error Bindings := do
  let nodes ← (List.range (row.path.length + 1)).mapM fun slot => reader.node (row.nodeAt slot)
  let edges ← (List.range row.path.length).mapM (hopEdge reader row)
  let last ← hopEdge reader row (row.path.length - 1)
  return ⟨nodes, edges, last⟩

/-- What a range was mapped to, place by place. -/
theorem mapM_range {α : Type} {f : ℕ → Except Error α} {ys : List α}
    (mapped : (List.range n).mapM f = .ok ys) :
    ys.length = n ∧ ∀ i < n, ∃ y, ys[i]? = some y ∧ f i = .ok y := by
  have read := mapM_eq_ok.mp mapped
  have long : ys.length = n := by rw [← read.length_eq, List.length_range]
  refine ⟨long, fun i inside => ⟨ys[i], List.getElem?_eq_getElem _, ?_⟩⟩
  have here := read.get (by simpa using inside) (long ▸ inside)
  simpa using here

/-- Two loads of a row's places agree up to what the first names, when the second is of all places. -/
theorem range_agrees {α : Type} {f g : ℕ → Except Error (Option α)} {m : ℕ} {zs : List (Option α)}
    (loaded : (List.range m).mapM g = .ok zs) (same : ∀ i < m, f i = g i)
    (past : ∀ i, m ≤ i → f i = .ok none) :
    ∃ ys, (List.range n).mapM f = .ok ys ∧ ∀ i < n, (ys[i]?).join = (zs[i]?).join := by
  obtain ⟨long, each⟩ := mapM_range loaded
  have place : ∀ i, f i = .ok (zs[i]?).join := by
    intro i
    rcases lt_or_ge i m with inside | beyond
    · obtain ⟨z, here, read⟩ := each i inside
      rw [same i inside, read, here, Option.join_some]
    · rw [past i beyond, List.getElem?_eq_none (long ▸ beyond), Option.join_none]
  obtain ⟨ys, mapped⟩ := mapM_returns fun i _ => ⟨_, place i⟩
  refine ⟨ys, mapped, fun i inside => ?_⟩
  obtain ⟨y, here, read⟩ := (mapM_range mapped).2 i inside
  rw [here, Option.join_some]
  exact Except.ok.inj (read.symm.trans (place i))

theorem hopEdge_past (past : row.path.length ≤ hop) : hopEdge reader row hop = .ok none := by
  rw [hopEdge, List.getElem?_eq_none past]

/-- Where the whole path can be loaded, so can what a need asks for, and the two agree on all that the
need covers. -/
theorem resolveBindings_agrees (loaded : allBindings reader row = .ok full) (need : BindingNeed) :
    ∃ bound, resolveBindings reader row need = .ok bound ∧
      ∀ reading, need.Covers reading → bound.Agree full reading := by
  obtain ⟨allNodes, loadedNodes, rest⟩ := bind_eq_ok.mp loaded
  obtain ⟨allEdges, loadedEdges, rest⟩ := bind_eq_ok.mp rest
  obtain ⟨last, loadedLast, whole⟩ := bind_eq_ok.mp rest
  obtain rfl := Except.ok.inj whole
  obtain ⟨nodes, resolvedNodes, sameNodes⟩ := range_agrees (n := need.nodes.elim 0 (· + 1))
    (f := fun slot => if slot ≤ row.path.length then reader.node (row.nodeAt slot) else .ok none)
      loadedNodes
    (fun slot inside => if_pos (Nat.le_of_lt_succ inside))
      (fun slot past => if_neg (Nat.not_le.mpr past))
  obtain ⟨edges, resolvedEdges, sameEdges⟩ :=
    range_agrees (n := need.edges.elim 0 (· + 1)) loadedEdges
    (fun hop _ => rfl) fun hop past => hopEdge_past past
  have arrived : ∃ arrival, arrivalEdge reader row need = .ok arrival ∧
      (need.lastEdge = true → arrival = last) := by
    unfold arrivalEdge
    split
    · exact ⟨last, loadedLast, fun _ => rfl⟩
    · rename_i unasked
      refine ⟨none, rfl, fun asked => ?_⟩
      have empty : row.path = [] := by
        by_contra hops
        exact unasked ⟨asked, hops⟩
      have missing : row.path.length ≤ row.path.length - 1 := by simp [empty]
      exact Except.ok.inj ((hopEdge_past missing).symm.trans loadedLast)
  obtain ⟨arrival, resolvedLast, sameLast⟩ := arrived
  refine ⟨⟨nodes, edges, arrival⟩, ?_, fun reading covered => ?_⟩
  · exact bind_eq_ok.mpr ⟨nodes, resolvedNodes, bind_eq_ok.mpr ⟨edges, resolvedEdges,
      bind_eq_ok.mpr ⟨arrival, resolvedLast, rfl⟩⟩⟩
  · cases reading with
    | node slot =>
      obtain ⟨top, mark, below⟩ := covered
      refine sameNodes slot ?_
      rw [mark]
      exact Nat.lt_succ_of_le below
    | edge hop =>
      obtain ⟨top, mark, below⟩ := covered
      refine sameEdges hop ?_
      rw [mark]
      exact Nat.lt_succ_of_le below
    | lastEdge => exact sameLast covered

end

/-! ### Plans -/

/-- Whatever a plan evaluates against a row has the value that it has with the whole path loaded. -/
theorem needed_suffices (machine : Machine) (reader : GraphReader) (plan : LogicalPlan) (row : Row)
    {full : Bindings} (loaded : allBindings reader row = .ok full) :
    ∃ bound, resolveBindings reader row plan.bindingNeed = .ok bound ∧
      ∀ expr, plan.Evaluates expr → ∀ node,
        eval machine (row.ctx node bound) expr = eval machine (row.ctx node full) expr := by
  obtain ⟨bound, resolved, agree⟩ := resolveBindings_agrees loaded plan.bindingNeed
  refine ⟨bound, resolved, fun expr evaluated node => ?_⟩
  have same : ∀ reading ∈ expr.reads false, bound.Agree full reading :=
    fun reading read => agree reading (evaluated.covers read)
  exact eval_congr same nofun

def author : NodeRecord := ⟨1, 0, none, ["Author"], ∅⟩

def paper : NodeRecord := ⟨2, 0, none, ["Paper"], ∅⟩

def wrote : EdgeRecord := ⟨7, 0, 1, 2, "WROTE", ∅⟩

/-- An author and a paper, and the edge between them. -/
def wroteReader : GraphReader where
  node id := .ok ([author, paper].find? fun node => node.id = id)
  edge id := .ok ([wrote].find? fun edge => edge.id = id)
  neighbors _ _ _ := .ok [⟨2, 7⟩]
  scanAll := .ok [1, 2]
  scanLabel label := .ok (if label = "Author" then [1] else [2])
  nodeIdByKey _ := .ok none
  vectorSearch _ _ _ _ _ := .ok []
  keywordSearch _ _ _ _ := .ok []

/-- The authors whose first edge and last edge are of one type. -/
def wrotePlan : LogicalPlan where
  source := .scanLabel "Author"
  steps := [.expand .out none, .filter (.compare .eq (.at (.edge 0) .edgeType) .edgeType)]
  project := some { items := [⟨"author", .value (.at (.node 0) .nodeId)⟩] }

theorem needed_suffices_wrote :
    ∃ bound, resolveBindings wroteReader ((Row.start 1).step 7 2) wrotePlan.bindingNeed = .ok bound ∧
      ∀ expr, wrotePlan.Evaluates expr → ∀ node,
        eval .scalar (((Row.start 1).step 7 2).ctx node bound) expr =
          eval .scalar (((Row.start 1).step 7 2).ctx node
            ⟨[some author, some paper], [some (wrote, .out)], some (wrote, .out)⟩) expr :=
  needed_suffices .scalar wroteReader wrotePlan ((Row.start 1).step 7 2) rfl

end DrStrange.Compute
