/-
**Evaluation stays within the code's types.**

A reader gives records of typed values, and the literals of an expression are typed; then so is every
value that the expression takes on a row.
-/

import DrStrange.Compute.Order
import DrStrange.Compute.Table
import DrStrange.Lib.Fallible

namespace DrStrange.Compute

open Std DrStrange.Graph Lib

/-! ### What is typed -/

def TypedProps (props : Properties) : Prop :=
  ∀ (key : String) (prop : PropDesc), props[key]? = some prop → Typed prop.value

/-- What an expression may read has the code's types. -/
structure EvalCtx.Typed (ctx : EvalCtx) : Prop where
  node : ∀ node ∈ ctx.node, TypedProps node.properties
  nodes : ∀ slot, ∀ node ∈ ctx.bindings.node slot, TypedProps node.properties
  edges : ∀ hop, ∀ edge ∈ ctx.bindings.edgeAt hop, TypedProps edge.1.properties
  edge : ∀ edge ∈ ctx.bindings.edge, TypedProps edge.1.properties

def Expr.Typed : Expr → Prop
  | .literal value => Compute.Typed value
  | .at _ inner | .isNull inner | .not inner => inner.Typed
  | .compare _ lhs rhs | .logic _ lhs rhs | .arith _ lhs rhs | .stringMatch _ lhs rhs
  | .in lhs rhs => lhs.Typed ∧ rhs.Typed
  | .property _ | .hasLabel _ | .nodeId | .edgeType | .edgeDir | .edgeProperty _ | .externalKey
  | .score | .hops | .distance .. | .similarity .. => True

structure GraphReader.Typed (reader : GraphReader) : Prop where
  node : ∀ id node, reader.node id = .ok (some node) → TypedProps node.properties
  edge : ∀ id edge, reader.edge id = .ok (some edge) → TypedProps edge.properties

/-! ### Evaluation -/

variable {machine : Machine} {reader : GraphReader} {ctx : EvalCtx} {row : Row} {need : BindingNeed}

theorem typed_wrap {x : ℤ} : Typed (.int (wrap x)) := by
  have least := Int.le_bmod (x := x) (m := 2 ^ 64) (by decide)
  have most := Int.bmod_lt (x := x) (m := 2 ^ 64) (by decide)
  simp only [Typed, wrap]
  omega

theorem typed_getD {α : Type} {value : Option α} {f : α → PropValue}
    (typed : ∀ a ∈ value, Typed (f a)) : Typed ((value.map f).getD .null) := by
  cases value with
  | none => trivial
  | some a => exact typed a rfl

theorem typed_prop {α : Type} {source : Option α} {props : α → Properties} {key : String}
    (typed : ∀ a ∈ source, TypedProps (props a)) :
    Typed (((source.bind fun a => (props a)[key]?).map PropDesc.value).getD .null) := by
  refine typed_getD fun prop found => ?_
  obtain ⟨a, held, found⟩ := Option.mem_bind_iff.mp found
  exact typed a held key prop found

theorem arith_typed {op : ArithOp} {a b : PropValue} : Typed (arith machine op a b) := by
  unfold arith
  split
  · cases op with
    | div =>
      dsimp only
      split_ifs
      · trivial
      · exact typed_wrap
    | _ => exact typed_wrap
  all_goals first | trivial | (cases op <;> trivial)

theorem eval_typed {expr : Expr} (typed : ctx.Typed) (literals : expr.Typed) :
    Typed (eval machine ctx expr) := by
  induction expr generalizing ctx with
  | property key => exact typed_prop typed.node
  | literal value => exact literals
  | nodeId => exact typed_getD fun node _ => typed_wrap
  | «at» binding inner ih =>
    cases binding with
    | node slot => exact ih ⟨typed.nodes slot, typed.nodes, typed.edges, typed.edge⟩ literals
    | edge hop => exact ih ⟨typed.node, typed.nodes, typed.edges, typed.edges hop⟩ literals
  | edgeProperty key => exact typed_prop typed.edge
  | edgeType => exact typed_getD fun _ _ => trivial
  | edgeDir => exact typed_getD fun _ _ => trivial
  | externalKey => exact typed_getD fun _ _ => trivial
  | score => exact typed_getD fun _ _ => trivial
  | hops =>
    have small := ctx.hops.toNat_lt
    simp only [eval, Typed]
    omega
  | distance => exact typed_getD fun _ _ => trivial
  | similarity => exact typed_getD fun _ _ => trivial
  | arith op lhs rhs => exact arith_typed
  | logic op lhs rhs => cases op <;> trivial
  | hasLabel | isNull | not | compare | stringMatch | «in» => trivial

/-! ### Rows -/

/-- What a row's expressions are evaluated against. -/
def rowCtx (reader : GraphReader) (need : BindingNeed) (row : Row) : Except Error EvalCtx := do
  let node ← reader.node row.head
  let bound ← resolveBindings reader row need
  return row.ctx node bound

theorem rowValues_eq {exprs : List Expr} :
    rowValues machine reader row exprs need =
      (rowCtx reader need row).map fun ctx => exprs.map (eval machine ctx) := by
  unfold rowValues rowCtx
  cases reader.node row.head with
  | error e => rfl
  | ok node => cases resolveBindings reader row need <;> rfl

theorem loadEdge_typed (typed : reader.Typed) {id : EdgeId} {start stop : NodeId}
    {found : Option (EdgeRecord × Dir)} (loaded : loadEdge reader id start stop = .ok found) :
    ∀ edge ∈ found, TypedProps edge.1.properties := by
  obtain ⟨record, read, same⟩ := bind_eq_ok.mp loaded
  obtain rfl := pure_eq_ok.mp same
  intro edge held
  obtain ⟨record, rfl, rfl⟩ := Option.mem_map.mp held
  exact typed.edge id record read

/-- What is read into each place of a list is what is found at a place. -/
theorem found_of_mapM {α β : Type} {f : α → Except Error (Option β)} {xs : List α}
    {found : List (Option β)} {post : β → Prop} (read : xs.mapM f = .ok found)
    (each : ∀ x ∈ xs, ∀ b, f x = .ok (some b) → post b) (i : ℕ) : ∀ b ∈ (found[i]?).join, post b := by
  intro b held
  have member := List.mem_of_getElem? (Option.join_eq_some_iff.mp held)
  have all : ∀ y ∈ found, ∀ b ∈ y, post b :=
    mapM_forall read fun x among y read b held => each x among b (by rw [read, held])
  exact all _ member b rfl

theorem hopEdge_typed (typed : reader.Typed) {hop : ℕ} {edge : EdgeRecord × Dir}
    (read : hopEdge reader row hop = .ok (some edge)) : TypedProps edge.1.properties := by
  unfold hopEdge at read
  split at read
  · exact loadEdge_typed typed read edge rfl
  · cases read

theorem rowCtx_typed (typed : reader.Typed) (read : rowCtx reader need row = .ok ctx) :
    ctx.Typed := by
  obtain ⟨node, here, read⟩ := bind_eq_ok.mp read
  obtain ⟨bound, resolved, same⟩ := bind_eq_ok.mp read
  obtain rfl := pure_eq_ok.mp same
  obtain ⟨nodes, readNodes, resolved⟩ := bind_eq_ok.mp resolved
  obtain ⟨edges, readEdges, resolved⟩ := bind_eq_ok.mp resolved
  obtain ⟨last, readLast, same⟩ := bind_eq_ok.mp resolved
  obtain rfl := pure_eq_ok.mp same
  refine ⟨?_, ?_, ?_, ?_⟩
  · rintro node rfl
    exact typed.node _ node here
  · refine found_of_mapM readNodes fun slot _ node read => ?_
    split_ifs at read with inside
    · exact typed.node _ node read
    · cases read
  · exact found_of_mapM readEdges fun hop _ edge read => hopEdge_typed typed read
  · rintro edge rfl
    unfold arrivalEdge at readLast
    split_ifs at readLast with asked
    · exact hopEdge_typed typed readLast
    · cases readLast

/-! ### The reader of a plane -/

/-- The stored properties have the code's types. -/
structure Tables.Typed (tables : Tables) : Prop where
  nodes : ∀ (key : NodeKey) (row : NodeRow), tables.nodes[key]? = some row → TypedProps row.props
  edges : ∀ (key : EdgeKey) (row : EdgeRow), tables.edges[key]? = some row → TypedProps row.props

theorem planeReader_typed {tables : Tables} {plane : PlaneId}
    {vectorSearch : Option String → String → List UInt32 → Metric → ℕ →
      Except Error (List (UInt32 × NodeId))}
    {keywordSearch : String → String → String → ℕ → Except Error (List (NodeId × UInt32))}
    (typed : Tables.Typed tables) : (planeReader tables plane vectorSearch keywordSearch).Typed where
  node id node read := by
    simp only [planeReader, getNode] at read
    split at read
    · cases read
    · rename_i row found
      obtain ⟨labels, -, same⟩ := bind_eq_ok.mp read
      cases pure_eq_ok.mp same
      exact typed.nodes _ row found
  edge id edge read := by
    simp only [planeReader, getEdge] at read
    split at read
    · cases read
    · rename_i row found
      split at read <;> cases read
      exact typed.edges _ row found

end DrStrange.Compute
