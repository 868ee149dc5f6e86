/-
**The expressions of filters, sorts and projections, and their evaluation.**

An expression is evaluated against a row: its current node, its score, its hop count, and the earlier
nodes and edges that the plan names. Evaluation never fails: what is missing or of another type is
null or false.
-/

import DrStrange.Compute.Value
import DrStrange.Graph.Edge
import DrStrange.Graph.Node
import DrStrange.Hnsw.VectorSearch

namespace DrStrange.Compute

open Std DrStrange.Graph Lib

/-! ### Expressions -/

inductive LogicOp where
  | and
  | or
  deriving DecidableEq, Repr

/-- A substring relation, byte by byte. -/
inductive StrOp where
  | contains
  | startsWith
  | endsWith
  deriving DecidableEq, Repr

inductive ArithOp where
  | add
  | sub
  | mul
  | div
  deriving DecidableEq, Repr

/-- An earlier binding of the row: a node of the pattern, 0 the source, or the edge of a hop. -/
inductive Binding where
  | node (slot : ℕ)
  | edge (hop : ℕ)
  deriving DecidableEq, Repr

inductive Expr where
  | property (key : String)
  | literal (value : PropValue)
  | hasLabel (label : String)
  | nodeId
  | at (binding : Binding) (inner : Expr)
  | edgeType
  | edgeDir
  | edgeProperty (key : String)
  | externalKey
  | score
  | hops
  | distance (property : String) (query : List UInt32) (metric : Metric)
  | similarity (property : String) (query : List UInt32) (metric : Metric)
  | isNull (inner : Expr)
  | not (inner : Expr)
  | compare (op : CmpOp) (lhs rhs : Expr)
  | logic (op : LogicOp) (lhs rhs : Expr)
  | arith (op : ArithOp) (lhs rhs : Expr)
  | stringMatch (op : StrOp) (lhs rhs : Expr)
  | in (needle haystack : Expr)

/-! ### Bindings -/

/-- The bindings of a row that a plan names, resolved. -/
structure Bindings where
  nodes : List (Option NodeRecord) := []
  edges : List (Option (EdgeRecord × Dir)) := []
  /-- The edge the row arrived on. -/
  edge : Option (EdgeRecord × Dir) := none

def Bindings.node (bindings : Bindings) (slot : ℕ) : Option NodeRecord := (bindings.nodes[slot]?).join

def Bindings.edgeAt (bindings : Bindings) (hop : ℕ) : Option (EdgeRecord × Dir) :=
  (bindings.edges[hop]?).join

/-- Which bindings the expressions of a plan name: the highest slot, the highest hop, and whether the
edge the row arrived on is read. -/
structure BindingNeed where
  nodes : Option ℕ := none
  edges : Option ℕ := none
  lastEdge : Bool := false

def bump (slot : Option ℕ) (v : ℕ) : Option ℕ := some (slot.elim v (max v))

/-- Inside an edge binding a bare edge term is that hop's, not the row's last. -/
def BindingNeed.walk (need : BindingNeed) (inEdgeSwap : Bool) : Expr → BindingNeed
  | .at (.node slot) inner => { need with nodes := bump need.nodes slot }.walk inEdgeSwap inner
  | .at (.edge hop) inner => { need with edges := bump need.edges hop }.walk true inner
  | .edgeType | .edgeDir | .edgeProperty _ =>
    if inEdgeSwap then need else { need with lastEdge := true }
  | .isNull inner | .not inner => need.walk inEdgeSwap inner
  | .compare _ lhs rhs | .logic _ lhs rhs | .arith _ lhs rhs | .stringMatch _ lhs rhs
  | .in lhs rhs => (need.walk inEdgeSwap lhs).walk inEdgeSwap rhs
  | .property _ | .literal _ | .hasLabel _ | .nodeId | .externalKey | .score | .hops | .distance ..
  | .similarity .. => need

def BindingNeed.add (need : BindingNeed) (expr : Expr) : BindingNeed := need.walk false expr

/-! ### Evaluation -/

/-- What an expression is evaluated against. -/
structure EvalCtx where
  node : Option NodeRecord := none
  score : Option UInt32 := none
  hops : UInt32 := 0
  bindings : Bindings := {}

/-- What a query takes from the machine besides the kernel of the metric: arithmetic on doubles, a
single widened to a double, the text of a double, and the order its heap leaves equal distances in.
-/
structure Machine extends Hnsw.Kernel, Hnsw.Ties where
  add64 : UInt64 → UInt64 → UInt64
  sub64 : UInt64 → UInt64 → UInt64
  mul64 : UInt64 → UInt64 → UInt64
  div64 : UInt64 → UInt64 → UInt64
  widen : UInt32 → UInt64
  text64 : UInt64 → String

/-- Floats computed with the model of IEEE arithmetic. -/
def Machine.scalar : Machine where
  toArith := .scalar
  toTies := .steady
  l2sq a b := ((a.zip b).foldl (fun sum pair =>
    sum + (Float32.ofBits pair.1 - Float32.ofBits pair.2) ^ (2 : Float32)) (Float32.ofBits 0)).toBits
  add64 a b := (Float.ofBits a + Float.ofBits b).toBits
  sub64 a b := (Float.ofBits a - Float.ofBits b).toBits
  mul64 a b := (Float.ofBits a * Float.ofBits b).toBits
  div64 a b := (Float.ofBits a / Float.ofBits b).toBits
  widen a := (Float32.ofBits a).toFloat.toBits
  text64 a := toString (Float.ofBits a)

/-- An integer wrapped around to 64 bits. -/
def wrap (x : ℤ) : ℤ := x.bmod (2 ^ 64)

def EvalCtx.vectorProp (ctx : EvalCtx) (property : String) : Option (List UInt32) :=
  ctx.node.bind fun node => (node.properties[property]?).bind fun prop => prop.value.asVector

/-- Only `true` is true. -/
def isTrue : PropValue → Bool
  | .bool value => value
  | _ => false

def isNull : PropValue → Bool
  | .null => true
  | _ => false

/-- `f64` of an operand that is a number. -/
def asF64 : PropValue → UInt64
  | .int value => double value
  | .float bits => bits
  | _ => 0x7ff8000000000000

section

variable (machine : Machine)

/-- `Metric::similarity`. -/
def similarity (metric : Metric) (a b : List UInt32) : UInt32 :=
  if a.length ≠ b.length then 0xff800000
  else
    match metric with
    | .cosine => Hnsw.cosine machine.toKernel a b
    | .dot => machine.dot a b
    | .l2 => machine.neg (machine.sqrt (machine.l2sq a b))

/-- A scalar as text, for the string predicates. -/
def asText : PropValue → Option String
  | .str text => some text
  | .int value => some (toString value)
  | .float bits => some (machine.text64 bits)
  | .bool value => some (if value then "true" else "false")
  | .null | .bytes _ | .vector _ | .list _ | .map _ => none

/-- False where an operand has no text. -/
def stringMatch (op : StrOp) (lhs rhs : PropValue) : Bool :=
  match asText machine lhs, asText machine rhs with
  | some hay, some needle =>
    match op with
    | .contains => hay.toList.tails.any (needle.toList.isPrefixOf ·)
    | .startsWith => needle.toList.isPrefixOf hay.toList
    | .endsWith => needle.toList.isSuffixOf hay.toList
  | _, _ => false

/-- `IN`: among the elements of a list, or the keys of a map. -/
def memberOf (needle haystack : PropValue) : Bool :=
  match haystack with
  | .list items => items.any fun item => compareBy .eq item needle
  | .map entries =>
    match asText machine needle with
    | some key => entries.any fun entry => entry.1 = key
    | none => false
  | _ => false

def arith (op : ArithOp) (a b : PropValue) : PropValue :=
  match a, b with
  | .int x, .int y =>
    match op with
    | .add => .int (wrap (x + y))
    | .sub => .int (wrap (x - y))
    | .mul => .int (wrap (x * y))
    | .div => if y = 0 then .null else .int (wrap (x.tdiv y))
  | .int _, .float _ | .float _, .int _ | .float _, .float _ =>
    match op with
    | .add => .float (machine.add64 (asF64 a) (asF64 b))
    | .sub => .float (machine.sub64 (asF64 a) (asF64 b))
    | .mul => .float (machine.mul64 (asF64 a) (asF64 b))
    | .div => .float (machine.div64 (asF64 a) (asF64 b))
  | _, _ => .null

def eval (ctx : EvalCtx) : Expr → PropValue
  | .property key =>
    ((ctx.node.bind fun node => node.properties[key]?).map PropDesc.value).getD .null
  | .literal value => value
  | .hasLabel label => .bool (ctx.node.any fun node => label ∈ node.labels)
  | .externalKey => ((ctx.node.bind NodeRecord.externalKey).map PropValue.str).getD .null
  | .nodeId => (ctx.node.map fun node => PropValue.int (wrap node.id)).getD .null
  | .at (.node slot) inner => eval { ctx with node := ctx.bindings.node slot } inner
  | .at (.edge hop) inner =>
    eval { ctx with bindings := { ctx.bindings with edge := ctx.bindings.edgeAt hop } } inner
  | .edgeType => (ctx.bindings.edge.map fun edge => PropValue.str edge.1.ty).getD .null
  | .edgeDir =>
    (ctx.bindings.edge.map fun edge => PropValue.str (if edge.2 = .in then "IN" else "OUT")).getD
      .null
  | .edgeProperty key =>
    ((ctx.bindings.edge.bind fun edge => edge.1.properties[key]?).map PropDesc.value).getD .null
  | .score => (ctx.score.map fun score => PropValue.float (machine.widen score)).getD .null
  | .hops => .int ctx.hops.toNat
  | .distance property query metric =>
    ((ctx.vectorProp property).map fun vector =>
      PropValue.float (machine.widen (Hnsw.distance machine.toKernel metric query vector).bits)).getD
        .null
  | .similarity property query metric =>
    ((ctx.vectorProp property).map fun vector =>
      PropValue.float (machine.widen (similarity machine metric query vector))).getD .null
  | .isNull inner => .bool (isNull (eval ctx inner))
  | .not inner => .bool (!isTrue (eval ctx inner))
  | .compare op lhs rhs => .bool (compareBy op (eval ctx lhs) (eval ctx rhs))
  | .logic .and lhs rhs => .bool (isTrue (eval ctx lhs) && isTrue (eval ctx rhs))
  | .logic .or lhs rhs => .bool (isTrue (eval ctx lhs) || isTrue (eval ctx rhs))
  | .arith op lhs rhs => arith machine op (eval ctx lhs) (eval ctx rhs)
  | .stringMatch op lhs rhs => .bool (stringMatch machine op (eval ctx lhs) (eval ctx rhs))
  | .in needle haystack => .bool (memberOf machine (eval ctx needle) (eval ctx haystack))

end

end DrStrange.Compute
