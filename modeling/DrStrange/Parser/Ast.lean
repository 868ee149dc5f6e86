/-
**The syntax trees of the query language.**

A property, a label and a key are read of a named pattern variable; the compiler decides at which
node of the pattern a predicate stands. The sources that fuse searches or run an algorithm are left
out, and the point in time that a query reads, which no plan holds.
-/

import DrStrange.Compute.Plan

namespace DrStrange.Parser

open Std DrStrange.Graph DrStrange.Compute

/-! ### Expressions -/

/-- A query vector: its entries, or text to embed. -/
inductive VecArg where
  | vector (entries : List UInt32)
  | text (text : String)
  deriving DecidableEq, Repr

/-- An expression. -/
inductive PExpr where
  | lit (value : PropValue)
  | param (name : String)
  | prop (var key : String)
  | hasLabel (var label : String)
  | externalKey (var : String)
  /-- `x IN [a, b]`, for a chain of equalities. -/
  | in (lhs : PExpr) (list : List PExpr)
  /-- `x IN e`, where only the row knows what `e` holds. -/
  | inValue (lhs haystack : PExpr)
  | stringMatch (op : StrOp) (lhs rhs : PExpr)
  | isNull (inner : PExpr)
  | not (inner : PExpr)
  | neg (inner : PExpr)
  | compare (op : CmpOp) (lhs rhs : PExpr)
  | logic (op : LogicOp) (lhs rhs : PExpr)
  | arith (op : ArithOp) (lhs rhs : PExpr)
  | score
  | hops
  | similarity (var property : String) (query : VecArg) (metric : Metric)
  | distance (var property : String) (query : VecArg) (metric : Metric)

/-! ### Patterns -/

/-- `(var:Label)` -/
structure NodePat where
  var : Option String
  label : Option String
  deriving DecidableEq, Repr

/-- The bounds of a path of variable length; without a maximum it is unbounded. -/
structure VarLen where
  min : ℕ
  max : Option ℕ
  deriving DecidableEq, Repr

/-- `-[:TYPE*m..n]->` -/
structure RelPat where
  dir : Dir
  ty : Option String
  varLen : Option VarLen
  deriving DecidableEq, Repr

/-- One linear path. -/
structure Pattern where
  first : NodePat
  rest : List (RelPat × NodePat)
  deriving DecidableEq, Repr

/-! ### Queries -/

/-- A beam traversal from the rows so far. -/
structure BeamClause where
  node : NodePat
  dir : Dir
  edgeType : Option String
  property : Option String
  query : VecArg
  metric : Metric
  width : ℕ
  depth : ℕ

/-- What seeds the rows of a query. -/
inductive SourceKind where
  | match
  | search (property : Option String) (query : VecArg) (metric : Metric) (k : ℕ)
  | keyword (property : Option String) (query : String) (k : ℕ)

structure QuerySource where
  kind : SourceKind
  first : NodePat
  rest : List (RelPat × NodePat)

inductive ReturnItem where
  | star
  | var (name : String)
  | value (expr : PExpr) (name : String)
  /-- Without an argument it is `count(*)`. -/
  | agg (func : AggFunc) (arg : Option PExpr) (distinct : Bool) (name : String)

/-- The `RETURN` clause. -/
structure Return where
  distinct : Bool
  items : List ReturnItem

/-- What a key of `ORDER BY` names. -/
inductive SortTarget where
  | expr (expr : PExpr)
  | name (name : String)
  | agg (func : AggFunc) (arg : Option PExpr) (distinct : Bool)

/-- A key of `ORDER BY` with its own text. -/
structure OrderKey where
  target : SortTarget
  text : String
  descending : Bool

/-- A read. -/
structure Query where
  source : QuerySource
  beams : List BeamClause
  whereClause : Option PExpr
  ret : Return
  orderBy : List OrderKey
  skip : Option ℕ
  limit : Option ℕ

/-! ### Writes -/

/-- A property value: a literal, or a parameter of the caller. -/
inductive Val where
  | lit (value : PropValue)
  | param (name : String)

/-- An item of `SET`. -/
inductive SetItem where
  | prop (var key : String) (value : Val)
  | label (var label : String)
  | merge (var : String) (props : List (String × Val))

/-- An item of `REMOVE`. -/
inductive RemoveItem where
  | prop (var key : String)
  | label (var label : String)

structure CreateNode where
  var : Option String
  label : Option String
  key : Option Val
  props : List (String × Val)

structure CreateRel where
  dir : Dir
  ty : String
  props : List (String × Val)

/-- A node, then hops to further nodes. -/
structure CreatePath where
  first : CreateNode
  rest : List (CreateRel × CreateNode)

structure MergeClause where
  path : CreatePath
  onCreate : List SetItem
  onMatch : List SetItem

/-- A clause that writes. -/
inductive WriteOp where
  | create (paths : List CreatePath)
  | merge (clause : MergeClause)
  | set (items : List SetItem)
  | remove (items : List RemoveItem)
  | delete (detach : Bool) (vars : List String)

structure MatchClause where
  pattern : Pattern
  whereClause : Option PExpr

/-- A write: what its match binds, if it has one, and what is done to it. -/
structure WriteAst where
  matchClause : Option MatchClause
  ops : List WriteOp

/-! ### Parameters -/

/-- The caller's values, by bare name. -/
abbrev Params := ExtTreeMap String PropValue compare

def resolveParam (params : Params) (name : String) : Except String PropValue :=
  match params[name]? with
  | some value => .ok value
  | none => .error s!"unbound parameter `${name}`"

end DrStrange.Parser
