/-
**Plans: a source, a chain of steps, and an optional projection.**

The sources that fuse searches or run an algorithm are left out.
-/

import DrStrange.Compute.Expr

namespace DrStrange.Compute

open Std DrStrange.Graph Lib

/-- Where the rows of a plan come from. -/
inductive Source where
  | scanAll
  | scanLabel (label : String)
  | seekIds (ids : List NodeId)
  | seekKeys (keys : List String)
  | vectorTopK (label : Option String) (property : String) (query : List UInt32) (metric : Metric)
      (k : ℕ)
  | keywordTopK (label property query : String) (k : ℕ)

structure SortKey where
  expr : Expr
  descending : Bool

/-- One stage of the pipeline. -/
inductive Step where
  | expand (dir : Dir) (edgeType : Option String)
  | expandVar (dir : Dir) (edgeType : Option String) (min max : ℕ)
  | filter (pred : Expr)
  | skip (n : ℕ)
  | limit (n : ℕ)
  | distinct
  | sort (keys : List SortKey)
  | frontierTopK (property : String) (query : List UInt32) (metric : Metric) (k : ℕ)
  | expandBeam (dir : Dir) (edgeType : Option String) (property : String) (query : List UInt32)
      (metric : Metric) (width depth : ℕ)

/-! ### Projections -/

inductive AggFunc where
  | count
  | sum
  | avg
  | min
  | max
  | collect
  deriving DecidableEq, Repr

/-- An aggregate; without an argument it is `count(*)`. -/
structure Agg where
  func : AggFunc
  arg : Option Expr
  distinct : Bool

/-- A value of each row, or a fold of a group of rows. -/
inductive ProjExpr where
  | value (expr : Expr)
  | agg (agg : Agg)

structure ProjItem where
  name : String
  expr : ProjExpr

/-- The tail that turns rows into tuples. -/
structure Projection where
  items : List ProjItem := []
  distinct : Bool := false
  orderBy : List TupleSortKey := []
  skip : Option ℕ := none
  limit : Option ℕ := none

structure LogicalPlan where
  source : Source
  steps : List Step
  project : Option Projection

def ProjExpr.isAgg : ProjExpr → Bool
  | .value _ => false
  | .agg _ => true

/-- What a column reads of each row; `count(*)` reads nothing. -/
def ProjExpr.arg : ProjExpr → Option Expr
  | .value expr => some expr
  | .agg fold => fold.arg

/-- Every expression that a projection evaluates of each row. -/
def valueExprs (proj : Projection) : List Expr := proj.items.filterMap fun item => item.expr.arg

/-- The expressions of a step. -/
def Step.exprs : Step → List Expr
  | .filter pred => [pred]
  | .sort keys => keys.map SortKey.expr
  | .expand .. | .expandVar .. | .skip _ | .limit _ | .distinct | .frontierTopK
    .. | .expandBeam .. => []

/-- Which bindings the expressions of a plan name. -/
def LogicalPlan.bindingNeed (plan : LogicalPlan) : BindingNeed :=
  (plan.steps.flatMap Step.exprs ++ plan.project.elim [] valueExprs).foldl BindingNeed.add {}

end DrStrange.Compute
