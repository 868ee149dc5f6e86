/-
**Property values compared: the filter's partial order, equality, and the total order.**

Filters compare with `partialCmp` and `valuesEq`, and sorting, `DISTINCT` and grouping with
`totalCmp`. The three are separate definitions. The total order puts values of different types in a
fixed order of types, integers and floats on one line, lists and maps in lexicographic order.
-/

import DrStrange.Graph.Types
import DrStrange.Lib.Double
import DrStrange.Hnsw.Index

namespace DrStrange.Compute

open Std DrStrange.Graph Lib

/-! ### The total order -/

/-- Integers and floats share a rank: they are one numeric line. -/
def typeRank : PropValue → ℕ
  | .null => 0
  | .bool _ => 1
  | .int _ | .float _ => 2
  | .str _ => 3
  | .bytes _ => 4
  | .vector _ => 5
  | .list _ => 6
  | .map _ => 7

/-- An integer against a float: by the nearest double, and exactly where that is the float. -/
def cmpIntFloat (x : ℤ) (y : UInt64) : Ordering :=
  let rounded := totalCmp64 (double x) y
  if rounded ≠ .eq then rounded
  -- `2 ^ 63` is the one double that saturates the cast.
  else if (partialCmp64 y 0x43e0000000000000).any Ordering.isGE then .lt
  else compare x (truncate y)

/-- `f32::total_cmp`. -/
def totalCmp32 (a b : UInt32) : Ordering := compare (Hnsw.totalKey a) (Hnsw.totalKey b)

mutual

def totalCmp : PropValue → PropValue → Ordering
  | .int x, .int y => compare x y
  | .float x, .float y => totalCmp64 x y
  | .int x, .float y => cmpIntFloat x y
  | .float x, .int y => (cmpIntFloat y x).swap
  | .bool x, .bool y => compare x y
  | .str x, .str y => compare x y
  | .bytes x, .bytes y => compare x y
  | .vector x, .vector y => List.compareLex totalCmp32 x y
  | .list x, .list y => totalCmpValues x y
  | .map x, .map y => totalCmpEntries x y
  | a, b => compare (typeRank a) (typeRank b)

/-- The first difference decides, else the lengths. -/
def totalCmpValues : List PropValue → List PropValue → Ordering
  | [], [] => .eq
  | [], _ :: _ => .lt
  | _ :: _, [] => .gt
  | p :: x, q :: y => (totalCmp p q).then (totalCmpValues x y)

/-- By key, then value, then description. -/
def totalCmpEntries : List (String × PropDesc) → List (String × PropDesc) → Ordering
  | [], [] => .eq
  | [], _ :: _ => .lt
  | _ :: _, [] => .gt
  | (ka, .mk da va) :: x, (kb, .mk db vb) :: y =>
    (((compare ka kb).then (totalCmp va vb)).then (compare da db)).then (totalCmpEntries x y)

end

/-! ### The filter's order and equality -/

/-- None for types that do not compare, null, and what is not a number. -/
def partialCmp : PropValue → PropValue → Option Ordering
  | .int x, .int y => some (compare x y)
  | .float x, .float y => partialCmp64 x y
  | .int x, .float y => partialCmp64 (double x) y
  | .float x, .int y => partialCmp64 x (double y)
  | .bool x, .bool y => some (compare x y)
  | .str x, .str y => some (compare x y)
  | _, _ => none

/-- `==` of singles. -/
def eq32 (a b : UInt32) : Bool :=
  !Hnsw.isNan a && !Hnsw.isNan b && Hnsw.lineKey a = Hnsw.lineKey b

/-- `==` of vectors. -/
def eqVector : List UInt32 → List UInt32 → Bool
  | [], [] => true
  | a :: x, b :: y => eq32 a b && eqVector x y
  | _, _ => false

mutual

/-- `==` of values, as derived: by structure. -/
def eqValue : PropValue → PropValue → Bool
  | .null, .null => true
  | .bool x, .bool y => x = y
  | .int x, .int y => x = y
  | .float x, .float y => partialCmp64 x y = some .eq
  | .str x, .str y => x = y
  | .bytes x, .bytes y => x = y
  | .vector x, .vector y => eqVector x y
  | .list x, .list y => eqValues x y
  | .map x, .map y => eqEntries x y
  | _, _ => false

def eqValues : List PropValue → List PropValue → Bool
  | [], [] => true
  | a :: x, b :: y => eqValue a b && eqValues x y
  | _, _ => false

def eqEntries : List (String × PropDesc) → List (String × PropDesc) → Bool
  | [], [] => true
  | (ka, .mk da va) :: x, (kb, .mk db vb) :: y =>
    ka = kb && (da = db && eqValue va vb) && eqEntries x y
  | _, _ => false

end

/-- The equality of `=`: by number where the left side is one, else by structure. -/
def valuesEq (a b : PropValue) : Bool :=
  match a with
  | .int _ | .float _ => partialCmp a b = some .eq
  | _ => eqValue a b

inductive CmpOp where
  | eq
  | ne
  | lt
  | le
  | gt
  | ge
  deriving DecidableEq, Repr

/-- `compare` of a filter. -/
def compareBy (op : CmpOp) (a b : PropValue) : Bool :=
  match op with
  | .eq => valuesEq a b
  | .ne => !valuesEq a b
  | .lt => partialCmp a b = some .lt
  | .le => partialCmp a b = some .lt || partialCmp a b = some .eq
  | .gt => partialCmp a b = some .gt
  | .ge => partialCmp a b = some .gt || partialCmp a b = some .eq

/-! ### Tuples -/

/-- How `DISTINCT` and grouping compare tuples: `TupleKey`. -/
def tupleCmp : List PropValue → List PropValue → Ordering := List.compareLex totalCmp

structure TupleSortKey where
  column : ℕ
  descending : Bool
  deriving DecidableEq, Repr

/-- Tuples by the tail's keys; a column that is not there is null. -/
def cmpColumns (a b : List PropValue) : List TupleSortKey → Ordering
  | [] => .eq
  | key :: keys =>
    let order := totalCmp (a[key.column]?.getD .null) (b[key.column]?.getD .null)
    (if key.descending then order.swap else order).then (cmpColumns a b keys)

end DrStrange.Compute
