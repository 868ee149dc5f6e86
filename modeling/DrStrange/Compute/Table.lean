/-
**Projections: the rows of a plan as a table.**

A projection without an aggregate gives one tuple for each row. With one it groups the rows by the
columns that do not aggregate, and keeps an accumulator for each column of each group.
-/

import DrStrange.Compute.Exec
import DrStrange.Lib.SortedMap

namespace DrStrange.Compute

open Std DrStrange.Graph Lib

/-! ### Accumulators -/

/-- The state of one column within a group; `key` stands for a column that the group's key holds. -/
inductive Acc where
  | key
  | count (n : ℤ)
  | sum (ints : ℤ) (floats : UInt64) (floated : Bool)
  | avg (total : UInt64) (n : ℕ)
  | min (best : Option PropValue)
  | max (best : Option PropValue)
  | collect (items : List PropValue)
  | distinct (seen : List (List PropValue × Unit)) (inner : Acc)

/-- `i64::saturating_add`. -/
def saturatingAdd (a b : ℤ) : ℤ := Max.max (-2 ^ 63) (Min.min (2 ^ 63 - 1) (a + b))

/-- A value as a double for the numeric folds. -/
def numeric : PropValue → Option UInt64
  | .int value => some (double value)
  | .float bits => some bits
  | _ => none

/-- The fold of an aggregate before any row. -/
def AggFunc.start : AggFunc → Acc
  | .count => .count 0
  | .sum => .sum 0 0 false
  | .avg => .avg 0 0
  | .min => .min none
  | .max => .max none
  | .collect => .collect []

def Acc.forItem (item : ProjItem) : Acc :=
  match item.expr with
  | .value _ => .key
  | .agg fold =>
    if fold.distinct && fold.arg.isSome then .distinct [] fold.func.start else fold.func.start

section

variable (machine : Machine)

/-- One value that is not null, folded. -/
def Acc.fold (value : PropValue) : Acc → Acc
  | .key => .key
  | .distinct seen inner => .distinct seen inner
  | .count n => .count (n + 1)
  | .sum ints floats floated =>
    match value with
    | .int i => .sum (saturatingAdd ints i) floats floated
    | .float f => .sum ints (machine.add64 floats f) true
    | _ => .sum ints floats floated
  | .avg total n =>
    match numeric value with
    | some x => .avg (machine.add64 total x) (n + 1)
    | none => .avg total n
  | .min best => .min (if best.all fun b => totalCmp value b = .lt then some value else best)
  | .max best => .max (if best.all fun b => totalCmp value b = .gt then some value else best)
  | .collect items => .collect (items ++ [value])

/-- Folds one row into a column: the row's value of the argument, or `none` for `count(*)`. -/
def Acc.take : Acc → Option PropValue → Acc
  | .distinct seen inner, none => .distinct seen inner
  | .distinct seen inner, some value =>
    if (SortedMap.find? tupleCmp [value] seen).isSome then .distinct seen inner
    else .distinct (SortedMap.insert tupleCmp [value] () seen) (inner.take (some value))
  | .count n, none => .count (n + 1)
  | acc, none => acc
  | acc, some .null => acc
  | acc, some value => acc.fold machine value

/-- The group's value of a column. -/
def Acc.finish : Acc → PropValue
  | .key => .null
  | .count n => .int n
  | .sum ints floats floated =>
    if floated then .float (machine.add64 (double ints) floats) else .int ints
  | .avg total n => if n = 0 then .null else .float (machine.div64 total (double n))
  | .min best | .max best => best.getD .null
  | .collect items => .list items
  | .distinct _ inner => inner.finish

/-! ### Groups -/

/-- Where each item reads its value of a row: a place among those evaluated, or nowhere. -/
def slots (next : ℕ) : List ProjItem → List (Option ℕ)
  | [] => []
  | item :: items =>
    match item.expr.arg with
    | some _ => some next :: slots (next + 1) items
    | none => none :: slots next items

/-- The groups by first appearance, and where the group of each key stands. -/
structure Groups where
  groups : List (List Acc)
  places : List (List PropValue × ℕ)

/-- The key of a row, from its evaluated values. -/
def keyOf (items : List ProjItem) (vals : List PropValue) : List PropValue :=
  ((items.zip (slots 0 items)).filter fun item => !item.1.expr.isAgg).map fun item =>
    (item.2.bind (vals[·]?)).getD .null

/-- The accumulators of a group with one row folded in. -/
def takeRow (items : List ProjItem) (vals : List PropValue) (accs : List Acc) : List Acc :=
  (accs.zip (items.zip (slots 0 items))).map fun (acc, item, slot) =>
    if item.expr.isAgg then acc.take machine (slot.bind (vals[·]?)) else acc

def Groups.take (items : List ProjItem) (state : Groups) (vals : List PropValue) : Groups :=
  let key := keyOf items vals
  match SortedMap.find? tupleCmp key state.places with
  | some i => { state with groups := state.groups.modify i (takeRow machine items vals) }
  | none =>
    { groups := state.groups ++ [takeRow machine items vals (items.map Acc.forItem)]
      places := SortedMap.insert tupleCmp key state.groups.length state.places }

/-- The columns of a group in the order of the items. -/
def tupleOf : List PropValue → List Acc → List PropValue
  | _, [] => []
  | key, .key :: accs => key.headD .null :: tupleOf key.tail accs
  | key, acc :: accs => acc.finish machine :: tupleOf key accs

/-- With no key column there is one group even of no rows. -/
def Groups.closed (items : List ProjItem) (state : Groups) : Groups :=
  if state.groups = [] ∧ items.all fun item => item.expr.isAgg then
    { groups := [items.map Acc.forItem], places := [([], 0)] }
  else state

/-- The groups in order of first appearance. -/
def Groups.finish (state : Groups) : List (List PropValue) :=
  let keyed := (state.places.map fun entry => (entry.2, entry.1)).mergeSort fun a b => a.1 ≤ b.1
  (keyed.zip state.groups).map fun group => tupleOf machine group.1.2 group.2

variable (reader : GraphReader)

def groupedTuples (rows : List Item) (proj : Projection) (need : BindingNeed) :
    Except Error (List (List PropValue)) := do
  let state ← rows.foldlM (fun (state : Groups) item => do
    return state.take machine proj.items (← rowValues machine reader (← item) (valueExprs proj) need))
    ⟨[], []⟩
  return (state.closed proj.items).finish machine

/-! ### Tuples of rows -/

/-- One tuple for each row, a repeated one dropped under `DISTINCT`. -/
def rowTuples (rows : List Item) (proj : Projection) (need : BindingNeed) :
    Except Error (List (List PropValue)) := do
  let state ← rows.foldlM
    (fun (state : List (List PropValue) × List (List PropValue × Unit)) item => do
    let tuple ← rowValues machine reader (← item) (valueExprs proj) need
    if proj.distinct then
      if (SortedMap.find? tupleCmp tuple state.2).isSome then return state
      else return (state.1 ++ [tuple], SortedMap.insert tupleCmp tuple () state.2)
    else return (state.1 ++ [tuple], state.2)) ([], [])
  return state.1

/-! ### Tables -/

structure Table where
  columns : List String
  rows : List (List PropValue)

/-- The tail of a projection: sorted, which is stable, then cut. -/
def Projection.tail (proj : Projection) (rows : List (List PropValue)) : List (List PropValue) :=
  let sorted := if proj.orderBy = [] then rows
    else rows.mergeSort fun a b => cmpColumns a b proj.orderBy ≠ .gt
  let skipped := proj.skip.elim sorted sorted.drop
  proj.limit.elim skipped skipped.take

def executeTable (plan : LogicalPlan) : Except Error Table := do
  let proj := plan.project.getD {}
  let rows ← execute machine reader plan
  let tuples ←
    if proj.items.any fun item => item.expr.isAgg then
      groupedTuples machine reader rows proj plan.bindingNeed
    else rowTuples machine reader rows proj plan.bindingNeed
  return ⟨proj.items.map ProjItem.name, proj.tail tuples⟩

end

end DrStrange.Compute
