/-
**Rows in another order.**

A traversal, a filter and a sort make of the same rows in another order the same rows in some order,
and so does a projection of one tuple for each row. What counts the rows from the start, keeps the
first of equals or folds them does not. A plan whose steps and projection are all of the first kind
gives the same rows whatever order they come in (`Reordered.execute`, `Reordered.executeTable`).
-/

import DrStrange.Compute.Live
import DrStrange.Compute.Typed

namespace DrStrange.Compute

open Std DrStrange.Graph Lib

variable {machine : Machine} {reader : GraphReader} {need : BindingNeed} {items items' : List Item}
  {proj : Projection}

/-! ### Steps -/

/-- A step that does not depend on the order of its rows. -/
def Step.OrderFree : Step → Prop
  | .expand .. | .expandVar .. | .filter _ | .sort _ => True
  | .skip _ | .limit _ | .distinct | .frontierTopK .. | .expandBeam .. => False

/-- A projection that does not: a tuple for each row, and none cut. -/
def Projection.OrderFree (proj : Projection) : Prop :=
  (∀ item ∈ proj.items, item.expr.isAgg = false) ∧ proj.distinct = false ∧ proj.skip = none ∧
    proj.limit = none

def LogicalPlan.OrderFree (plan : LogicalPlan) : Prop :=
  (∀ step ∈ plan.steps, step.OrderFree) ∧ (plan.project.getD {}).OrderFree

theorem drain_eq : drain items = items.mapM id := by
  induction items with
  | nil => rfl
  | cons item items ih =>
    rw [List.mapM_cons]
    cases item with
    | error e => rfl
    | ok row => exact congrArg (fun rest => rest >>= fun rest => Except.ok (row :: rest)) ih

theorem drain_alike (same : items.Perm items') : Alike List.Perm (drain items) (drain items') := by
  rw [drain_eq, drain_eq]
  exact .mapM same

theorem sortRows_alike {keys : List SortKey} (same : items.Perm items') :
    Alike List.Perm (sortRows machine reader keys need items)
      (sortRows machine reader keys need items') := by
  refine (Alike.mapM same).bind fun decorated decorated' same => .ok ?_
  refine List.Perm.map Prod.snd ?_
  exact (List.mergeSort_perm _ _).trans (same.trans (List.mergeSort_perm _ _).symm)

theorem applyStep_alike {step : Step} (free : step.OrderFree) (same : items.Perm items') :
    Alike List.Perm (applyStep machine reader need items step)
      (applyStep machine reader need items' step) := by
  cases step with
  | expand dir ty => exact .ok (same.flatMap_right _)
  | expandVar dir ty min max => exact .ok (same.flatMap_right _)
  | filter pred => exact .ok (same.filterMap _)
  | sort keys => exact (sortRows_alike same).bind fun rows rows' same => .ok (same.map _)
  | skip | limit | distinct | frontierTopK | expandBeam => exact free.elim

theorem applySteps_alike {steps : List Step} (free : ∀ step ∈ steps, step.OrderFree)
    (same : items.Perm items') :
    Alike List.Perm (steps.foldlM (applyStep machine reader need) items)
      (steps.foldlM (applyStep machine reader need) items') := by
  induction steps generalizing items items' with
  | nil => exact .ok same
  | cons step steps ih =>
    obtain ⟨here, free⟩ := List.forall_mem_cons.mp free
    rw [List.foldlM_cons, List.foldlM_cons]
    exact (applyStep_alike here same).bind fun next next' same => ih free same

/-! ### Tables -/

/-- Without `DISTINCT` there is one tuple for each row. -/
theorem rowTuples_eq (all : proj.distinct = false) :
    rowTuples machine reader items proj need =
      items.mapM fun item => item.bind fun row =>
        rowValues machine reader row (valueExprs proj) need := by
  have round : (fun (state : List (List PropValue) × List (List PropValue × Unit)) (item : Item) => do
      let tuple ← rowValues machine reader (← item) (valueExprs proj) need
      if proj.distinct then
        if (SortedMap.find? tupleCmp tuple state.2).isSome then return state
        else return (state.1 ++ [tuple], SortedMap.insert tupleCmp tuple () state.2)
      else return (state.1 ++ [tuple], state.2)) =
      fun state item => (item.bind fun row =>
        rowValues machine reader row (valueExprs proj) need).map fun tuple =>
          (state.1 ++ [tuple], state.2) := by
    funext state item
    cases item with
    | error e => rfl
    | ok row =>
      change (rowValues machine reader row (valueExprs proj) need >>= fun tuple => _) =
        (rowValues machine reader row (valueExprs proj) need).map _
      cases rowValues machine reader row (valueExprs proj) need with
      | error e => rfl
      | ok tuple =>
        simp only [all, Bool.false_eq_true, if_false]
        rfl
  unfold rowTuples
  rw [round, foldlM_map]
  cases items.mapM fun item => item.bind fun row =>
      rowValues machine reader row (valueExprs proj) need with
  | error e => rfl
  | ok tuples =>
    suffices ∀ before : List (List PropValue) × List (List PropValue × Unit),
        (tuples.foldl (fun state tuple => (state.1 ++ [tuple], state.2)) before).1 =
          before.1 ++ tuples from congrArg Except.ok (this ([], []))
    induction tuples with
    | nil => exact fun before => (List.append_nil _).symm
    | cons tuple tuples ih =>
      intro before
      rw [List.foldl_cons, ih, List.append_assoc]
      rfl

theorem Projection.tail_perm (free : proj.OrderFree) {tuples tuples' : List (List PropValue)}
    (same : tuples.Perm tuples') : (proj.tail tuples).Perm (proj.tail tuples') := by
  obtain ⟨-, -, skip, limit⟩ := free
  simp only [tail, skip, limit, Option.elim_none]
  split
  · exact same
  · exact (List.mergeSort_perm _ _).trans (same.trans (List.mergeSort_perm _ _).symm)

/-- The same columns, and the same rows in some order. -/
def Table.Same (table table' : Table) : Prop :=
  table.columns = table'.columns ∧ table.rows.Perm table'.rows

/-! ### Plans -/

/-- The rows of a source after some steps. -/
def rowsAfter (machine : Machine) (reader : GraphReader) (need : BindingNeed) (source : Source)
    (steps : List Step) : Except Error (List Item) := do
  let rows ← sourceRows machine reader source
  steps.foldlM (applyStep machine reader need) (rows.map .ok)

theorem rowsAfter_append {source : Source} {front rest : List Step} :
    rowsAfter machine reader need source (front ++ rest) =
      rowsAfter machine reader need source front >>=
        fun items => rest.foldlM (applyStep machine reader need) items := by
  unfold rowsAfter
  cases sourceRows machine reader source with
  | error e => rfl
  | ok rows => exact List.foldlM_append

/-- Two plans that end in the same way, and before that have the same rows in some order. -/
structure Reordered (machine : Machine) (reader : GraphReader) (plan plan' : LogicalPlan) : Prop where
  project : plan.project = plan'.project
  need : plan.bindingNeed = plan'.bindingNeed
  rows : ∃ front front' rest, plan.steps = front ++ rest ∧ plan'.steps = front' ++ rest ∧
    Alike List.Perm (rowsAfter machine reader plan.bindingNeed plan.source front)
      (rowsAfter machine reader plan'.bindingNeed plan'.source front')

section Plans

variable {plan plan' : LogicalPlan}

theorem Reordered.refl : Reordered machine reader plan plan :=
  ⟨rfl, rfl, plan.steps, plan.steps, [], (List.append_nil _).symm, (List.append_nil _).symm,
    .refl .refl _⟩

variable (reordered : Reordered machine reader plan plan') (free : plan.OrderFree)
include reordered free

theorem Reordered.execute :
    Alike List.Perm (execute machine reader plan) (execute machine reader plan') := by
  obtain ⟨front, front', rest, steps, steps', alike⟩ := reordered.rows
  change Alike List.Perm (rowsAfter machine reader plan.bindingNeed plan.source plan.steps)
    (rowsAfter machine reader plan'.bindingNeed plan'.source plan'.steps)
  rw [steps, steps', rowsAfter_append, rowsAfter_append]
  refine alike.bind fun items items' same => ?_
  rw [← reordered.need]
  exact applySteps_alike (fun step member =>
    free.1 step (steps ▸ List.mem_append_right _ member)) same

/-- The rows of the two plans. -/
theorem Reordered.drained :
    Alike List.Perm (Compute.execute machine reader plan >>= drain)
      (Compute.execute machine reader plan' >>= drain) :=
  (reordered.execute free).bind fun _ _ same => drain_alike same

/-- The tables of the two plans. -/
theorem Reordered.executeTable :
    Alike Table.Same (executeTable machine reader plan) (executeTable machine reader plan') := by
  unfold Compute.executeTable
  rw [← reordered.project, ← reordered.need]
  have free' := free.2
  generalize plan.project.getD {} = proj at free'
  refine (reordered.execute free).bind fun items items' same => ?_
  have plain : (proj.items.any fun item => item.expr.isAgg) = false :=
    List.any_eq_false.mpr fun item member => by rw [free'.1 item member]; exact nofun
  simp only [plain, Bool.false_eq_true, if_false, rowTuples_eq free'.2.1]
  exact (Alike.mapM same).bind fun tuples tuples' same => .ok ⟨rfl, Projection.tail_perm free' same⟩

end Plans

end DrStrange.Compute
