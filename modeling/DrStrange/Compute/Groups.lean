/-
**Aggregation is a group-by.**

The reference groups whole rows: the classes of rows with equal keys in order of first appearance, the
key columns read off the first row of a class and each aggregate a fold of the values of the class.
The executor walks the rows once, with places of evaluated values, accumulators and an ordered map
from keys to groups (`Groups.Holds`), and arrives at the same tuples (`executeTable_groupBy`).
-/

import DrStrange.Compute.Typed
import DrStrange.Lib.Classes

namespace DrStrange.Compute

open Std (ExtTreeMap)
open DrStrange.Graph Lib

section

variable (machine : Machine)

/-! ### The reference -/

/-- The fold of an aggregate over values that are not null. -/
def AggFunc.of (values : List PropValue) : AggFunc → PropValue
  | .count => .int values.length
  | .sum =>
    let ints := (values.filterMap fun value => match value with
      | .int i => some i
      | _ => none).foldl saturatingAdd 0
    let floats := values.filterMap fun value => match value with
      | .float f => some f
      | _ => none
    if floats = [] then .int ints
    else .float (machine.add64 (double ints) (floats.foldl machine.add64 0))
  | .avg =>
    let numbers := values.filterMap numeric
    if numbers = [] then .null
    else .float (machine.div64 (numbers.foldl machine.add64 0) (double numbers.length))
  | .min => (values.foldl (fun best value =>
    if best.all fun b => totalCmp value b = .lt then some value else best) none).getD .null
  | .max => (values.foldl (fun best value =>
    if best.all fun b => totalCmp value b = .gt then some value else best) none).getD .null
  | .collect => .list values

def sameValue (a b : PropValue) : Bool := totalCmp a b = .eq

/-- An aggregate of a class of rows: of its values that are not null, the distinct ones if asked.
`count(*)` counts the rows. -/
def Agg.of (agg : Agg) (group : List EvalCtx) : PropValue :=
  match agg.arg with
  | none => if agg.func = .count then .int group.length else agg.func.of machine []
  | some arg =>
    let values := (group.map fun ctx => eval machine ctx arg).filter fun value => !isNull value
    agg.func.of machine (if agg.distinct then firsts sameValue values else values)

/-- A column of a class of rows with its first one. -/
def column (first : EvalCtx) (group : List EvalCtx) : ProjExpr → PropValue
  | .value expr => eval machine first expr
  | .agg agg => agg.of machine group

/-- The key columns of a row. -/
def keyIn (items : List ProjItem) (ctx : EvalCtx) : List PropValue :=
  items.filterMap fun item => match item.expr with
    | .value expr => some (eval machine ctx expr)
    | .agg _ => none

def sameKey (items : List ProjItem) (a b : EvalCtx) : Bool :=
  tupleCmp (keyIn machine items a) (keyIn machine items b) = .eq

/-- One tuple for each class of rows with equal keys; of no rows one if there is no key column. -/
def groupBy (items : List ProjItem) (rows : List EvalCtx) : List (List PropValue) :=
  if rows = [] ∧ items.all fun item => item.expr.isAgg then
    [items.map fun item => column machine {} [] item.expr]
  else
    (firsts (sameKey machine items) rows).map fun first =>
      items.map fun item => column machine first (rows.filter (sameKey machine items first)) item.expr

variable {machine}

/-! ### The comparators -/

theorem tuple_orderedAt (tuple : List PropValue) (typed : ∀ value ∈ tuple, Typed value) :
    OrderedAt (fun tuple => ∀ value ∈ tuple, Typed value) tupleCmp tuple :=
  OrderedAt.compareLex fun value member => totalCmp_orderedAt (typed value member)

theorem sameValue_equivalence : EquivalenceOn Typed sameValue :=
  equivalenceOn_of_orderedAt fun _ => totalCmp_orderedAt

def KeyTyped (machine : Machine) (items : List ProjItem) (ctx : EvalCtx) : Prop :=
  ∀ value ∈ keyIn machine items ctx, Typed value

variable {items : List ProjItem} {a b : PropValue}

theorem sameKey_equivalence : EquivalenceOn (KeyTyped machine items) (sameKey machine items) :=
  (equivalenceOn_of_orderedAt tuple_orderedAt).comap (f := keyIn machine items)

theorem tupleCmp_singleton : tupleCmp [a] [b] = totalCmp a b := by
  rw [tupleCmp, List.compareLex_cons_cons]
  cases totalCmp a b <;> rfl

theorem isNull_of_same (same : sameValue a b) : isNull a = isNull b := by
  have ranks : typeRank a = typeRank b := by
    by_contra apart
    rw [sameValue, decide_eq_true_eq, totalCmp_of_rank apart] at same
    exact apart (compare_eq_iff_eq.mp same)
  cases a <;> cases b <;> first | rfl | cases ranks

/-! ### Places -/

/-- What the items read of a row whose values are evaluated. -/
theorem slots_read {f : Expr → PropValue} {before : List PropValue} {items : List ProjItem} :
    (slots before.length items).map (fun slot => slot.bind
      ((before ++ (items.filterMap fun item => item.expr.arg).map f)[·]?)) =
      items.map fun item => item.expr.arg.map f := by
  induction items generalizing before with
  | nil => rfl
  | cons item items ih =>
    rw [slots]
    cases read : item.expr.arg with
    | none =>
      rw [List.map_cons, List.map_cons, read, List.filterMap_cons, read, ih]
      rfl
    | some arg =>
      rw [List.map_cons, List.map_cons, read, List.filterMap_cons, read]
      have later := @ih (before ++ [f arg])
      rw [List.length_append, List.append_assoc] at later
      refine congrArg₂ _ ?_ later
      simp

/-- The items with what each reads of a row. -/
theorem zip_slots {f : Expr → PropValue} :
    (items.zip (slots 0 items)).map (Prod.map id fun slot => slot.bind
      (((items.filterMap fun item => item.expr.arg).map f)[·]?)) =
      items.map fun item => (item, item.expr.arg.map f) := by
  rw [← List.zip_map_right, show (0 : ℕ) = ([] : List PropValue).length from rfl]
  have read := @slots_read f [] items
  rw [List.nil_append] at read
  rw [read, List.map_prod_left_eq_zip]

section

variable {items : List ProjItem} {ctx : EvalCtx} {values : List PropValue} {group : List EvalCtx}
  {seen : List (List PropValue × Unit)} {func : AggFunc} {item : ProjItem} {value : PropValue}
  {acc inner : Acc} {best : Option PropValue} {n : ℕ}

/-- The values that are evaluated of a row. -/
def rowOf (machine : Machine) (items : List ProjItem) (ctx : EvalCtx) : List PropValue :=
  (items.filterMap fun item => item.expr.arg).map (eval machine ctx)

theorem keyOf_rowOf : keyOf items (rowOf machine items ctx) = keyIn machine items ctx := by
  have split : keyOf items (rowOf machine items ctx) =
      (((items.zip (slots 0 items)).map (Prod.map id fun slot => slot.bind
        ((rowOf machine items ctx)[·]?))).filter fun item => !item.1.expr.isAgg).map fun item =>
          item.2.getD .null := by
    rw [List.filter_map, List.map_map]
    rfl
  rw [split, rowOf, zip_slots, List.filter_map, List.map_map, keyIn]
  clear split
  induction items with
  | nil => rfl
  | cons item items ih =>
    rw [List.filter_cons, List.filterMap_cons]
    cases kind : item.expr with
    | value expr =>
      rw [if_pos (by rw [Function.comp_apply, kind]; rfl), List.map_cons, ih, Function.comp_apply,
        kind]
      rfl
    | agg agg =>
      rw [if_neg (by rw [Function.comp_apply, kind]; simp [ProjExpr.isAgg]), ih]

/-- One row folded into the accumulator of an item. -/
def takeItem (machine : Machine) (ctx : EvalCtx) (item : ProjItem) (acc : Acc) : Acc :=
  if item.expr.isAgg then acc.take machine (item.expr.arg.map (eval machine ctx)) else acc

theorem takeRow_rowOf {accs : ProjItem → Acc} :
    takeRow machine items (rowOf machine items ctx) (items.map accs) =
      items.map fun item => takeItem machine ctx item (accs item) := by
  have split : takeRow machine items (rowOf machine items ctx) (items.map accs) =
      ((items.map accs).zip ((items.zip (slots 0 items)).map (Prod.map id fun slot => slot.bind
        ((rowOf machine items ctx)[·]?)))).map fun entry =>
          if entry.2.1.expr.isAgg then entry.1.take machine entry.2.2 else entry.1 := by
    rw [List.zip_map_right, List.map_map]
    rfl
  rw [split, rowOf, zip_slots, List.zip_map', List.map_map]
  rfl

/-! ### The accumulator of an aggregate -/

/-- An accumulator that keeps no set of values. -/
def Acc.Plain : Acc → Prop
  | .distinct .. => False
  | _ => True

theorem Acc.take_plain {acc : Acc} (plain : acc.Plain) {value : PropValue} :
    acc.take machine (some value) = if isNull value then acc else acc.fold machine value := by
  cases acc with
  | distinct => cases plain
  | _ => cases value <;> rfl

theorem Acc.fold_plain (plain : acc.Plain) : (acc.fold machine value).Plain := by
  cases acc with
  | distinct => cases plain
  | sum => cases value <;> trivial
  | avg =>
    unfold fold
    dsimp only
    split <;> trivial
  | _ => trivial

theorem AggFunc.start_plain : func.start.Plain := by cases func <;> trivial

/-- Values folded one after the other. -/
def Acc.foldAll (machine : Machine) (acc : Acc) (values : List PropValue) : Acc :=
  values.foldl (fun acc value => acc.fold machine value) acc

/-- Rows taken one after the other. -/
def Acc.takeAll (machine : Machine) (acc : Acc) (rows : List (Option PropValue)) : Acc :=
  rows.foldl (fun acc value => acc.take machine value) acc

theorem Acc.takeAll_append {rows : List (Option PropValue)} {row : Option PropValue} :
    acc.takeAll machine (rows ++ [row]) = (acc.takeAll machine rows).take machine row := by
  rw [takeAll, List.foldl_append]
  rfl

/-- A plain accumulator passes over nulls. -/
theorem Acc.takeAll_some (plain : acc.Plain) :
    acc.takeAll machine (values.map some) =
      acc.foldAll machine (values.filter fun value => !isNull value) := by
  induction values generalizing acc with
  | nil => rfl
  | cons value values ih =>
    rw [List.map_cons, takeAll, List.foldl_cons, take_plain plain, List.filter_cons]
    cases null : isNull value with
    | true => exact ih plain
    | false => exact ih (fold_plain plain)

theorem fold_count {n : ℤ} :
    Acc.foldAll machine (.count n) values = .count (n + values.length) := by
  induction values generalizing n with
  | nil => simp [Acc.foldAll]
  | cons value values ih =>
    rw [Acc.foldAll, List.foldl_cons, Acc.fold, ← Acc.foldAll, ih, List.length_cons]
    congr 1
    push_cast
    omega

def asInt : PropValue → Option ℤ
  | .int i => some i
  | _ => none

def asFloat : PropValue → Option UInt64
  | .float f => some f
  | _ => none

theorem fold_sum {ints : ℤ} {floats : UInt64} {floated : Bool} :
    Acc.foldAll machine (.sum ints floats floated) values =
      .sum ((values.filterMap asInt).foldl saturatingAdd ints)
        ((values.filterMap asFloat).foldl machine.add64 floats)
        (floated || values.filterMap asFloat ≠ []) := by
  induction values generalizing ints floats floated with
  | nil => simp [Acc.foldAll]
  | cons value values ih =>
    rw [Acc.foldAll, List.foldl_cons]
    cases value with
    | int i => exact ih
    | float f =>
      refine ih.trans ?_
      rw [List.filterMap_cons_none (show asInt (.float f) = none from rfl),
        List.filterMap_cons_some (show asFloat (.float f) = some f from rfl)]
      simp
    | _ => exact ih

theorem fold_avg {total : UInt64} :
    Acc.foldAll machine (.avg total n) values =
      .avg ((values.filterMap numeric).foldl machine.add64 total)
        (n + (values.filterMap numeric).length) := by
  induction values generalizing total n with
  | nil => rfl
  | cons value values ih =>
    rw [Acc.foldAll, List.foldl_cons, List.filterMap_cons]
    simp only [Acc.fold]
    cases numeric value with
    | none => exact ih
    | some x =>
      refine ih.trans ?_
      simp only [List.foldl_cons, List.length_cons]
      congr 1
      omega

theorem fold_min :
    Acc.foldAll machine (.min best) values =
      .min (values.foldl (fun best value =>
        if best.all fun b => totalCmp value b = .lt then some value else best) best) := by
  induction values generalizing best with
  | nil => rfl
  | cons value values ih => exact ih

theorem fold_max :
    Acc.foldAll machine (.max best) values =
      .max (values.foldl (fun best value =>
        if best.all fun b => totalCmp value b = .gt then some value else best) best) := by
  induction values generalizing best with
  | nil => rfl
  | cons value values ih => exact ih

theorem fold_collect {items : List PropValue} :
    Acc.foldAll machine (.collect items) values =
      .collect (items ++ values) := by
  induction values generalizing items with
  | nil => simp [Acc.foldAll]
  | cons value values ih =>
    refine ih.trans ?_
    rw [List.append_assoc]
    rfl

/-- What a plain accumulator comes to. -/
theorem AggFunc.fold_finish :
    (func.start.foldAll machine values).finish machine =
      func.of machine values := by
  cases func with
  | count =>
    rw [start, fold_count]
    simp [Acc.finish, AggFunc.of]
  | sum =>
    rw [start, fold_sum]
    simp only [Acc.finish, AggFunc.of, Bool.false_or, decide_eq_true_eq, ite_not]
    rfl
  | avg =>
    rw [start, fold_avg]
    simp only [Acc.finish, AggFunc.of, Nat.zero_add, List.length_eq_zero_iff]
  | min =>
    rw [start, fold_min]
    rfl
  | max =>
    rw [start, fold_max]
    rfl
  | collect =>
    rw [start, fold_collect]
    rfl

/-! ### `DISTINCT` -/

/-- The state of a `DISTINCT` aggregate: the values that appeared, each once, and the fold of them. -/
structure DistinctHolds (machine : Machine) (func : AggFunc) (values : List PropValue)
    (seen : List (List PropValue × Unit)) (inner : Acc) : Prop where
  among : seen.Perm ((firsts sameValue values).map fun value => ([value], ()))
  sorted : SortedMap.Sorted tupleCmp seen
  folded : inner = func.start.takeAll machine ((firsts sameValue values).map some)

theorem DistinctHolds.keys (holds : DistinctHolds machine func values seen inner)
    (typed : ∀ value ∈ values, Typed value) :
    ∀ entry ∈ seen, ∀ value ∈ entry.1, Typed value := by
  intro entry member
  obtain ⟨value, first, rfl⟩ := List.mem_map.mp (holds.among.subset member)
  exact List.forall_mem_singleton.mpr (typed value (firsts_sublist.subset first))

theorem DistinctHolds.find?_isSome (holds : DistinctHolds machine func values seen inner)
    (typed : ∀ value ∈ values, Typed value) (last : Typed value) :
    (SortedMap.find? tupleCmp [value] seen).isSome =
      (firsts sameValue values).any (sameValue · value) := by
  have here : ∀ v ∈ [value], Typed v := List.forall_mem_singleton.mpr last
  rw [Bool.eq_iff_iff, Option.isSome_iff_exists, List.any_eq_true]
  constructor
  · rintro ⟨_, found⟩
    obtain ⟨entry, member, equal, -⟩ :=
      (SortedMap.find?_eq_some tuple_orderedAt here (holds.keys typed) holds.sorted).mp found
    obtain ⟨other, first, rfl⟩ := List.mem_map.mp (holds.among.subset member)
    rw [tupleCmp_singleton] at equal
    exact ⟨other, first, sameValue_equivalence.symm _ _ last
      (typed other (firsts_sublist.subset first))
      (by simpa [sameValue] using equal)⟩
  · rintro ⟨other, first, same⟩
    refine ⟨(), (SortedMap.find?_eq_some tuple_orderedAt here (holds.keys typed) holds.sorted).mpr
      ⟨([other], ()), holds.among.symm.subset (List.mem_map_of_mem first), ?_, rfl⟩⟩
    have back := sameValue_equivalence.symm _ _ (typed other (firsts_sublist.subset first)) last same
    rw [tupleCmp_singleton]
    simpa [sameValue] using back

theorem DistinctHolds.take (holds : DistinctHolds machine func values seen inner)
    (typed : ∀ value ∈ values, Typed value) (last : Typed value) : ∃ seen' inner',
      (Acc.distinct seen inner).take machine (some value) = .distinct seen' inner' ∧
        DistinctHolds machine func (values ++ [value]) seen' inner' := by
  have here : ∀ v ∈ [value], Typed v := List.forall_mem_singleton.mpr last
  have known := holds.find?_isSome typed last
  have grown := firsts_append_singleton sameValue_equivalence typed last
  rw [Acc.take, known]
  split_ifs with repeated
  · rw [if_pos repeated] at grown
    exact ⟨seen, inner, rfl, by rw [grown]; exact holds.among, holds.sorted, by
      rw [grown]; exact holds.folded⟩
  · rw [if_neg repeated] at grown
    have absent := (SortedMap.find?_eq_none tuple_orderedAt here (holds.keys typed) holds.sorted).mp
      (Option.not_isSome_iff_eq_none.mp (by rw [known]; exact repeated))
    refine ⟨_, _, rfl, ?_, ?_, ?_⟩
    · rw [grown, List.map_append]
      exact (SortedMap.insert_perm absent).trans
        ((holds.among.cons _).trans (List.perm_append_singleton _ _).symm)
    · exact SortedMap.insert_sorted tuple_orderedAt here (holds.keys typed) holds.sorted absent
    · rw [grown, List.map_append, List.map_singleton, Acc.takeAll_append, ← holds.folded]

theorem DistinctHolds.all (typed : ∀ value ∈ values, Typed value) : ∃ seen inner,
      (Acc.distinct [] func.start).takeAll machine (values.map some) = .distinct seen inner ∧
        DistinctHolds machine func values seen inner := by
  induction values using List.reverseRecOn with
  | nil => exact ⟨[], func.start, rfl, .refl _, .nil, rfl⟩
  | append_singleton values value ih =>
    obtain ⟨before, last⟩ := List.forall_mem_append.mp typed
    obtain ⟨seen, inner, reached, holds⟩ := ih before
    rw [List.map_append, List.map_singleton, Acc.takeAll_append, reached]
    exact holds.take before (last value List.mem_cons_self)

/-! ### The accumulator of a group -/

/-- The accumulator of an item after the rows of a group. -/
def accOf (machine : Machine) (group : List EvalCtx) (item : ProjItem) : Acc :=
  group.foldl (fun acc ctx => takeItem machine ctx item acc) (Acc.forItem item)

theorem accOf_append :
    accOf machine (group ++ [ctx]) item = takeItem machine ctx item (accOf machine group item) := by
  rw [accOf, List.foldl_append]
  rfl

theorem accOf_agg (agg : item.expr.isAgg) :
    accOf machine group item =
      (Acc.forItem item).takeAll machine (group.map fun ctx =>
        item.expr.arg.map (eval machine ctx)) := by
  induction group using List.reverseRecOn with
  | nil => rfl
  | append_singleton group ctx ih =>
    rw [accOf_append, ih, List.map_append, List.map_singleton, Acc.takeAll_append, takeItem,
      if_pos agg]

theorem accOf_value {expr : Expr} (value : item.expr = .value expr) :
    accOf machine group item = .key := by
  induction group using List.reverseRecOn with
  | nil => rw [accOf, List.foldl_nil, Acc.forItem, value]
  | append_singleton group ctx ih =>
    rw [accOf_append, ih, takeItem, if_neg (by simp [value, ProjExpr.isAgg])]

/-- `count(*)` counts rows, and the other folds read nothing without an argument. -/
theorem takeAll_none :
    (func.start.takeAll machine (List.replicate n none)).finish machine =
      if func = .count then .int n else func.of machine [] := by
  have counted (k : ℤ) : (Acc.count k).takeAll machine (List.replicate n none) = .count (k + n) := by
    induction n generalizing k with
    | zero => simp [Acc.takeAll]
    | succ n ih =>
      rw [List.replicate_succ, Acc.takeAll, List.foldl_cons, Acc.take, ← Acc.takeAll, ih]
      congr 1
      push_cast
      omega
  have idle (acc : Acc) (same : acc.take machine none = acc) :
      acc.takeAll machine (List.replicate n none) = acc := by
    clear counted
    induction n with
    | zero => rfl
    | succ n ih => rw [List.replicate_succ, Acc.takeAll, List.foldl_cons, same, ← Acc.takeAll, ih]
  cases func with
  | count =>
    rw [AggFunc.start, counted]
    simp [Acc.finish]
  | _ => rw [idle _ rfl]; rfl

/-- **The accumulator of an aggregate comes to the fold of the group's values.** -/
theorem accOf_finish {agg : Agg} (kind : item.expr = .agg agg)
    (typed : ∀ arg ∈ agg.arg, ∀ ctx ∈ group, Typed (eval machine ctx arg)) :
    (accOf machine group item).finish machine = agg.of machine group := by
  have start : Acc.forItem item =
      if agg.distinct && agg.arg.isSome then .distinct [] agg.func.start else agg.func.start := by
    rw [Acc.forItem, kind]
  rw [accOf_agg (by rw [kind]; rfl), start, kind, ProjExpr.arg, Agg.of]
  cases argument : agg.arg with
  | none =>
    rw [Option.isSome_none, Bool.and_false, if_neg (by decide)]
    simpa using takeAll_none
  | some arg =>
    have values : (group.map fun ctx => (some arg).map (eval machine ctx)) =
        (group.map fun ctx => eval machine ctx arg).map some := by simp
    rw [Option.isSome_some, Bool.and_true, values]
    cases agg.distinct with
    | false =>
      rw [if_neg (by decide), Acc.takeAll_some AggFunc.start_plain, AggFunc.fold_finish]
      rfl
    | true =>
      obtain ⟨seen, inner, reached, holds⟩ : ∃ seen inner, _ ∧
          DistinctHolds machine agg.func (group.map fun ctx => eval machine ctx arg) seen inner :=
        DistinctHolds.all (List.forall_mem_map.mpr (typed arg argument))
      rw [if_pos rfl, reached, Acc.finish, holds.folded, Acc.takeAll_some AggFunc.start_plain,
        AggFunc.fold_finish, filter_firsts fun a b same => by rw [isNull_of_same same]]
      rfl

/-! ### The groups -/

/-- The groups after some rows: the classes so far, with the accumulators of their rows, and where the
group of each key stands. -/
structure Groups.Holds (machine : Machine) (items : List ProjItem) (rows : List EvalCtx)
    (state : Groups) : Prop where
  classes : state.groups = (firsts (sameKey machine items) rows).map fun first =>
    items.map (accOf machine (rows.filter (sameKey machine items first)))
  among : state.places.Perm
    (((firsts (sameKey machine items) rows).map (keyIn machine items)).zipIdx)
  sorted : SortedMap.Sorted tupleCmp state.places

section

variable {rows : List EvalCtx} {state : Groups} {first : EvalCtx}

theorem Groups.Holds.keys (holds : state.Holds machine items rows)
    (typed : ∀ ctx ∈ rows, KeyTyped machine items ctx) :
    ∀ entry ∈ state.places, ∀ value ∈ entry.1, Typed value := by
  intro entry member
  have place := List.mem_zipIdx_iff_getElem?.mp (holds.among.subset member)
  obtain ⟨first, among, same⟩ := List.mem_map.mp (List.mem_of_getElem? place)
  rw [← same]
  exact typed first (firsts_sublist.subset among)

/-- The place that is found for a row's key is that of its class. -/
theorem Groups.Holds.found (holds : state.Holds machine items rows)
    (typed : ∀ ctx ∈ rows, KeyTyped machine items ctx) (last : KeyTyped machine items ctx) {i : ℕ}
    (found : SortedMap.find? tupleCmp (keyIn machine items ctx) state.places = some i) :
    ∃ first, (firsts (sameKey machine items) rows)[i]? = some first ∧
      sameKey machine items first ctx := by
  obtain ⟨entry, member, equal, rfl⟩ :=
    (SortedMap.find?_eq_some tuple_orderedAt last (holds.keys typed) holds.sorted).mp found
  have place := List.mem_zipIdx_iff_getElem?.mp (holds.among.subset member)
  rw [List.getElem?_map, Option.map_eq_some_iff] at place
  obtain ⟨first, here, same⟩ := place
  refine ⟨first, here, sameKey_equivalence.symm _ _ last ?_ ?_⟩
  · exact typed first (firsts_sublist.subset (List.mem_of_getElem? here))
  · rw [sameKey, same, decide_eq_true_eq]
    exact equal

theorem Groups.Holds.absent (holds : state.Holds machine items rows)
    (typed : ∀ ctx ∈ rows, KeyTyped machine items ctx) (last : KeyTyped machine items ctx)
    (missed : SortedMap.find? tupleCmp (keyIn machine items ctx) state.places = none) :
    (∀ entry ∈ state.places, tupleCmp (keyIn machine items ctx) entry.1 ≠ .eq) ∧
      ∀ first ∈ firsts (sameKey machine items) rows, sameKey machine items first ctx = false := by
  have apart := (SortedMap.find?_eq_none tuple_orderedAt last (holds.keys typed) holds.sorted).mp
    missed
  refine ⟨apart, fun first among => ?_⟩
  obtain ⟨i, here⟩ := List.mem_iff_getElem?.mp among
  by_contra same
  rw [Bool.not_eq_false] at same
  have back := sameKey_equivalence.symm _ _ (typed first (firsts_sublist.subset among)) last same
  rw [sameKey, decide_eq_true_eq] at back
  refine apart (keyIn machine items first, i) (holds.among.symm.subset ?_) back
  rw [List.mem_zipIdx_iff_getElem?, List.getElem?_map, here]
  rfl

/-- **One row more.** -/
theorem Groups.Holds.take (holds : state.Holds machine items rows)
    (typed : ∀ ctx ∈ rows, KeyTyped machine items ctx) (last : KeyTyped machine items ctx) :
    (state.take machine items (rowOf machine items ctx)).Holds machine items (rows ++ [ctx]) := by
  have grown := firsts_append_singleton sameKey_equivalence typed last
  have apart {first : EvalCtx} (other : sameKey machine items first ctx = false) :
      (rows ++ [ctx]).filter (sameKey machine items first) =
        rows.filter (sameKey machine items first) := by
    rw [List.filter_append, List.filter_singleton, other]
    simp
  rw [Groups.take, keyOf_rowOf]
  cases found : SortedMap.find? tupleCmp (keyIn machine items ctx) state.places with
  | some i =>
    obtain ⟨first, here, same⟩ := holds.found typed last found
    have known : (firsts (sameKey machine items) rows).any (sameKey machine items · ctx) :=
      List.any_eq_true.mpr ⟨first, List.mem_of_getElem? here, same⟩
    rw [if_pos known] at grown
    refine ⟨?_, by rw [grown]; exact holds.among, holds.sorted⟩
    refine List.ext_getElem? fun j => ?_
    rw [List.getElem?_modify, holds.classes, grown, List.getElem?_map, List.getElem?_map]
    by_cases place : i = j
    · subst place
      have here' : (rows ++ [ctx]).filter (sameKey machine items first) =
          rows.filter (sameKey machine items first) ++ [ctx] := by
        rw [List.filter_append, List.filter_singleton, same]
        rfl
      simp only [here, Option.map_eq_map, Option.map_some, if_true, here', takeRow_rowOf]
      exact congrArg some (List.map_congr_left fun item _ => accOf_append.symm)
    · simp only [if_neg place, id_map']
      cases there : (firsts (sameKey machine items) rows)[j]? with
      | none => rfl
      | some other =>
        refine congrArg some ?_
        dsimp only
        rw [apart]
        by_contra covered
        rw [Bool.not_eq_false] at covered
        have typedHere := typed first (firsts_sublist.subset (List.mem_of_getElem? here))
        have typedThere := typed other (firsts_sublist.subset (List.mem_of_getElem? there))
        exact place (firsts_place sameKey_equivalence typed here there
          (sameKey_equivalence.trans _ _ _ typedHere last typedThere same
            (sameKey_equivalence.symm _ _ typedThere last covered)))
  | none =>
    obtain ⟨missing, others⟩ := holds.absent typed last found
    have unknown : ¬ (firsts (sameKey machine items) rows).any (sameKey machine items · ctx) := by
      rw [List.any_eq_true]
      rintro ⟨first, among, same⟩
      rw [others first among] at same
      cases same
    rw [if_neg unknown] at grown
    have alone : (rows ++ [ctx]).filter (sameKey machine items ctx) = [ctx] := by
      rw [List.filter_append, List.filter_singleton, sameKey_equivalence.refl ctx last,
        List.filter_eq_nil_iff.mpr]
      · rfl
      · intro row member same
        obtain ⟨first, among, covers⟩ := exists_first sameKey_equivalence typed member
        have typedFirst := typed first (firsts_sublist.subset among)
        have whole := sameKey_equivalence.trans _ _ _ typedFirst (typed row member) last covers
          (sameKey_equivalence.symm _ _ last (typed row member) same)
        rw [others first among] at whole
        cases whole
    refine ⟨?_, ?_, SortedMap.insert_sorted tuple_orderedAt last (holds.keys typed)
      holds.sorted missing⟩
    · rw [grown, List.map_append, List.map_singleton, alone, holds.classes, takeRow_rowOf]
      refine congrArg (· ++ _) (List.map_congr_left fun first among => ?_)
      rw [apart (others first among)]
    · have last : (((firsts (sameKey machine items) rows) ++ [ctx]).map
          (keyIn machine items)).zipIdx =
          ((firsts (sameKey machine items) rows).map (keyIn machine items)).zipIdx ++
            [(keyIn machine items ctx, state.groups.length)] := by
        simp [List.zipIdx_append, holds.classes]
      rw [grown, last]
      exact (SortedMap.insert_perm missing).trans
        ((holds.among.cons _).trans (List.perm_append_singleton _ _).symm)

theorem Groups.Holds.all (typed : ∀ ctx ∈ rows, KeyTyped machine items ctx) :
    ((rows.map (rowOf machine items)).foldl (Groups.take machine items) ⟨[], []⟩).Holds machine items
      rows := by
  induction rows using List.reverseRecOn with
  | nil => exact ⟨rfl, .refl _, .nil⟩
  | append_singleton rows ctx ih =>
    obtain ⟨before, last⟩ := List.forall_mem_append.mp typed
    rw [List.map_append, List.foldl_append]
    exact (ih before).take before (last ctx List.mem_cons_self)

/-! ### The tuples -/

theorem Acc.take_ne_key (other : acc ≠ .key) {value : Option PropValue} :
    acc.take machine value ≠ .key := by
  cases acc with
  | key => exact absurd rfl other
  | distinct seen inner =>
    cases value with
    | none => nofun
    | some value =>
      rw [take]
      split_ifs <;> nofun
  | sum => cases value with
    | none => nofun
    | some value => cases value <;> nofun
  | avg => cases value with
    | none => nofun
    | some value =>
      rw [@take_plain _ (.avg _ _) trivial]
      unfold fold
      dsimp only
      split_ifs
      · nofun
      · split <;> nofun
  | _ => cases value with
    | none => nofun
    | some value => cases value <;> nofun

theorem accOf_ne_key (agg : item.expr.isAgg) : accOf machine group item ≠ .key := by
  induction group using List.reverseRecOn with
  | nil =>
    rw [accOf, List.foldl_nil, Acc.forItem]
    cases kind : item.expr with
    | value expr => rw [kind] at agg; cases agg
    | agg fold =>
      dsimp only
      split_ifs
      · nofun
      · cases fold.func <;> nofun
  | append_singleton group ctx ih =>
    rw [accOf_append, takeItem, if_pos agg]
    exact Acc.take_ne_key ih

theorem tupleOf_cons {key : List PropValue} {accs : List Acc} (other : acc ≠ .key) :
    tupleOf machine key (acc :: accs) = acc.finish machine :: tupleOf machine key accs := by
  cases acc with
  | key => exact absurd rfl other
  | _ => rfl

/-- The key columns and the aggregates of a group, in the order of the items. -/
theorem tupleOf_accOf
    (typed : ∀ item ∈ items, ∀ arg ∈ item.expr.arg, ∀ ctx ∈ group, Typed (eval machine ctx arg)) :
    tupleOf machine (keyIn machine items first) (items.map (accOf machine group)) =
      items.map fun item => column machine first group item.expr := by
  induction items with
  | nil => rfl
  | cons item items ih =>
    obtain ⟨here, rest⟩ := List.forall_mem_cons.mp typed
    rw [List.map_cons, List.map_cons, keyIn, List.filterMap_cons, ← keyIn]
    cases kind : item.expr with
    | value expr => rw [accOf_value kind, tupleOf, List.headD_cons, List.tail_cons, ih rest, column]
    | agg agg =>
      rw [kind] at here
      rw [tupleOf_cons (accOf_ne_key (by rw [kind]; rfl)), ih rest, accOf_finish kind here, column]

/-- The groups ordered by their places. -/
theorem mergeSort_places {keys : List (List PropValue)} {places : List (List PropValue × ℕ)}
    (among : places.Perm keys.zipIdx) :
    ((places.map fun entry => (entry.2, entry.1)).mergeSort fun a b => a.1 ≤ b.1) =
      keys.zipIdx.map fun entry => (entry.2, entry.1) := by
  have same := (List.mergeSort_perm (places.map fun entry => (entry.2, entry.1))
    fun a b => a.1 ≤ b.1).trans (among.map fun entry => (entry.2, entry.1))
  refine @List.Perm.eq_of_pairwise _ (fun a b => a.1 ≤ b.1) _ _ ?_ ?_ ?_ same
  · intro a b member member' le ge
    obtain ⟨entry, at', rfl⟩ := List.mem_map.mp (same.subset member)
    obtain ⟨entry', at'', rfl⟩ := List.mem_map.mp member'
    have index : entry.2 = entry'.2 := le_antisymm le ge
    rw [List.mem_zipIdx_iff_getElem?] at at' at''
    rw [index, at'', Option.some.injEq] at at'
    rw [index, at']
  · refine (List.pairwise_mergeSort ?_ ?_ _).imp fun le => of_decide_eq_true le
    · intro a b c first second
      simp only [decide_eq_true_eq] at first second ⊢
      exact first.trans second
    · intro a b
      simpa using le_total a.1 b.1
  · refine List.pairwise_map.mpr ?_
    have up : keys.zipIdx.Pairwise fun a b => a.2 < b.2 := by
      refine List.pairwise_map.mp ?_
      rw [List.zipIdx_map_snd]
      exact List.pairwise_lt_range'
    exact up.imp fun less => less.le

theorem Groups.Holds.finish (holds : state.Holds machine items rows)
    (typed : ∀ item ∈ items, ∀ arg ∈ item.expr.arg, ∀ ctx ∈ rows, Typed (eval machine ctx arg)) :
    state.finish machine = (firsts (sameKey machine items) rows).map fun first =>
      items.map fun item =>
        column machine first (rows.filter (sameKey machine items first)) item.expr := by
  have keyed : ((firsts (sameKey machine items) rows).map (keyIn machine items)).zipIdx.map
      (fun entry => (entry.2, entry.1)) =
        (firsts (sameKey machine items) rows).zipIdx.map fun entry =>
          (entry.2, keyIn machine items entry.1) := by
    rw [List.zipIdx_map, List.map_map]
    rfl
  have names : firsts (sameKey machine items) rows =
      (firsts (sameKey machine items) rows).zipIdx.map Prod.fst := (List.zipIdx_map_fst ..).symm
  rw [Groups.finish, mergeSort_places holds.among, keyed, holds.classes]
  generalize firsts (sameKey machine items) rows = classes at names ⊢
  conv_lhs => enter [2, 2]; rw [names]
  rw [List.map_map, List.zip_map', List.map_map]
  conv_rhs => rw [names, List.map_map]
  refine List.map_congr_left fun entry member => ?_
  exact tupleOf_accOf fun item among arg reads ctx inside =>
    typed item among arg reads ctx (List.mem_of_mem_filter inside)

theorem firsts_eq_nil {same : EvalCtx → EvalCtx → Bool} : firsts same rows = [] ↔ rows = [] := by
  cases rows with
  | nil => exact ⟨fun _ => rfl, fun _ => rfl⟩
  | cons ctx rows => exact ⟨nofun, nofun⟩

theorem keyIn_agg (agg : items.all fun item => item.expr.isAgg) :
    keyIn machine items first = [] := by
  refine List.filterMap_eq_nil_iff.mpr fun item member => ?_
  have folds := List.all_eq_true.mp agg item member
  cases kind : item.expr with
  | value expr => rw [kind] at folds; cases folds
  | agg agg => rfl

/-- **The groups at the end are those of the reference.** -/
theorem Groups.Holds.closed (holds : state.Holds machine items rows)
    (typed : ∀ item ∈ items, ∀ arg ∈ item.expr.arg, ∀ ctx ∈ rows, Typed (eval machine ctx arg)) :
    (state.closed items).finish machine = groupBy machine items rows := by
  have empty : state.groups = [] ↔ rows = [] := by
    rw [holds.classes, List.map_eq_nil_iff, firsts_eq_nil]
  unfold Groups.closed groupBy
  simp only [empty]
  split_ifs with closes
  · have tuple : tupleOf machine (keyIn machine items {}) (items.map (accOf machine [])) =
        items.map fun item => column machine {} [] item.expr :=
      tupleOf_accOf fun _ _ _ _ _ => nofun
    rw [keyIn_agg closes.2] at tuple
    simp only [Groups.finish, List.map_cons, List.map_nil, List.mergeSort_singleton,
      List.zip_cons_cons,
      List.zip_nil_right, ← tuple]
    rfl
  · exact holds.finish typed

end

end

end

section

variable {machine : Machine} {reader : GraphReader} {proj : Projection} {need : BindingNeed}
  {rows : List Item}

/-- What the items of a stream are evaluated against, or its first error. -/
def streamCtxs (reader : GraphReader) (need : BindingNeed) (rows : List Item) :
    Except Error (List EvalCtx) :=
  rows.mapM fun item => item.bind (rowCtx reader need)

theorem streamCtxs_typed (typed : reader.Typed) {ctxs : List EvalCtx}
    (read : streamCtxs reader need rows = .ok ctxs) : ∀ ctx ∈ ctxs, ctx.Typed := by
  refine mapM_forall read fun item _ ctx read => ?_
  obtain ⟨row, -, read⟩ := bind_eq_ok.mp read
  exact rowCtx_typed typed read

theorem keyTyped {ctx : EvalCtx}
    (typed : ∀ item ∈ items, ∀ arg ∈ item.expr.arg, Typed (eval machine ctx arg)) :
    KeyTyped machine items ctx := by
  intro value member
  obtain ⟨item, among, read⟩ := List.mem_filterMap.mp member
  cases kind : item.expr with
  | value expr =>
    rw [kind] at read
    obtain rfl := Option.some.inj read
    exact typed item among expr (by rw [kind]; rfl)
  | agg agg =>
    rw [kind] at read
    cases read

/-- **The rows of any stream are grouped as the reference groups them**, and an error in the stream or
in reading a row is the result. -/
theorem groupedTuples_eq (typed : reader.Typed) (literals : ∀ expr ∈ valueExprs proj, expr.Typed) :
    groupedTuples machine reader rows proj need =
      (streamCtxs reader need rows).map (groupBy machine proj.items) := by
  have round : (fun (state : Groups) (item : Item) => do
      return state.take machine proj.items
        (← rowValues machine reader (← item) (valueExprs proj) need)) =
      fun state item => (item.bind (rowCtx reader need)).map fun ctx =>
        Groups.take machine proj.items state (rowOf machine proj.items ctx) := by
    funext state item
    cases item with
    | error e => rfl
    | ok row =>
      refine Eq.trans (b := (rowValues machine reader row (valueExprs proj) need).map
        (Groups.take machine proj.items state)) ?_ ?_
      · change (rowValues machine reader row (valueExprs proj) need >>= fun vals => _) = _
        cases rowValues machine reader row (valueExprs proj) need <;> rfl
      · rw [rowValues_eq]
        change _ = (rowCtx reader need row).map _
        cases rowCtx reader need row <;> rfl
  unfold groupedTuples
  rw [round, foldlM_map, ← streamCtxs]
  cases read : streamCtxs reader need rows with
  | error e => rfl
  | ok ctxs =>
    have values : ∀ item ∈ proj.items, ∀ arg ∈ item.expr.arg, ∀ ctx ∈ ctxs,
        Typed (eval machine ctx arg) := by
      intro item among arg reads ctx member
      refine eval_typed (streamCtxs_typed typed read ctx member) (literals arg ?_)
      exact List.mem_filterMap.mpr ⟨item, among, reads⟩
    have keys : ∀ ctx ∈ ctxs, KeyTyped machine proj.items ctx := fun ctx member =>
      keyTyped fun item among arg reads => values item among arg reads ctx member
    have holds := Groups.Holds.all keys
    rw [List.foldl_map] at holds
    exact congrArg Except.ok (holds.closed values)

end

/-- **Aggregation is a group-by.** A projection with an aggregate gives one tuple for each class of
rows whose key columns compare equal, in order of first appearance and columns in the order of the
query, each aggregate being the fold of the values of its class, of any stream of rows; and the table
of a plan is what the tail of the projection makes of these. -/
theorem executeTable_groupBy (machine : Machine) (reader : GraphReader) (plan : LogicalPlan)
    (proj : Projection) (projects : plan.project = some proj)
    (aggregates : proj.items.any fun item => item.expr.isAgg) (typed : reader.Typed)
    (literals : ∀ expr ∈ valueExprs proj, expr.Typed) :
    EquivalenceOn (KeyTyped machine proj.items) (sameKey machine proj.items) ∧
    (∀ need rows, groupedTuples machine reader rows proj need =
      (streamCtxs reader need rows).map (groupBy machine proj.items)) ∧
    executeTable machine reader plan = do
      let ctxs ← streamCtxs reader plan.bindingNeed (← execute machine reader plan)
      return ⟨proj.items.map ProjItem.name, proj.tail (groupBy machine proj.items ctxs)⟩ := by
  refine ⟨sameKey_equivalence, fun need rows => groupedTuples_eq typed literals, ?_⟩
  unfold executeTable
  rw [projects]
  simp only [Option.getD_some, aggregates, if_true, groupedTuples_eq typed literals]
  cases execute machine reader plan with
  | error e => rfl
  | ok rows =>
    change ((streamCtxs reader plan.bindingNeed rows).map _ >>= fun tuples => _) =
      streamCtxs reader plan.bindingNeed rows >>= fun ctxs => _
    cases streamCtxs reader plan.bindingNeed rows <;> rfl

/-- Four nodes with a kind; the score of one is null. -/
def scoredTables : Tables :=
  ([("a", .int 5), ("b", .null), ("a", .int 5), ("a", .int 2)].zipIdx 1).foldl
    (fun tables ((kind, score), id) => tables.applyAll (nodeWrites 0 id ⟨none, [],
      (∅ : Properties).insert "kind" (.mk none (.str kind)) |>.insert "score" (.mk none score)⟩))
        .empty

theorem scoredTables_typed : Tables.Typed scoredTables := by
  have props : ∀ score, Typed score → ∀ kind, TypedProps
      ((∅ : Properties).insert "kind" (.mk none (.str kind)) |>.insert "score" (.mk none score)) := by
    intro score typed kind key prop found
    rw [ExtTreeMap.getElem?_insert, ExtTreeMap.getElem?_insert] at found
    split_ifs at found
    · exact Option.some.inj found ▸ typed
    · exact Option.some.inj found ▸ trivial
    · simp at found
  constructor <;> intro key row found
  all_goals
    simp only [scoredTables, List.zipIdx, List.foldl, nodeWrites, labelWrites, keyWrites,
      Tables.empty,
      List.map_nil, List.append_nil, Tables.applyAll_cons,
      Tables.applyAll_nil, Tables.apply, ExtTreeMap.getElem?_write] at found
  · split_ifs at found
    all_goals first
      | exact Option.some.inj found ▸ props _ (by simp [Typed]) _
      | simp at found
  · simp at found

/-- Rows by kind: how many there are, how many different scores, and their sum. -/
def countScores : LogicalPlan where
  source := .scanAll
  steps := []
  project :=
    some { items := [⟨"kind", .value (.property "kind")⟩, ⟨"count(*)", .agg ⟨.count, none, false⟩⟩,
    ⟨"count(DISTINCT score)", .agg ⟨.count, some (.property "score"), true⟩⟩,
    ⟨"sum(score)", .agg ⟨.sum, some (.property "score"), false⟩⟩] }

/-- Two groups: two of the three scores of the first are one value, and the null of the second is not
counted. -/
theorem executeTable_groupBy_scores :
    executeTable .scalar (plainReader scoredTables 0) countScores =
      .ok ⟨["kind", "count(*)", "count(DISTINCT score)", "sum(score)"],
        [[.str "a", .int 3, .int 2, .int 12], [.str "b", .int 1, .int 0, .int 0]]⟩ := by
  obtain ⟨-, -, table⟩ :=
    executeTable_groupBy .scalar (plainReader scoredTables 0) countScores _ rfl rfl
    (planeReader_typed scoredTables_typed) (by simp [valueExprs, ProjExpr.arg, Expr.Typed])
  rw [table]
  rfl

end DrStrange.Compute
