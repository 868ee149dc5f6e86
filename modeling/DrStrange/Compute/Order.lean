/-
**The order of sorting, grouping and `DISTINCT` is a total order.**

Numbers have places on one line, where an integer and a float are compared by their values and the
zeros of a float are apart (`cmpIntFloat_eq`). Every value of the code's types is ordered against all
others: scalars by their places, lists and maps because their parts are (`totalCmp_orderedAt`). So
`totalCmp` is a transitive comparator, and so are the comparators of tuples built on it.
-/

import DrStrange.Compute.Value
import DrStrange.Lib.Ordered

namespace DrStrange.Compute

open Std (TransCmp OrientedCmp)
open DrStrange.Graph Lib

/- A value as the code's types hold it: every integer has 64 bits. -/
mutual

def Typed : PropValue → Prop
  | .int value => -2 ^ 63 ≤ value ∧ value < 2 ^ 63
  | .list values => TypedValues values
  | .map entries => TypedEntries entries
  | .null | .bool _ | .float _ | .str _ | .bytes _ | .vector _ => True

def TypedValues : List PropValue → Prop
  | [] => True
  | value :: values => Typed value ∧ TypedValues values

def TypedEntries : List (String × PropDesc) → Prop
  | [] => True
  | (_, .mk _ value) :: entries => Typed value ∧ TypedEntries entries

end

theorem typedValues_iff {values : List PropValue} :
    TypedValues values ↔ ∀ value ∈ values, Typed value := by
  induction values with
  | nil => exact ⟨fun _ _ member => (nomatch member), fun _ => trivial⟩
  | cons value values ih => rw [TypedValues, ih, List.forall_mem_cons]

def entryValue : String × PropDesc → PropValue
  | (_, .mk _ value) => value

theorem typedEntries_iff {entries : List (String × PropDesc)} :
    TypedEntries entries ↔ ∀ entry ∈ entries, Typed (entryValue entry) := by
  induction entries with
  | nil => exact ⟨fun _ _ member => (nomatch member), fun _ => trivial⟩
  | cons entry entries ih =>
    obtain ⟨key, desc⟩ := entry
    cases desc
    rw [TypedEntries, ih, List.forall_mem_cons]
    rfl

/-! ### Numbers -/

theorem compare_map {f : ℤ → ℤ} (up : StrictMono f) (a b : ℤ) :
    compare (f a) (f b) = compare a b := by
  rcases lt_trichotomy a b with less | rfl | greater
  · rw [compare_lt_iff_lt.mpr less, compare_lt_iff_lt.mpr (up less)]
  · rw [compare_eq_iff_eq.mpr rfl, compare_eq_iff_eq.mpr rfl]
  · rw [compare_gt_iff_gt.mpr greater, compare_gt_iff_gt.mpr (up greater)]

/-- **An integer against a float is compared by the places of the two on one line.** -/
theorem cmpIntFloat_eq {x : ℤ} (low : -2 ^ 63 ≤ x) (high : x < 2 ^ 63) (y : UInt64) :
    cmpIntFloat x y = compare (intPlace x) (linePlace y) := by
  have small : x.natAbs ≤ 2 ^ 63 := by omega
  unfold cmpIntFloat totalCmp64
  rcases lt_trichotomy (totalKey64 (double x)) (totalKey64 y) with less | same | greater
  · have place : intPlace x < linePlace y :=
      not_le.mp fun le => (totalKey64_le_of_linePlace small le).not_gt less
    rw [compare_lt_iff_lt.mpr less, compare_lt_iff_lt.mpr place]
    rfl
  · rw [totalKey64_injective same.symm, compare_eq_iff_eq.mpr rfl]
    simp only [ne_eq, not_true_eq_false, if_false]
    split_ifs with top
    · obtain ⟨inside, least⟩ := (top_le_double_iff small).mp top
      exact (compare_lt_iff_lt.mpr
        (intPlace_lt_top small high inside ((nearest_lt small).antisymm least))).symm
    · have inside : x < 0 ∨ nearest x.natAbs < 1086 * 2 ^ 52 := by
        by_contra outside
        exact top ((top_le_double_iff small).mpr (by omega))
      rw [linePlace_double small inside, compare_map intPlace_strictMono]
  · have place : linePlace y < intPlace x :=
      not_le.mp fun le => (totalKey64_ge_of_linePlace small le).not_gt greater
    rw [compare_gt_iff_gt.mpr greater, compare_gt_iff_gt.mpr place]
    rfl

theorem totalCmp64_eq (x y : UInt64) : totalCmp64 x y = compare (linePlace x) (linePlace y) := by
  unfold totalCmp64
  rcases lt_trichotomy (totalKey64 x) (totalKey64 y) with less | same | greater
  · rw [compare_lt_iff_lt.mpr less, compare_lt_iff_lt.mpr (linePlace_lt_iff.mpr less)]
  · rw [totalKey64_injective same, compare_eq_iff_eq.mpr rfl, compare_eq_iff_eq.mpr rfl]
  · rw [compare_gt_iff_gt.mpr greater, compare_gt_iff_gt.mpr (linePlace_lt_iff.mpr greater)]

/-- The place of a number. -/
def numberPlace : PropValue → ℤ
  | .int x => intPlace x
  | .float x => linePlace x
  | _ => 0

variable {a b : PropValue}

theorem totalCmp_numbers (typedA : Typed a) (typedB : Typed b) (rankA : typeRank a = 2)
    (rankB : typeRank b = 2) :
    totalCmp a b = compare (numberPlace a) (numberPlace b) := by
  cases a <;> cases rankA <;> cases b <;> cases rankB
  · rw [totalCmp]
    exact (compare_map intPlace_strictMono _ _).symm
  · rw [totalCmp]
    exact cmpIntFloat_eq typedA.1 typedA.2 _
  · rw [totalCmp, cmpIntFloat_eq typedB.1 typedB.2]
    exact OrientedCmp.eq_swap.symm
  · rw [totalCmp]
    exact totalCmp64_eq _ _

/-! ### Every value -/

theorem totalCmp_of_rank (apart : typeRank a ≠ typeRank b) :
    totalCmp a b = compare (typeRank a) (typeRank b) := by
  cases a <;> cases b <;> first | exact absurd rfl apart | rfl

theorem totalCmpValues_eq : totalCmpValues = List.compareLex totalCmp := by
  funext x y
  induction x generalizing y with
  | nil => cases y <;> rfl
  | cons p x ih =>
    cases y with
    | nil => rfl
    | cons q y => rw [totalCmpValues, List.compareLex_cons_cons, ih]

def entryCmp (a b : String × PropDesc) : Ordering :=
  ((compare a.1 b.1).then (totalCmp (entryValue a) (entryValue b))).then
    (compare (match a.2 with | .mk description _ => description)
      (match b.2 with | .mk description _ => description))

theorem totalCmpEntries_eq : totalCmpEntries = List.compareLex entryCmp := by
  funext x y
  induction x generalizing y with
  | nil => cases y <;> rfl
  | cons p x ih =>
    obtain ⟨key, desc⟩ := p
    cases desc
    cases y with
    | nil => rfl
    | cons q y =>
      obtain ⟨key, desc⟩ := q
      cases desc
      rw [totalCmpEntries, List.compareLex_cons_cons, ih]
      rfl

instance : TransCmp totalCmp32 := inferInstanceAs (TransCmp (compareOn Hnsw.totalKey))

/-- A value is ordered if it is among the values of its type. -/
theorem orderedAt_of_rank {value : PropValue} (ordered : OrderedAt (fun other => Typed other ∧
      typeRank other = typeRank value) totalCmp value) :
    OrderedAt Typed totalCmp value :=
  ordered.of_rank fun _ _ => totalCmp_of_rank

theorem number_orderedAt {value : PropValue} (typed : Typed value) (number : typeRank value = 2) :
    OrderedAt Typed totalCmp value := by
  refine orderedAt_of_rank ?_
  rw [number]
  have placed : OrderedAt (fun other => Typed other ∧ typeRank other = 2) (compareOn numberPlace)
      value := .of_transCmp
  refine placed.congr ⟨typed, number⟩ ?_
  exact fun a b here there => totalCmp_numbers here.1 there.1 here.2 there.2

/-- A type whose values are compared by what they hold. -/
theorem held_orderedAt {β : Type} (hold : β → PropValue) (cmp : β → β → Ordering) [TransCmp cmp]
    (held : β) (under : ∀ a b, totalCmp (hold a) (hold b) = cmp a b)
    (only : ∀ other, typeRank other = typeRank (hold held) → ∃ a, hold a = other) :
    OrderedAt Typed totalCmp (hold held) := by
  have ordered : OrderedAt (fun _ => True) cmp held := .of_transCmp
  refine orderedAt_of_rank (ordered.wrap under ?_)
  intro other there
  obtain ⟨a, same⟩ := only other there.2
  exact ⟨a, trivial, same⟩

theorem entryCmp_orderedAt {entry : String × PropDesc}
    (ordered : OrderedAt Typed totalCmp (entryValue entry)) :
    OrderedAt (fun entry => Typed (entryValue entry)) entryCmp entry := by
  refine OrderedAt.then (OrderedAt.then ?_ ?_) ?_
  · exact (OrderedAt.of_transCmp : OrderedAt _ (compareOn Prod.fst) entry)
  · exact ordered.comap fun _ typed => typed
  · let described (entry : String × PropDesc) := match entry.2 with | .mk description _ => description
    exact (OrderedAt.of_transCmp : OrderedAt _ (compareOn described) entry)

mutual

/-- **Every value is ordered against all the others.** -/
theorem totalCmp_orderedAt : ∀ {value : PropValue}, Typed value → OrderedAt Typed totalCmp value
  | .null, _ => by
    refine held_orderedAt (fun _ : Unit => PropValue.null) (compareOn fun _ => 0) ()
      (fun _ _ => by rw [totalCmp] <;> first | rfl | nofun) ?_
    intro other rank
    cases other <;> cases rank
    exact ⟨(), rfl⟩
  | .bool held, _ => by
    refine held_orderedAt .bool compare held (fun _ _ => by rw [totalCmp]) ?_
    intro other rank
    cases other <;> cases rank
    exact ⟨_, rfl⟩
  | .int _, typed => number_orderedAt typed rfl
  | .float _, typed => number_orderedAt typed rfl
  | .str held, _ => by
    refine held_orderedAt .str compare held (fun _ _ => by rw [totalCmp]) ?_
    intro other rank
    cases other <;> cases rank
    exact ⟨_, rfl⟩
  | .bytes held, _ => by
    refine held_orderedAt .bytes compare held (fun _ _ => by rw [totalCmp]) ?_
    intro other rank
    cases other <;> cases rank
    exact ⟨_, rfl⟩
  | .vector held, _ => by
    refine held_orderedAt .vector (List.compareLex totalCmp32) held (fun _ _ => by rw [totalCmp]) ?_
    intro other rank
    cases other <;> cases rank
    exact ⟨_, rfl⟩
  | .list values, typed => by
    refine orderedAt_of_rank (OrderedAt.wrap (OrderedAt.compareLex (values_orderedAt typed))
      (fun _ _ => by rw [totalCmp, totalCmpValues_eq]) ?_)
    intro other ⟨typed, rank⟩
    cases other <;> cases rank
    exact ⟨_, typedValues_iff.mp typed, rfl⟩
  | .map entries, typed => by
    refine orderedAt_of_rank (OrderedAt.wrap (OrderedAt.compareLex (entries_orderedAt typed))
      (fun _ _ => by rw [totalCmp, totalCmpEntries_eq]) ?_)
    intro other ⟨typed, rank⟩
    cases other <;> cases rank
    exact ⟨_, typedEntries_iff.mp typed, rfl⟩

theorem values_orderedAt : ∀ {values : List PropValue}, TypedValues values →
    ∀ value ∈ values, OrderedAt Typed totalCmp value
  | [], _ => nofun
  | _ :: _, typed =>
    List.forall_mem_cons.mpr ⟨totalCmp_orderedAt typed.1, values_orderedAt typed.2⟩

theorem entries_orderedAt : ∀ {entries : List (String × PropDesc)}, TypedEntries entries →
    ∀ entry ∈ entries, OrderedAt (fun entry => Typed (entryValue entry)) entryCmp entry
  | [], _ => nofun
  | (_, .mk _ _) :: _, typed =>
    List.forall_mem_cons.mpr
      ⟨entryCmp_orderedAt (totalCmp_orderedAt typed.1), entries_orderedAt typed.2⟩

end

/-! ### The comparators -/

/-- A value of the code's types. -/
abbrev TypedValue := {value : PropValue // Typed value}

instance : TransCmp fun a b : TypedValue => totalCmp a.1 b.1 :=
  transCmp_of_orderedAt fun _ => totalCmp_orderedAt

/-- A tuple of values of the code's types. -/
abbrev TypedTuple := {tuple : List PropValue // ∀ value ∈ tuple, Typed value}

instance : TransCmp fun a b : TypedTuple => tupleCmp a.1 b.1 :=
  transCmp_of_orderedAt fun _ typed =>
    OrderedAt.compareLex fun value member => totalCmp_orderedAt (typed value member)

theorem typed_column (tuple : TypedTuple) (column : ℕ) : Typed (tuple.1[column]?.getD .null) := by
  cases found : tuple.1[column]? with
  | none => trivial
  | some value => exact tuple.2 value (List.mem_of_getElem? found)

/-- Tuples by one column, up or down. -/
def columnCmp (key : TupleSortKey) (a b : TypedTuple) : Ordering :=
  let order := totalCmp (a.1[key.column]?.getD .null) (b.1[key.column]?.getD .null)
  if key.descending then order.swap else order

instance (key : TupleSortKey) : TransCmp (columnCmp key) := by
  let read (tuple : TypedTuple) : TypedValue :=
    ⟨tuple.1[key.column]?.getD .null, typed_column tuple key.column⟩
  let order (a b : TypedTuple) : Ordering := totalCmp (read a).1 (read b).1
  have values : TransCmp fun a b : TypedValue => totalCmp a.1 b.1 := inferInstance
  have up : TransCmp order := { eq_swap := values.eq_swap, isLE_trans := values.isLE_trans }
  have down : TransCmp fun a b => (order a b).swap :=
    { eq_swap := fun {a b} => congrArg Ordering.swap OrientedCmp.eq_swap
      isLE_trans := fun {a b c} first second => by
        rw [← OrientedCmp.eq_swap] at first second ⊢
        exact TransCmp.isLE_trans second first }
  unfold columnCmp
  cases key.descending with
  | false => exact up
  | true => exact down

instance (keys : List TupleSortKey) : TransCmp fun a b : TypedTuple => cmpColumns a.1 b.1 keys := by
  induction keys with
  | nil => exact inferInstanceAs (TransCmp (compareOn fun _ : TypedTuple => 0))
  | cons key keys ih => exact inferInstanceAs (TransCmp (compareLex (columnCmp key) _))

/-- **`totalCmp` is a total order**: reflexive, reversed by swapping the sides, and transitive, a
chain being strict where one of its links is. The comparators of the ordered sets and of the sort are
transitive with it. -/
theorem totalCmp_total :
    (∀ a : TypedValue, totalCmp a.1 a.1 = .eq) ∧
    (∀ a b : TypedValue, totalCmp b.1 a.1 = (totalCmp a.1 b.1).swap) ∧
    (∀ a b c : TypedValue, totalCmp a.1 b.1 ≠ .gt → totalCmp b.1 c.1 ≠ .gt →
      totalCmp a.1 c.1 = (totalCmp a.1 b.1).then (totalCmp b.1 c.1)) ∧
    (TransCmp fun a b : TypedTuple => tupleCmp a.1 b.1) ∧
    ∀ keys, TransCmp fun a b : TypedTuple => cmpColumns a.1 b.1 keys := by
  refine ⟨fun a => ?_, fun a b => ?_, fun a b c => ?_, inferInstance, fun keys => inferInstance⟩
  · exact (totalCmp_orderedAt a.2).refl a.2
  · exact (totalCmp_orderedAt a.2).swap b.1 b.2
  · exact (totalCmp_orderedAt a.2).chain b.1 c.1 b.2 c.2

/-- Past `2 ^ 53` an integer that rounds to a float is still told apart from it. -/
theorem totalCmp_total_past_precision : totalCmp (.int (2 ^ 53)) (.int (2 ^ 53 + 1)) = .lt := by
  have chain := totalCmp_total.2.2.1 ⟨.int (2 ^ 53), by simp [Typed]⟩
    ⟨.float 0x4340000000000000, trivial⟩ ⟨.int (2 ^ 53 + 1), by simp [Typed]⟩
    (by decide +kernel) (by decide +kernel)
  rw [chain]
  decide +kernel

end DrStrange.Compute
