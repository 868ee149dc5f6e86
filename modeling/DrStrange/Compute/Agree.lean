/-
**What the filter's order, equality and the total order have in common.**

Where the filter's order finds a difference the total order finds the same one, so a sort never
contradicts `<`. Where they agree that two values are equal is narrower on both sides, by design: the
total order follows IEEE and keeps the two zeros apart, and equality compares what stands inside a
list or a map by structure, so that an integer there is no float. Apart from these, from what is not
a number and from integers that no double equals, the equalities are one (`orders_agree`).
-/

import DrStrange.Compute.Order

namespace DrStrange.Compute

open DrStrange.Graph Lib

/-! ### Where the notions of equality part -/

section

variable (apart : PropValue → PropValue → Prop)

/- Two values with none of their parts `apart`: lists and maps are taken apart place by place. -/
mutual

def Nowhere : PropValue → PropValue → Prop
  | .list x, .list y => NowhereValues x y
  | .map x, .map y => NowhereEntries x y
  | a, b => ¬ apart a b

def NowhereValues : List PropValue → List PropValue → Prop
  | a :: x, b :: y => Nowhere a b ∧ NowhereValues x y
  | _, _ => True

def NowhereEntries : List (String × PropDesc) → List (String × PropDesc) → Prop
  | (_, .mk _ a) :: x, (_, .mk _ b) :: y => Nowhere a b ∧ NowhereEntries x y
  | _, _ => True

end

/-- None of the parts, the two values themselves aside. -/
def NowhereInside : PropValue → PropValue → Prop
  | .list x, .list y => NowhereValues apart x y
  | .map x, .map y => NowhereEntries apart x y
  | _, _ => True

end

/-- Two zeros of different signs. An integer zero has the positive sign. -/
def ZerosApart : PropValue → PropValue → Prop
  | .float x, .float y => lineKey64 x = 0 ∧ lineKey64 y = 0 ∧ x ≠ y
  | .int x, .float y | .float y, .int x => x = 0 ∧ y = 0x8000000000000000
  | .vector x, .vector y => ∃ entry ∈ x.zip y,
      Hnsw.lineKey entry.1 = 0 ∧ Hnsw.lineKey entry.2 = 0 ∧ entry.1 ≠ entry.2
  | _, _ => False

/-- A float, or an entry of a vector, that is not a number. -/
def NotNumber : PropValue → PropValue → Prop
  | .float x, _ => nan64 x
  | .vector x, _ => ∃ entry ∈ x, Hnsw.isNan entry
  | _, _ => False

/-- An integer facing a float. -/
def Mixed : PropValue → PropValue → Prop
  | .int _, .float _ | .float _, .int _ => True
  | _, _ => False

/-- An integer that no double equals, facing a float. -/
def Rounded : PropValue → PropValue → Prop
  | .int x, .float _ | .float _, .int x => linePlace (double x) ≠ intPlace x
  | _, _ => False

/-! ### Floats -/

variable {y x : UInt64} {a b : PropValue} {o : Ordering}

theorem eq_of_lineKey64 (same : lineKey64 x = lineKey64 y) :
    x = y ∨ lineKey64 x = 0 ∧ lineKey64 y = 0 ∧ x ≠ y := by
  have smallX := x.toNat_lt
  have smallY := y.toNat_lt
  by_cases equal : x = y
  · exact .inl equal
  · refine .inr ⟨?_, ?_, equal⟩ <;> rw [← UInt64.toNat_inj] at equal <;>
      simp only [lineKey64] at same ⊢ <;> split_ifs at same ⊢ <;> omega

theorem eq_of_lineKey {x y : UInt32} (same : Hnsw.lineKey x = Hnsw.lineKey y) :
    x = y ∨ Hnsw.lineKey x = 0 ∧ Hnsw.lineKey y = 0 ∧ x ≠ y := by
  have smallX := x.toNat_lt
  have smallY := y.toNat_lt
  by_cases equal : x = y
  · exact .inl equal
  · refine .inr ⟨?_, ?_, equal⟩ <;> rw [← UInt32.toNat_inj] at equal <;>
      simp only [Hnsw.lineKey] at same ⊢ <;> split_ifs at same ⊢ <;> omega

theorem totalCmp64_eq_iff : totalCmp64 x y = .eq ↔ x = y := by
  unfold totalCmp64
  rw [compare_eq_iff_eq, totalKey64_injective.eq_iff]

theorem totalCmp32_eq_iff {x y : UInt32} : totalCmp32 x y = .eq ↔ x = y := by
  unfold totalCmp32
  rw [compare_eq_iff_eq]
  refine ⟨fun same => ?_, congrArg Hnsw.totalKey⟩
  exact Hnsw.Dist.mk.inj (@Hnsw.totalKey_injective ⟨x⟩ ⟨y⟩ same)

theorem partialCmp64_eq_some :
    partialCmp64 x y = some o ↔
      nan64 x = false ∧ nan64 y = false ∧ compare (lineKey64 x) (lineKey64 y) = o := by
  unfold partialCmp64
  cases nan64 x <;> cases nan64 y <;> simp

/-- Where doubles differ on the number line, their total order is that difference. -/
theorem totalCmp64_of_partialCmp64 (found : partialCmp64 x y = some o) (differ : o ≠ .eq) :
    totalCmp64 x y = o := by
  obtain ⟨-, -, order⟩ := partialCmp64_eq_some.mp found
  unfold totalCmp64
  cases o with
  | eq => exact absurd rfl differ
  | lt => exact compare_lt_iff_lt.mpr (totalKey64_lt (compare_lt_iff_lt.mp order))
  | gt => exact compare_gt_iff_gt.mpr (totalKey64_lt (compare_gt_iff_gt.mp order))

theorem totalCmp64_swap (x y : UInt64) : totalCmp64 y x = (totalCmp64 x y).swap :=
  (Std.OrientedCmp.eq_swap : compareOn totalKey64 y x = (compareOn totalKey64 x y).swap)

theorem totalCmpVector_of_eqVector {x y : List UInt32} (same : eqVector x y)
    (signs : ¬ ZerosApart (.vector x) (.vector y)) : List.compareLex totalCmp32 x y = .eq := by
  induction x generalizing y with
  | nil =>
    cases y with
    | nil => rfl
    | cons b y => cases same
  | cons a x ih =>
    cases y with
    | nil => cases same
    | cons b y =>
      rw [eqVector, Bool.and_eq_true] at same
      obtain ⟨head, tail⟩ := same
      unfold eq32 at head
      simp only [Bool.and_eq_true, decide_eq_true_eq] at head
      have equal : a = b := by
        rcases eq_of_lineKey head.2 with equal | zeros
        · exact equal
        · exact absurd ⟨(a, b), List.mem_cons_self, zeros⟩ signs
      have rest := ih tail fun ⟨entry, member, zeros⟩ =>
        signs ⟨entry, List.mem_cons_of_mem _ member, zeros⟩
      rw [List.compareLex_cons_cons, totalCmp32_eq_iff.mpr equal, rest]
      rfl

theorem eqVector_of_totalCmp {x y : List UInt32} (same : List.compareLex totalCmp32 x y = .eq)
    (numbers : ¬ NotNumber (.vector x) (.vector y)) : eqVector x y := by
  induction x generalizing y with
  | nil =>
    cases y with
    | nil => rfl
    | cons b y => cases same
  | cons a x ih =>
    cases y with
    | nil => cases same
    | cons b y =>
      rw [List.compareLex_cons_cons, Ordering.then_eq_eq, totalCmp32_eq_iff] at same
      obtain ⟨rfl, tail⟩ := same
      have number : Hnsw.isNan a = false :=
        Bool.eq_false_iff.mpr fun nan => numbers ⟨a, List.mem_cons_self, nan⟩
      have rest := ih tail fun ⟨entry, member, nan⟩ =>
        numbers ⟨entry, List.mem_cons_of_mem _ member, nan⟩
      rw [eqVector, rest, eq32, number]
      simp

/-! ### Values by structure -/

mutual

/-- Values equal by structure with no zeros of different signs are one place in the total order. -/
theorem totalCmp_of_eqValue : ∀ {a b : PropValue}, eqValue a b → Nowhere ZerosApart a b →
    totalCmp a b = .eq
  | .null, .null, _, _ => by rw [totalCmp] <;> first | rfl | nofun
  | .bool x, .bool y, same, _ => by
    rw [totalCmp, compare_eq_iff_eq]
    simpa [eqValue] using same
  | .int x, .int y, same, _ => by
    rw [totalCmp, compare_eq_iff_eq]
    simpa [eqValue] using same
  | .float x, .float y, same, signs => by
    rw [totalCmp, totalCmp64_eq_iff]
    have found : partialCmp64 x y = some .eq := by simpa [eqValue] using same
    obtain ⟨-, -, order⟩ := partialCmp64_eq_some.mp found
    rcases eq_of_lineKey64 (Std.compare_eq_iff_eq.mp order) with equal | zeros
    · exact equal
    · exact absurd zeros signs
  | .str x, .str y, same, _ => by
    rw [totalCmp, compare_eq_iff_eq]
    simpa [eqValue] using same
  | .bytes x, .bytes y, same, _ => by
    rw [totalCmp, Std.compare_eq_iff_eq]
    simpa [eqValue] using same
  | .vector x, .vector y, same, signs => by
    rw [totalCmp]
    exact totalCmpVector_of_eqVector (by simpa [eqValue] using same) signs
  | .list x, .list y, same, signs => by
    rw [totalCmp]
    exact totalCmpValues_of_eqValues (by simpa [eqValue] using same) signs
  | .map x, .map y, same, signs => by
    rw [totalCmp]
    exact totalCmpEntries_of_eqEntries (by simpa [eqValue] using same) signs

theorem totalCmpValues_of_eqValues : ∀ {x y : List PropValue}, eqValues x y →
    NowhereValues ZerosApart x y → totalCmpValues x y = .eq
  | [], [], _, _ => rfl
  | a :: x, b :: y, same, signs => by
    rw [eqValues, Bool.and_eq_true] at same
    rw [totalCmpValues, totalCmp_of_eqValue same.1 signs.1, totalCmpValues_of_eqValues same.2 signs.2]
    rfl

theorem totalCmpEntries_of_eqEntries : ∀ {x y : List (String × PropDesc)}, eqEntries x y →
    NowhereEntries ZerosApart x y → totalCmpEntries x y = .eq
  | [], [], _, _ => rfl
  | (ka, .mk da a) :: x, (kb, .mk db b) :: y, same, signs => by
    rw [eqEntries] at same
    simp only [Bool.and_eq_true, decide_eq_true_eq] at same
    obtain ⟨⟨rfl, rfl, values⟩, rest⟩ := same
    rw [totalCmpEntries, totalCmp_of_eqValue values signs.1,
      totalCmpEntries_of_eqEntries rest signs.2, Std.compare_eq_iff_eq.mpr rfl,
      Std.compare_eq_iff_eq.mpr rfl]
    rfl

end

theorem rank_of_totalCmp (same : totalCmp a b = .eq) : typeRank a = typeRank b := by
  by_contra apart
  rw [totalCmp_of_rank apart] at same
  exact apart (compare_eq_iff_eq.mp same)

mutual

/-- Values at one place in the total order, all of them numbers and none mixed, are equal by
structure. -/
theorem eqValue_of_totalCmp : ∀ {a b : PropValue}, totalCmp a b = .eq → Nowhere NotNumber a b →
    Nowhere Mixed a b → eqValue a b
  | .null, b, same, _, _ => by
    have rank := rank_of_totalCmp same
    cases b <;> cases rank
    rfl
  | .bool x, b, same, _, _ => by
    have rank := rank_of_totalCmp same
    cases b <;> cases rank
    rw [totalCmp, compare_eq_iff_eq] at same
    simpa [eqValue] using same
  | .int x, b, same, _, plain => by
    have rank := rank_of_totalCmp same
    cases b <;> cases rank
    · rw [totalCmp, compare_eq_iff_eq] at same
      simpa [eqValue] using same
    · exact absurd trivial plain
  | .float x, b, same, numbers, plain => by
    have rank := rank_of_totalCmp same
    cases b <;> cases rank
    · exact absurd trivial plain
    · rw [totalCmp, totalCmp64_eq_iff] at same
      subst same
      have number : nan64 x = false := Bool.eq_false_iff.mpr numbers
      have found := partialCmp64_eq_some.mpr ⟨number, number, Std.compare_eq_iff_eq.mpr rfl⟩
      simp [eqValue, found]
  | .str x, b, same, _, _ => by
    have rank := rank_of_totalCmp same
    cases b <;> cases rank
    rw [totalCmp, compare_eq_iff_eq] at same
    simpa [eqValue] using same
  | .bytes x, b, same, _, _ => by
    have rank := rank_of_totalCmp same
    cases b <;> cases rank
    rw [totalCmp, Std.compare_eq_iff_eq] at same
    simpa [eqValue] using same
  | .vector x, b, same, numbers, _ => by
    have rank := rank_of_totalCmp same
    cases b <;> cases rank
    rw [totalCmp] at same
    exact eqVector_of_totalCmp same numbers
  | .list x, b, same, numbers, plain => by
    have rank := rank_of_totalCmp same
    cases b <;> cases rank
    rw [totalCmp] at same
    exact eqValues_of_totalCmp same numbers plain
  | .map x, b, same, numbers, plain => by
    have rank := rank_of_totalCmp same
    cases b <;> cases rank
    rw [totalCmp] at same
    exact eqEntries_of_totalCmp same numbers plain

theorem eqValues_of_totalCmp : ∀ {x y : List PropValue}, totalCmpValues x y = .eq →
    NowhereValues NotNumber x y → NowhereValues Mixed x y → eqValues x y
  | [], [], _, _, _ => rfl
  | a :: x, b :: y, same, numbers, plain => by
    rw [totalCmpValues, Ordering.then_eq_eq] at same
    rw [eqValues, eqValue_of_totalCmp same.1 numbers.1 plain.1,
      eqValues_of_totalCmp same.2 numbers.2 plain.2]
    rfl

theorem eqEntries_of_totalCmp : ∀ {x y : List (String × PropDesc)}, totalCmpEntries x y = .eq →
    NowhereEntries NotNumber x y → NowhereEntries Mixed x y → eqEntries x y
  | [], [], _, _, _ => rfl
  | (ka, .mk da a) :: x, (kb, .mk db b) :: y, same, numbers, plain => by
    rw [totalCmpEntries, Ordering.then_eq_eq, Ordering.then_eq_eq, Ordering.then_eq_eq] at same
    obtain ⟨⟨⟨keys, values⟩, descriptions⟩, rest⟩ := same
    rw [eqEntries, eqValue_of_totalCmp values numbers.1 plain.1,
      eqEntries_of_totalCmp rest numbers.2 plain.2, Std.compare_eq_iff_eq.mp keys,
      Std.compare_eq_iff_eq.mp descriptions]
    simp

end

/-! ### Numbers against numbers -/

/-- An integer against a float: where they differ once rounded, that is how they differ. -/
theorem cmpIntFloat_of_partialCmp64 {x : ℤ} (found : partialCmp64 (double x) y = some o)
    (differ : o ≠ .eq) : cmpIntFloat x y = o := by
  have rounded := totalCmp64_of_partialCmp64 found differ
  unfold cmpIntFloat
  simp only
  rw [rounded, if_pos differ]

/-- **Where the filter's order finds a difference, the total order finds the same one.** -/
theorem totalCmp_of_partialCmp (found : partialCmp a b = some o) (differ : o ≠ .eq) :
    totalCmp a b = o := by
  unfold partialCmp at found
  split at found
  · rw [totalCmp]
    exact Option.some.inj found
  · rw [totalCmp]
    exact totalCmp64_of_partialCmp64 found differ
  · rw [totalCmp]
    exact cmpIntFloat_of_partialCmp64 found differ
  · rename_i x y
    have rounded := totalCmp64_of_partialCmp64 found differ
    rw [totalCmp]
    have swapped : totalCmp64 (double y) x = o.swap := by rw [totalCmp64_swap, rounded]
    unfold cmpIntFloat
    simp only
    rw [swapped, if_pos (by cases o <;> first | exact absurd rfl differ | nofun), Ordering.swap_swap]
  · rw [totalCmp]
    exact Option.some.inj found
  · rw [totalCmp]
    exact Option.some.inj found
  · cases found

/-- An integer equal to a float once rounded, where no zeros are apart and nothing was lost. -/
theorem cmpIntFloat_of_double {x : ℤ} (typed : Typed (.int x))
    (same : lineKey64 (double x) = lineKey64 y) (signs : ¬ ZerosApart (.int x) (.float y))
    (kept : ¬ Rounded (.int x) (.float y)) : cmpIntFloat x y = .eq := by
  have small : x.natAbs ≤ 2 ^ 63 := by
    obtain ⟨low, high⟩ := typed
    omega
  rw [cmpIntFloat_eq typed.1 typed.2, Std.compare_eq_iff_eq]
  rcases eq_of_lineKey64 same with rfl | ⟨zero, zero', differ⟩
  · exact (not_not.mp kept).symm
  · have none := eq_zero_of_double small zero
    refine absurd ⟨none, ?_⟩ signs
    rw [none, double_zero] at differ
    have small := y.toNat_lt
    unfold lineKey64 at zero'
    rw [← UInt64.toNat_inj]
    rw [ne_comm, ne_eq, ← UInt64.toNat_inj] at differ
    show y.toNat = 2 ^ 63
    have positive : y.toNat ≠ 0 := differ
    split_ifs at zero' <;> omega

/-- An integer at the place of a float rounds to it. -/
theorem partialCmp64_of_cmpIntFloat {x : ℤ} (typed : Typed (.int x)) (same : cmpIntFloat x y = .eq) :
    partialCmp64 (double x) y = some .eq := by
  have small : x.natAbs ≤ 2 ^ 63 := by
    obtain ⟨low, high⟩ := typed
    omega
  rw [cmpIntFloat_eq typed.1 typed.2, Std.compare_eq_iff_eq] at same
  have equal : double x = y := totalKey64_injective
    (le_antisymm (totalKey64_ge_of_linePlace small same.le)
      (totalKey64_le_of_linePlace small same.ge))
  subst equal
  exact partialCmp64_eq_some.mpr
    ⟨nan64_double small, nan64_double small, Std.compare_eq_iff_eq.mpr rfl⟩

/-- **Where the filter's order finds no difference, neither does the total order**, unless the two are
zeros of different signs; of an integer that was rounded nothing is said. -/
theorem totalCmp_of_partialCmp_eq (typedA : Typed a) (typedB : Typed b)
    (found : partialCmp a b = some .eq) (signs : ¬ ZerosApart a b) (kept : ¬ Rounded a b) :
    totalCmp a b = .eq := by
  unfold partialCmp at found
  split at found
  · rw [totalCmp]
    exact Option.some.inj found
  · rw [totalCmp, totalCmp64_eq_iff]
    obtain ⟨-, -, order⟩ := partialCmp64_eq_some.mp found
    rcases eq_of_lineKey64 (Std.compare_eq_iff_eq.mp order) with equal | zeros
    · exact equal
    · exact absurd zeros signs
  · rw [totalCmp]
    obtain ⟨-, -, order⟩ := partialCmp64_eq_some.mp found
    exact cmpIntFloat_of_double typedA (Std.compare_eq_iff_eq.mp order) signs kept
  · rw [totalCmp]
    obtain ⟨-, -, order⟩ := partialCmp64_eq_some.mp found
    rw [cmpIntFloat_of_double typedB (Std.compare_eq_iff_eq.mp order).symm signs kept]
    rfl
  · rw [totalCmp]
    exact Option.some.inj found
  · rw [totalCmp]
    exact Option.some.inj found
  · cases found

/-- Values that `=` equates are one place in the total order, where no zeros are apart. -/
theorem totalCmp_of_valuesEq (typedA : Typed a) (typedB : Typed b) (same : valuesEq a b)
    (signs : Nowhere ZerosApart a b) (kept : ¬ Rounded a b) :
    totalCmp a b = .eq := by
  have numbers (found : partialCmp a b = some .eq) (signs : ¬ ZerosApart a b) : totalCmp a b = .eq :=
    totalCmp_of_partialCmp_eq typedA typedB found signs kept
  cases a with
  | int x =>
    have found : partialCmp (.int x) b = some .eq := by simpa [valuesEq] using same
    cases b <;> exact numbers found signs
  | float x =>
    have found : partialCmp (.float x) b = some .eq := by simpa [valuesEq] using same
    cases b <;> exact numbers found signs
  | _ => exact totalCmp_of_eqValue same signs

/-- Values at one place in the total order are equated by `=`, where all are numbers and no integer
faces a float inside a list or a map. -/
theorem valuesEq_of_totalCmp (typedA : Typed a) (typedB : Typed b) (same : totalCmp a b = .eq)
    (numbers : Nowhere NotNumber a b) (plain : NowhereInside Mixed a b) :
    valuesEq a b := by
  have rank := rank_of_totalCmp same
  cases a with
  | int x =>
    cases b <;> cases rank
    · rw [totalCmp] at same
      simp [valuesEq, partialCmp, same]
    · rw [totalCmp] at same
      simp [valuesEq, partialCmp, partialCmp64_of_cmpIntFloat typedA same]
  | float x =>
    cases b <;> cases rank
    · rw [totalCmp, Ordering.swap_eq_eq] at same
      obtain ⟨left, right, order⟩ :=
        partialCmp64_eq_some.mp (partialCmp64_of_cmpIntFloat typedB same)
      have found := partialCmp64_eq_some.mpr
        ⟨right, left, Std.compare_eq_iff_eq.mpr (Std.compare_eq_iff_eq.mp order).symm⟩
      simp [valuesEq, partialCmp, found]
    · exact eqValue_of_totalCmp same numbers not_false
  | null => exact eqValue_of_totalCmp same numbers (by cases b <;> cases rank; exact not_false)
  | bool x => exact eqValue_of_totalCmp same numbers (by cases b <;> cases rank; exact not_false)
  | str x => exact eqValue_of_totalCmp same numbers (by cases b <;> cases rank; exact not_false)
  | bytes x => exact eqValue_of_totalCmp same numbers (by cases b <;> cases rank; exact not_false)
  | vector x => exact eqValue_of_totalCmp same numbers (by cases b <;> cases rank; exact not_false)
  | list x => exact eqValue_of_totalCmp same numbers (by cases b <;> cases rank; exact plain)
  | map x => exact eqValue_of_totalCmp same numbers (by cases b <;> cases rank; exact plain)

/-- **The filter's order, `=` and the total order agree.** A difference is one difference for the
first and the last. Equal for the filter's order is equal for the total order, zeros of different
signs aside, and so is equal for `=` with no such zeros inside; and equal for the total order is equal
for `=`, with nothing inside that is not a number and no integer facing a float inside a list or a
map. Of integers that no double equals, compared with a float, nothing is said. -/
theorem orders_agree (a b : TypedValue) :
    (∀ o, partialCmp a.1 b.1 = some o → o ≠ .eq → totalCmp a.1 b.1 = o) ∧
    (partialCmp a.1 b.1 = some .eq → ¬ ZerosApart a.1 b.1 → ¬ Rounded a.1 b.1 →
      totalCmp a.1 b.1 = .eq) ∧
    (valuesEq a.1 b.1 → Nowhere ZerosApart a.1 b.1 → ¬ Rounded a.1 b.1 → totalCmp a.1 b.1 = .eq) ∧
    (totalCmp a.1 b.1 = .eq → Nowhere NotNumber a.1 b.1 → NowhereInside Mixed a.1 b.1 →
      valuesEq a.1 b.1) :=
  ⟨fun _ => totalCmp_of_partialCmp, totalCmp_of_partialCmp_eq a.2 b.2, totalCmp_of_valuesEq a.2 b.2,
    valuesEq_of_totalCmp a.2 b.2⟩

/-- One and a float one are one place in the order and equal. -/
theorem orders_agree_on_one :
    totalCmp (.int 1) (.float 0x3ff0000000000000) = .eq ∧
      valuesEq (.int 1) (.float 0x3ff0000000000000) := by
  obtain ⟨-, -, into, back⟩ :=
    orders_agree ⟨.int 1, by simp [Typed]⟩ ⟨.float 0x3ff0000000000000, trivial⟩
  have kept : ¬ Rounded (.int 1) (.float 0x3ff0000000000000) := not_not.mpr (by decide +kernel)
  have signs : Nowhere ZerosApart (.int 1) (.float 0x3ff0000000000000) := fun zeros => by
    cases zeros.1
  have equal := into (by decide) signs kept
  exact ⟨equal, back equal not_false trivial⟩

/-- The two zeros are equal and apart, and `[1]` and `[1.0]` are one place and not equal. -/
theorem orders_disagree :
    (partialCmp (.float 0) (.float 0x8000000000000000) = some .eq ∧
      totalCmp (.float 0) (.float 0x8000000000000000) = .gt) ∧
    totalCmp (.list [.int 1]) (.list [.float 0x3ff0000000000000]) = .eq ∧
      valuesEq (.list [.int 1]) (.list [.float 0x3ff0000000000000]) = false := by
  refine ⟨⟨?_, ?_⟩, ?_, ?_⟩ <;> decide +kernel

end DrStrange.Compute
