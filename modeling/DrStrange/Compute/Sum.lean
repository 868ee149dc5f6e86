/-
**The integer `sum()` saturates at every step.**

The total is within bounds after each value, so an overflow that later values would cancel is not
cancelled. Every order of the values gives the exact sum, or the bound on its side, if and only if the
values have one sign, or the positive and the negative ones each stay within bounds alone
(`sumOf_exact_iff`).
-/

import DrStrange.Compute.Groups

namespace DrStrange.Compute

open DrStrange.Graph Lib

/-- `RETURN sum(n.value)`. -/
def sumItem : ProjItem := ⟨"sum(n.value)", .agg ⟨.sum, some (.property "value"), false⟩⟩

/-- The accumulator of `sum()` over integers, in this order. -/
def sumOf (machine : Machine) (values : List ℤ) : PropValue :=
  (values.foldl (fun acc value => acc.take machine (some (.int value))) (Acc.forItem sumItem)).finish
    machine

/-- The exact sum, or the bound of `i64` on its side. -/
def exactSum (values : List ℤ) : ℤ := max (-2 ^ 63) (min (2 ^ 63 - 1) values.sum)

theorem sumOf_eq {machine : Machine} {values : List ℤ} :
    sumOf machine values = .int (values.foldl saturatingAdd 0) := by
  have summed (ints : ℤ) : values.foldl (fun acc value => Acc.take machine acc (some (.int value)))
      (.sum ints 0 false) = .sum (values.foldl saturatingAdd ints) 0 false := by
    induction values generalizing ints with
    | nil => rfl
    | cons value values ih => exact ih _
  rw [sumOf, show Acc.forItem sumItem = .sum 0 0 false from rfl, summed]
  rfl

/-! ### One sign -/

section

variable {values : List ℤ} {total value : ℤ}

theorem sum_nonpos (signs : ∀ value ∈ values, value ≤ 0) : values.sum ≤ 0 := by
  induction values with
  | nil => exact le_rfl
  | cons value values ih =>
    obtain ⟨sign, signs⟩ := List.forall_mem_cons.mp signs
    rw [List.sum_cons]
    exact add_nonpos sign (ih signs)

/-- Up from within the bounds the total saturates at the upper one and stays. -/
theorem foldl_of_nonneg (signs : ∀ value ∈ values, 0 ≤ value) (low : -2 ^ 63 ≤ total)
    (high : total ≤ 2 ^ 63 - 1) :
    values.foldl saturatingAdd total = min (2 ^ 63 - 1) (total + values.sum) := by
  induction values generalizing total with
  | nil => simpa using high
  | cons value values ih =>
    obtain ⟨sign, signs⟩ := List.forall_mem_cons.mp signs
    have rest : 0 ≤ values.sum := List.sum_nonneg signs
    have step : saturatingAdd total value = min (2 ^ 63 - 1) (total + value) := by
      unfold saturatingAdd
      omega
    rw [List.foldl_cons, step, ih signs (by omega) (by omega), List.sum_cons]
    omega

/-- Down from within the bounds it saturates at the lower one. -/
theorem foldl_of_nonpos (signs : ∀ value ∈ values, value ≤ 0) (low : -2 ^ 63 ≤ total)
    (high : total ≤ 2 ^ 63 - 1) :
    values.foldl saturatingAdd total = max (-2 ^ 63) (total + values.sum) := by
  induction values generalizing total with
  | nil => simpa using low
  | cons value values ih =>
    obtain ⟨sign, signs⟩ := List.forall_mem_cons.mp signs
    have rest : values.sum ≤ 0 := sum_nonpos signs
    have step : saturatingAdd total value = max (-2 ^ 63) (total + value) := by
      unfold saturatingAdd
      omega
    rw [List.foldl_cons, step, ih signs (by omega) (by omega), List.sum_cons]
    omega

/-! ### Both signs -/

/-- The sum of the values of one sign, zero included in the first. -/
def ups (values : List ℤ) : ℤ := (values.filter (0 ≤ ·)).sum

def downs (values : List ℤ) : ℤ := (values.filter (· < 0)).sum

theorem mem_ups (member : value ∈ values.filter (0 ≤ ·)) : 0 ≤ value := by
  simpa using (List.mem_filter.mp member).2

theorem mem_downs (member : value ∈ values.filter (· < 0)) : value ≤ 0 :=
  (by simpa using (List.mem_filter.mp member).2 : value < 0).le

theorem ups_nonneg : 0 ≤ ups values := List.sum_nonneg fun _ => mem_ups

theorem downs_nonpos : downs values ≤ 0 := sum_nonpos fun _ => mem_downs

theorem ups_cons : ups (value :: values) = max 0 value + ups values := by
  unfold ups
  rw [List.filter_cons]
  split_ifs with sign <;> simp only [decide_eq_true_eq, List.sum_cons] at sign ⊢ <;> omega

theorem downs_cons : downs (value :: values) = min 0 value + downs values := by
  unfold downs
  rw [List.filter_cons]
  split_ifs with sign <;> simp only [decide_eq_true_eq, List.sum_cons] at sign ⊢ <;> omega

theorem ups_add_downs : ups values + downs values = values.sum := by
  induction values with
  | nil => rfl
  | cons value values ih =>
    rw [ups_cons, downs_cons, List.sum_cons]
    omega

/-- Where the values of each sign stay within bounds nothing saturates. -/
theorem foldl_of_bounded (low : -2 ^ 63 ≤ total + downs values)
    (high : total + ups values ≤ 2 ^ 63 - 1) :
    values.foldl saturatingAdd total = total + values.sum := by
  induction values generalizing total with
  | nil => simp
  | cons value values ih =>
    have up : 0 ≤ ups values := ups_nonneg
    have down : downs values ≤ 0 := downs_nonpos
    rw [downs_cons] at low
    rw [ups_cons] at high
    have step : saturatingAdd total value = total + value := by
      unfold saturatingAdd
      omega
    rw [List.foldl_cons, step, ih (by omega) (by omega), List.sum_cons]
    omega

/-- Up first and then down. -/
theorem foldl_ups_downs :
    (values.filter (0 ≤ ·) ++ values.filter (· < 0)).foldl saturatingAdd 0 =
      max (-2 ^ 63) (min (2 ^ 63 - 1) (ups values) + downs values) := by
  have up : 0 ≤ ups values := ups_nonneg
  have first : (values.filter (0 ≤ ·)).foldl saturatingAdd 0 = min (2 ^ 63 - 1) (ups values) := by
    rw [foldl_of_nonneg (fun _ => mem_ups) (by norm_num) (by norm_num), zero_add]
    rfl
  rw [List.foldl_append, first, foldl_of_nonpos (fun _ => mem_downs) (by omega) (by omega)]
  rfl

/-- Down first and then up. -/
theorem foldl_downs_ups :
    (values.filter (· < 0) ++ values.filter (0 ≤ ·)).foldl saturatingAdd 0 =
      min (2 ^ 63 - 1) (max (-2 ^ 63) (downs values) + ups values) := by
  have down : downs values ≤ 0 := downs_nonpos
  have first : (values.filter (· < 0)).foldl saturatingAdd 0 = max (-2 ^ 63) (downs values) := by
    rw [foldl_of_nonpos (fun _ => mem_downs) (by norm_num) (by norm_num), zero_add]
    rfl
  rw [List.foldl_append, first, foldl_of_nonneg (fun _ => mem_ups) (by omega) (by omega)]
  rfl

theorem filters_perm : (values.filter (0 ≤ ·) ++ values.filter (· < 0)).Perm values := by
  have rest : values.filter (· < 0) = values.filter fun value => !decide (0 ≤ value) :=
    List.filter_congr fun value _ => by rw [← decide_not, decide_eq_decide, not_le]
  rw [rest]
  exact List.filter_append_perm _ values

theorem nonneg_of_downs (none : downs values = 0) : ∀ value ∈ values, 0 ≤ value := by
  induction values with
  | nil => exact nofun
  | cons value values ih =>
    have down : downs values ≤ 0 := downs_nonpos
    rw [downs_cons] at none
    exact List.forall_mem_cons.mpr ⟨by omega, ih (by omega)⟩

theorem nonpos_of_ups (none : ups values = 0) : ∀ value ∈ values, value ≤ 0 := by
  induction values with
  | nil => exact nofun
  | cons value values ih =>
    have up : 0 ≤ ups values := ups_nonneg
    rw [ups_cons] at none
    exact List.forall_mem_cons.mpr ⟨by omega, ih (by omega)⟩

end

/-- **Every order of the values gives the exact sum, or the bound on its side, if and only if** the
values have one sign, or the sums of the values of each sign are within bounds. -/
theorem sumOf_exact_iff (machine : Machine) (values : List ℤ) :
    (∀ order : List ℤ, order.Perm values → sumOf machine order = .int (exactSum values)) ↔
      (∀ value ∈ values, 0 ≤ value) ∨ (∀ value ∈ values, value ≤ 0) ∨
        (ups values ≤ 2 ^ 63 - 1 ∧ -2 ^ 63 ≤ downs values) := by
  have up : 0 ≤ ups values := ups_nonneg
  have down : downs values ≤ 0 := downs_nonpos
  have whole : ups values + downs values = values.sum := ups_add_downs
  constructor
  · intro exact
    have upFirst := exact _ filters_perm
    have downFirst := exact _ (List.perm_append_comm.trans filters_perm)
    rw [sumOf_eq, foldl_ups_downs, PropValue.int.injEq, exactSum] at upFirst
    rw [sumOf_eq, foldl_downs_ups, PropValue.int.injEq, exactSum] at downFirst
    by_cases rising : downs values = 0
    · exact .inl (nonneg_of_downs rising)
    · by_cases falling : ups values = 0
      · exact .inr (.inl (nonpos_of_ups falling))
      · exact .inr (.inr ⟨by omega, by omega⟩)
  · intro condition order same
    rw [sumOf_eq, exactSum, ← same.sum_eq]
    congr 1
    rcases condition with rising | falling | ⟨high, low⟩
    · have sum := List.sum_nonneg fun value member => rising value (same.subset member)
      rw [foldl_of_nonneg (fun value member => rising value (same.subset member)) (by norm_num)
        (by norm_num)]
      omega
    · have sum := sum_nonpos fun value member => falling value (same.subset member)
      rw [foldl_of_nonpos (fun value member => falling value (same.subset member)) (by norm_num)
        (by norm_num)]
      omega
    · have ups' : ups order = ups values := (same.filter _).sum_eq
      have downs' : downs order = downs values := (same.filter _).sum_eq
      have sum : ups order + downs order = order.sum := ups_add_downs
      rw [foldl_of_bounded (by omega) (by omega)]
      omega

/-- Above the bound and back: one is lost. -/
theorem sumOf_saturates :
    sumOf .scalar [2 ^ 63 - 1, 1, -1] = .int (2 ^ 63 - 2) ∧
      exactSum [2 ^ 63 - 1, 1, -1] = 2 ^ 63 - 1 := by
  rw [sumOf_eq]
  exact ⟨rfl, rfl⟩

end DrStrange.Compute
