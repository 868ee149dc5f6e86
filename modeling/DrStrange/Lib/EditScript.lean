/-
**Edit scripts, and the alignment by longest common subsequence.**

A script turns one list into another by keeping, removing and adding items. `lcsLength` is the length
of a longest common subsequence by its recurrence, and `align` the script that follows it: keep equal
heads, else remove as long as that loses nothing, else add. The script has both lists for its sides
(`sides_align`), keeps as many items as any common subsequence has (`kept_align`,
`length_le_lcsLength`), and between two kept items removes before it adds (`removalsFirst_align`).
-/

import Mathlib

namespace DrStrange.Lib

/-- What a script does with an item. -/
inductive Edit where
  | same
  | gone
  | added
  deriving DecidableEq, Repr

abbrev Script (α : Type*) := List (Edit × α)

variable {α : Type*}

namespace Script

/-- The items the script keeps and removes. -/
def old (script : Script α) : List α := (script.filter fun line => line.1 ≠ .added).map Prod.snd

/-- The items it keeps and adds. -/
def new (script : Script α) : List α := (script.filter fun line => line.1 ≠ .gone).map Prod.snd

def kept (script : Script α) : List α := (script.filter fun line => line.1 = .same).map Prod.snd

@[simp] theorem kept_nil : kept ([] : Script α) = [] := rfl

@[simp] theorem old_cons (edit : Edit) (item : α) (script : Script α) :
    old ((edit, item) :: script) = if edit = .added then old script else item :: old script := by
  cases edit <;> rfl

@[simp] theorem new_cons (edit : Edit) (item : α) (script : Script α) :
    new ((edit, item) :: script) = if edit = .gone then new script else item :: new script := by
  cases edit <;> rfl

@[simp] theorem kept_cons (edit : Edit) (item : α) (script : Script α) :
    kept ((edit, item) :: script) = if edit = .same then item :: kept script else kept script := by
  cases edit <;> rfl

theorem old_append (first second : Script α) : old (first ++ second) = old first ++ old second := by
  rw [old, List.filter_append, List.map_append, old, old]

theorem new_append (first second : Script α) : new (first ++ second) = new first ++ new second := by
  rw [new, List.filter_append, List.map_append, new, new]

variable {script : Script α}

/-- Where nothing changes, both sides are the kept items. -/
theorem sides_of_same (still : ∀ line ∈ script, line.1 = .same) :
    old script = script.map Prod.snd ∧ new script = script.map Prod.snd := by
  refine ⟨?_, ?_⟩
  · rw [old, List.filter_eq_self.mpr fun line member => by simp [still line member]]
  · rw [new, List.filter_eq_self.mpr fun line member => by simp [still line member]]

/-- Between two kept items every removal stands before every addition. -/
def RemovalsFirst (script : Script α) : Prop :=
  ∀ before between behind first later,
    script = before ++ (.added, first) :: between ++ (.gone, later) :: behind →
    ∃ line ∈ between, line.1 = .same

/-- No removal right behind an addition is enough. -/
theorem removalsFirst_of_isChain
    (chain : script.IsChain fun first second => ¬ (first.1 = .added ∧ second.1 = .gone)) :
    script.RemovalsFirst := by
  intro before between behind first later split
  rw [split, List.append_assoc] at chain
  replace chain := (List.isChain_append.mp chain).2.1
  clear split
  induction between generalizing first with
  | nil => exact absurd ⟨rfl, rfl⟩ (List.isChain_cons_cons.mp chain).1
  | cons line between ih =>
    obtain ⟨apart, chain⟩ := List.isChain_cons_cons.mp chain
    obtain ⟨edit, item⟩ := line
    cases edit with
    | same => exact ⟨_, List.mem_cons_self, rfl⟩
    | gone => exact absurd ⟨rfl, rfl⟩ apart
    | added =>
      obtain ⟨kept, member, same⟩ := ih item chain
      exact ⟨kept, List.mem_cons_of_mem _ member, same⟩

end Script

/-! ### The longest common subsequence -/

section

variable [DecidableEq α] {xs ys : List α}

/-- The length of a longest common subsequence. -/
def lcsLength : List α → List α → ℕ
  | [], _ => 0
  | _ :: _, [] => 0
  | x :: xs, y :: ys =>
    if x = y then lcsLength xs ys + 1 else max (lcsLength xs (y :: ys)) (lcsLength (x :: xs) ys)
termination_by xs ys => xs.length + ys.length

theorem lcsLength_nil (ys : List α) : lcsLength [] ys = 0 := by rw [lcsLength]

theorem lcsLength_nil_right (xs : List α) : lcsLength xs [] = 0 := by cases xs <;> rw [lcsLength]

theorem lcsLength_cons (x y : α) (xs ys : List α) : lcsLength (x :: xs) (y :: ys) =
    if x = y then lcsLength xs ys + 1 else max (lcsLength xs (y :: ys)) (lcsLength (x :: xs) ys) := by
  rw [lcsLength]

/-- **No common subsequence is longer.** -/
theorem length_le_lcsLength {common : List α} (left : common.Sublist xs) (right : common.Sublist ys) :
    common.length ≤ lcsLength xs ys := by
  fun_induction lcsLength xs ys generalizing common with
  | case1 ys => rw [List.sublist_nil.mp left, List.length_nil]
  | case2 x xs => rw [List.sublist_nil.mp right, List.length_nil]
  | case3 xs y ys ih =>
    cases common with
    | nil => exact Nat.zero_le _
    | cons c common =>
      have inner := ih (left.tail.trans (List.Sublist.refl _)) right.tail
      exact Nat.succ_le_succ inner
  | case4 x xs y ys different ihLeft ihRight =>
    -- A common subsequence uses one of the two heads at most.
    cases left with
    | cons _ left => exact (ihLeft left right).trans (le_max_left _ _)
    | cons_cons _ left =>
      cases right with
      | cons _ right => exact (ihRight (left.cons_cons x) right).trans (le_max_right _ _)
      | cons_cons _ _ => exact absurd rfl different

/-! ### The alignment -/

/-- Keep equal heads; else remove as long as that loses nothing, else add. -/
def align : List α → List α → Script α
  | [], [] => []
  | x :: xs, [] => (.gone, x) :: align xs []
  | [], y :: ys => (.added, y) :: align [] ys
  | x :: xs, y :: ys =>
    if x = y then (.same, x) :: align xs ys
    else if lcsLength (x :: xs) ys ≤ lcsLength xs (y :: ys) then (.gone, x) :: align xs (y :: ys)
    else (.added, y) :: align (x :: xs) ys
termination_by xs ys => xs.length + ys.length

theorem align_cons (x y : α) (xs ys : List α) : align (x :: xs) (y :: ys) =
    if x = y then (.same, x) :: align xs ys
    else if lcsLength (x :: xs) ys ≤ lcsLength xs (y :: ys) then (.gone, x) :: align xs (y :: ys)
    else (.added, y) :: align (x :: xs) ys := by
  rw [align]

/-- The script has the two lists for its sides. -/
theorem sides_align (xs ys : List α) : (align xs ys).old = xs ∧ (align xs ys).new = ys := by
  fun_induction align xs ys with
  | case1 => exact ⟨rfl, rfl⟩
  | case2 x xs ih => simp [ih]
  | case3 y ys ih => simp [ih]
  | case4 xs y ys ih => simp [ih]
  | case5 x xs y ys different fits ih => simp [ih]
  | case6 x xs y ys different worse ih => simp [ih]

theorem kept_align (xs ys : List α) : (align xs ys).kept.length = lcsLength xs ys := by
  fun_induction align xs ys with
  | case1 => rw [lcsLength_nil, Script.kept_nil, List.length_nil]
  | case2 x xs ih => simpa [lcsLength_nil_right] using ih
  | case3 y ys ih => simpa [lcsLength_nil] using ih
  | case4 xs y ys ih => simpa [lcsLength_cons] using ih
  | case5 x xs y ys different fits ih =>
    rw [lcsLength_cons, if_neg different, max_eq_left fits, ← ih]
    simp
  | case6 x xs y ys different worse ih =>
    rw [lcsLength_cons, if_neg different, max_eq_right (Nat.le_of_not_le worse), ← ih]
    simp

omit [DecidableEq α] in
theorem Script.kept_sublist (script : Script α) :
    script.kept.Sublist script.old ∧ script.kept.Sublist script.new := by
  refine ⟨(List.monotone_filter_right script fun line => ?_).map _,
    (List.monotone_filter_right script fun line => ?_).map _⟩
  all_goals
    obtain ⟨edit, item⟩ := line
    cases edit <;> simp

/-- The kept items are a common subsequence. -/
theorem kept_align_sublist (xs ys : List α) :
    (align xs ys).kept.Sublist xs ∧ (align xs ys).kept.Sublist ys := by
  have both := Script.kept_sublist (align xs ys)
  rwa [(sides_align xs ys).1, (sides_align xs ys).2] at both

/-- One item more never makes the common part shorter. -/
theorem lcsLength_le_cons (xs : List α) (y : α) (ys : List α) :
    lcsLength xs ys ≤ lcsLength xs (y :: ys) := by
  obtain ⟨left, right⟩ := kept_align_sublist xs ys
  rw [← kept_align]
  exact length_le_lcsLength left (right.cons y)

/-! ### Removals before additions -/

/-- What was worth adding for is still ahead: the next line removes nothing. -/
theorem head_align_ne_gone {x y : α} (worse : lcsLength xs (y :: ys) < lcsLength (x :: xs) ys) :
    ∀ line ∈ (align (x :: xs) ys).head?, line.1 ≠ .gone := by
  intro line head
  cases ys with
  | nil =>
    rw [lcsLength_nil_right] at worse
    cases worse
  | cons next ys =>
    rw [align_cons] at head
    rw [lcsLength_cons] at worse
    by_cases same : x = next
    · rw [if_pos same] at head
      rw [← Option.some.inj head]
      nofun
    · have shorter := lcsLength_le_cons xs y (next :: ys)
      have passed : ¬ lcsLength (x :: xs) ys ≤ lcsLength xs (next :: ys) := by
        intro fits
        rw [if_neg same, max_eq_left fits] at worse
        exact absurd worse (Nat.not_lt.mpr shorter)
      rw [if_neg same, if_neg passed] at head
      rw [← Option.some.inj head]
      nofun

theorem head_align_nil (ys : List α) : ∀ line ∈ (align [] ys).head?, line.1 ≠ .gone := by
  intro line head
  cases ys with
  | nil =>
    rw [align] at head
    cases head
  | cons y ys =>
    rw [align] at head
    rw [← Option.some.inj head]
    nofun

theorem removalsFirst_align (xs ys : List α) : (align xs ys).RemovalsFirst := by
  refine Script.removalsFirst_of_isChain ?_
  fun_induction align xs ys with
  | case1 => exact .nil
  | case2 x xs ih => exact List.isChain_cons.mpr ⟨fun _ _ both => (nomatch both.1), ih⟩
  | case3 y ys ih =>
    exact List.isChain_cons.mpr ⟨fun line head both => head_align_nil ys line head both.2, ih⟩
  | case4 xs y ys ih => exact List.isChain_cons.mpr ⟨fun _ _ both => (nomatch both.1), ih⟩
  | case5 x xs y ys different fits ih =>
    exact List.isChain_cons.mpr ⟨fun _ _ both => (nomatch both.1), ih⟩
  | case6 x xs y ys different worse ih =>
    exact List.isChain_cons.mpr
      ⟨fun line head both => head_align_ne_gone (Nat.lt_of_not_le worse) line head both.2, ih⟩

end

end DrStrange.Lib
