/-
**Symbol diffs: the edit script and its hunks.**

`edits` fills a table of common lengths from the ends of both lists and reads a script back from its
first cell. The cells hold what they should (`fillTable_cell`), so the script is the alignment of the
two lists (`edits_eq`). `hunks` groups the changes with the lines around them and numbers both sides
as it goes; for any script its groups are windows around the changes, its numbers are positions, and
a strict application of the hunks turns the old side into the new one (`hunkList_spec`).
-/

import DrStrange.Lib.EditScript

namespace DrStrange.Ops

open DrStrange.Lib

variable {α : Type*} {script : Script α} {next i j oldFirst newFirst change last at_ : ℕ}
  {group : ℕ × ℕ} {seen : List ℕ}

/-! ### The table -/

/-- The largest table that is filled. -/
def lcsCells : ℕ := 4000000

/-- The place of a cell in the flat table, whose rows have `m + 1` cells. -/
def cell (m i j : ℕ) : ℕ := i * (m + 1) + j

/-- `len`, zero where nothing has been written. -/
abbrev Cells := ℕ → ℕ

section

variable [DecidableEq α] (old new : List α)

/-- One cell of the table, from those behind it. -/
def fillCell (i : ℕ) (len : Cells) (j : ℕ) : Cells :=
  let m := new.length
  Function.update len (cell m i j)
    (if old[i]? = new[j]? then len (cell m (i + 1) (j + 1)) + 1
    else max (len (cell m (i + 1) j)) (len (cell m i (j + 1))))

def fillRow (len : Cells) (i : ℕ) : Cells :=
  (List.range new.length).reverse.foldl (fillCell old new i) len

def fillTable : Cells := (List.range old.length).reverse.foldl (fillRow old new) fun _ => 0

/-- The loop that reads the script off the table. -/
def readBack (len : Cells) (i j : ℕ) : Script α :=
  match left : old[i]?, right : new[j]? with
  | some x, some y =>
    if x = y then (.same, x) :: readBack len (i + 1) (j + 1)
    else if len (cell new.length i (j + 1)) ≤ len (cell new.length (i + 1) j) then
      (.gone, x) :: readBack len (i + 1) j
    else (.added, y) :: readBack len i (j + 1)
  | some x, none => (.gone, x) :: readBack len (i + 1) j
  | none, some y => (.added, y) :: readBack len i (j + 1)
  | none, none => []
termination_by (old.length - i) + (new.length - j)
decreasing_by
  all_goals
    try have := (List.getElem?_eq_some_iff.mp left).1
    try have := (List.getElem?_eq_some_iff.mp right).1
    omega

/-- The edit script turning `old` into `new`; `none` when the table would be too large. -/
def edits : Option (Script α) :=
  if lcsCells < (old.length + 1) * (new.length + 1) then none
  else some (readBack old new (fillTable old new) 0 0)

end

/-! ### The hunks -/

/-- The kept lines shown around a change. -/
def hunkContext : ℕ := 3

/-- A run of changes with its context, and where it starts on either side. -/
structure Hunk (α : Type*) where
  oldAt : ℕ
  oldCount : ℕ
  newAt : ℕ
  newCount : ℕ
  lines : Script α
  deriving DecidableEq, Repr

/-- The positions of the lines that are not kept. -/
def changes (script : Script α) : List ℕ :=
  (script.zipIdx.filter fun line => line.1.1 ≠ .same).map Prod.snd

/-- The window of a change joins the last group if they touch. -/
def grow (last : ℕ) (groups : List (ℕ × ℕ)) (change : ℕ) : List (ℕ × ℕ) :=
  let lo := change - hunkContext
  let hi := min (change + hunkContext) last
  match groups.getLast? with
  | some group =>
    if lo ≤ group.2 + 1 then groups.dropLast ++ [(group.1, hi)] else groups ++ [(lo, hi)]
  | none => groups ++ [(lo, hi)]

/-- The windows of the hunks, first and last line. -/
def groups (script : Script α) : List (ℕ × ℕ) :=
  (changes script).foldl (grow (script.length - 1)) []

/-- `script[lo..=hi]`. -/
def slice (script : Script α) (group : ℕ × ℕ) : Script α :=
  (script.drop group.1).take (group.2 + 1 - group.1)

/-- The loop over the groups, with the numbers of the next line of each side. -/
def hunkLoop (script : Script α) (oldNo newNo next : ℕ) : List (ℕ × ℕ) → List (Hunk α)
  | [] => []
  | group :: groups =>
    let skipped := group.1 - next
    let oldAt := oldNo + skipped
    let newAt := newNo + skipped
    let body := slice script group
    let oldNo := body.foldl (fun no line => no + if line.1 ≠ .added then 1 else 0) oldAt
    let newNo := body.foldl (fun no line => no + if line.1 ≠ .gone then 1 else 0) newAt
    ⟨oldAt, oldNo - oldAt, newAt, newNo - newAt, body⟩ ::
      hunkLoop script oldNo newNo (group.2 + 1) groups

def hunkList (script : Script α) (oldFirst newFirst : ℕ) : List (Hunk α) :=
  hunkLoop script oldFirst newFirst 0 (groups script)

def mark : Edit → String
  | .same => " "
  | .gone => "-"
  | .added => "+"

/-- The header of a hunk and its lines. -/
def Hunk.render (hunk : Hunk String) : String :=
  "@@ -" ++ toString hunk.oldAt ++ "," ++ toString hunk.oldCount ++ " +" ++ toString hunk.newAt ++
    "," ++ toString hunk.newCount ++ " @@\n" ++
    String.join (hunk.lines.map fun line => mark line.1 ++ line.2 ++ "\n")

/-- The script as unified hunks, old lines numbered from `oldFirst` and new ones from `newFirst`. -/
def hunks (script : Script String) (oldFirst newFirst : ℕ) : String :=
  String.join ((hunkList script oldFirst newFirst).map Hunk.render)

/-! ### The script is the alignment -/

theorem cell_inj {m i' j' : ℕ} (left : j ≤ m) (right : j' ≤ m) (same : cell m i j = cell m i' j') :
    i = i' ∧ j = j' := by
  have column : j = j' := by
    have rest := congrArg (· % (m + 1)) same
    simpa only [cell, Nat.mul_add_mod_self_right, Nat.mod_eq_of_lt (Nat.lt_succ_of_le left),
      Nat.mod_eq_of_lt (Nat.lt_succ_of_le right)] using rest
  refine ⟨?_, column⟩
  rw [cell, cell, column] at same
  exact Nat.eq_of_mul_eq_mul_right (Nat.succ_pos m) (Nat.add_right_cancel same)

/-- What is left of a list from a position on. -/
theorem drop_of_getElem? {items : List α} {item : α} (found : items[i]? = some item) :
    items.drop i = item :: items.drop (i + 1) := by
  obtain ⟨inside, rfl⟩ := List.getElem?_eq_some_iff.mp found
  exact List.drop_eq_getElem_cons inside

section

variable [DecidableEq α] {old new : List α} {len : Cells}

/-- The table when row `i` is filled from column `j` on. -/
structure Filled (old new : List α) (len : Cells) (i j : ℕ) : Prop where
  done : ∀ i' j', j' ≤ new.length → (i < i' ∧ i' ≤ old.length ∨ i' = i ∧ j ≤ j') →
    len (cell new.length i' j') = lcsLength (old.drop i') (new.drop j')
  blank : ∀ i' j', j' ≤ new.length → i' < i → len (cell new.length i' j') = 0

theorem Filled.fillCell (filled : Filled old new len i (j + 1)) (row : i < old.length)
    (column : j < new.length) :
    Filled old new (fillCell old new i len j) i j := by
  have apart : ∀ i' j', j' ≤ new.length → ¬ (i' = i ∧ j' = j) →
      Ops.fillCell old new i len j (cell new.length i' j') = len (cell new.length i' j') := by
    intro i' j' inside other
    refine Function.update_of_ne (fun same => other ?_) _ _
    exact cell_inj inside column.le same
  refine ⟨fun i' j' inside reached => ?_, fun i' j' inside above => ?_⟩
  · by_cases here : i' = i ∧ j' = j
    · obtain ⟨rfl, rfl⟩ := here
      rw [Ops.fillCell, Function.update_self, List.getElem?_eq_getElem row,
        List.getElem?_eq_getElem column, List.drop_eq_getElem_cons row,
        List.drop_eq_getElem_cons column, lcsLength_cons,
        filled.done (i' + 1) (j' + 1) column (.inl ⟨Nat.lt_succ_self _, row⟩),
        filled.done (i' + 1) j' inside (.inl ⟨Nat.lt_succ_self _, row⟩),
        filled.done i' (j' + 1) column (.inr ⟨rfl, le_rfl⟩), ← List.drop_eq_getElem_cons row,
        ← List.drop_eq_getElem_cons column]
      simp only [Option.some.injEq]
    · rw [apart i' j' inside here]
      refine filled.done i' j' inside ?_
      omega
  · rw [apart i' j' inside (by omega)]
    exact filled.blank i' j' inside above

theorem Filled.fillRow (filled : Filled old new len i new.length) (row : i < old.length) :
    Filled old new (fillRow old new len i) i 0 := by
  have fold : ∀ j ≤ new.length, ∀ len, Filled old new len i j →
      Filled old new ((List.range j).reverse.foldl (Ops.fillCell old new i) len) i 0 := by
    intro j
    induction j with
    | zero => exact fun _ len filled => filled
    | succ j ih =>
      intro inside len filled
      rw [List.range_succ, List.reverse_append, List.reverse_singleton, List.singleton_append,
        List.foldl_cons]
      exact ih (Nat.le_of_succ_le inside) _ (filled.fillCell row inside)
  exact fold new.length le_rfl len filled

/-- **Every cell holds the length of a longest common subsequence of what is left.** -/
theorem fillTable_cell (row : i ≤ old.length) (column : j ≤ new.length) :
    fillTable old new (cell new.length i j) = lcsLength (old.drop i) (new.drop j) := by
  have fold : ∀ i ≤ old.length, ∀ len, Filled old new len i 0 →
      Filled old new ((List.range i).reverse.foldl (fillRow old new) len) 0 0 := by
    intro i
    induction i with
    | zero => exact fun _ len filled => filled
    | succ i ih =>
      intro inside len filled
      rw [List.range_succ, List.reverse_append, List.reverse_singleton, List.singleton_append,
        List.foldl_cons]
      refine ih (Nat.le_of_succ_le inside) _ (Filled.fillRow ⟨fun i' j' low reached => ?_, ?_⟩ inside)
      · rcases reached with ⟨below, high⟩ | ⟨rfl, past⟩
        · exact filled.done i' j' low (by omega)
        · rw [filled.blank i' j' low (Nat.lt_succ_self _), List.drop_eq_nil_of_le past,
            lcsLength_nil_right]
      · exact fun i' j' low above => filled.blank i' j' low (Nat.lt_succ_of_lt above)
  have start : Filled old new (fun _ => 0) old.length 0 := by
    refine ⟨fun i' j' _ reached => ?_, fun _ _ _ _ => rfl⟩
    rw [List.drop_eq_nil_of_le (by omega), lcsLength_nil]
  exact (fold old.length le_rfl _ start).done i j column (by omega)

theorem readBack_eq (i j : ℕ) : readBack old new (fillTable old new) i j =
    align (old.drop i) (new.drop j) := by
  fun_induction readBack old new (fillTable old new) i j with
  | case1 i j x left right ih =>
    rw [ih, drop_of_getElem? left, drop_of_getElem? right, align_cons, if_pos rfl]
  | case2 i j x y left right different fits ih =>
    have row := (List.getElem?_eq_some_iff.mp left).1
    have column := (List.getElem?_eq_some_iff.mp right).1
    rw [fillTable_cell row.le column, fillTable_cell row column.le] at fits
    rw [ih, drop_of_getElem? left, drop_of_getElem? right, align_cons, if_neg different, if_pos]
    rw [← drop_of_getElem? left, ← drop_of_getElem? right]
    exact fits
  | case3 i j x y left right different worse ih =>
    have row := (List.getElem?_eq_some_iff.mp left).1
    have column := (List.getElem?_eq_some_iff.mp right).1
    rw [fillTable_cell row.le column, fillTable_cell row column.le] at worse
    rw [ih, drop_of_getElem? left, drop_of_getElem? right, align_cons, if_neg different, if_neg]
    rw [← drop_of_getElem? left, ← drop_of_getElem? right]
    exact worse
  | case4 i j x left right ih =>
    rw [ih, drop_of_getElem? left, List.drop_eq_nil_of_le (List.getElem?_eq_none_iff.mp right), align]
  | case5 i j y left right ih =>
    rw [ih, drop_of_getElem? right, List.drop_eq_nil_of_le (List.getElem?_eq_none_iff.mp left), align]
  | case6 i j left right =>
    rw [List.drop_eq_nil_of_le (List.getElem?_eq_none_iff.mp left),
      List.drop_eq_nil_of_le (List.getElem?_eq_none_iff.mp right), align]

theorem edits_eq (fits : (old.length + 1) * (new.length + 1) ≤ lcsCells) :
    edits old new = some (align old new) := by
  rw [edits, if_neg (Nat.not_lt.mpr fits), readBack_eq, List.drop_zero, List.drop_zero]

end

/-! ### Windows -/

def IsChange (script : Script α) (at_ : ℕ) : Prop := ∃ line, script[at_]? = some line ∧ line.1 ≠ .same

theorem mem_changes : at_ ∈ changes script ↔ IsChange script at_ := by
  rw [changes, List.mem_map]
  constructor
  · rintro ⟨⟨line, at_⟩, member, rfl⟩
    obtain ⟨listed, changed⟩ := List.mem_filter.mp member
    exact ⟨line, List.mem_zipIdx_iff_getElem?.mp listed, by simpa using changed⟩
  · rintro ⟨line, found, changed⟩
    exact ⟨(line, at_), List.mem_filter.mpr ⟨List.mem_zipIdx_iff_getElem?.mpr found,
      by simpa using changed⟩, rfl⟩

theorem IsChange.lt_length (change : IsChange script at_) : at_ < script.length := by
  obtain ⟨line, found, -⟩ := change
  exact (List.getElem?_eq_some_iff.mp found).1

theorem changes_pairwise (script : Script α) : (changes script).Pairwise (· < ·) := by
  have whole : (script.zipIdx.map Prod.snd).Pairwise (· < ·) := by
    rw [List.zipIdx_map_snd]
    exact List.pairwise_lt_range'
  exact whole.sublist (List.filter_sublist.map _)

/-- The groups around the changes seen so far. -/
structure Grouped (last : ℕ) (seen : List ℕ) (groups : List (ℕ × ℕ)) : Prop where
  within : ∀ group ∈ groups, group.1 ≤ group.2 ∧ group.2 ≤ last
  apart : groups.Pairwise fun first second => first.2 + 1 < second.1
  holds : ∀ change ∈ seen, ∃ group ∈ groups,
    group.1 ≤ change - hunkContext ∧ min (change + hunkContext) last ≤ group.2
  near : ∀ group ∈ groups, ∀ k, group.1 ≤ k → k ≤ group.2 → ∃ change ∈ seen,
    group.1 ≤ change ∧ change ≤ group.2 ∧ k ≤ change + hunkContext ∧ change ≤ k + hunkContext
  newest : ∀ group ∈ groups.getLast?, ∃ change ∈ seen, group.1 ≤ change - hunkContext ∧
    group.2 = min (change + hunkContext) last ∧ ∀ other ∈ seen, other ≤ change

/-- A window that stands behind all groups. -/
theorem Grouped.push {groups : List (ℕ × ℕ)} (grouped : Grouped last seen groups)
    (inside : change ≤ last) (later : ∀ other ∈ seen, other < change)
    (behind : ∀ group ∈ groups, group.2 + 1 < change - hunkContext) :
    Grouped last (seen ++ [change])
      (groups ++ [(change - hunkContext, min (change + hunkContext) last)]) := by
  have own : change - hunkContext ≤ min (change + hunkContext) last := by omega
  refine ⟨fun group member => ?_, ?_, fun other member => ?_, fun group member k low high => ?_, ?_⟩
  · rcases List.mem_append.mp member with old | new
    · exact grouped.within group old
    · rw [List.mem_singleton.mp new]
      exact ⟨own, min_le_right _ _⟩
  · refine List.pairwise_append.mpr ⟨grouped.apart, List.pairwise_singleton _ _, ?_⟩
    intro group member new here
    rw [List.mem_singleton.mp here]
    exact behind group member
  · rcases List.mem_append.mp member with old | new
    · obtain ⟨group, member, covers⟩ := grouped.holds other old
      exact ⟨group, List.mem_append_left _ member, covers⟩
    · rw [List.mem_singleton.mp new]
      exact ⟨_, List.mem_append_right _ List.mem_cons_self, le_rfl, le_rfl⟩
  · rcases List.mem_append.mp member with old | new
    · obtain ⟨other, among, close⟩ := grouped.near group old k low high
      exact ⟨other, List.mem_append_left _ among, close⟩
    · rw [List.mem_singleton.mp new] at low high ⊢
      refine ⟨change, List.mem_append_right _ List.mem_cons_self, ?_⟩
      dsimp only at low high ⊢
      omega
  · intro group here
    rw [List.getLast?_concat, Option.mem_some_iff] at here
    rw [← here]
    refine ⟨change, List.mem_append_right _ List.mem_cons_self, le_rfl, rfl, fun other member => ?_⟩
    rcases List.mem_append.mp member with old | new
    · exact (later other old).le
    · exact (List.mem_singleton.mp new).le

/-- A window that reaches the last group makes it longer. -/
theorem Grouped.extend {groups : List (ℕ × ℕ)} (grouped : Grouped last seen (groups ++ [group]))
    (inside : change ≤ last) (later : ∀ other ∈ seen, other < change)
    (touches : change - hunkContext ≤ group.2 + 1) :
    Grouped last (seen ++ [change])
      (groups ++ [(group.1, min (change + hunkContext) last)]) := by
  obtain ⟨latest, listed, start, stop, -⟩ := grouped.newest group (by simp)
  have before := later latest listed
  obtain ⟨sorted, -, ahead⟩ := List.pairwise_append.mp grouped.apart
  obtain ⟨ordered, -⟩ := grouped.within group (List.mem_append_right _ List.mem_cons_self)
  have front : group.1 ≤ change - hunkContext := start.trans (Nat.sub_le_sub_right before.le _)
  have longer : group.2 ≤ min (change + hunkContext) last := by omega
  refine ⟨fun other member => ?_, ?_, fun other member => ?_, fun other member k low high => ?_, ?_⟩
  · rcases List.mem_append.mp member with old | new
    · exact grouped.within other (List.mem_append_left _ old)
    · rw [List.mem_singleton.mp new]
      exact ⟨ordered.trans longer, min_le_right _ _⟩
  · refine List.pairwise_append.mpr ⟨sorted, List.pairwise_singleton _ _,
      fun other member new here => ?_⟩
    rw [List.mem_singleton.mp here]
    exact ahead other member group List.mem_cons_self
  · rcases List.mem_append.mp member with old | new
    · obtain ⟨held, listed, covers⟩ := grouped.holds other old
      rcases List.mem_append.mp listed with early | final
      · exact ⟨held, List.mem_append_left _ early, covers⟩
      · obtain rfl := List.mem_singleton.mp final
        exact ⟨_, List.mem_append_right _ List.mem_cons_self, covers.1, covers.2.trans longer⟩
    · rw [List.mem_singleton.mp new]
      exact ⟨_, List.mem_append_right _ List.mem_cons_self, front, le_rfl⟩
  · rcases List.mem_append.mp member with old | new
    · obtain ⟨held, among, close⟩ := grouped.near other (List.mem_append_left _ old) k low high
      exact ⟨held, List.mem_append_left _ among, close⟩
    · rw [List.mem_singleton.mp new] at low high ⊢
      dsimp only at low high ⊢
      by_cases early : k ≤ group.2
      · obtain ⟨held, among, close⟩ :=
          grouped.near group (List.mem_append_right _ List.mem_cons_self) k low early
        exact ⟨held, List.mem_append_left _ among, close.1, close.2.1.trans longer, close.2.2⟩
      · refine ⟨change, List.mem_append_right _ List.mem_cons_self, ?_⟩
        omega
  · intro other here
    rw [List.getLast?_concat, Option.mem_some_iff] at here
    rw [← here]
    refine ⟨change, List.mem_append_right _ List.mem_cons_self, front, rfl, fun other member => ?_⟩
    rcases List.mem_append.mp member with old | new
    · exact (later other old).le
    · exact (List.mem_singleton.mp new).le

theorem Grouped.grow {last : ℕ} {seen : List ℕ} {groups : List (ℕ × ℕ)}
    (grouped : Grouped last seen groups) {change : ℕ} (inside : change ≤ last)
    (later : ∀ other ∈ seen, other < change) :
    Grouped last (seen ++ [change]) (grow last groups change) := by
  rcases List.eq_nil_or_concat' groups with rfl | ⟨before, group, rfl⟩
  · exact grouped.push inside later nofun
  · simp only [Ops.grow, List.getLast?_concat, List.dropLast_concat]
    by_cases touches : change - hunkContext ≤ group.2 + 1
    · rw [if_pos touches]
      exact grouped.extend inside later touches
    · rw [if_neg touches]
      refine grouped.push inside later fun other member => ?_
      have behind := Nat.lt_of_not_le touches
      rcases List.mem_append.mp member with old | new
      · have ahead := (List.pairwise_append.mp grouped.apart).2.2 other old group List.mem_cons_self
        have ordered := (grouped.within group (List.mem_append_right _ List.mem_cons_self)).1
        omega
      · rw [List.mem_singleton.mp new]
        exact behind

theorem groups_grouped (script : Script α) :
    Grouped (script.length - 1) (changes script) (groups script) := by
  have fold : ∀ changes : List ℕ, changes.Pairwise (· < ·) →
      (∀ change ∈ changes, change ≤ script.length - 1) →
      Grouped (script.length - 1) changes (changes.foldl (Ops.grow (script.length - 1)) []) := by
    intro changes
    induction changes using List.reverseRecOn with
    | nil => exact fun _ _ => ⟨nofun, List.Pairwise.nil, nofun, nofun, nofun⟩
    | append_singleton changes change ih =>
      intro ascending inside
      obtain ⟨ascending, -, ahead⟩ := List.pairwise_append.mp ascending
      rw [List.foldl_append, List.foldl_cons, List.foldl_nil]
      refine (ih ascending fun other member => inside other (List.mem_append_left _ member)).grow
        (inside change (List.mem_append_right _ List.mem_cons_self)) fun other member => ?_
      exact ahead other member change List.mem_cons_self
  refine fold _ (changes_pairwise script) fun change member => ?_
  exact Nat.le_sub_one_of_lt (mem_changes.mp member).lt_length

/-- Groups of lines of a script: disjoint and in order, each change in one with the lines up to
three away from it, and no other line in any. -/
structure Windows (script : Script α) (groups : List (ℕ × ℕ)) : Prop where
  within : ∀ group ∈ groups, group.1 ≤ group.2 ∧ group.2 < script.length
  apart : groups.Pairwise fun first second => first.2 + 1 < second.1
  holds : ∀ change, IsChange script change → ∃ group ∈ groups, ∀ k < script.length,
    k ≤ change + hunkContext → change ≤ k + hunkContext → group.1 ≤ k ∧ k ≤ group.2
  near : ∀ group ∈ groups, ∀ k, group.1 ≤ k → k ≤ group.2 → ∃ change, IsChange script change ∧
    group.1 ≤ change ∧ change ≤ group.2 ∧ k ≤ change + hunkContext ∧ change ≤ k + hunkContext

theorem groups_windows (script : Script α) : Windows script (groups script) := by
  have grouped := groups_grouped script
  refine ⟨fun group member => ?_, grouped.apart, fun change changed => ?_,
    fun group member k low high => ?_⟩
  · obtain ⟨ordered, inside⟩ := grouped.within group member
    obtain ⟨change, among, -⟩ := grouped.near group member group.1 le_rfl ordered
    have some_ := (mem_changes.mp among).lt_length
    exact ⟨ordered, by omega⟩
  · obtain ⟨group, member, low, high⟩ := grouped.holds change (mem_changes.mpr changed)
    refine ⟨group, member, fun k inside above below => ?_⟩
    omega
  · obtain ⟨change, among, close⟩ := grouped.near group member k low high
    exact ⟨change, mem_changes.mp among, close⟩

/-! ### Numbers, and what the hunks do -/

/-- The hunk of a group: its lines, and where they stand on both sides. -/
def hunkOf (script : Script α) (oldFirst newFirst : ℕ) (group : ℕ × ℕ) : Hunk α :=
  ⟨oldFirst + (Script.old (script.take group.1)).length, (Script.old (slice script group)).length,
    newFirst + (Script.new (script.take group.1)).length, (Script.new (slice script group)).length,
    slice script group⟩

/-- Apply hunks to what is left of a list whose next line has the number `at_`, the next line of the
result having `newAt`. Every header number, and every line it keeps or removes, must fit. -/
def applyHunks [DecidableEq α] (at_ newAt : ℕ) (items : List α) : List (Hunk α) → Option (List α)
  | [] => some items
  | hunk :: rest =>
    let skipped := hunk.oldAt - at_
    if at_ ≤ hunk.oldAt ∧ skipped ≤ items.length ∧ hunk.newAt = newAt + skipped ∧
        Script.old hunk.lines = (items.drop skipped).take hunk.oldCount ∧
        hunk.oldCount = (Script.old hunk.lines).length ∧
        hunk.newCount = (Script.new hunk.lines).length then
      (applyHunks (hunk.oldAt + hunk.oldCount) (hunk.newAt + hunk.newCount)
        (items.drop (skipped + hunk.oldCount)) rest).map
        fun tail => items.take skipped ++ Script.new hunk.lines ++ tail
    else none

theorem foldl_count (keep : Edit × α → Bool) (lines : Script α) (start : ℕ) :
    lines.foldl (fun no line => no + if keep line = true then 1 else 0) start =
      start + (lines.filter keep).length := by
  induction lines generalizing start with
  | nil => rfl
  | cons line lines ih =>
    rw [List.foldl_cons, ih, List.filter_cons]
    split_ifs
    · rw [List.length_cons]
      omega
    · rfl

theorem foldl_old (lines : Script α) (start : ℕ) :
    lines.foldl (fun no line => no + if line.1 ≠ .added then 1 else 0) start =
      start + (Script.old lines).length := by
  rw [Script.old, List.length_map, ← foldl_count]
  simp

theorem foldl_new (lines : Script α) (start : ℕ) :
    lines.foldl (fun no line => no + if line.1 ≠ .gone then 1 else 0) start =
      start + (Script.new lines).length := by
  rw [Script.new, List.length_map, ← foldl_count]
  simp

/-- The groups still to come, from the line `next` on. -/
structure Ahead (script : Script α) (next : ℕ) (groups : List (ℕ × ℕ)) : Prop where
  within : ∀ group ∈ groups, next ≤ group.1 ∧ group.1 ≤ group.2 ∧ group.2 < script.length
  apart : groups.Pairwise fun first second => first.2 + 1 < second.1
  holds : ∀ change, next ≤ change → IsChange script change →
    ∃ group ∈ groups, group.1 ≤ change ∧ change ≤ group.2

theorem Windows.ahead {groups : List (ℕ × ℕ)} (windows : Windows script groups) :
    Ahead script 0 groups := by
  refine ⟨fun group member => ⟨Nat.zero_le _, windows.within group member⟩, windows.apart,
    fun change _ changed => ?_⟩
  obtain ⟨group, member, holds⟩ := windows.holds change changed
  exact ⟨group, member, holds change changed.lt_length (Nat.le_add_right _ _) (Nat.le_add_right _ _)⟩

theorem Ahead.tail {script : Script α} {next : ℕ} {group : ℕ × ℕ} {groups : List (ℕ × ℕ)}
    (ahead : Ahead script next (group :: groups)) : Ahead script (group.2 + 1) groups := by
  obtain ⟨behind, apart⟩ := List.pairwise_cons.mp ahead.apart
  have first := ahead.within group List.mem_cons_self
  refine ⟨fun other member => ?_, apart, fun change past changed => ?_⟩
  · exact ⟨(behind other member).le, (ahead.within other (List.mem_cons_of_mem _ member)).2⟩
  · obtain ⟨held, member, inside⟩ := ahead.holds change (by omega) changed
    rcases List.mem_cons.mp member with rfl | later
    · omega
    · exact ⟨held, later, inside⟩

/-- Nothing changes before the next group. -/
theorem Ahead.still {groups : List (ℕ × ℕ)} (ahead : Ahead script next (group :: groups)) :
    ∀ line ∈ (script.drop next).take (group.1 - next), line.1 = .same := by
  intro line member
  obtain ⟨k, inside, rfl⟩ := List.mem_iff_getElem.mp member
  by_contra changed
  rw [List.getElem_take, List.getElem_drop] at changed
  rw [List.length_take, List.length_drop] at inside
  obtain ⟨held, listed, low, high⟩ := ahead.holds (next + k) (Nat.le_add_right _ _)
    ⟨_, List.getElem?_eq_getElem (by omega), changed⟩
  rcases List.mem_cons.mp listed with rfl | later
  · omega
  · have := (List.pairwise_cons.mp ahead.apart).1 held later
    have := ahead.within group List.mem_cons_self
    omega

/-- The lines before a group: those before `next`, and kept ones. -/
theorem Ahead.take_eq {groups : List (ℕ × ℕ)} (ahead : Ahead script next (group :: groups)) :
    script.take group.1 = script.take next ++ (script.drop next).take (group.1 - next) := by
  have first := ahead.within group List.mem_cons_self
  rw [← List.take_add, Nat.add_sub_cancel' first.1]

/-- The skipped lines are as many on both sides. -/
theorem Ahead.skipped {groups : List (ℕ × ℕ)} (ahead : Ahead script next (group :: groups)) :
    Script.old ((script.drop next).take (group.1 - next)) =
        Script.new ((script.drop next).take (group.1 - next)) ∧
      (Script.old ((script.drop next).take (group.1 - next))).length = group.1 - next := by
  obtain ⟨left, right⟩ := Script.sides_of_same ahead.still
  have first := ahead.within group List.mem_cons_self
  refine ⟨left.trans right.symm, ?_⟩
  rw [left, List.length_map, List.length_take, List.length_drop]
  omega

theorem take_succ_slice (ordered : group.1 ≤ group.2) :
    script.take (group.2 + 1) = script.take group.1 ++ slice script group := by
  rw [slice, ← List.take_add]
  congr 1
  omega

theorem hunkLoop_eq {groups : List (ℕ × ℕ)} :
    ∀ {next : ℕ}, Ahead script next groups →
    hunkLoop script (oldFirst + (Script.old (script.take next)).length)
        (newFirst + (Script.new (script.take next)).length) next groups =
      groups.map (hunkOf script oldFirst newFirst) := by
  induction groups with
  | nil => exact fun _ => rfl
  | cons group groups ih =>
    intro next ahead
    have ordered := (ahead.within group List.mem_cons_self).2.1
    obtain ⟨both, length⟩ := ahead.skipped
    have oldAt : oldFirst + (Script.old (script.take next)).length + (group.1 - next) =
        oldFirst + (Script.old (script.take group.1)).length := by
      rw [ahead.take_eq, Script.old_append, List.length_append, length, Nat.add_assoc]
    have newAt : newFirst + (Script.new (script.take next)).length + (group.1 - next) =
        newFirst + (Script.new (script.take group.1)).length := by
      rw [ahead.take_eq, Script.new_append, List.length_append, ← both, length, Nat.add_assoc]
    have oldNo : oldFirst + (Script.old (script.take group.1)).length +
        (Script.old (slice script group)).length =
          oldFirst + (Script.old (script.take (group.2 + 1))).length := by
      rw [take_succ_slice ordered, Script.old_append, List.length_append, Nat.add_assoc]
    have newNo : newFirst + (Script.new (script.take group.1)).length +
        (Script.new (slice script group)).length =
          newFirst + (Script.new (script.take (group.2 + 1))).length := by
      rw [take_succ_slice ordered, Script.new_append, List.length_append, Nat.add_assoc]
    have rest := ih ahead.tail
    simp only [hunkLoop, foldl_old, foldl_new, oldAt, newAt]
    rw [Nat.add_sub_cancel_left, Nat.add_sub_cancel_left, oldNo, newNo, rest, List.map_cons, hunkOf]

/-- What is left at a group: the skipped lines, the lines of the group, the rest. -/
theorem Ahead.drop_eq {groups : List (ℕ × ℕ)} (ahead : Ahead script next (group :: groups)) :
    script.drop next =
      (script.drop next).take (group.1 - next) ++
      (slice script group ++ script.drop (group.2 + 1)) := by
  have first := ahead.within group List.mem_cons_self
  have behind : script.drop group.1 = slice script group ++ script.drop (group.2 + 1) := by
    have parts := List.take_append_drop (group.2 + 1 - group.1) (script.drop group.1)
    rw [List.drop_drop, show group.1 + (group.2 + 1 - group.1) = group.2 + 1 by omega] at parts
    exact parts.symm
  have parts := List.take_append_drop (group.1 - next) (script.drop next)
  rw [List.drop_drop, Nat.add_sub_cancel' first.1] at parts
  rw [← behind]
  exact parts.symm

/-- **Applying the hunks turns the old side into the new one.** -/
theorem applyHunks_eq [DecidableEq α] {groups : List (ℕ × ℕ)} :
    ∀ {next : ℕ}, Ahead script next groups →
    applyHunks (oldFirst + (Script.old (script.take next)).length)
        (newFirst + (Script.new (script.take next)).length) (Script.old (script.drop next))
        (groups.map (hunkOf script oldFirst newFirst)) =
      some (Script.new (script.drop next)) := by
  induction groups with
  | nil =>
    intro next ahead
    have still : ∀ line ∈ script.drop next, line.1 = .same := by
      intro line member
      obtain ⟨k, inside, rfl⟩ := List.mem_iff_getElem.mp member
      by_contra changed
      rw [List.getElem_drop] at changed
      rw [List.length_drop] at inside
      obtain ⟨_, listed, -⟩ := ahead.holds (next + k) (Nat.le_add_right _ _)
        ⟨_, List.getElem?_eq_getElem (by omega), changed⟩
      cases listed
    obtain ⟨left, right⟩ := Script.sides_of_same still
    rw [List.map_nil, applyHunks, left, right]
  | cons group groups ih =>
    intro next ahead
    have ordered := (ahead.within group List.mem_cons_self).2.1
    obtain ⟨both, length⟩ := ahead.skipped
    have oldAt : oldFirst + (Script.old (script.take group.1)).length =
        oldFirst + (Script.old (script.take next)).length + (group.1 - next) := by
      rw [ahead.take_eq, Script.old_append, List.length_append, length, Nat.add_assoc]
    have newAt : newFirst + (Script.new (script.take group.1)).length =
        newFirst + (Script.new (script.take next)).length + (group.1 - next) := by
      rw [ahead.take_eq, Script.new_append, List.length_append, ← both, length, Nat.add_assoc]
    have left : Script.old (script.drop next) =
        Script.old ((script.drop next).take (group.1 - next)) ++
          (Script.old (slice script group) ++ Script.old (script.drop (group.2 + 1))) := by
      conv_lhs => rw [ahead.drop_eq, Script.old_append, Script.old_append]
    have right : Script.new (script.drop next) =
        Script.old ((script.drop next).take (group.1 - next)) ++
          (Script.new (slice script group) ++ Script.new (script.drop (group.2 + 1))) := by
      conv_lhs => rw [ahead.drop_eq, Script.new_append, Script.new_append, ← both]
    have skipped : (hunkOf script oldFirst newFirst group).oldAt -
        (oldFirst + (Script.old (script.take next)).length) = group.1 - next := by
      rw [hunkOf, oldAt, Nat.add_sub_cancel_left]
    have rest := ih ahead.tail
    rw [take_succ_slice ordered, Script.old_append, Script.new_append, List.length_append,
      List.length_append, ← Nat.add_assoc, ← Nat.add_assoc] at rest
    rw [List.map_cons, applyHunks]
    simp only [skipped]
    have dropped : (Script.old (script.drop next)).drop (group.1 - next) =
        Script.old (slice script group) ++ Script.old (script.drop (group.2 + 1)) := by
      rw [left, List.drop_left' length]
    have fits : oldFirst + (Script.old (script.take next)).length ≤
          (hunkOf script oldFirst newFirst group).oldAt ∧
        group.1 - next ≤ (Script.old (script.drop next)).length ∧
        (hunkOf script oldFirst newFirst group).newAt =
          newFirst + (Script.new (script.take next)).length + (group.1 - next) ∧
        Script.old (slice script group) = ((Script.old (script.drop next)).drop (group.1 - next)).take
          (Script.old (slice script group)).length ∧
        (Script.old (slice script group)).length = (Script.old (slice script group)).length ∧
        (Script.new (slice script group)).length = (Script.new (slice script group)).length := by
      refine ⟨?_, ?_, newAt, ?_, rfl, rfl⟩
      · show _ ≤ oldFirst + (Script.old (script.take group.1)).length
        rw [oldAt]
        exact Nat.le_add_right _ _
      · rw [left, List.length_append, length]
        exact Nat.le_add_right _ _
      · rw [dropped, List.take_left]
    have behind : (Script.old (script.drop next)).drop
        (group.1 - next + (Script.old (slice script group)).length) =
          Script.old (script.drop (group.2 + 1)) := by
      rw [← List.drop_drop, dropped, List.drop_left]
    refine (if_pos fits).trans ?_
    show Option.map _ (applyHunks (oldFirst + (Script.old (script.take group.1)).length +
      (Script.old (slice script group)).length) (newFirst +
      (Script.new (script.take group.1)).length + (Script.new (slice script group)).length)
      ((Script.old (script.drop next)).drop
        (group.1 - next + (Script.old (slice script group)).length)) _) = _
    rw [behind, rest, Option.map_some, right, left, List.take_left' length, List.append_assoc]
    rfl

/-- **The hunks of any script.** -/
theorem hunkList_spec [DecidableEq α] (script : Script α) (oldFirst newFirst : ℕ) :
    Windows script (groups script) ∧
    hunkList script oldFirst newFirst = (groups script).map (hunkOf script oldFirst newFirst) ∧
    applyHunks oldFirst newFirst script.old (hunkList script oldFirst newFirst) =
    some script.new := by
  have windows := groups_windows script
  have numbered : hunkList script oldFirst newFirst =
      (groups script).map (hunkOf script oldFirst newFirst) := hunkLoop_eq windows.ahead
  exact ⟨windows, numbered, by rw [numbered]; exact applyHunks_eq windows.ahead⟩

/-- **A symbol diff is a correct and smallest edit script.** Within the limit of the table, the
script keeps and removes the old lines, keeps and adds the new ones, keeps as many as any common
subsequence has and removes before it adds; and its hunks are disjoint windows around the changes,
under their true numbers, that turn the old lines into the new ones. -/
theorem edits_hunks (old new : List String)
    (fits : (old.length + 1) * (new.length + 1) ≤ lcsCells) :
    ∃ script, edits old new = some script ∧ script.old = old ∧ script.new = new ∧
      script.kept.Sublist old ∧ script.kept.Sublist new ∧
      (∀ common : List String, common.Sublist old → common.Sublist new →
        common.length ≤ script.kept.length) ∧
      script.RemovalsFirst ∧
      ∀ oldFirst newFirst, ∃ groups, Windows script groups ∧
        hunks script oldFirst newFirst =
          String.join ((groups.map (hunkOf script oldFirst newFirst)).map Hunk.render) ∧
        applyHunks oldFirst newFirst old (groups.map (hunkOf script oldFirst newFirst)) =
        some new := by
  obtain ⟨left, right⟩ := sides_align old new
  obtain ⟨keptOld, keptNew⟩ := kept_align_sublist old new
  refine ⟨align old new, edits_eq fits, left, right, keptOld, keptNew, fun common inOld inNew => ?_,
    removalsFirst_align old new, fun oldFirst newFirst => ?_⟩
  · rw [kept_align]
    exact length_le_lcsLength inOld inNew
  · obtain ⟨windows, numbered, applied⟩ := hunkList_spec (align old new) oldFirst newFirst
    refine ⟨groups (align old new), windows, by rw [hunks, numbered], ?_⟩
    rwa [numbered, left, right] at applied

theorem edits_hunks_four :
    ∃ script, edits ["a", "b", "c"] ["a", "x", "c", "d"] = some script ∧
      script.old = ["a", "b", "c"] ∧ script.new = ["a", "x", "c", "d"] := by
  obtain ⟨script, made, left, right, -⟩ :=
    edits_hunks ["a", "b", "c"] ["a", "x", "c", "d"] (by decide)
  exact ⟨script, made, left, right⟩

example : hunks ((edits ["a", "b", "c"] ["a", "x", "c", "d"]).getD []) 10 20 =
    "@@ -10,3 +20,4 @@\n a\n-b\n+x\n c\n+d\n" := by
  have script : align ["a", "b", "c"] ["a", "x", "c", "d"] =
      [(.same, "a"), (.gone, "b"), (.added, "x"), (.same, "c"), (.added, "d")] := by
    simp [align, lcsLength]
  rw [edits_eq (by decide), script]
  decide

end DrStrange.Ops
