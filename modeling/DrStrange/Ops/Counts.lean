/-
**The totals of a printed diff.**

`counts` tells the lines of a unified diff apart by their first characters. A line of text stands
behind its mark, so an added line whose text begins with `++` reads like a file header, and so does a
removed one whose text begins with `--`. The totals are exact for just the diffs without such lines
(`counts_exact_iff`).
-/

import DrStrange.Ops.Diff

namespace DrStrange.Ops

open DrStrange.Lib

/-! ### A printed diff -/

/-- What changed in one file: its two names, and its hunks under their headers. -/
structure FileDiff where
  oldName : String
  newName : String
  hunks : List (String × Script String)

/-- The lines of all hunks. -/
def FileDiff.body (file : FileDiff) : Script String := file.hunks.flatMap Prod.snd

/-- A line behind its mark. -/
def printed (line : Edit × String) : String := mark line.1 ++ line.2

/-- The file as a unified diff, line by line. -/
def FileDiff.lines (file : FileDiff) : List String :=
  ("--- " ++ file.oldName) :: ("+++ " ++ file.newName) ::
    file.hunks.flatMap fun hunk => ("@@ " ++ hunk.1) :: hunk.2.map printed

/-! ### The totals -/

def startsWith (line start : String) : Bool := start.toList.isPrefixOf line.toList

/-- One line of the fold: added lines, then removed ones. -/
def countLine (totals : ℕ × ℕ) (line : String) : ℕ × ℕ :=
  if startsWith line "+" && !startsWith line "+++" then (totals.1 + 1, totals.2)
  else if startsWith line "-" && !startsWith line "---" then (totals.1, totals.2 + 1)
  else totals

/-- `+` and `−` line counts, file headers excluded. -/
def counts (lines : List String) : ℕ × ℕ := lines.foldl countLine (0, 0)

/-- The line is told apart wrongly: with its mark it reads like a file header. -/
def Misread (line : Edit × String) : Prop :=
  line.1 = .added ∧ startsWith line.2 "++" ∨ line.1 = .gone ∧ startsWith line.2 "--"

instance (line : Edit × String) : Decidable (Misread line) :=
  inferInstanceAs (Decidable (_ ∨ _))

/-! ### What is counted -/

/-- The line counts as added, as removed. -/
def plus (line : String) : Bool := startsWith line "+" && !startsWith line "+++"

def minus (line : String) : Bool := startsWith line "-" && !startsWith line "---"

/-- No line counts on both sides. -/
theorem minus_of_plus {line : String} (counted : plus line = true) : minus line = false := by
  rw [plus, Bool.and_eq_true, startsWith, List.isPrefixOf_iff_prefix] at counted
  rw [minus, startsWith]
  obtain ⟨⟨rest, text⟩, -⟩ := counted
  rw [← text]
  rfl

theorem foldl_countLine (lines : List String) (totals : ℕ × ℕ) :
    lines.foldl countLine totals = (totals.1 + lines.countP plus, totals.2 + lines.countP minus) := by
  induction lines generalizing totals with
  | nil => rfl
  | cons line lines ih =>
    rw [List.foldl_cons, ih, countLine, ← plus, ← minus]
    by_cases up : plus line = true
    · rw [if_pos up, List.countP_cons_of_pos up, List.countP_cons_of_neg (by simp [minus_of_plus up]),
        Nat.add_assoc, Nat.add_comm 1]
    · rw [if_neg up, List.countP_cons_of_neg up]
      by_cases down : minus line = true
      · rw [if_pos down, List.countP_cons_of_pos down, Nat.add_assoc totals.2, Nat.add_comm 1]
      · rw [if_neg down, List.countP_cons_of_neg down]

theorem counts_eq (lines : List String) : counts lines = (lines.countP plus, lines.countP minus) := by
  rw [counts, foldl_countLine, Nat.zero_add, Nat.zero_add]

/-- A printed line counts unless it is misread. -/
theorem plus_printed (line : Edit × String) :
    plus (printed line) = (decide (line.1 = .added) && !startsWith line.2 "++") := by
  obtain ⟨edit, text⟩ := line
  have starts : "+".toList = ['+'] ∧ "++".toList = ['+', '+'] ∧ "+++".toList = ['+', '+', '+'] :=
    ⟨rfl, rfl, rfl⟩
  have marks : " ".toList = [' '] ∧ "-".toList = ['-'] := ⟨rfl, rfl⟩
  cases edit <;> simp [plus, startsWith, printed, mark, starts, marks]

theorem minus_printed (line : Edit × String) :
    minus (printed line) = (decide (line.1 = .gone) && !startsWith line.2 "--") := by
  obtain ⟨edit, text⟩ := line
  have starts : "-".toList = ['-'] ∧ "--".toList = ['-', '-'] ∧ "---".toList = ['-', '-', '-'] :=
    ⟨rfl, rfl, rfl⟩
  have marks : " ".toList = [' '] ∧ "+".toList = ['+'] := ⟨rfl, rfl⟩
  cases edit <;> simp [minus, startsWith, printed, mark, starts, marks]

/-- Of a printed file the headers are skipped. -/
theorem countP_lines (file : FileDiff) {keep : String → Bool}
    (oldHeader : keep ("--- " ++ file.oldName) = false)
    (newHeader : keep ("+++ " ++ file.newName) = false)
    (header : ∀ text, keep ("@@ " ++ text) = false) :
    file.lines.countP keep = file.body.countP fun line => keep (printed line) := by
  rw [FileDiff.lines, FileDiff.body, List.countP_cons_of_neg (by simp [oldHeader]),
    List.countP_cons_of_neg (by simp [newHeader])]
  induction file.hunks with
  | nil => rfl
  | cons hunk hunks ih =>
    rw [List.flatMap_cons, List.flatMap_cons, List.countP_append, List.countP_append, ih,
      List.countP_cons_of_neg (by simp [header]), List.countP_map]
    rfl

/-- What is counted: the lines on each side that are not misread. -/
theorem counts_printed (files : List FileDiff) :
    counts (files.flatMap FileDiff.lines) =
      ((files.flatMap FileDiff.body).countP fun line => decide (line.1 = .added) &&
        !startsWith line.2 "++",
        (files.flatMap FileDiff.body).countP fun line => decide (line.1 = .gone) &&
          !startsWith line.2 "--") := by
  have side : ∀ keep : String → Bool, (∀ text, keep ("--- " ++ text) = false) →
      (∀ text, keep ("+++ " ++ text) = false) → (∀ text, keep ("@@ " ++ text) = false) →
      (files.flatMap FileDiff.lines).countP keep =
        (files.flatMap FileDiff.body).countP fun line => keep (printed line) := by
    intro keep oldHeader newHeader header
    induction files with
    | nil => rfl
    | cons file files ih =>
      rw [List.flatMap_cons, List.flatMap_cons, List.countP_append, List.countP_append, ih,
        countP_lines file (oldHeader _) (newHeader _) header]
  have skipped : ∀ text, plus ("--- " ++ text) = false ∧ plus ("+++ " ++ text) = false ∧
      plus ("@@ " ++ text) = false ∧ minus ("--- " ++ text) = false ∧
      minus ("+++ " ++ text) = false ∧ minus ("@@ " ++ text) = false := by
    intro text
    simp only [plus, minus, startsWith, String.toList_append]
    exact ⟨rfl, rfl, rfl, rfl, rfl, rfl⟩
  rw [counts_eq, side plus (fun text => (skipped text).1) (fun text => (skipped text).2.1)
    fun text => (skipped text).2.2.1, side minus (fun text => (skipped text).2.2.2.1)
    (fun text => (skipped text).2.2.2.2.1) fun text => (skipped text).2.2.2.2.2]
  simp only [plus_printed, minus_printed]

/-- A test that passes less often passes as often just where nothing is lost. -/
theorem countP_and_eq_iff {α : Type*} {test lost : α → Bool} {items : List α} :
    (items.countP fun item => test item && !lost item) = items.countP test ↔
      ∀ item ∈ items, test item = true → lost item = false := by
  induction items with
  | nil => simp
  | cons item items ih =>
    have fewer : (items.countP fun item => test item && !lost item) ≤ items.countP test :=
      List.countP_mono_left fun other _ both => (Bool.and_eq_true _ _ ▸ both).1
    rw [List.countP_cons, List.countP_cons, List.forall_mem_cons, ← ih]
    cases test item <;> cases lost item <;> simp
    omega

/-- **The totals of a diff are exact for just the diffs that no line imitates a header in**: no added
line's text begins with `++`, and no removed line's with `--`. -/
theorem counts_exact_iff (files : List FileDiff) :
    counts (files.flatMap FileDiff.lines) =
        ((files.flatMap FileDiff.body).countP fun line => line.1 = .added,
          (files.flatMap FileDiff.body).countP fun line => line.1 = .gone) ↔
      ∀ file ∈ files, ∀ line ∈ file.body, ¬ Misread line := by
  rw [counts_printed, Prod.mk.injEq, countP_and_eq_iff, countP_and_eq_iff]
  constructor
  · rintro ⟨added, gone⟩ file member line inside
    have listed : line ∈ files.flatMap FileDiff.body := List.mem_flatMap.mpr ⟨file, member, inside⟩
    rintro (⟨edit, imitates⟩ | ⟨edit, imitates⟩)
    · rw [added line listed (decide_eq_true edit)] at imitates
      cases imitates
    · rw [gone line listed (decide_eq_true edit)] at imitates
      cases imitates
  · intro honest
    refine ⟨fun line listed edit => ?_, fun line listed edit => ?_⟩
    · obtain ⟨file, member, inside⟩ := List.mem_flatMap.mp listed
      have read := honest file member line inside
      exact Bool.eq_false_iff.mpr fun imitates => read (.inl ⟨of_decide_eq_true edit, imitates⟩)
    · obtain ⟨file, member, inside⟩ := List.mem_flatMap.mp listed
      have read := honest file member line inside
      exact Bool.eq_false_iff.mpr fun imitates => read (.inr ⟨of_decide_eq_true edit, imitates⟩)

/-- A removed comment of SQL, and an added increment, are taken for file headers. -/
theorem counts_misses_comment :
    let files : List FileDiff := [⟨"a/q.sql", "b/q.sql", [("-1,2 +1,2 @@",
      [(.same, "select 1;"), (.gone, "-- old"), (.added, "++n;")])]⟩]
    counts (files.flatMap FileDiff.lines) = (0, 0) ∧
      ((files.flatMap FileDiff.body).countP fun line => line.1 = .added) = 1 ∧
      ((files.flatMap FileDiff.body).countP fun line => line.1 = .gone) = 1 := by
  decide

end DrStrange.Ops
