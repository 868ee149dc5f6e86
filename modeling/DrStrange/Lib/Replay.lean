/-
**Point updates replayed over a function.**

A view that is kept up to date by a stream of events is a function changed at one point after the
other. What an update stream leaves at a point depends on what was there and on the updates of that
point alone (`replay_congr`, `replay_of_notMem`), so two streams that touch different points may be
replayed in either order (`replay_comm`), and a stream that names a point with one value only leaves
that value there (`replay_of_forall`).
-/

import Mathlib

namespace DrStrange.Lib

variable {κ α : Type*} [DecidableEq κ] {values other : κ → α} {key : κ} {value : α}
  {first second updates : List (κ × α)}

/-- Updates made one after the other. -/
def replay (values : κ → α) (updates : List (κ × α)) : κ → α :=
  updates.foldl (fun values update => Function.update values update.1 update.2) values

@[simp]
theorem replay_nil : replay values ([] : List (κ × α)) = values := rfl

@[simp]
theorem replay_cons {update : κ × α} :
    replay values (update :: updates) =
      replay (Function.update values update.1 update.2) updates := rfl

theorem replay_append : replay values (first ++ second) = replay (replay values first) second :=
  List.foldl_append

/-- A point that no update names stays. -/
theorem replay_of_notMem (absent : key ∉ updates.map Prod.fst) :
    replay values updates key = values key := by
  induction updates generalizing values with
  | nil => rfl
  | cons update updates ih =>
    rw [List.map_cons, List.mem_cons, not_or] at absent
    rw [replay_cons, ih absent.2, Function.update_of_ne absent.1]

/-- What is left at a point depends on what was at that point. -/
theorem replay_congr (same : values key = other key) :
    replay values updates key = replay other updates key := by
  induction updates generalizing values other with
  | nil => exact same
  | cons update updates ih =>
    rw [replay_cons, replay_cons]
    refine ih ?_
    by_cases here : key = update.1
    · rw [here, Function.update_self, Function.update_self]
    · rw [Function.update_of_ne here, Function.update_of_ne here, same]

/-- A stream that gives a point one value only leaves that value. -/
theorem replay_of_forall (named : key ∈ updates.map Prod.fst)
    (only : ∀ update ∈ updates, update.1 = key → update.2 = value) :
    replay values updates key = value := by
  induction updates generalizing values with
  | nil => exact nomatch named
  | cons update updates ih =>
    rw [replay_cons]
    by_cases later : key ∈ updates.map Prod.fst
    · exact ih later fun update member => only update (List.mem_cons_of_mem _ member)
    · rw [replay_of_notMem later]
      have here : key = update.1 := by
        rcases List.mem_cons.mp named with here | later'
        · exact here
        · exact absurd later' later
      rw [here, Function.update_self]
      exact only update List.mem_cons_self here.symm

/-- What is left at a point that is named does not depend on what was there. -/
theorem replay_of_mem (named : key ∈ updates.map Prod.fst) :
    replay values updates key = replay other updates key := by
  induction updates generalizing values other with
  | nil => exact nomatch named
  | cons update updates ih =>
    rw [replay_cons, replay_cons]
    by_cases later : key ∈ updates.map Prod.fst
    · exact ih later
    · have here : key = update.1 := by
        rcases List.mem_cons.mp named with here | later'
        · exact here
        · exact absurd later' later
      refine replay_congr ?_
      rw [here, Function.update_self, Function.update_self]

/-- A stream replayed over what it has left changes nothing. -/
theorem replay_replay : replay (replay values updates) updates = replay values updates := by
  funext key
  by_cases named : key ∈ updates.map Prod.fst
  · exact replay_of_mem named
  · exact replay_of_notMem named

/-- A stream that tells every point what it holds changes nothing. -/
theorem replay_of_held (held : ∀ update ∈ updates, update.2 = values update.1) :
    replay values updates = values := by
  induction updates with
  | nil => rfl
  | cons update updates ih =>
    rw [replay_cons, held update List.mem_cons_self, Function.update_eq_self]
    exact ih fun other member => held other (List.mem_cons_of_mem _ member)

/-- The image of a view is kept up to date by the images of its updates. -/
theorem replay_map {β : Type*} (image : α → β) :
    replay (fun key => image (values key)) (updates.map fun update => (update.1, image update.2)) =
      fun key => image (replay values updates key) := by
  induction updates generalizing values with
  | nil => rfl
  | cons update updates ih =>
    have moved : Function.update (fun key => image (values key)) update.1 (image update.2) =
        fun key => image (Function.update values update.1 update.2 key) := by
      funext key
      by_cases here : key = update.1
      · rw [here, Function.update_self, Function.update_self]
      · rw [Function.update_of_ne here, Function.update_of_ne here]
    rw [List.map_cons, replay_cons, moved, ih, replay_cons]

/-- Streams that touch different points commute. -/
theorem replay_comm (apart : ∀ key ∈ first.map Prod.fst, key ∉ second.map Prod.fst) :
    replay (replay values first) second = replay (replay values second) first := by
  funext key
  by_cases inSecond : key ∈ second.map Prod.fst
  · have notFirst : key ∉ first.map Prod.fst := fun inFirst => apart key inFirst inSecond
    rw [replay_of_notMem notFirst]
    exact replay_congr (replay_of_notMem notFirst)
  · rw [replay_of_notMem inSecond]
    exact replay_congr (replay_of_notMem inSecond).symm

end DrStrange.Lib
