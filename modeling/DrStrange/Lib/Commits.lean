/-
**Edits of one shared value, in steps.**

A call edits the value in one step, or reads it in one step and replaces it in a later one. The
calls of a system are interleaved by a schedule. Where every replacement still finds what its call
had read, each call takes effect at one step, and the value is that of the finished calls one after
the other (`run_serial`). A replacement that finds another value loses what was done in between.
-/

import Mathlib

namespace DrStrange.Lib.Commits

variable {κ σ : Type}

inductive Program (σ : Type) where
  | edit (f : σ → σ)
  /-- What is read may call for no replacement. -/
  | readThenWrite (next : σ → Option σ)

/-- The effect of a call that nothing comes in between of. -/
def Program.alone : Program σ → σ → σ
  | .edit f, value => f value
  | .readThenWrite next, value => (next value).getD value

inductive Status (σ : Type) where
  | ready
  | holding (seen : σ)
  | returned

structure System (κ σ : Type) where
  value : σ
  calls : List (κ × Status σ)

/-- A system none of whose calls has begun. -/
def start (value : σ) (calls : List κ) : System κ σ := ⟨value, calls.map fun call => (call, .ready)⟩

section

variable (program : κ → Program σ)

/-- The next step of one call. -/
def step (system : System κ σ) (i : ℕ) : System κ σ :=
  match system.calls[i]? with
  | some (call, .ready) =>
    match program call with
    | .edit f => ⟨f system.value, system.calls.set i (call, .returned)⟩
    | .readThenWrite next =>
      match next system.value with
      | none => { system with calls := system.calls.set i (call, .returned) }
      | some _ => { system with calls := system.calls.set i (call, .holding system.value) }
  | some (call, .holding seen) => ⟨(program call).alone seen, system.calls.set i (call, .returned)⟩
  | _ => system

def run (system : System κ σ) (schedule : List ℕ) : System κ σ := schedule.foldl (step program) system

/-- If the step is a replacement, the value is what the call read. -/
def Undisturbed (system : System κ σ) (i : ℕ) : Prop :=
  ∀ call seen, system.calls[i]? = some (call, .holding seen) → seen = system.value

/-- Every replacement of the run finds what its call read. -/
def UndisturbedRun : System κ σ → List ℕ → Prop
  | _, [] => True
  | system, i :: schedule => Undisturbed system i ∧ UndisturbedRun (step program system i) schedule

/-- The calls one after the other. -/
def serial (value : σ) (order : List κ) : σ :=
  order.foldl (fun value call => (program call).alone value) value

end

/-- A call that has returned. -/
def done : κ × Status σ → Option κ
  | (call, .returned) => some call
  | _ => none

def finished (system : System κ σ) : List κ := system.calls.filterMap done

/-- The value is that of the finished calls in some order. -/
def Serial (program : κ → Program σ) (value : σ) (system : System κ σ) : Prop :=
  ∃ order, order.Perm (finished system) ∧ system.value = serial program value order

variable {program : κ → Program σ} {value : σ} {system : System κ σ} {i : ℕ} {status : Status σ}
  {schedule : List ℕ} {calls : List κ} {call : κ}

theorem finished_start (calls : List κ) : finished (start value calls) = [] := by
  rw [finished, start, List.filterMap_map]
  exact List.filterMap_eq_nil_iff.mpr fun _ _ => rfl

theorem set_split {α : Type} {xs : List α} {x : α} (here : xs[i]? = some x) (y : α) :
    ∃ before after, xs = before ++ x :: after ∧ xs.set i y = before ++ y :: after := by
  obtain ⟨inside, rfl⟩ := List.getElem?_eq_some_iff.mp here
  obtain ⟨before, after, split, -, set_⟩ := List.exists_of_set inside
  exact ⟨before, after, split, set_⟩

/-- Of a call that had not returned, the status is changed. -/
theorem finished_set (here : system.calls[i]? = some (call, status))
    (open_ : done (call, status) = none) (next : Status σ) (value : σ) :
    (finished ⟨value, system.calls.set i (call, next)⟩).Perm
      ((done (call, next)).toList ++ finished system) := by
  obtain ⟨before, after, split, set_⟩ := set_split here (call, next)
  rw [finished, finished, set_, split, List.filterMap_append, List.filterMap_append,
    List.filterMap_cons_none open_]
  cases made : done (call, next) with
  | none => rw [List.filterMap_cons_none made]; exact .refl _
  | some call => rw [List.filterMap_cons_some made]; exact List.perm_middle

/-- A call that takes effect and returns goes to the end of the order. -/
theorem Serial.commit (inv : Serial program value system)
    (here : system.calls[i]? = some (call, status)) (open_ : done (call, status) = none) :
    Serial program value ⟨(program call).alone system.value,
      system.calls.set i (call, .returned)⟩ := by
  obtain ⟨order, perm, same⟩ := inv
  refine ⟨order ++ [call], ?_, ?_⟩
  · have grown := finished_set here open_ .returned ((program call).alone system.value)
    exact (List.perm_append_singleton call order).trans ((perm.cons call).trans grown.symm)
  · show (program call).alone system.value = serial program value (order ++ [call])
    rw [serial, List.foldl_append, same]
    rfl

theorem Serial.step (inv : Serial program value system) (undisturbed : Undisturbed system i) :
    Serial program value (step program system i) := by
  unfold Commits.step
  split
  next call here =>
    have committed := inv.commit here rfl
    cases edit : program call with
    | edit f =>
      rw [edit] at committed
      exact committed
    | readThenWrite next =>
      rw [edit, Program.alone] at committed
      cases changed : next system.value with
      | none =>
        rw [changed] at committed
        simp only [changed]
        exact committed
      | some new =>
        simp only [changed]
        obtain ⟨order, perm, same⟩ := inv
        exact ⟨order, perm.trans (finished_set here rfl (.holding system.value) system.value).symm,
          same⟩
  next call seen here =>
    rw [undisturbed call seen here]
    exact inv.commit here rfl
  next => exact inv

/-- **Nothing is lost** where no replacement is disturbed: at every point the value is that of the
finished calls one after the other. -/
theorem run_serial (undisturbed : UndisturbedRun program (start value calls) schedule) :
    Serial program value (run program (start value calls) schedule) := by
  have first : Serial program value (start value calls) := ⟨[], by rw [finished_start], rfl⟩
  revert undisturbed first
  generalize start value calls = system
  induction schedule generalizing system with
  | nil => exact fun _ first => first
  | cons i schedule ih => exact fun undisturbed first => ih _ undisturbed.2 (first.step undisturbed.1)

/-- A step is one of its call alone. -/
theorem step_calls (system : System κ σ) (i : ℕ) :
    (step program system i).calls.map Prod.fst = system.calls.map Prod.fst := by
  have kept : ∀ call (status next : Status σ), system.calls[i]? = some (call, status) →
      (system.calls.set i (call, next)).map Prod.fst = system.calls.map Prod.fst := by
    intro call status next here
    obtain ⟨before, after, split, set_⟩ := set_split here (call, next)
    rw [set_, split, List.map_append, List.map_append, List.map_cons, List.map_cons]
  unfold step
  split
  next call here =>
    cases program call with
    | edit f => exact kept call _ _ here
    | readThenWrite next =>
      cases changed : next system.value with
      | none => simpa only [changed] using kept call _ _ here
      | some new => simpa only [changed] using kept call _ _ here
  next call seen here => exact kept call _ _ here
  next => rfl

theorem run_calls (system : System κ σ) (schedule : List ℕ) :
    (run program system schedule).calls.map Prod.fst = system.calls.map Prod.fst := by
  induction schedule generalizing system with
  | nil => rfl
  | cons i schedule ih => exact (ih (step program system i)).trans (step_calls system i)

def Returned (system : System κ σ) : Prop := ∀ call ∈ system.calls, done call = some call.1

theorem Returned.finished (returned : Returned system) :
    finished system = system.calls.map Prod.fst := by
  have each : ∀ calls : List (κ × Status σ), (∀ call ∈ calls, done call = some call.1) →
      calls.filterMap done = calls.map Prod.fst := by
    intro calls
    induction calls with
    | nil => exact fun _ => rfl
    | cons call calls ih =>
      intro held
      obtain ⟨here, rest⟩ := List.forall_mem_cons.mp held
      rw [List.filterMap_cons_some here, List.map_cons, ih rest]
  exact each system.calls returned

/-- Once all have returned, the value is that of all calls one after the other. -/
theorem Serial.all (inv : Serial program value (run program (start value calls) schedule))
    (returned : Returned (run program (start value calls) schedule)) :
    ∃ order, order.Perm calls ∧ (run program (start value calls) schedule).value =
      serial program value order := by
  obtain ⟨order, perm, same⟩ := inv
  have begun : (calls.map fun call => (call, (Status.ready : Status σ))).map Prod.fst = calls := by
    rw [List.map_map]
    exact List.map_id calls
  rw [returned.finished, run_calls, start, begun] at perm
  exact ⟨order, perm, same⟩

end DrStrange.Lib.Commits
