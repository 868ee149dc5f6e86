/-
**Workers on a shared counter.**

Tasks are numbered, and workers take the next number from a shared counter until none is left or a
flag says that a task has failed. A run names the worker of each step. The tasks taken are those
below the counter, and each of them is finished or in the hands of a worker (`Inv`), so that when
all workers are done the results are those of the tasks below some bound, and either that is all
tasks or one of these has failed (`finished_results`). Every step lowers a potential: each run is
short, and can be run to its end (`run_length`, `run_finishes`).
-/

import Mathlib

namespace DrStrange.Lib.WorkPool

variable {ε α : Type}

/-! ### The pool -/

/-- What a worker does next. -/
inductive Worker (ε α : Type) where
  | checking
  | taking
  | calling (i : ℕ)
  | flagging (i : ℕ) (out : Except ε α)
  | storing (i : ℕ) (out : Except ε α)
  | done

/-- The counter, the flag, a slot for each task, and the workers. -/
structure Pool (ε α : Type) where
  cursor : ℕ
  aborted : Bool
  slots : List (Option (Except ε α))
  workers : List (Worker ε α)

/-- A pool of tasks none of which is taken. -/
def Pool.start (ε α : Type) (n workers : ℕ) : Pool ε α :=
  ⟨0, false, .replicate n none, .replicate workers .checking⟩

def Pool.finished (pool : Pool ε α) : Prop := ∀ worker ∈ pool.workers, worker = .done

section

variable (task : ℕ → Except ε α)

/-- The next step of a worker that is not done. -/
def Pool.step (pool : Pool ε α) (w : ℕ) : Option (Pool ε α) :=
  match pool.workers[w]? with
  | some .checking =>
    some { pool with workers := pool.workers.set w (if pool.aborted then .done else .taking) }
  | some .taking =>
    some { pool with
      cursor := pool.cursor + 1
      workers := pool.workers.set w (if pool.slots.length ≤
        pool.cursor then .done else .calling pool.cursor) }
  | some (.calling i) =>
    some { pool with
      workers := pool.workers.set w (match task i with
        | .ok value => .storing i (.ok value)
        | .error error => .flagging i (.error error)) }
  | some (.flagging i out) =>
    some { pool with aborted := true, workers := pool.workers.set w (.storing i out) }
  | some (.storing i out) =>
    some { pool with slots := pool.slots.set i (some out), workers := pool.workers.set w .checking }
  | some .done => none
  | none => none

def Pool.run (pool : Pool ε α) (schedule : List ℕ) : Option (Pool ε α) :=
  schedule.foldlM (Pool.step task) pool

/-! ### The invariant -/

/-- A task that has failed. -/
def Fails (i : ℕ) : Prop := ∃ error, task i = .error error

/-- What is known of a worker, by where it is. -/
def Fits (pool : Pool ε α) : Worker ε α → Prop
  | .checking => True
  | .taking => True
  | .calling i => i < pool.cursor ∧ i < pool.slots.length
  | .flagging i out => (i < pool.cursor ∧ i < pool.slots.length) ∧ out = task i ∧ Fails task i
  | .storing i out => (i < pool.cursor ∧ i < pool.slots.length) ∧ out = task i
  | .done => pool.aborted = true ∨ pool.slots.length ≤ pool.cursor

/-- A worker that has a task in its hands. -/
def Holds (i : ℕ) : Worker ε α → Prop
  | .calling j => j = i
  | .flagging j _ => j = i
  | .storing j _ => j = i
  | _ => False

/-- The tasks below the counter are finished or held, those from it on are not taken. -/
structure Inv (pool : Pool ε α) : Prop where
  fits : ∀ worker ∈ pool.workers, Fits task pool worker
  taken : ∀ i < pool.cursor, i < pool.slots.length →
    pool.slots[i]? = some (some (task i)) ∨ ∃ worker ∈ pool.workers, Holds i worker
  fresh : ∀ i, pool.cursor ≤ i → i < pool.slots.length → pool.slots[i]? = some none
  aborted : pool.aborted = true → ∃ i < pool.cursor, i < pool.slots.length ∧ Fails task i

end

variable {task : ℕ → Except ε α} {pool after : Pool ε α} {worker worker' : Worker ε α}
  {n workers w i : ℕ}
  {schedule more : List ℕ}

theorem inv_start : Inv task (Pool.start ε α n workers) where
  fits worker among := List.eq_of_mem_replicate among ▸ trivial
  taken i below := absurd below (Nat.not_lt_zero i)
  fresh i _ inside := by
    rw [Pool.start, List.length_replicate] at inside
    exact List.getElem?_replicate_of_lt inside
  aborted raised := Bool.noConfusion raised

/-- What is known of a worker stays known when the counter and the flag go on. -/
theorem Fits.mono (fits : Fits task pool worker) (ahead : pool.cursor ≤ after.cursor)
    (raised : pool.aborted = true → after.aborted = true)
    (same : after.slots.length = pool.slots.length) :
    Fits task after worker := by
  cases worker with
  | checking => trivial
  | taking => trivial
  | calling i => exact ⟨fits.1.trans_le ahead, same ▸ fits.2⟩
  | flagging i out => exact ⟨⟨fits.1.1.trans_le ahead, same ▸ fits.1.2⟩, fits.2⟩
  | storing i out => exact ⟨⟨fits.1.1.trans_le ahead, same ▸ fits.1.2⟩, fits.2⟩
  | done => exact fits.imp raised fun short => same ▸ short.trans ahead

/-- A task stays in the hands of the other workers, and of this one if it keeps it. -/
theorem held_set (here : pool.workers[w]? = some worker) (kept : Holds i worker → Holds i worker')
    (held : ∃ worker ∈ pool.workers, Holds i worker) :
      ∃ other ∈ pool.workers.set w worker', Holds i other := by
  obtain ⟨other, among, holds⟩ := held
  obtain ⟨v, there⟩ := List.mem_iff_getElem?.mp among
  obtain ⟨inside, -⟩ := List.getElem?_eq_some_iff.mp here
  by_cases same : w = v
  · subst same
    obtain rfl := Option.some.inj (here.symm.trans there)
    exact ⟨worker', List.mem_set inside worker', kept holds⟩
  · exact ⟨other, List.mem_of_getElem? (by rw [List.getElem?_set_ne same, there]), holds⟩

/-- **One step**, of a worker that changes nothing but itself and perhaps the counter and the flag. -/
theorem Inv.move (inv : Inv task pool) (here : pool.workers[w]? = some worker) (worker' : Worker ε α)
    (fits : Fits task after worker') (kept : ∀ i < pool.cursor, Holds i worker → Holds i worker')
    (workers : after.workers = pool.workers.set w worker') (slots : after.slots = pool.slots)
    (ahead : pool.cursor ≤ after.cursor)
    (taken : ∀ i, pool.cursor ≤ i → i < after.cursor → i < pool.slots.length → Holds i worker')
    (aborted : after.aborted = pool.aborted ∨
      after.aborted = true ∧ ∃ i < pool.cursor, i < pool.slots.length ∧
      Fails task i) : Inv task after := by
  have inside : w < pool.workers.length := (List.getElem?_eq_some_iff.mp here).1
  refine ⟨fun other among => ?_, fun i below inside' => ?_, fun i above => ?_, fun raised => ?_⟩
  · rw [workers] at among
    obtain among | rfl := List.mem_or_eq_of_mem_set among
    · refine (inv.fits other among).mono ahead (fun raised => ?_) (congrArg List.length slots)
      obtain same | both := aborted
      · rw [same, raised]
      · exact both.1
    · exact fits
  · rw [slots] at inside' ⊢
    rw [workers]
    by_cases before : i < pool.cursor
    · exact (inv.taken i before inside').imp id (held_set here (kept i before))
    · exact .inr ⟨worker', List.mem_set inside worker',
        taken i (Nat.le_of_not_lt before) below inside'⟩
  · rw [slots]
    exact inv.fresh i (ahead.trans above)
  · rw [slots]
    obtain same | ⟨-, i, below, failed⟩ := aborted
    · obtain ⟨i, below, failed⟩ := inv.aborted (same ▸ raised)
      exact ⟨i, below.trans_le ahead, failed⟩
    · exact ⟨i, below.trans_le ahead, failed⟩

theorem Inv.store (inv : Inv task pool) (here : pool.workers[w]? = some
    (.storing i (task i))) (below : i < pool.cursor) (inside : i < pool.slots.length) : Inv task
      { pool with slots := pool.slots.set i (some (task i)), workers :=
        pool.workers.set w .checking } := by
  have same : (pool.slots.set i (some (task i))).length = pool.slots.length := List.length_set
  refine ⟨fun other among => ?_, fun j before inside' => ?_,
    fun j above inside' => ?_, fun raised => ?_⟩
  · obtain among | rfl := List.mem_or_eq_of_mem_set among
    · exact (inv.fits other among).mono le_rfl id same
    · trivial
  · by_cases stored : i = j
    · subst stored
      exact .inl (List.getElem?_set_self inside)
    · refine (inv.taken j before (same ▸ inside')).imp (fun found => ?_)
        (held_set here fun holds => absurd holds stored)
      rw [List.getElem?_set_ne stored, found]
  · rw [List.getElem?_set_ne (below.trans_le above).ne]
    exact inv.fresh j above (same ▸ inside')
  · obtain ⟨j, before, inside', failed⟩ := inv.aborted raised
    exact ⟨j, before, same.symm ▸ inside', failed⟩

theorem Inv.step (inv : Inv task pool) (stepped : pool.step task w = some after) :
    Inv task after := by
  unfold Pool.step at stepped
  cases here : pool.workers[w]? with
  | none => simp [here] at stepped
  | some worker =>
    rw [here] at stepped
    have known := inv.fits worker (List.mem_of_getElem? here)
    cases worker with
    | checking =>
      obtain rfl := Option.some.inj stepped
      refine inv.move here (if pool.aborted then .done else .taking) ?_
        (fun _ _ => False.elim) rfl rfl le_rfl
        (fun i above below => absurd below (Nat.not_lt.mpr above)) (.inl rfl)
      split_ifs with raised
      · exact .inl raised
      · trivial
    | taking =>
      obtain rfl := Option.some.inj stepped
      refine inv.move here (if pool.slots.length ≤
        pool.cursor then .done else .calling pool.cursor) ?_
        (fun _ _ => False.elim) rfl rfl (Nat.le_succ _) (fun i above below inside => ?_) (.inl rfl)
      · split_ifs with none_left
        · exact .inr (none_left.trans (Nat.le_succ _))
        · exact ⟨Nat.lt_succ_self _, Nat.lt_of_not_le none_left⟩
      · obtain rfl : pool.cursor = i := le_antisymm above (Nat.lt_succ_iff.mp below)
        rw [if_neg (Nat.not_le.mpr inside)]
        rfl
    | calling i =>
      obtain rfl := Option.some.inj stepped
      cases ran : task i with
      | ok value =>
        exact inv.move here (.storing i (.ok value)) ⟨known, ran.symm⟩ (fun _ _ => id) rfl rfl le_rfl
          (fun i above below => absurd below (Nat.not_lt.mpr above)) (.inl rfl)
      | error error =>
        exact inv.move here (.flagging i (.error error)) ⟨known, ran.symm, error, ran⟩
          (fun _ _ => id) rfl rfl
          le_rfl (fun i above below => absurd below (Nat.not_lt.mpr above)) (.inl rfl)
    | flagging i out =>
      obtain rfl := Option.some.inj stepped
      obtain ⟨⟨below, inside⟩, same, failed⟩ := known
      exact inv.move here (.storing i out) ⟨⟨below, inside⟩, same⟩ (fun _ _ => id) rfl rfl le_rfl
        (fun i above below => absurd below (Nat.not_lt.mpr above))
          (.inr ⟨rfl, i, below, inside, failed⟩)
    | storing i out =>
      obtain rfl := Option.some.inj stepped
      obtain ⟨⟨below, inside⟩, rfl⟩ := known
      exact inv.store here below inside
    | done => cases stepped

theorem Inv.run (inv : Inv task pool) (ran : pool.run task schedule = some after) : Inv task
    after := by
  induction schedule generalizing pool with
  | nil =>
    obtain rfl := Option.some.inj ran
    exact inv
  | cons w schedule ih =>
    obtain ⟨next, stepped, rest⟩ := Option.bind_eq_some_iff.mp ran
    exact ih (inv.step stepped) rest

/-! ### When all are done -/

theorem step_shape (stepped : pool.step task w = some after) :
    after.slots.length = pool.slots.length ∧ after.workers.length = pool.workers.length := by
  unfold Pool.step at stepped
  split at stepped <;> cases stepped <;> simp

theorem run_shape (ran : pool.run task schedule = some after) :
    after.slots.length = pool.slots.length ∧ after.workers.length = pool.workers.length := by
  induction schedule generalizing pool with
  | nil =>
    obtain rfl := Option.some.inj ran
    exact ⟨rfl, rfl⟩
  | cons w schedule ih =>
    obtain ⟨next, stepped, rest⟩ := Option.bind_eq_some_iff.mp ran
    obtain ⟨slots, workers⟩ := ih rest
    exact ⟨slots.trans (step_shape stepped).1, workers.trans (step_shape stepped).2⟩

/-- The results of the tasks below a bound. -/
def resultsBelow (task : ℕ → Except ε α) (n m : ℕ) : List (Option (Except ε α)) :=
  (List.range n).map fun i => if i < m then some (task i) else none

theorem resultsBelow_succ {m : ℕ} :
    resultsBelow task (n + 1) (m + 1) = some (task 0) :: resultsBelow
      (fun i => task (i + 1)) n m := by
  rw [resultsBelow, List.range_succ_eq_map, List.map_cons, if_pos m.succ_pos, List.map_map,
    resultsBelow]
  simp only [Function.comp_def, Nat.succ_eq_add_one, Nat.add_lt_add_iff_right]

/-- **When all workers are done**, the results are those of the tasks below some bound; this is all
of them, or one of these has failed. -/
theorem finished_results (some_ : 0 < workers)
    (ran : (Pool.start ε α n workers).run task schedule = some pool) (finished : pool.finished) :
      ∃ m ≤ n, pool.slots = resultsBelow task n m ∧ (m = n ∨ ∃ i < m, Fails task i) := by
  have inv := inv_start.run ran
  obtain ⟨slots, length⟩ := run_shape ran
  rw [Pool.start, List.length_replicate] at slots length
  refine ⟨min pool.cursor n, Nat.min_le_right _ _, List.ext_getElem? fun i => ?_, ?_⟩
  · by_cases inside : i < n
    · rw [resultsBelow, List.getElem?_map, List.getElem?_range inside, Option.map_some]
      split_ifs with below
      · obtain found | ⟨worker, among, holds⟩ := inv.taken i (lt_min_iff.mp below).1 (slots ▸ inside)
        · exact found
        · rw [finished worker among] at holds
          exact holds.elim
      · refine inv.fresh i (Nat.le_of_not_lt fun before => below (lt_min before inside))
          (slots ▸ inside)
    · rw [List.getElem?_eq_none (slots ▸ Nat.le_of_not_lt inside), List.getElem?_eq_none]
      rw [resultsBelow, List.length_map, List.length_range]
      exact Nat.le_of_not_lt inside
  · obtain ⟨worker, others, same⟩ := List.exists_cons_of_length_pos (length ▸ some_)
    have among : worker ∈ pool.workers := same ▸ List.mem_cons_self
    have known := inv.fits worker among
    rw [finished worker among] at known
    obtain raised | short := known
    · obtain ⟨i, below, inside, failed⟩ := inv.aborted raised
      exact .inr ⟨i, lt_min below (slots ▸ inside), failed⟩
    · exact .inl (min_eq_right (slots ▸ short))

/-! ### Runs end -/

/-- The steps a worker can take before it asks again. -/
def weight : Worker ε α → ℕ
  | .checking => 2
  | .taking => 1
  | .calling _ => 5
  | .flagging _ _ => 4
  | .storing _ _ => 3
  | .done => 0

def potential (pool : Pool ε α) : ℕ :=
  5 * (pool.slots.length - pool.cursor) + (pool.workers.map weight).sum

theorem sum_weight_set {list : List (Worker ε α)} (here : list[w]? = some worker)
    (worker' : Worker ε α) :
    ((list.set w worker').map weight).sum + weight worker =
    (list.map weight).sum + weight worker' := by
  induction list generalizing w with
  | nil => cases here
  | cons first list ih =>
    cases w with
    | zero =>
      obtain rfl := Option.some.inj here
      simp only [List.set_cons_zero, List.map_cons, List.sum_cons]
      omega
    | succ w =>
      have rest := ih here
      simp only [List.set_cons_succ, List.map_cons, List.sum_cons]
      omega

/-- **Every step lowers the potential.** -/
theorem potential_step (stepped : pool.step task w = some after) :
    potential after < potential pool := by
  unfold Pool.step at stepped
  cases here : pool.workers[w]? with
  | none => simp [here] at stepped
  | some worker =>
    rw [here] at stepped
    cases worker with
    | checking =>
      obtain rfl := Option.some.inj stepped
      have moved := sum_weight_set here (if pool.aborted then .done else .taking)
      have less : weight (if pool.aborted then .done else .taking : Worker ε α) ≤ 1 := by
        split_ifs
        · exact Nat.zero_le 1
        · exact le_rfl
      simp only [potential, weight] at *
      omega
    | taking =>
      obtain rfl := Option.some.inj stepped
      have moved := sum_weight_set here (if pool.slots.length ≤
        pool.cursor then .done else .calling pool.cursor)
      simp only [potential]
      split_ifs at moved ⊢ with none_left
      · simp only [weight] at moved
        omega
      · simp only [weight] at moved
        omega
    | calling i =>
      obtain rfl := Option.some.inj stepped
      cases ran : task i with
      | ok value =>
        have moved := sum_weight_set here (.storing i (.ok value))
        simp only [potential, weight] at *
        omega
      | error error =>
        have moved := sum_weight_set here (.flagging i (.error error))
        simp only [potential, weight] at *
        omega
    | flagging i out =>
      obtain rfl := Option.some.inj stepped
      have moved := sum_weight_set here (.storing i out)
      simp only [potential, weight] at *
      omega
    | storing i out =>
      obtain rfl := Option.some.inj stepped
      have moved := sum_weight_set here .checking
      simp only [potential, weight, List.length_set] at *
      omega
    | done => cases stepped

theorem potential_run (ran : pool.run task schedule = some after) :
    potential after + schedule.length ≤ potential pool := by
  induction schedule generalizing pool with
  | nil =>
    obtain rfl := Option.some.inj ran
    exact le_rfl
  | cons w schedule ih =>
    obtain ⟨next, stepped, rest⟩ := Option.bind_eq_some_iff.mp ran
    have first := potential_step stepped
    have more := ih rest
    rw [List.length_cons]
    omega

/-- **A run is short.** -/
theorem run_length (ran : (Pool.start ε α n workers).run task schedule = some pool) :
    schedule.length ≤ 5 * n + 2 * workers := by
  have bound := potential_run ran
  simp only [potential, Pool.start, List.length_replicate, List.map_replicate,
    List.sum_replicate, weight,
    smul_eq_mul] at bound
  omega

/-- A worker that is not done has a step. -/
theorem step_of_not_done (task : ℕ → Except ε α) (here : pool.workers[w]? = some worker)
    (working : worker ≠ .done) :
    ∃ after, pool.step task w = some after := by
  unfold Pool.step
  rw [here]
  cases worker with
  | checking => exact ⟨_, rfl⟩
  | taking => exact ⟨_, rfl⟩
  | calling i => exact ⟨_, rfl⟩
  | flagging i out => exact ⟨_, rfl⟩
  | storing i out => exact ⟨_, rfl⟩
  | done => exact absurd rfl working

/-- **Every run can be run to its end.** -/
theorem run_finishes (task : ℕ → Except ε α) (pool : Pool ε α) :
    ∃ more after, pool.run task more = some after ∧ after.finished := by
  induction bound : potential pool using Nat.strong_induction_on generalizing pool with
  | _ n ih =>
    by_cases finished : pool.finished
    · exact ⟨[], pool, rfl, finished⟩
    · obtain ⟨worker, among, working⟩ : ∃ worker ∈ pool.workers, worker ≠ .done := by
        simpa [Pool.finished] using finished
      obtain ⟨w, here⟩ := List.mem_iff_getElem?.mp among
      obtain ⟨next, stepped⟩ := step_of_not_done task here working
      obtain ⟨more, after, ran, ended⟩ := ih _ (bound ▸ potential_step stepped) next rfl
      exact ⟨w :: more, after, Option.bind_eq_some_iff.mpr ⟨next, stepped, ran⟩, ended⟩

end DrStrange.Lib.WorkPool
