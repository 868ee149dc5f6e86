/-
**Programs whose steps are interleaved.**

A program is a tree of actions on a state that it shares with others. An action is one indivisible
step, and its reply decides how the program goes on. A pool of programs runs under a schedule, which
names the thread that takes the next step.

A `Discipline` keeps a record for each thread and an invariant of the shared state and all records.
An action may be taken where the record of its own thread allows it, and every action keeps the
invariant whatever the others have done. Threads that follow it run without a failure under every
schedule (`run_safe`), and some schedule ends them all (`run_finishes`).
-/

import DrStrange.Lib.Outcome

namespace DrStrange.Lib.Interleave

/-! ### Programs -/

inductive Prog (Act : Type) (Reply : Act → Type) (ε α : Type) where
  | done (value : α)
  | fail (error : ε)
  | act (action : Act) (next : Reply action → Prog Act Reply ε α)

variable {Act : Type} {Reply : Act → Type} {ε α β σ γ : Type}

def Prog.bind : Prog Act Reply ε α → (α → Prog Act Reply ε β) → Prog Act Reply ε β
  | .done value, f => f value
  | .fail error, _ => .fail error
  | .act action next, f => .act action fun reply => (next reply).bind f

instance : Monad (Prog Act Reply ε) where
  pure := .done
  bind := .bind

/-- One action. -/
def Prog.perform (action : Act) : Prog Act Reply ε (Reply action) := .act action .done

/-- A computation of the thread's own, which may fail. -/
def Prog.own : Except ε α → Prog Act Reply ε α
  | .ok value => .done value
  | .error error => .fail error

/-- A failure is handed on, and only that. -/
def Prog.tryCatch (prog : Prog Act Reply ε α) (handler : ε → Prog Act Reply ε α) :
    Prog Act Reply ε α :=
  match prog with
  | .done value => .done value
  | .fail error => handler error
  | .act action next => .act action fun reply => (next reply).tryCatch handler

instance : MonadExceptOf ε (Prog Act Reply ε) := ⟨.fail, .tryCatch⟩

def Prog.isDone : Prog Act Reply ε α → Bool
  | .done _ => true
  | _ => false

/-! ### Pools -/

/-- The shared state and the threads, each as what it has yet to do. -/
structure Pool (Act : Type) (Reply : Act → Type) (ε α σ : Type) where
  shared : σ
  threads : List (Prog Act Reply ε α)

section

variable (perform : (action : Act) → σ → Except ε (Reply action × σ))

/-- The next step of one thread, if it has one. -/
def Pool.step (pool : Pool Act Reply ε α σ) (i : ℕ) : Except ε (Pool Act Reply ε α σ) :=
  match pool.threads[i]? with
  | some (.act action next) => do
    let (reply, shared) ← perform action pool.shared
    return ⟨shared, pool.threads.set i (next reply)⟩
  | some (.fail error) => .error error
  | some (.done _) => .ok pool
  | none => .ok pool

def Pool.run (pool : Pool Act Reply ε α σ) (schedule : List ℕ) : Except ε (Pool Act Reply ε α σ) :=
  schedule.foldlM (Pool.step perform) pool

def Pool.finished (pool : Pool Act Reply ε α σ) : Bool := pool.threads.all Prog.isDone

/-! ### Disciplines -/

/-- What each thread may rely on: an invariant of the shared state and the records of all threads,
when an action may be taken, what is known of its reply, and the record after it. -/
structure Discipline (γ : Type) where
  inv : σ → List γ → Prop
  pre : Act → γ → Prop
  post : (action : Act) → γ → Reply action → Prop
  next : (action : Act) → γ → Reply action → γ
  keeps : ∀ shared records i record action, inv shared records → records[i]? = some record →
    pre action record → ∃ reply after, perform action shared = .ok (reply, after) ∧
      post action record reply ∧ inv after (records.set i (next action record reply))

end

variable {perform : (action : Act) → σ → Except ε (Reply action × σ)}

namespace Discipline

variable (discipline : Discipline perform γ)

/-- A program that takes only actions its record allows, and ends as `post` says. -/
def Safe (post : α → γ → Prop) : Prog Act Reply ε α → γ → Prop
  | .done value, record => post value record
  | .fail _, _ => False
  | .act action next, record => discipline.pre action record ∧
      ∀ reply, discipline.post action record reply →
        Safe post (next reply) (discipline.next action record reply)

variable {discipline} {prog : Prog Act Reply ε α} {mid : α → γ → Prop} {action : Act}

theorem Safe.bind {post : β → γ → Prop} {f : α → Prog Act Reply ε β} {record : γ}
    (safe : discipline.Safe mid prog record)
    (next : ∀ value record, mid value record → discipline.Safe post (f value) record) :
    discipline.Safe post (prog >>= f) record := by
  show discipline.Safe post (prog.bind f) record
  induction prog generalizing record with
  | done value => exact next value record safe
  | fail error => exact safe
  | act action rest ih => exact ⟨safe.1, fun reply known => ih reply (safe.2 reply known)⟩

theorem Safe.mono {post : α → γ → Prop} {record : γ} (safe : discipline.Safe mid prog record)
    (weaker : ∀ value record, mid value record → post value record) :
    discipline.Safe post prog record := by
  induction prog generalizing record with
  | done value => exact weaker value record safe
  | fail error => exact safe
  | act action rest ih => exact ⟨safe.1, fun reply known => ih reply (safe.2 reply known)⟩

theorem Safe.act {record : γ} (allowed : discipline.pre action record) :
    discipline.Safe (fun reply after => discipline.post action record reply ∧
      after = discipline.next action record reply) (Prog.perform action) record :=
  ⟨allowed, fun _ known => ⟨known, rfl⟩⟩

variable (discipline) in
/-- The programs that leave a record as it is. -/
def steady (record : γ) : Outcome (Prog Act Reply ε) where
  ends prog post := discipline.Safe (fun value after => after = record ∧ post value) prog record
  pure := fun holds => ⟨rfl, holds⟩
  bind := by
    intro α β prog f mid post safe next
    refine Safe.bind safe ?_
    rintro value after ⟨rfl, holds⟩
    exact next value holds
  mono := fun safe weaker => Safe.mono safe fun value _ both => ⟨both.1, weaker value both.2⟩

/-! ### Runs -/

/-- Every thread follows the discipline from its record on. -/
def Guards (discipline : Discipline perform γ) (post : α → γ → Prop)
    (threads : List (Prog Act Reply ε α)) (records : List γ) : Prop :=
  threads.length = records.length ∧ ∀ (i : ℕ) prog record, threads[i]? = some prog →
    records[i]? = some record → discipline.Safe post prog record

variable {post : α → γ → Prop} {pool : Pool Act Reply ε α σ} {records : List γ} {i : ℕ}
  {threads : List (Prog Act Reply ε α)}

theorem Guards.record (guards : discipline.Guards post threads records)
    (held : threads[i]? = some prog) :
    ∃ record, records[i]? = some record ∧ discipline.Safe post prog record := by
  have inside : i < records.length := guards.1 ▸ (List.getElem?_eq_some_iff.mp held).1
  exact ⟨records[i], List.getElem?_eq_getElem inside,
    guards.2 i prog _ held (List.getElem?_eq_getElem inside)⟩

theorem Guards.set {record : γ} (guards : discipline.Guards post threads records)
    (safe : discipline.Safe post prog record) (i : ℕ) :
    discipline.Guards post (threads.set i prog) (records.set i record) := by
  refine ⟨by simpa using guards.1, fun j prog' record' held kept => ?_⟩
  rw [List.getElem?_set] at held kept
  split_ifs at held kept with here inside inside'
  · obtain rfl := Option.some.inj held
    obtain rfl := Option.some.inj kept
    exact safe
  · exact guards.2 j prog' record' held kept

/-- **One action** is no failure and keeps the discipline. -/
theorem act_safe {next : Reply action → Prog Act Reply ε α}
    (inv : discipline.inv pool.shared records)
    (guards : discipline.Guards post pool.threads records)
    (held : pool.threads[i]? = some (.act action next)) :
    ∃ reply shared records', pool.step perform i = .ok ⟨shared, pool.threads.set i (next reply)⟩ ∧
      records'.length = records.length ∧ discipline.inv shared records' ∧
      discipline.Guards post (pool.threads.set i (next reply)) records' := by
  obtain ⟨record, kept, allowed, safe⟩ := guards.record held
  obtain ⟨reply, shared, performed, known, after⟩ :=
    discipline.keeps pool.shared records i record action inv kept allowed
  refine ⟨reply, shared, _, ?_, List.length_set, after, guards.set (safe reply known) i⟩
  rw [Pool.step, held]
  simp only
  rw [performed]
  rfl

/-- **One step**. -/
theorem step_safe (inv : discipline.inv pool.shared records)
    (guards : discipline.Guards post pool.threads records) (i : ℕ) :
    ∃ after records', pool.step perform i = .ok after ∧ records'.length = records.length ∧
      discipline.inv after.shared records' ∧ discipline.Guards post after.threads records' := by
  cases held : pool.threads[i]? with
  | none => exact ⟨pool, records, by rw [Pool.step, held], rfl, inv, guards⟩
  | some prog =>
    cases prog with
    | done value => exact ⟨pool, records, by rw [Pool.step, held], rfl, inv, guards⟩
    | fail error =>
      obtain ⟨record, -, safe⟩ := guards.record held
      exact safe.elim
    | act action next =>
      obtain ⟨reply, shared, records', stepped, rest⟩ := act_safe inv guards held
      exact ⟨_, records', stepped, rest⟩

/-- **A run under any schedule** is no failure and keeps the discipline. -/
theorem run_safe (inv : discipline.inv pool.shared records)
    (guards : discipline.Guards post pool.threads records) (schedule : List ℕ) :
    ∃ after records', pool.run perform schedule = .ok after ∧ records'.length = records.length ∧
      discipline.inv after.shared records' ∧ discipline.Guards post after.threads records' := by
  induction schedule generalizing pool records with
  | nil => exact ⟨pool, records, rfl, rfl, inv, guards⟩
  | cons i schedule ih =>
    obtain ⟨next, records', stepped, same, kept, guarded⟩ := step_safe inv guards i
    obtain ⟨after, records'', ran, same', rest⟩ := ih kept guarded
    refine ⟨after, records'', ?_, same'.trans same, rest⟩
    rw [Pool.run, List.foldlM_cons, stepped]
    exact ran

/-- A thread that is done has ended as `post` says. -/
theorem Guards.ended (guards : discipline.Guards post pool.threads records)
    (finished : pool.finished) :
    ∀ record ∈ records, ∃ value, post value record := by
  intro record member
  obtain ⟨i, kept⟩ := List.mem_iff_getElem?.mp member
  have inside : i < pool.threads.length := guards.1 ▸ (List.getElem?_eq_some_iff.mp kept).1
  have done := List.all_eq_true.mp finished pool.threads[i] (List.getElem_mem inside)
  have safe := guards.2 i pool.threads[i] record (List.getElem?_eq_getElem inside) kept
  cases prog : pool.threads[i] with
  | done value =>
    rw [prog] at safe
    exact ⟨value, safe⟩
  | fail error =>
    rw [prog] at done
    cases done
  | act action next =>
    rw [prog] at done
    cases done

theorem run_append {first second : List ℕ} {mid after : Pool Act Reply ε α σ}
    (ran : pool.run perform first = .ok mid) (ended : mid.run perform second = .ok after) :
    pool.run perform (first ++ second) = .ok after := by
  rw [Pool.run, List.foldlM_append]
  show (do
    let mid ← pool.run perform first
    mid.run perform second) = _
  rw [ran]
  exact ended

/-- One thread can be run to its end, the others left where they are. -/
theorem thread_finishes (inv : discipline.inv pool.shared records)
    (guards : discipline.Guards post pool.threads records) (held : pool.threads[i]? = some prog) :
    ∃ schedule after records' value, pool.run perform schedule = .ok after ∧
      discipline.inv after.shared records' ∧ discipline.Guards post after.threads records' ∧
      after.threads = pool.threads.set i (.done value) := by
  induction prog generalizing pool records with
  | done value =>
    obtain ⟨inside, same⟩ := List.getElem?_eq_some_iff.mp held
    exact ⟨[], pool, records, value, rfl, inv, guards, by rw [← same, List.set_getElem_self]⟩
  | fail error =>
    obtain ⟨record, -, safe⟩ := guards.record held
    exact safe.elim
  | act action next ih =>
    obtain ⟨reply, shared, records', stepped, -, kept, guarded⟩ := act_safe inv guards held
    have inside : i < pool.threads.length := (List.getElem?_eq_some_iff.mp held).1
    let advanced : Pool Act Reply ε α σ := ⟨shared, pool.threads.set i (next reply)⟩
    have there : advanced.threads[i]? = some (next reply) := List.getElem?_set_self inside
    obtain ⟨schedule, after, records'', value, ran, inv', guards', threads⟩ :=
      ih reply kept guarded there
    refine ⟨i :: schedule, after, records'', value, ?_, inv', guards', ?_⟩
    · rw [Pool.run, List.foldlM_cons, stepped]
      exact ran
    · rw [threads, List.set_set]

/-- **Some schedule ends every thread.** -/
theorem run_finishes (inv : discipline.inv pool.shared records)
    (guards : discipline.Guards post pool.threads records) :
    ∃ schedule after, pool.run perform schedule = .ok after ∧ after.finished := by
  suffices some_ : ∀ n ≤ pool.threads.length, ∃ schedule after records',
      pool.run perform schedule = .ok after ∧ discipline.inv after.shared records' ∧
      discipline.Guards post after.threads records' ∧
      after.threads.length = pool.threads.length ∧
      ∀ (i : ℕ) prog, i < n → after.threads[i]? = some prog → prog.isDone by
    obtain ⟨schedule, after, -, ran, -, -, same, each⟩ := some_ _ le_rfl
    refine ⟨schedule, after, ran, List.all_eq_true.mpr fun prog member => ?_⟩
    obtain ⟨i, held⟩ := List.mem_iff_getElem?.mp member
    exact each i prog (same ▸ (List.getElem?_eq_some_iff.mp held).1) held
  intro n
  induction n with
  | zero => exact fun _ => ⟨[], pool, records, rfl, inv, guards, rfl, fun i _ below => nomatch below⟩
  | succ n ih =>
    intro inside
    obtain ⟨schedule, mid, records', ran, inv', guards', same, each⟩ := ih (Nat.le_of_succ_le inside)
    obtain ⟨prog, held⟩ : ∃ prog, mid.threads[n]? = some prog :=
      ⟨_, List.getElem?_eq_getElem (by omega)⟩
    obtain ⟨more, after, records'', value, ran', inv'', guards'', threads⟩ :=
      thread_finishes inv' guards' held
    refine ⟨schedule ++ more, after, records'', run_append ran ran', inv'', guards'',
      by rw [threads, List.length_set, same], fun i prog below there => ?_⟩
    rw [threads, List.getElem?_set] at there
    split_ifs at there with here long
    · rw [← Option.some.inj there]
      rfl
    · exact each i prog (by omega) there

end Discipline

end DrStrange.Lib.Interleave
