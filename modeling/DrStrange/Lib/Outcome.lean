/-
**Computations that end well.**

An `Outcome` says of a computation in some monad that it ends without a failure and that its result
satisfies a predicate. It is all that a proof about a loop needs to know of the monad, so the same
proof serves a computation that may fail (`Outcome.except`) and a program whose steps are interleaved
with those of others.
-/

import Mathlib

namespace DrStrange.Lib

variable {m : Type → Type} [Monad m] {α β σ ε : Type}

/-- A computation ends, and its result is as `post` says. -/
structure Outcome (m : Type → Type) [Monad m] where
  ends : {α : Type} → m α → (α → Prop) → Prop
  pure : ∀ {α : Type} {a : α} {post : α → Prop}, post a → ends (Pure.pure a) post
  bind : ∀ {α β : Type} {x : m α} {f : α → m β} {mid : α → Prop} {post : β → Prop},
    ends x mid → (∀ a, mid a → ends (f a) post) → ends (x >>= f) post
  mono : ∀ {α : Type} {x : m α} {mid post : α → Prop},
    ends x mid → (∀ a, mid a → post a) → ends x post

namespace Outcome

variable {outcome : Outcome m} {step : σ → α → m σ} {xs : List α} {start : σ}

/-- A loop keeps what each of its rounds keeps. -/
theorem foldlM (keep : σ → Prop) (first : keep start)
    (round : ∀ state, keep state → ∀ x ∈ xs, outcome.ends (step state x) keep) :
    outcome.ends (xs.foldlM step start) keep := by
  induction xs generalizing start with
  | nil => exact outcome.pure first
  | cons x xs ih =>
    rw [List.foldlM_cons]
    refine outcome.bind (round start first x List.mem_cons_self) fun state kept => ?_
    exact ih kept fun state kept x member => round state kept x (List.mem_cons_of_mem _ member)

/-- A loop that makes one thing true of each of its rounds, and keeps it. -/
theorem foldlM_each (keep : σ → Prop) (made : α → σ → Prop) (first : keep start)
    (round : ∀ state, keep state → ∀ x ∈ xs, outcome.ends (step state x) fun next =>
      (keep next ∧ made x next) ∧ ∀ y ∈ xs, made y state → made y next) :
    outcome.ends (xs.foldlM step start) fun state => keep state ∧ ∀ x ∈ xs, made x state := by
  suffices later : ∀ (done todo : List α) (state : σ), done ++ todo = xs → keep state →
      (∀ x ∈ done, made x state) →
      outcome.ends (todo.foldlM step state) fun state => keep state ∧ ∀ x ∈ xs, made x state from
    later [] xs start rfl first (by simp)
  intro done todo state split kept before
  induction todo generalizing done state with
  | nil =>
    rw [List.append_nil] at split
    exact outcome.pure ⟨kept, split ▸ before⟩
  | cons x todo ih =>
    have member : x ∈ xs := split ▸ List.mem_append_right _ List.mem_cons_self
    rw [List.foldlM_cons]
    refine outcome.bind (round state kept x member) fun next after => ?_
    refine ih (done ++ [x]) next (by rw [List.append_assoc]; exact split) after.1.1 fun y among => ?_
    rcases List.mem_append.mp among with earlier | here
    · exact after.2 y (split ▸ List.mem_append_left _ earlier) (before y earlier)
    · rw [List.mem_singleton.mp here]
      exact after.1.2

/-- Over computations that may report an error: they end, with a result or an error that is allowed.
-/
def exceptT (outcome : Outcome m) (refused : ε → Prop) : Outcome (ExceptT ε m) where
  ends x post := outcome.ends x.run fun
    | .ok a => post a
    | .error e => refused e
  pure := fun holds => outcome.pure holds
  bind := by
    intro α β x f mid post first next
    refine outcome.bind first fun result ended => ?_
    cases result with
    | ok a => exact next a ended
    | error e => exact outcome.pure ended
  mono := by
    intro α x mid post ended weaker
    refine outcome.mono ended fun result held => ?_
    cases result with
    | ok a => exact weaker a held
    | error e => exact held

/-- A computation that may fail ends well if it does not. -/
def except (ε : Type) : Outcome (Except ε) where
  ends x post := ∃ a, x = .ok a ∧ post a
  pure := fun holds => ⟨_, rfl, holds⟩
  bind := by
    rintro α β x f mid post ⟨a, rfl, holds⟩ next
    exact next a holds
  mono := fun ⟨a, ended, holds⟩ weaker => ⟨a, ended, weaker a holds⟩

/-- A computation that may panic ends well if it does not. -/
def option : Outcome Option where
  ends x post := ∃ a, x = some a ∧ post a
  pure := fun holds => ⟨_, rfl, holds⟩
  bind := by
    rintro α β x f mid post ⟨a, rfl, holds⟩ next
    exact next a holds
  mono := fun ⟨a, ended, holds⟩ weaker => ⟨a, ended, weaker a holds⟩

end Outcome

end DrStrange.Lib
