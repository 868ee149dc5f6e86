/-
**Fallible computations: what a success tells.**

A chain of steps succeeds if each of its steps does (`bind_eq_ok`), and a list is mapped if each
element is (`mapM_eq_ok`). A loop that reads each element first is the loop over what was read
(`foldlM_map`), so that a failure to read is the failure of the whole. Two computations are `Alike`
if both fail or both succeed with related results, and `Paired` if the failure is the same. With a
state, a step says what it made of the state, and a loop keeps what each of its steps does
(`forM_keeps`); a computation `EndsIn` what holds if it returns and what holds if it fails, and a
loop in what its rounds have made (`EndsIn.forM`).
-/

import Mathlib

namespace DrStrange.Lib

variable {ε α β σ : Type} {x : Except ε α} {xs ys : List α} {f : α → Except ε β}
  {related : α → β → Prop} {y : Except ε β} {a : α} {b : β} {zs : List β} {start : σ}

theorem bind_eq_ok : x >>= f = .ok b ↔ ∃ a, x = .ok a ∧ f a = .ok b := by
  cases x with
  | error e => simp [bind, Except.bind]
  | ok a => simp [bind, Except.bind]

theorem pure_eq_ok {b : α} : (pure a : Except ε α) = .ok b ↔ a = b :=
  ⟨Except.ok.inj, congrArg Except.ok⟩

theorem map_eq_ok {f : α → β} : x.map f = .ok b ↔ ∃ a, x = .ok a ∧ f a = b := by
  cases x <;> simp [Except.map]

theorem mapError_eq_ok {ε' : Type} {f : ε → ε'} : x.mapError f = .ok a ↔ x = .ok a := by
  cases x <;> simp [Except.mapError]

theorem mapM_eq_ok {ys : List β} :
    xs.mapM f = .ok ys ↔ List.Forall₂ (fun x y => f x = .ok y) xs ys := by
  induction xs generalizing ys with
  | nil =>
    rw [List.mapM_nil, List.forall₂_nil_left_iff]
    exact ⟨fun same => (Except.ok.inj same).symm, fun same => by rw [same]; rfl⟩
  | cons x xs ih =>
    rw [List.mapM_cons, bind_eq_ok, List.forall₂_cons_left_iff]
    constructor
    · rintro ⟨y, first, rest⟩
      obtain ⟨ys, rest, same⟩ := bind_eq_ok.mp rest
      exact ⟨y, ys, first, ih.mp rest, (Except.ok.inj same).symm⟩
    · rintro ⟨y, ys, first, rest, rfl⟩
      exact ⟨y, first, bind_eq_ok.mpr ⟨ys, ih.mpr rest, rfl⟩⟩

/-- Each of the mapped elements comes from one that was read. -/
theorem mapM_forall {ys : List β} {post : β → Prop} (mapped : xs.mapM f = .ok ys)
    (each : ∀ x ∈ xs, ∀ y, f x = .ok y → post y) : ∀ y ∈ ys, post y := by
  have read := mapM_eq_ok.mp mapped
  clear mapped
  induction read with
  | nil => exact nofun
  | cons first rest ih =>
    obtain ⟨here, each⟩ := List.forall_mem_cons.mp each
    exact List.forall_mem_cons.mpr ⟨here _ first, ih each⟩

theorem mapM_append_ok :
    (xs ++ ys).mapM f = .ok zs ↔ ∃ as bs, xs.mapM f = .ok as ∧ ys.mapM f = .ok bs ∧
    zs = as ++ bs := by
  rw [List.mapM_append, bind_eq_ok]
  constructor
  · rintro ⟨as, left, rest⟩
    obtain ⟨bs, right, same⟩ := bind_eq_ok.mp rest
    exact ⟨as, bs, left, right, (Except.ok.inj same).symm⟩
  · rintro ⟨as, bs, left, right, rfl⟩
    exact ⟨as, left, bind_eq_ok.mpr ⟨bs, right, rfl⟩⟩

theorem mapM_cons_ok {x : α} :
    (x :: xs).mapM f = .ok zs ↔ ∃ y ys, f x = .ok y ∧ xs.mapM f = .ok ys ∧ zs = y :: ys := by
  simp only [mapM_eq_ok, List.forall₂_cons_left_iff]

/-- A list is mapped if each of its elements is. -/
theorem mapM_returns {f : α → Except ε β} {xs : List α} (each : ∀ x ∈ xs, ∃ y, f x = .ok y) :
    ∃ ys, xs.mapM f = .ok ys := by
  induction xs with
  | nil => exact ⟨[], rfl⟩
  | cons x xs ih =>
    obtain ⟨⟨y, first⟩, each⟩ := List.forall_mem_cons.mp each
    obtain ⟨ys, rest⟩ := ih each
    exact ⟨y :: ys, by rw [List.mapM_cons, first, rest]; rfl⟩

/-- A loop that succeeds has checked each element. -/
theorem forM_forall {run : α → Except ε PUnit} (ran : xs.forM run = .ok ()) :
    ∀ x ∈ xs, run x = .ok () := by
  induction xs with
  | nil => exact nofun
  | cons x xs ih =>
    obtain ⟨⟨⟩, first, rest⟩ := bind_eq_ok.mp ran
    exact List.forall_mem_cons.mpr ⟨first, ih rest⟩

/-- A loop over elements that are read one by one. -/
theorem foldlM_map {read : α → Except ε β} {step : σ → β → σ} :
    xs.foldlM (fun state x => (read x).map (step state)) start =
      (xs.mapM read).map fun ys => ys.foldl step start := by
  induction xs generalizing start with
  | nil => rfl
  | cons x xs ih =>
    rw [List.foldlM_cons, List.mapM_cons]
    cases read x with
    | error e => rfl
    | ok y =>
      refine (@ih (step start y)).trans ?_
      cases xs.mapM read <;> rfl

/-! ### Results alike -/

/-- Both fail, or both succeed with results that are related. -/
inductive Alike (related : α → β → Prop) : Except ε α → Except ε β → Prop where
  | error (e e' : ε) : Alike related (.error e) (.error e')
  | ok {a : α} {b : β} (same : related a b) : Alike related (.ok a) (.ok b)

theorem Alike.bind {γ δ : Type} {related' : γ → δ → Prop} {f : α → Except ε γ} {g : β → Except ε δ}
    (alike : Alike related x y) (each : ∀ a b, related a b → Alike related' (f a) (g b)) :
    Alike related' (x >>= f) (y >>= g) := by
  cases alike with
  | error e e' => exact .error e e'
  | ok same => exact each _ _ same

theorem Alike.refl {related : α → α → Prop} (same : ∀ a, related a a) (x : Except ε α) :
    Alike related x x := by
  cases x with
  | error e => exact .error e e
  | ok a => exact .ok (same a)

theorem Alike.trans {related : α → α → Prop}
    (trans : ∀ a b c, related a b → related b c → related a c) {y z : Except ε α}
    (first : Alike related x y) (second : Alike related y z) : Alike related x z := by
  cases first with
  | error e e' => cases second with
    | error _ e'' => exact .error e e''
  | ok same => cases second with
    | ok same' => exact .ok (trans _ _ _ same same')

/-- Elements read in another order are the same elements in that order. -/
theorem Alike.mapM (perm : xs.Perm ys) : Alike List.Perm (xs.mapM f) (ys.mapM f) := by
  induction perm with
  | nil => exact .refl .refl _
  | cons x perm ih =>
    rw [List.mapM_cons, List.mapM_cons]
    have same : Alike Eq (f x) (f x) := .refl (fun _ => rfl) _
    refine same.bind ?_
    rintro first _ rfl
    exact ih.bind fun rest rest' same => .ok (same.cons first)
  | swap x y rest =>
    simp only [List.mapM_cons]
    cases f x with
    | error e => cases f y <;> exact .error _ _
    | ok a =>
      cases f y with
      | error e => exact .error _ _
      | ok b =>
        cases rest.mapM f with
        | error e => exact .error _ _
        | ok rest => exact .ok (.swap a b rest)
  | trans _ _ first second => exact first.trans (fun _ _ _ one two => one.trans two) second

/-- Both fail with the same failure, or both succeed with results that are related. -/
inductive Paired (related : α → β → Prop) : Except ε α → Except ε β → Prop where
  | error (e : ε) : Paired related (.error e) (.error e)
  | ok {a : α} {b : β} (same : related a b) : Paired related (.ok a) (.ok b)

theorem Paired.bind {γ δ : Type} {related' : γ → δ → Prop} {f : α → Except ε γ} {g : β → Except ε δ}
    (paired : Paired related x y) (each : ∀ a b, related a b → Paired related' (f a) (g b)) :
    Paired related' (x >>= f) (y >>= g) := by
  cases paired with
  | error e => exact .error e
  | ok same => exact each _ _ same

theorem Paired.refl (x : Except ε α) : Paired Eq x x := by
  cases x with
  | error e => exact .error e
  | ok a => exact .ok rfl

/-- What one side makes of its result at the end. -/
theorem Paired.map_left {γ : Type} {related' : γ → β → Prop} {f : α → γ}
    (paired : Paired related x y) (each : ∀ a b, related a b → related' (f a) b) :
    Paired related' (x >>= fun a => pure (f a)) y := by
  cases paired with
  | error e => exact .error e
  | ok same => exact .ok (each _ _ same)

theorem Paired.map_right {γ : Type} {related' : α → γ → Prop} {f : β → γ}
    (paired : Paired related x y) (each : ∀ a b, related a b → related' a (f b)) :
    Paired related' x (y >>= fun b => pure (f b)) := by
  cases paired with
  | error e => exact .error e
  | ok same => exact .ok (each _ _ same)

/-- Loops over the same elements keep what their rounds keep. -/
theorem Paired.foldlM {σ' : Type} {related : σ → σ' → Prop} {f : σ → α → Except ε σ}
    {g : σ' → α → Except ε σ'} (xs : List α) {start' : σ'} (first : related start start')
    (round : ∀ s s' x, related s s' → Paired related (f s x) (g s' x)) :
    Paired related (xs.foldlM f start) (xs.foldlM g start') := by
  induction xs generalizing start start' with
  | nil => exact .ok first
  | cons x xs ih =>
    rw [List.foldlM_cons, List.foldlM_cons]
    exact (round _ _ x first).bind fun _ _ same => ih same

/-! ### With a state -/

section State

variable {before after : σ} {run : α → EStateM ε σ PUnit}

theorem run_bind_ok {x : EStateM ε σ α} {f : α → EStateM ε σ β} :
    (x >>= f) before = .ok b after ↔
      ∃ a middle, x before = .ok a middle ∧ f a middle = .ok b after := by
  simp only [bind, EStateM.bind]
  cases x before with
  | ok a middle => simp
  | error e middle => simp

theorem run_pure_ok {b : α} :
    (pure a : EStateM ε σ α) before = .ok b after ↔ a = b ∧ before = after := by
  simp [pure, EStateM.pure]

/-- A loop over two lists is a loop over one and then over the other. -/
theorem forM_append_ok :
    (xs ++ ys).forM run before = .ok () after ↔
      ∃ middle, xs.forM run before = .ok () middle ∧ ys.forM run middle = .ok () after := by
  induction xs generalizing before with
  | nil =>
    constructor
    · exact fun ran => ⟨before, rfl, ran⟩
    · rintro ⟨middle, start, ran⟩
      exact (run_pure_ok.mp start).2 ▸ ran
  | cons x xs ih =>
    constructor
    · intro ran
      obtain ⟨⟨⟩, next, first, rest⟩ := run_bind_ok.mp ran
      obtain ⟨middle, own, further⟩ := ih.mp rest
      exact ⟨middle, run_bind_ok.mpr ⟨⟨⟩, next, first, own⟩, further⟩
    · rintro ⟨middle, ran, further⟩
      obtain ⟨⟨⟩, next, first, own⟩ := run_bind_ok.mp ran
      exact run_bind_ok.mpr ⟨⟨⟩, next, first, ih.mpr ⟨middle, own, further⟩⟩

/-- What each step keeps, a loop that succeeds keeps. -/
theorem forM_keeps {motive : σ → Prop}
    (each : ∀ x ∈ xs, ∀ before after, motive before → run x before = .ok () after → motive after)
    (ran : xs.forM run before = .ok () after) (here : motive before) : motive after := by
  induction xs generalizing before with
  | nil => exact (run_pure_ok.mp ran).2 ▸ here
  | cons x xs ih =>
    obtain ⟨⟨⟩, middle, first, rest⟩ := run_bind_ok.mp ran
    refine ih (fun y member => each y (List.mem_cons_of_mem _ member)) rest ?_
    exact each x List.mem_cons_self before middle here first

/-- A computation returns a result in a state with `after`, or fails in one with `failed`. -/
def EndsIn (before : σ) (run : EStateM ε σ α) (after : α → σ → Prop) (failed : σ → Prop) : Prop :=
  match run before with
  | .ok a state => after a state
  | .error _ state => failed state

variable {run : EStateM ε σ α} {failed : σ → Prop} {middle : α → σ → Prop}

theorem EndsIn.bind {rest : α → EStateM ε σ β} {after : β → σ → Prop}
    (first : EndsIn before run middle failed)
    (next : ∀ a state, middle a state → EndsIn state (rest a) after failed) :
    EndsIn before (run >>= rest) after failed := by
  unfold EndsIn at first ⊢
  simp only [Bind.bind, EStateM.bind]
  cases ran : run before with
  | ok a state =>
    rw [ran] at first
    exact next a state first
  | error e state =>
    rw [ran] at first
    exact first

theorem EndsIn.mono {after : α → σ → Prop} {failed' : σ → Prop}
    (ends : EndsIn before run middle failed) (implies : ∀ a state, middle a state → after a state)
    (implies' : ∀ state, failed state → failed' state) :
    EndsIn before run after failed' := by
  unfold EndsIn at ends ⊢
  cases ran : run before with
  | ok a state =>
    rw [ran] at ends
    exact implies a state ends
  | error e state =>
    rw [ran] at ends
    exact implies' state ends

theorem EndsIn.pure {after : α → σ → Prop} (here : after a before) :
    EndsIn before (Pure.pure a : EStateM ε σ α) after failed := here

theorem EndsIn.modify {change : σ → σ} :
    EndsIn before (modify change : EStateM ε σ PUnit)
    (fun _ state => state = change before) failed := rfl

theorem EndsIn.get : EndsIn before (get : EStateM ε σ σ)
    (fun a state => a = before ∧ state = before) failed := ⟨rfl, rfl⟩

theorem EndsIn.throw {e : ε} {after : α → σ → Prop} (here : failed before) :
    EndsIn before (throw e : EStateM ε σ α) after failed := here

/-- A loop goes on from what its rounds before have made. -/
theorem EndsIn.forM {round : α → EStateM ε σ PUnit} (made : List α → σ → Prop)
    (start : made [] before) (each : ∀ done x todo state, xs = done ++ x :: todo → made done state →
      EndsIn state (round x) (fun _ => made (done ++ [x])) failed) :
    EndsIn before (xs.forM round) (fun _ => made xs) failed := by
  suffices later : ∀ (done todo : List α) (state : σ), xs = done ++ todo → made done state →
      EndsIn state (todo.forM round) (fun _ => made xs) failed from later [] xs before rfl start
  intro done todo state split here
  induction todo generalizing done state with
  | nil =>
    rw [List.append_nil] at split
    exact .pure (split ▸ here)
  | cons x todo ih =>
    refine (each done x todo state split here).bind fun _ next further => ?_
    exact ih (done ++ [x]) next (by rw [List.append_assoc]; exact split) further

end State

end DrStrange.Lib
