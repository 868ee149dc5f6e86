/-
**Expressions joined in a balanced tree.**

Joining neighbours round after round leaves one expression, which is true where all of the joined ones
are, or any of them (`balanced_eval`), and has whatever its parts have (`balanced_forall`).
-/

import DrStrange.Parser.Compile

namespace DrStrange.Parser

open Std DrStrange.Graph DrStrange.Compute

variable {op : LogicOp} {items : List Expr} {machine : Machine} {ctx : EvalCtx} {post : Expr → Prop}
  {lhs rhs : Expr}

/-- The expression is true of what it is evaluated against. -/
def holds (machine : Machine) (ctx : EvalCtx) (expr : Expr) : Bool :=
  Compute.isTrue (eval machine ctx expr)

@[simp] theorem holds_and :
    holds machine ctx (.logic .and lhs rhs) = (holds machine ctx lhs && holds machine ctx rhs) := rfl

@[simp] theorem holds_or :
    holds machine ctx (.logic .or lhs rhs) = (holds machine ctx lhs || holds machine ctx rhs) := rfl

@[simp] theorem holds_not {inner : Expr} :
    holds machine ctx (.not inner) = !holds machine ctx inner := rfl

/-- The truth of expressions joined by an operator. -/
def joined (machine : Machine) (ctx : EvalCtx) : LogicOp → List Expr → Bool
  | .and, items => items.all (holds machine ctx)
  | .or, items => items.any (holds machine ctx)

theorem joined_pairUp : joined machine ctx op (pairUp op items) = joined machine ctx op items := by
  fun_induction pairUp op items with
  | case1 lhs rhs rest ih =>
    cases op with
    | and =>
      simp only [joined, List.all_cons, holds_and, Bool.and_assoc] at ih ⊢
      rw [ih]
    | or =>
      simp only [joined, List.any_cons, holds_or, Bool.or_assoc] at ih ⊢
      rw [ih]
  | case2 => rfl

theorem joined_rounds {machine : Machine} {ctx : EvalCtx} {n : ℕ} :
    joined machine ctx op (rounds op n items) = joined machine ctx op items := by
  induction n generalizing items with
  | zero => rfl
  | succ n ih =>
    rw [rounds]
    split
    · rw [ih, joined_pairUp]
    · rfl

theorem length_pairUp : (pairUp op items).length = (items.length + 1) / 2 := by
  fun_induction pairUp op items with
  | case1 lhs rhs rest ih =>
    rw [List.length_cons, ih, List.length_cons, List.length_cons]
    omega
  | case2 items short =>
    match items, short with
    | [], _ => rfl
    | [_], _ => exact (by decide : 1 = (1 + 1) / 2)
    | lhs :: rhs :: rest, short => exact (short lhs rhs rest rfl).elim

/-- Enough rounds leave one. -/
theorem length_rounds {n : ℕ} (some : items ≠ []) (enough : items.length ≤ n + 1) :
    (rounds op n items).length = 1 := by
  have positive := List.length_pos_iff.mpr some
  induction n generalizing items with
  | zero =>
    rw [rounds]
    omega
  | succ n ih =>
    rw [rounds]
    split
    · have half := @length_pairUp op items
      have positive : 0 < (pairUp op items).length := by omega
      exact ih (List.length_pos_iff.mp positive) (by omega) positive
    · omega

theorem balanced_eval (some : items ≠ []) : ∃ item, balanced op items = .some item ∧
    ∀ machine ctx, holds machine ctx item = joined machine ctx op items := by
  obtain ⟨item, one⟩ := List.length_eq_one_iff.mp
    (@length_rounds op _ _ some (Nat.le_succ items.length))
  refine ⟨item, by rw [balanced, one]; rfl, fun machine ctx => ?_⟩
  rw [← @joined_rounds op items machine ctx items.length, one]
  cases op with
  | and => exact (Bool.and_true _).symm
  | or => exact (Bool.or_false _).symm

theorem pairUp_forall (closed : ∀ lhs rhs, post lhs → post rhs →
    post (.logic op lhs rhs)) (all : ∀ item ∈ items, post item) :
    ∀ item ∈ pairUp op items, post item := by
  fun_induction pairUp op items with
  | case1 lhs rhs rest ih =>
    obtain ⟨left, all⟩ := List.forall_mem_cons.mp all
    obtain ⟨right, all⟩ := List.forall_mem_cons.mp all
    exact List.forall_mem_cons.mpr ⟨closed lhs rhs left right, ih all⟩
  | case2 => exact all

theorem rounds_forall {n : ℕ} (closed : ∀ lhs rhs, post lhs → post rhs →
    post (.logic op lhs rhs)) (all : ∀ item ∈ items, post item) :
    ∀ item ∈ rounds op n items, post item := by
  induction n generalizing items with
  | zero => exact all
  | succ n ih =>
    rw [rounds]
    split
    · exact ih (pairUp_forall closed all)
    · exact all

/-- What the parts have and joining keeps, the whole has. -/
theorem balanced_forall {post : Expr → Prop} (closed : ∀ lhs rhs, post lhs → post rhs →
    post (.logic op lhs rhs)) (all : ∀ item ∈ items, post item) :
    ∀ item ∈ balanced op items, post item :=
  fun item member => rounds_forall closed all item (List.mem_of_getLast? member)

end DrStrange.Parser
