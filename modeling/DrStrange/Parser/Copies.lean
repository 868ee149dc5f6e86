/-
**How large an expression compiles to.**

The compiler copies in two places. A guard reads again everything under it that can be null, and a
list of `IN` copies its left side for each item. `cost` counts the copies, node by node, and is the
size of what is compiled (`size_compileExpr`). Where nothing copied holds copies itself, the size is
quadratic at most (`cost_le`); where left sides of `IN` are nested, it doubles with each level
(`size_nested`).
-/

import DrStrange.Lib.Fallible
import DrStrange.Parser.Grammar
import DrStrange.Parser.Joined

namespace DrStrange.Parser

open Std DrStrange.Graph DrStrange.Compute Lib

/-! ### Sizes -/

/-- The nodes of a compiled expression; a vector is part of its node. -/
def size : Expr → ℕ
  | .property _ | .literal _ | .hasLabel _ | .nodeId | .edgeType | .edgeDir | .edgeProperty
    _ | .externalKey
  | .score | .hops | .distance .. | .similarity .. => 1
  | .at _ inner | .isNull inner | .not inner => size inner + 1
  | .compare _ lhs rhs | .logic _ lhs rhs | .arith _ lhs rhs | .stringMatch _ lhs rhs | .in lhs rhs =>
    size lhs + size rhs + 1

mutual

/-- The nodes of an expression, the items of lists included. -/
def nodes : PExpr → ℕ
  | .lit _ | .param _ | .prop .. | .hasLabel .. | .externalKey _ | .score | .hops | .similarity ..
  | .distance .. => 1
  | .in lhs list => nodes lhs + nodesAll list + 1
  | .isNull inner | .not inner | .neg inner => nodes inner + 1
  | .inValue lhs rhs | .stringMatch _ lhs rhs | .compare _ lhs rhs | .logic _ lhs rhs | .arith
    _ lhs rhs =>
    nodes lhs + nodes rhs + 1

def nodesAll : List PExpr → ℕ
  | [] => 0
  | expr :: rest => nodes expr + nodesAll rest

end

section

variable (params : Params) (scope : Scope)

/-- Reading another slot than the current one takes a node more. -/
def readCost (var : String) : ℕ :=
  if var = "" then 1
  else
    match scope.varSlot.lookup var with
    | none => 1
    | some slot => if slot = scope.current then 1 else 2

def leafCost : PExpr → ℕ
  | .prop var _ | .hasLabel var _ | .externalKey var | .similarity var .. | .distance var .. =>
    readCost scope var
  | _ => 1

/-- A guard tests each leaf that can be null once, and joins the tests. -/
def guardCost (roots : List PExpr) : ℕ :=
  ((nullableLeaves roots).map fun leaf => leafCost scope leaf + 3).sum

/-- A comparison that is guarded. -/
def guarded (op : CmpOp) (lhs rhs : PExpr) : Bool :=
  match op with
  | .ne => true
  | .eq => !(isNonNullConstant params lhs || isNonNullConstant params rhs)
  | .lt | .le | .gt | .ge => false

def isNumber : PropValue → Bool
  | .int _ | .float _ => true
  | _ => false

/-- What compiles to a number, into which a minus is folded. -/
def foldsTo : PExpr → Bool
  | .lit value => isNumber value
  | .param name => (resolveParam params name).toOption.any isNumber
  | .neg inner => foldsTo inner
  | _ => false

mutual

/-- The nodes an expression compiles to. -/
def cost : PExpr → ℕ
  | .in lhs list => if list = [] then 1 else list.length * (cost lhs + 2) + costAll list - 1
  | .isNull inner => cost inner + 1
  | .not inner => cost inner + 1 + guardCost scope [inner]
  | .neg inner => if foldsTo params inner then 1 else cost inner + 2
  | .compare op lhs rhs =>
    cost lhs + cost rhs + 1 + if guarded params op lhs rhs then guardCost scope [lhs, rhs] else 0
  | .inValue lhs rhs | .stringMatch _ lhs rhs | .logic _ lhs rhs | .arith _ lhs rhs =>
    cost lhs + cost rhs + 1
  | leaf => leafCost scope leaf

def costAll : List PExpr → ℕ
  | [] => 0
  | expr :: rest => cost expr + costAll rest

end

end

/-! ### Joined expressions -/

section

variable {op : LogicOp} {items : List Expr} {item : Expr}

/-- The nodes of a list of expressions and of the operators that join them, one for each. -/
def joinedSize (items : List Expr) : ℕ := (items.map fun item => size item + 1).sum

theorem joinedSize_pairUp : joinedSize (pairUp op items) = joinedSize items := by
  fun_induction pairUp op items with
  | case1 lhs rhs rest ih =>
    simp only [joinedSize, List.map_cons, List.sum_cons, size] at ih ⊢
    omega
  | case2 => rfl

theorem joinedSize_rounds {n : ℕ} : joinedSize (rounds op n items) = joinedSize items := by
  induction n generalizing items with
  | zero => rfl
  | succ n ih =>
    rw [rounds]
    split
    · rw [ih, joinedSize_pairUp]
    · rfl

theorem joinedSize_cons : joinedSize (item :: items) = size item + 1 + joinedSize items := by
  rw [joinedSize, List.map_cons, List.sum_cons, joinedSize]

theorem size_balanced (joined : balanced op items = some item) :
    size item + 1 = joinedSize items := by
  have some_ : items ≠ [] := by
    rintro rfl
    cases joined
  obtain ⟨last, one⟩ := List.length_eq_one_iff.mp
    (@length_rounds op _ _ some_ (Nat.le_succ items.length))
  rw [balanced, one] at joined
  obtain rfl := Option.some.inj joined
  rw [← @joinedSize_rounds op items items.length, one]
  exact (Nat.add_zero _).symm

end

/-! ### The size of what is compiled -/

/-- A number as a literal. -/
def isNumberLiteral : Expr → Bool
  | .literal value => isNumber value
  | _ => false

section

variable {embedder : Option Embedder} {params : Params} {scope : Scope} {expr : PExpr} {out : Expr}
  {exprs roots : List PExpr} {outs : List Expr}

/-- What an expression is compiled to has its cost, and is a number exactly if a minus is folded
into it. -/
structure Costs (params : Params) (scope : Scope) (expr : PExpr) (out : Expr) : Prop where
  size : size out = cost params scope expr
  number : isNumberLiteral out = foldsTo params expr

theorem size_read {var : String} {inner : Expr} (read : scope.read var inner = .ok out)
    (one : size inner = 1) (other : isNumberLiteral inner = false) :
      size out = readCost scope var ∧ isNumberLiteral out = false := by
  unfold Scope.read at read
  unfold readCost
  split_ifs at read with anonymous
  · obtain rfl := Except.ok.inj read
    rw [if_pos anonymous]
    exact ⟨one, other⟩
  · rw [if_neg anonymous]
    cases found : scope.varSlot.lookup var with
    | none =>
      rw [found] at read
      cases read
    | some slot =>
      rw [found] at read
      obtain rfl := Except.ok.inj read
      simp only
      split_ifs with here
      · exact ⟨one, other⟩
      · exact ⟨congrArg (· + 1) one, rfl⟩

/-- Leaves cost what they compile to. -/
theorem size_compileLeaf (compiled : compileLeaf embedder params scope expr = .ok out) :
    size out = leafCost scope expr ∧ isNumberLiteral out = foldsTo params expr := by
  cases expr with
  | lit value =>
    obtain rfl := Except.ok.inj compiled
    exact ⟨rfl, rfl⟩
  | param name =>
    obtain ⟨value, found, same⟩ := bind_eq_ok.mp compiled
    obtain rfl := Except.ok.inj same
    refine ⟨rfl, ?_⟩
    rw [foldsTo, found]
    rfl
  | prop var key => exact size_read compiled rfl rfl
  | hasLabel var label => exact size_read compiled rfl rfl
  | externalKey var => exact size_read compiled rfl rfl
  | score =>
    obtain rfl := Except.ok.inj compiled
    exact ⟨rfl, rfl⟩
  | hops =>
    obtain rfl := Except.ok.inj compiled
    exact ⟨rfl, rfl⟩
  | similarity var property query metric =>
    obtain ⟨entries, -, read⟩ := bind_eq_ok.mp compiled
    exact size_read read rfl rfl
  | distance var property query metric =>
    obtain ⟨entries, -, read⟩ := bind_eq_ok.mp compiled
    exact size_read read rfl rfl
  | _ => cases compiled

theorem joinedSize_present {leaves : List PExpr} {present : List Expr}
    (compiled : leaves.mapM (fun leaf => do
      return Expr.not (Expr.isNull (← compileLeaf embedder params scope leaf))) = .ok present) :
        joinedSize present = (leaves.map fun leaf => leafCost scope leaf + 3).sum := by
  have each := mapM_eq_ok.mp compiled
  clear compiled
  induction each with
  | nil => rfl
  | cons first _ ih =>
    obtain ⟨inner, leaf, same⟩ := bind_eq_ok.mp first
    obtain rfl := Except.ok.inj same
    have test : size (Expr.not (Expr.isNull inner)) = size inner + 1 + 1 := rfl
    rw [joinedSize_cons, ih, List.map_cons, List.sum_cons, test, (size_compileLeaf leaf).1]

/-- A guard costs its tests, and what is guarded is no number. -/
theorem size_nullGuarded {pred : Expr}
    (compiled : nullGuarded embedder params scope pred roots = .ok out)
    (other : isNumberLiteral pred = false) :
    size out = size pred + guardCost scope roots ∧ isNumberLiteral out = false := by
  obtain ⟨present, tests, same⟩ := bind_eq_ok.mp compiled
  obtain rfl := Except.ok.inj same
  rw [guardCost, ← joinedSize_present tests]
  cases joined : balanced .and present with
  | none =>
    have empty : present = [] := by
      by_contra some_
      obtain ⟨item, held, -⟩ := @balanced_eval .and present some_
      exact nomatch held.symm.trans joined
    subst empty
    exact ⟨rfl, other⟩
  | some guards =>
    have whole := size_balanced joined
    refine ⟨?_, rfl⟩
    show size guards + size pred + 1 = _
    omega

theorem size_negated (inner : Expr) :
    size (negated inner) = (if isNumberLiteral inner then 1 else size inner + 2) ∧
      isNumberLiteral (negated inner) = isNumberLiteral inner := by
  cases inner with
  | literal value => cases value <;> exact ⟨rfl, rfl⟩
  | _ =>
    refine ⟨?_, rfl⟩
    show 1 + size _ + 1 = size _ + 2
    omega

/-- A comparison costs its guard besides. -/
theorem size_compiledCompare {op : CmpOp} {lhs rhs : PExpr} {cmp : Expr}
    (compiled : compiledCompare embedder params scope op lhs rhs cmp = .ok out)
    (other : isNumberLiteral cmp = false) :
    size out = size cmp + (if guarded params op lhs rhs then guardCost scope [lhs, rhs] else 0) ∧
      isNumberLiteral out = false := by
  have plain : Except.ok cmp = (.ok out : Except String Expr) →
      size out = size cmp + 0 ∧ isNumberLiteral out = false := by
    intro same
    obtain rfl := Except.ok.inj same
    exact ⟨rfl, other⟩
  cases op with
  | ne => exact size_nullGuarded compiled other
  | eq =>
    rw [compiledCompare] at compiled
    rw [guarded]
    by_cases constant : isNonNullConstant params lhs || isNonNullConstant params rhs
    · rw [if_pos constant] at compiled
      rw [constant]
      exact plain compiled
    · rw [if_neg constant] at compiled
      rw [Bool.not_eq_true] at constant
      rw [constant]
      exact size_nullGuarded compiled other
  | lt => exact plain compiled
  | le => exact plain compiled
  | gt => exact plain compiled
  | ge => exact plain compiled

mutual

/-- **What is compiled has the cost of the expression.** -/
theorem size_compileExpr :
    ∀ {expr : PExpr} {out : Expr}, compileExpr embedder params scope expr = .ok out →
    Costs params scope expr out
  | .in lhs list, out, compiled => by
    obtain ⟨left, first, rest⟩ := bind_eq_ok.mp compiled
    obtain ⟨items, others, same⟩ := bind_eq_ok.mp rest
    obtain rfl := Except.ok.inj same
    obtain ⟨sum, count⟩ := joinedSize_compileExprs left others
    by_cases none : list = []
    · subst none
      obtain rfl := List.length_eq_zero_iff.mp count
      exact ⟨by rw [cost, if_pos rfl]; rfl, rfl⟩
    · have some_ : items.map (Expr.compare .eq left) ≠ [] := by
        rw [ne_eq, List.map_eq_nil_iff, ← List.length_eq_zero_iff, count, List.length_eq_zero_iff]
        exact none
      obtain ⟨item, joined, -⟩ := @balanced_eval .or _ some_
      have whole := size_balanced joined
      rw [sum, (size_compileExpr first).size] at whole
      rw [joined, Option.getD_some]
      refine ⟨by rw [cost, if_neg none]; omega, ?_⟩
      refine @balanced_forall .or _ (fun item => isNumberLiteral item = false)
        (fun _ _ _ _ => rfl) ?_ item joined
      intro eq among
      obtain ⟨right, -, rfl⟩ := List.mem_map.mp among
      rfl
  | .inValue lhs rhs, out, compiled | .stringMatch _ lhs rhs, out, compiled
  | .logic _ lhs rhs, out, compiled | .arith _ lhs rhs, out, compiled => by
    obtain ⟨left, first, rest⟩ := bind_eq_ok.mp compiled
    obtain ⟨right, second, same⟩ := bind_eq_ok.mp rest
    obtain rfl := Except.ok.inj same
    exact ⟨by rw [size, cost, (size_compileExpr first).size, (size_compileExpr second).size], rfl⟩
  | .isNull inner, out, compiled => by
    obtain ⟨within, first, same⟩ := bind_eq_ok.mp compiled
    obtain rfl := Except.ok.inj same
    exact ⟨by rw [size, cost, (size_compileExpr first).size], rfl⟩
  | .not inner, out, compiled => by
    obtain ⟨within, first, rest⟩ := bind_eq_ok.mp compiled
    obtain ⟨whole, other⟩ := size_nullGuarded rest rfl
    exact ⟨by rw [whole, size, cost, (size_compileExpr first).size], other⟩
  | .neg inner, out, compiled => by
    obtain ⟨within, first, same⟩ := bind_eq_ok.mp compiled
    obtain rfl := Except.ok.inj same
    obtain ⟨whole, other⟩ := size_negated within
    have inside := size_compileExpr first
    exact ⟨by rw [whole, cost, inside.size, inside.number], by rw [other, inside.number, foldsTo]⟩
  | .compare op lhs rhs, out, compiled => by
    obtain ⟨left, first, rest⟩ := bind_eq_ok.mp compiled
    obtain ⟨right, second, rest⟩ := bind_eq_ok.mp rest
    have sizes : size (.compare op left right) =
        cost params scope lhs + cost params scope rhs + 1 := by
      rw [size, (size_compileExpr first).size, (size_compileExpr second).size]
    obtain ⟨whole, other⟩ := size_compiledCompare rest rfl
    exact ⟨by rw [whole, sizes, cost], other⟩
  | .lit value, out, compiled => ⟨(size_compileLeaf compiled).1, (size_compileLeaf compiled).2⟩
  | .param name, out, compiled => ⟨(size_compileLeaf compiled).1, (size_compileLeaf compiled).2⟩
  | .prop var key, out, compiled => ⟨(size_compileLeaf compiled).1, (size_compileLeaf compiled).2⟩
  | .hasLabel var label, out, compiled =>
    ⟨(size_compileLeaf compiled).1, (size_compileLeaf compiled).2⟩
  | .externalKey var, out, compiled => ⟨(size_compileLeaf compiled).1, (size_compileLeaf compiled).2⟩
  | .score, out, compiled => ⟨(size_compileLeaf compiled).1, (size_compileLeaf compiled).2⟩
  | .hops, out, compiled => ⟨(size_compileLeaf compiled).1, (size_compileLeaf compiled).2⟩
  | .similarity .., out, compiled => ⟨(size_compileLeaf compiled).1, (size_compileLeaf compiled).2⟩
  | .distance .., out, compiled => ⟨(size_compileLeaf compiled).1, (size_compileLeaf compiled).2⟩

/-- The comparisons of one left side with the items of a list. -/
theorem joinedSize_compileExprs : ∀ {exprs : List PExpr} {outs : List Expr} (left : Expr),
    compileExprs embedder params scope exprs = .ok outs →
      joinedSize (outs.map (Expr.compare .eq left)) =
        exprs.length * (size left + 2) + costAll params scope exprs ∧
        outs.length = exprs.length
  | [], outs, left, compiled => by
    obtain rfl := Except.ok.inj compiled
    exact ⟨by rw [costAll, List.length_nil, Nat.zero_mul]; rfl, rfl⟩
  | expr :: rest, outs, left, compiled => by
    obtain ⟨item, first, read⟩ := bind_eq_ok.mp compiled
    obtain ⟨items, others, same⟩ := bind_eq_ok.mp read
    obtain rfl := Except.ok.inj same
    obtain ⟨sum, count⟩ := joinedSize_compileExprs left others
    refine ⟨?_, by rw [List.length_cons, List.length_cons, count]⟩
    rw [List.map_cons, joinedSize_cons, sum, size, costAll, (size_compileExpr first).size,
      List.length_cons]
    ring

end

end

/-! ### Copies of what holds no copies -/

section

variable (params : Params)

mutual

/-- What compiles in proportion to its nodes: it holds no guard with something to test, and no list
of two or more items. -/
def Plain : PExpr → Prop
  | .in lhs list => list.length < 2 ∧ Plain lhs ∧ PlainAll list
  | .not inner => nullableLeaves [inner] = [] ∧ Plain inner
  | .compare op lhs rhs => (guarded params op lhs rhs → nullableLeaves [lhs, rhs] = []) ∧
    Plain lhs ∧ Plain rhs
  | .isNull inner | .neg inner => Plain inner
  | .inValue lhs rhs | .stringMatch _ lhs rhs | .logic _ lhs rhs | .arith _ lhs rhs =>
    Plain lhs ∧ Plain rhs
  | .lit _ | .param _ | .prop .. | .hasLabel .. | .externalKey _ | .score | .hops | .similarity ..
  | .distance .. => True

def PlainAll : List PExpr → Prop
  | [] => True
  | expr :: rest => Plain expr ∧ PlainAll rest

end

mutual

/-- The left side of a list of two or more items is plain. -/
def CopiesPlain : PExpr → Prop
  | .in lhs list => (2 ≤ list.length → Plain params lhs) ∧ CopiesPlain lhs ∧ CopiesPlainAll list
  | .isNull inner | .not inner | .neg inner => CopiesPlain inner
  | .inValue lhs rhs | .stringMatch _ lhs rhs | .compare _ lhs rhs | .logic _ lhs rhs | .arith
    _ lhs rhs =>
    CopiesPlain lhs ∧ CopiesPlain rhs
  | .lit _ | .param _ | .prop .. | .hasLabel .. | .externalKey _ | .score | .hops | .similarity ..
  | .distance .. => True

def CopiesPlainAll : List PExpr → Prop
  | [] => True
  | expr :: rest => CopiesPlain expr ∧ CopiesPlainAll rest

end

end

section

variable {params : Params} {scope : Scope} {x a y b : ℕ}

theorem length_addLeaf (out : List PExpr) (leaf : PExpr) :
    (addLeaf out leaf).length ≤ out.length + 1 := by
  rw [addLeaf]
  split
  · omega
  · rw [List.length_append, List.length_singleton]

mutual

/-- There are no more leaves than nodes. -/
theorem length_leavesOf :
    ∀ (expr : PExpr) (out : List PExpr), (leavesOf out expr).length ≤ out.length + nodes expr
  | .lit value, out => by
    cases value with
    | null => exact length_addLeaf out _
    | _ => exact Nat.le_add_right _ _
  | .prop .., out | .externalKey _, out | .score, out | .similarity .., out | .distance ..,
    out | .param _, out =>
    length_addLeaf out _
  | .hasLabel .., out | .hops, out | .isNull _, out => Nat.le_add_right _ _
  | .in lhs list, out => by
    have first := length_leavesOf lhs out
    have rest := length_leavesOfAll list (leavesOf out lhs)
    rw [leavesOf, nodes]
    omega
  | .inValue lhs rhs, out | .stringMatch _ lhs rhs, out | .compare _ lhs rhs,
    out | .logic _ lhs rhs, out
  | .arith _ lhs rhs, out => by
    have first := length_leavesOf lhs out
    have second := length_leavesOf rhs (leavesOf out lhs)
    simp only [leavesOf, nodes]
    omega
  | .not inner, out | .neg inner, out => by
    have within := length_leavesOf inner out
    simp only [leavesOf, nodes]
    omega

theorem length_leavesOfAll : ∀ (exprs : List PExpr) (out : List PExpr),
    (leavesOfAll out exprs).length ≤ out.length + nodesAll exprs
  | [], out => Nat.le_refl _
  | expr :: rest, out => by
    have first := length_leavesOf expr out
    have others := length_leavesOfAll rest (leavesOf out expr)
    rw [leavesOfAll, nodesAll]
    omega

end

theorem leafCost_le (leaf : PExpr) : leafCost scope leaf ≤ 2 := by
  have read : ∀ var, readCost scope var ≤ 2 := by
    intro var
    unfold readCost
    split_ifs
    · omega
    · split
      · omega
      · split_ifs <;> omega
  cases leaf <;> first | exact read _ | exact Nat.le_succ 1

theorem guardCost_le (roots : List PExpr) : guardCost scope roots ≤ 5 * nodesAll roots := by
  have each : guardCost scope roots ≤ (nullableLeaves roots).length • 5 :=
    List.sum_le_card_nsmul _ 5 (by simpa using fun leaf _ => leafCost_le leaf) |>.trans
      (by rw [List.length_map])
  have count := length_leavesOfAll roots []
  rw [List.length_nil, Nat.zero_add] at count
  rw [smul_eq_mul] at each
  rw [nullableLeaves] at each
  omega

theorem nodes_pos (expr : PExpr) : 0 < nodes expr := by
  cases expr <;> exact Nat.succ_pos _

theorem length_le_nodesAll (exprs : List PExpr) : exprs.length ≤ nodesAll exprs := by
  induction exprs with
  | nil => exact Nat.le_refl 0
  | cons expr rest ih =>
    have := nodes_pos expr
    rw [List.length_cons, nodesAll]
    omega

theorem guardCost_eq_zero {roots : List PExpr} (none : nullableLeaves roots = []) :
    guardCost scope roots = 0 := by
  rw [guardCost, none]
  rfl

mutual

/-- A plain expression compiles to two nodes for each of its own, at most. -/
theorem cost_le_of_plain :
    ∀ {expr : PExpr}, Plain params expr → cost params scope expr ≤ 2 * nodes expr
  | .in lhs list, ⟨short, left, items⟩ => by
    have first := cost_le_of_plain left
    have others := costAll_le_of_plain items
    rw [cost, nodes]
    match list, short with
    | [], _ =>
      rw [if_pos rfl]
      omega
    | [item], _ =>
      rw [if_neg (List.cons_ne_nil _ _), List.length_singleton, Nat.one_mul]
      omega
  | .not inner, ⟨nothing, within⟩ => by
    have inside := cost_le_of_plain within
    rw [cost, nodes, guardCost_eq_zero nothing]
    omega
  | .compare op lhs rhs, ⟨nothing, left, right⟩ => by
    have first := cost_le_of_plain left
    have second := cost_le_of_plain right
    have free : (if guarded params op lhs rhs then guardCost scope [lhs, rhs] else 0) = 0 := by
      split_ifs with guards
      · exact guardCost_eq_zero (nothing guards)
      · rfl
    rw [cost, nodes, free]
    omega
  | .isNull inner, within => by
    have inside : cost params scope inner ≤ _ := cost_le_of_plain within
    rw [cost, nodes]
    omega
  | .neg inner, within => by
    have inside : cost params scope inner ≤ _ := cost_le_of_plain within
    rw [cost, nodes]
    split_ifs <;> omega
  | .inValue lhs rhs, ⟨left, right⟩ | .stringMatch _ lhs rhs, ⟨left, right⟩ | .logic _ lhs rhs,
    ⟨left, right⟩
  | .arith _ lhs rhs, ⟨left, right⟩ => by
    have first := cost_le_of_plain left
    have second := cost_le_of_plain right
    simp only [cost, nodes]
    omega
  | .lit value, _ => leafCost_le (.lit value)
  | .param name, _ => leafCost_le (.param name)
  | .prop var key, _ => leafCost_le (.prop var key)
  | .hasLabel var label, _ => leafCost_le (.hasLabel var label)
  | .externalKey var, _ => leafCost_le (.externalKey var)
  | .score, _ => leafCost_le .score
  | .hops, _ => leafCost_le .hops
  | .similarity var property query metric, _ => leafCost_le (.similarity var property query metric)
  | .distance var property query metric, _ => leafCost_le (.distance var property query metric)

theorem costAll_le_of_plain : ∀ {exprs : List PExpr}, PlainAll params exprs →
    costAll params scope exprs ≤ 2 * nodesAll exprs
  | [], _ => Nat.le_refl 0
  | expr :: rest, ⟨first, others⟩ => by
    have here := cost_le_of_plain first
    have after := costAll_le_of_plain others
    rw [costAll, nodesAll]
    omega

end

theorem square_leaf {leaf : PExpr} (one : nodes leaf = 1) :
    leafCost scope leaf ≤ 3 * nodes leaf ^ 2 := by
  rw [one]
  exact (leafCost_le leaf).trans (by decide)

/-- Two parts and a guard over both. -/
theorem square_parts (left : x ≤ 3 * a ^ 2) (right : y ≤ 3 * b ^ 2) :
    x + y + 1 + 5 * (a + b) ≤ 3 * (a + b + 1) ^ 2 := by
  have whole : 3 * (a + b + 1) ^ 2 = 3 * a ^ 2 + 3 * b ^ 2 + 6 * (a * b) + 6 * (a + b) + 3 := by ring
  omega

/-- One part and a guard over it. -/
theorem square_part (part : x ≤ 3 * a ^ 2) : x + 1 + 5 * a ≤ 3 * (a + 1) ^ 2 := by
  have whole : 3 * (a + 1) ^ 2 = 3 * a ^ 2 + 6 * a + 3 := by ring
  omega

/-- A plain part, copied no more often than there are nodes beside it. -/
theorem square_copies {k : ℕ} (left : x ≤ 2 * a) (right : y ≤ 3 * b ^ 2) (few : k ≤ b) :
    k * (x + 2) + y ≤ 3 * (a + b + 1) ^ 2 := by
  have copies : k * (x + 2) ≤ b * (2 * a + 2) := Nat.mul_le_mul few (by omega)
  have whole : 3 * (a + b + 1) ^ 2 = 3 * a ^ 2 + 3 * b ^ 2 + 6 * (a * b) + 6 * (a + b) + 3 := by ring
  have spread : b * (2 * a + 2) = 2 * (a * b) + 2 * b := by ring
  omega

mutual

/-- **Where nothing copied holds copies itself, the size is quadratic.** -/
theorem cost_le : ∀ {expr : PExpr}, CopiesPlain params expr →
    cost params scope expr ≤ 3 * nodes expr ^ 2
  | .in lhs list, ⟨plain, left, items⟩ => by
    have first := cost_le left
    have others := costAll_le items
    have few := length_le_nodesAll list
    rw [cost, nodes]
    split_ifs with none
    · exact Nat.succ_le_of_lt (Nat.mul_pos (by norm_num) (pow_pos (Nat.succ_pos _) 2))
    · by_cases many : 2 ≤ list.length
      · exact (Nat.sub_le _ _).trans (square_copies (cost_le_of_plain (plain many)) others few)
      · have single : list.length = 1 := by
          have := List.length_pos_iff.mpr none
          omega
        have both := square_parts first others
        rw [single]
        omega
  | .not inner, within => by
    have guards : guardCost scope [inner] ≤ _ := guardCost_le [inner]
    rw [nodesAll, nodesAll, Nat.add_zero] at guards
    rw [cost, nodes]
    exact (Nat.add_le_add_left guards _).trans (square_part (cost_le within))
  | .compare op lhs rhs, ⟨left, right⟩ => by
    have guards : guardCost scope [lhs, rhs] ≤ _ := guardCost_le [lhs, rhs]
    rw [nodesAll, nodesAll, nodesAll, Nat.add_zero] at guards
    have both := square_parts (cost_le left) (cost_le right)
    rw [cost, nodes]
    split_ifs
    · omega
    · omega
  | .isNull inner, within => by
    have part : cost params scope inner + 1 + _ ≤ _ := square_part (cost_le within)
    rw [cost, nodes]
    omega
  | .neg inner, within => by
    have part : cost params scope inner + 1 + _ ≤ _ := square_part (cost_le within)
    have some_ := nodes_pos inner
    rw [cost, nodes]
    split_ifs <;> omega
  | .inValue lhs rhs, ⟨left, right⟩ | .stringMatch _ lhs rhs, ⟨left, right⟩ | .logic _ lhs rhs,
    ⟨left, right⟩
  | .arith _ lhs rhs, ⟨left, right⟩ => by
    have both := square_parts (cost_le left) (cost_le right)
    simp only [cost, nodes]
    omega
  | .lit value, _ => square_leaf rfl
  | .param name, _ => square_leaf rfl
  | .prop var key, _ => square_leaf rfl
  | .hasLabel var label, _ => square_leaf rfl
  | .externalKey var, _ => square_leaf rfl
  | .score, _ => square_leaf rfl
  | .hops, _ => square_leaf rfl
  | .similarity var property query metric, _ => square_leaf rfl
  | .distance var property query metric, _ => square_leaf rfl

theorem costAll_le : ∀ {exprs : List PExpr}, CopiesPlainAll params exprs →
    costAll params scope exprs ≤ 3 * nodesAll exprs ^ 2
  | [], _ => Nat.le_refl 0
  | expr :: rest, ⟨first, others⟩ => by
    have here := cost_le first
    have after := costAll_le others
    have whole : 3 * (nodes expr + nodesAll rest) ^ 2 =
        3 * nodes expr ^ 2 + 3 * nodesAll rest ^ 2 + 6 * (nodes expr * nodesAll rest) := by ring
    rw [costAll, nodesAll]
    omega

end

end

/-- **The size of what an expression compiles to**: the cost of the expression, and quadratic where
the left side of a list of two or more items is plain. -/
theorem compiled_size {embedder : Option Embedder} {params : Params} {scope : Scope} {expr : PExpr}
    {out : Expr} (compiled : compileExpr embedder params scope expr = .ok out) :
    size out = cost params scope expr ∧
      (CopiesPlain params expr → size out ≤ 8 * (nodes expr + 1) ^ 2) := by
  have exactly := (size_compileExpr compiled).size
  refine ⟨exactly, fun plain => ?_⟩
  have bound : cost params scope expr ≤ _ := cost_le plain
  have grow : 8 * (nodes expr + 1) ^ 2 =
      3 * nodes expr ^ 2 + (5 * nodes expr ^ 2 + 16 * nodes expr + 8) := by ring
  omega

theorem compiled_size_list :
    ∃ out, compileExpr none ∅ ⟨[], 0⟩ (.in .score [.lit (.int 1), .lit (.int 2)]) = .ok out ∧
    size out = 7 ∧ size out ≤ 8 * (4 + 1) ^ 2 := by
  have plain : CopiesPlain ∅ (.in .score [.lit (.int 1), .lit (.int 2)]) := by
    simp [CopiesPlain, CopiesPlainAll, Plain]
  refine ⟨_, rfl, ?_⟩
  obtain ⟨exactly, bounded⟩ :=
    @compiled_size none ∅ ⟨[], 0⟩ (.in .score [.lit (.int 1), .lit (.int 2)]) _ rfl
  exact ⟨exactly, bounded plain⟩

/-! ### Copies of copies -/

/-- `((score() IN [1, 2]) IN [1, 2]) IN [1, 2]` and so on. -/
def nested : ℕ → PExpr
  | 0 => .score
  | depth + 1 => .in (nested depth) [.lit (.int 1), .lit (.int 2)]

theorem nodes_nested (depth : ℕ) : nodes (nested depth) = 3 * depth + 1 := by
  induction depth with
  | zero => rfl
  | succ depth ih =>
    rw [nested, nodes, ih]
    simp only [nodesAll, nodes]
    omega

theorem cost_nested (params : Params) (scope : Scope) (depth : ℕ) :
    cost params scope (nested depth) + 5 = 6 * 2 ^ depth := by
  induction depth with
  | zero => rfl
  | succ depth ih =>
    have items : costAll params scope [.lit (.int 1), .lit (.int 2)] = 2 := rfl
    rw [nested, cost, if_neg (List.cons_ne_nil _ _), items, pow_succ]
    simp only [List.length_cons, List.length_nil]
    omega

theorem nested_compiles (embedder : Option Embedder) (params : Params) (scope : Scope) (depth : ℕ) :
    ∃ out, compileExpr embedder params scope (nested depth) = .ok out := by
  induction depth with
  | zero => exact ⟨.score, rfl⟩
  | succ depth ih =>
    obtain ⟨out, compiled⟩ := ih
    refine ⟨_, bind_eq_ok.mpr ⟨out, compiled,
      bind_eq_ok.mpr ⟨[.literal (.int 1), .literal (.int 2)], ?_, rfl⟩⟩⟩
    rfl

variable {depth : ℕ}

/-- **Nested lists double what is compiled with each level**, wherever and whatever for they are
compiled. -/
theorem size_nested {embedder : Option Embedder} {params : Params} {scope : Scope} {out : Expr}
    (compiled : compileExpr embedder params scope (nested depth) = .ok out) :
    size out + 5 = 6 * 2 ^ depth ∧ nodes (nested depth) = 3 * depth + 1 :=
  ⟨by rw [(size_compileExpr compiled).size, cost_nested], nodes_nested depth⟩

/-- The text of them, `(((score()) IN [1, 2]) IN [1, 2]) IN [1, 2]` and so on. -/
def nestedText : ℕ → List Char
  | 0 => "score()".toList
  | depth + 1 => '(' :: nestedText depth ++ ") IN [1, 2]".toList

def isNested : ℕ → PExpr → Bool
  | 0, .score => true
  | depth + 1, .in lhs [.lit (.int 1), .lit (.int 2)] => isNested depth lhs
  | _, _ => false

theorem eq_nested {e : PExpr} (same : isNested depth e) : e = nested depth := by
  fun_induction isNested depth e with
  | case1 => rfl
  | case2 depth lhs ih => rw [nested, ih same]
  | case3 => cases same

def readsNested (depth : ℕ) : Bool :=
  match parseExpr asciiUnicode noFloats (nestedText depth) with
  | .ok [] e => isNested depth e
  | _ => false

theorem nested_is_read (reads : readsNested depth) :
    parseExpr asciiUnicode noFloats (nestedText depth) = .ok [] (nested depth) := by
  unfold readsNested at reads
  split at reads
  · rename_i e parsed
    rw [parsed, eq_nested reads]
  · cases reads

/-- The parser reads eleven of them, 34 nodes, and they compile to more than 9800. -/
theorem nested_too_large : parseExpr asciiUnicode noFloats (nestedText 11) = .ok [] (nested 11) ∧
    ∃ out, compileExpr none ∅ ⟨[], 0⟩ (nested 11) = .ok out ∧
    ¬ size out ≤ 8 * (nodes (nested 11) + 1) ^ 2 := by
  obtain ⟨out, compiled⟩ := nested_compiles none ∅ ⟨[], 0⟩ 11
  obtain ⟨grown, counted⟩ := size_nested compiled
  refine ⟨nested_is_read (by decide +kernel), out, compiled, ?_⟩
  rw [counted]
  omega

end DrStrange.Parser
