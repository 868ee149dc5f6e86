/-
**What an expression of a query means.**

An expression is given its meaning over the nodes that the variables of the pattern are bound to,
without slots, bindings and a current node. `NOT`, `<>`, and an equality of what may be null on both
sides, are true only where nothing that they read is missing, and the sign of a number that is
written down is changed rather than the number taken from zero. A compiled expression has the
meaning of what it was compiled from wherever it sees the nodes of the variables that are mentioned
(`compileExpr_means`).
-/

import DrStrange.Parser.Folded
import DrStrange.Parser.Joined

namespace DrStrange.Parser

open Std DrStrange.Graph DrStrange.Compute Lib

/-- What the variables are bound to, and what the row carries. -/
structure Env where
  node : String → Option NodeRecord
  score : Option UInt32
  hops : UInt32

/-! ### Numbers written down -/

def asNumber : PropValue → Option PropValue
  | .int value => some (.int value)
  | .float bits => some (.float bits)
  | _ => none

def flipped : PropValue → PropValue
  | .int value => .int (wrap (-value))
  | .float bits => .float (bits ^^^ 0x8000000000000000)
  | other => other

/-- The number that an expression is, if it is one that is written down or a parameter. -/
def numeral (params : Params) : PExpr → Option PropValue
  | .lit value => asNumber value
  | .param name => (params[name]?).bind asNumber
  | .neg inner => (numeral params inner).map flipped
  | _ => none

/-- The number that a compiled expression is. -/
def literalNumber : Expr → Option PropValue
  | .literal value => asNumber value
  | _ => none

theorem negated_eq (inner : Expr) :
    negated inner = (literalNumber inner).elim (.arith .sub (.literal (.int 0)) inner)
      (.literal ∘ flipped) := by
  cases inner with
  | literal value => cases value <;> rfl
  | _ => rfl

theorem asNumber_flipped {value constant : PropValue} (found : asNumber value = some constant) :
    asNumber (flipped constant) = some (flipped constant) := by
  cases value <;> cases found <;> rfl

/-! ### Meanings -/

section

variable (machine : Machine) (embedder : Option Embedder) (params : Params) (env : Env)

/-- What is read of the node of a variable. -/
def Env.read (var : String) (inner : Expr) : PropValue :=
  eval machine ⟨env.node var, none, 0, {}⟩ inner

/-- What is read of the node of a variable with a query vector. -/
def Env.measure (var : String) (query : VecArg) (inner : List UInt32 → Expr) : PropValue :=
  match resolve embedder query with
  | .ok entries => env.read machine var (inner entries)
  | .error _ => .null

/-- The meaning of an expression without parts. -/
def leafMeaning : PExpr → PropValue
  | .lit value => value
  | .param name => (params[name]?).getD .null
  | .prop var key => env.read machine var (.property key)
  | .hasLabel var label => env.read machine var (.hasLabel label)
  | .externalKey var => env.read machine var .externalKey
  | .score => (env.score.map fun score => PropValue.float (machine.widen score)).getD .null
  | .hops => .int env.hops.toNat
  | .similarity var property query metric =>
    env.measure machine embedder var query fun entries => .similarity property entries metric
  | .distance var property query metric =>
    env.measure machine embedder var query fun entries => .distance property entries metric
  | .in .. | .inValue .. | .stringMatch .. | .isNull _ | .not _ | .neg _ | .compare .. | .logic ..
  | .arith .. => .null

/-- Nothing is missing of what can be null under the expressions. -/
def present (roots : List PExpr) : Bool :=
  (nullableLeaves roots).all fun leaf =>
    !Compute.isNull (leafMeaning machine embedder params env leaf)

/-- Whether a comparison asks that nothing is missing. -/
def asksPresence (lhs rhs : PExpr) : CmpOp → Bool
  | .ne => true
  | .eq => !(isNonNullConstant params lhs || isNonNullConstant params rhs)
  | .lt | .le | .gt | .ge => false

mutual

/-- The value an expression has. -/
def meaning : PExpr → PropValue
  | .in lhs list => .bool ((meanings list).any (compareBy .eq (meaning lhs)))
  | .inValue lhs haystack => .bool (memberOf machine (meaning lhs) (meaning haystack))
  | .stringMatch op lhs rhs => .bool (Compute.stringMatch machine op (meaning lhs) (meaning rhs))
  | .isNull inner => .bool (Compute.isNull (meaning inner))
  | .not inner => .bool (present machine embedder params env [inner] && !isTrue (meaning inner))
  | .neg inner => (numeral params inner).elim (arith machine .sub (.int 0) (meaning inner)) flipped
  | .compare op lhs rhs =>
    .bool ((!asksPresence params lhs rhs op || present machine embedder params env [lhs, rhs]) &&
      compareBy op (meaning lhs) (meaning rhs))
  | .logic .and lhs rhs => .bool (isTrue (meaning lhs) && isTrue (meaning rhs))
  | .logic .or lhs rhs => .bool (isTrue (meaning lhs) || isTrue (meaning rhs))
  | .arith op lhs rhs => arith machine op (meaning lhs) (meaning rhs)
  | leaf => leafMeaning machine embedder params env leaf

def meanings : List PExpr → List PropValue
  | [] => []
  | expr :: rest => meaning expr :: meanings rest

end

end

variable {machine : Machine} {embedder : Option Embedder} {params : Params} {env : Env}
  {scope : Scope}
  {ctx : EvalCtx} {c pred : Expr} {e leaf : PExpr} {roots : List PExpr}

/-! ### What an expression must see -/

/-- The node that the code reads a variable of. -/
def Scope.node (scope : Scope) (ctx : EvalCtx) (var : String) : Option NodeRecord :=
  (scope.varSlot.lookup var).bind fun slot => if slot = scope.current then ctx.node
    else ctx.bindings.node slot

/-- What is evaluated sees the nodes of these names, and if it is asked for, what the row carries. -/
structure Sees (scope : Scope) (ctx : EvalCtx) (env : Env) (names : List String) (channel : Bool) :
    Prop where
  nodes : ∀ var ∈ names, var ≠ "" ∧ scope.node ctx var = env.node var
  channel : channel = true → ctx.score = env.score ∧ ctx.hops = env.hops

/-- It sees what an expression reads. -/
abbrev Seen (scope : Scope) (ctx : EvalCtx) (env : Env) (e : PExpr) : Prop :=
  Sees scope ctx env (mentioned e) (readsRowChannel e)

theorem Sees.append {first second : List String} {one two : Bool} :
    Sees scope ctx env (first ++ second) (one || two) ↔
    Sees scope ctx env first one ∧ Sees scope ctx env second two := by
  constructor
  · intro sees
    obtain ⟨left, right⟩ := List.forall_mem_append.mp sees.nodes
    exact ⟨⟨left, fun asked => sees.channel (by rw [asked, Bool.true_or])⟩,
      ⟨right, fun asked => sees.channel (by rw [asked, Bool.or_true])⟩⟩
  · intro ⟨left, right⟩
    refine ⟨List.forall_mem_append.mpr ⟨left.nodes, right.nodes⟩, fun asked => ?_⟩
    exact (Bool.or_eq_true_iff.mp asked).elim left.channel right.channel

mutual

/-- What a guard tests is seen where what it guards is. -/
theorem seen_leavesOf : ∀ {e : PExpr} {out : List PExpr}, Seen scope ctx env e →
    (∀ leaf ∈ out, Seen scope ctx env leaf) → ∀ leaf ∈ leavesOf out e, Seen scope ctx env leaf
  | .lit value, out, seen, known, leaf, member => by
    cases value with
    | null => exact (mem_addLeaf member).elim (known leaf) fun same => same ▸ seen
    | _ => exact known leaf member
  | .param _, out, seen, known, leaf, member | .prop _ _, out, seen, known, leaf, member
  | .externalKey _, out, seen, known, leaf, member | .score, out, seen, known, leaf, member
  | .similarity _ _ _ _, out, seen, known, leaf, member | .distance _ _ _ _, out, seen, known,
    leaf, member =>
    (mem_addLeaf member).elim (known leaf) fun same => same ▸ seen
  | .hasLabel _ _, out, seen, known, leaf, member | .hops, out, seen, known, leaf, member
  | .isNull _, out, seen, known, leaf, member => known leaf member
  | .in lhs list, out, seen, known, leaf, member =>
    seen_leavesOfAll (Sees.append.mp seen).2 (seen_leavesOf (Sees.append.mp seen).1 known) leaf member
  | .inValue lhs rhs, out, seen, known, leaf, member | .stringMatch _ lhs rhs, out, seen, known,
    leaf, member
  | .compare _ lhs rhs, out, seen, known, leaf, member | .logic _ lhs rhs, out, seen, known,
    leaf, member
  | .arith _ lhs rhs, out, seen, known, leaf, member =>
    seen_leavesOf (Sees.append.mp seen).2 (seen_leavesOf (Sees.append.mp seen).1 known) leaf member
  | .not inner, out, seen, known, leaf, member | .neg inner, out, seen, known, leaf, member =>
    @seen_leavesOf inner out seen known leaf member

theorem seen_leavesOfAll :
    ∀ {list out : List PExpr}, Sees scope ctx env (allMentioned list) (anyReadsRowChannel list) →
    (∀ leaf ∈ out, Seen scope ctx env leaf) → ∀ leaf ∈ leavesOfAll out list, Seen scope ctx env leaf
  | [], _, _, known, leaf, member => known leaf member
  | _ :: _, _, seen, known, leaf, member =>
    seen_leavesOfAll (Sees.append.mp seen).2 (seen_leavesOf (Sees.append.mp seen).1 known) leaf member

end

/-! ### Compiled expressions -/

/-- What is read of a variable's node, in its place or through a binding. -/
theorem read_means {var : String} {inner : Expr} (compiled : scope.read var inner = .ok c)
    (seen : var ≠ "" ∧ scope.node ctx var = env.node var)
    (own : ∀ ctx : EvalCtx, eval machine ctx inner = eval machine ⟨ctx.node, none, 0, {}⟩ inner)
    (plain : literalNumber inner = none) :
    eval machine ctx c = env.read machine var inner ∧ literalNumber c = none := by
  obtain ⟨named, node⟩ := seen
  rw [Scope.read, if_neg named] at compiled
  split at compiled
  · cases compiled
  · rename_i slot found
    rw [Scope.node, found, Option.bind_some] at node
    obtain rfl := Except.ok.inj compiled
    rw [Env.read, ← node]
    split_ifs
    · exact ⟨own ctx, plain⟩
    · exact ⟨own _, rfl⟩

theorem compileLeaf_means (compiled : compileLeaf embedder params scope leaf = .ok c)
    (seen : Seen scope ctx env leaf) :
    eval machine ctx c = leafMeaning machine embedder params env leaf ∧
    literalNumber c = numeral params leaf := by
  have node : ∀ var, mentioned leaf = [var] → var ≠ "" ∧ scope.node ctx var = env.node var :=
    fun var names => seen.nodes var (names ▸ List.mem_singleton_self var)
  cases leaf with
  | lit value =>
    obtain rfl := Except.ok.inj compiled
    exact ⟨rfl, rfl⟩
  | param name =>
    obtain ⟨value, found, same⟩ := bind_eq_ok.mp compiled
    obtain rfl := Except.ok.inj same
    have held : params[name]? = some value := by
      unfold resolveParam at found
      split at found
      · rename_i held
        rw [held, Except.ok.inj found]
      · cases found
    exact ⟨by rw [leafMeaning, held, eval, Option.getD_some], by
      rw [numeral, held, Option.bind_some, literalNumber]⟩
  | prop var key => exact read_means compiled (node var rfl) (fun _ => rfl) rfl
  | hasLabel var label => exact read_means compiled (node var rfl) (fun _ => rfl) rfl
  | externalKey var => exact read_means compiled (node var rfl) (fun _ => rfl) rfl
  | score =>
    obtain rfl := Except.ok.inj compiled
    exact ⟨by rw [eval, leafMeaning, (seen.channel rfl).1], rfl⟩
  | hops =>
    obtain rfl := Except.ok.inj compiled
    exact ⟨by rw [eval, leafMeaning, (seen.channel rfl).2], rfl⟩
  | similarity var property query metric | distance var property query metric =>
    obtain ⟨entries, resolved, compiled⟩ := bind_eq_ok.mp compiled
    rw [leafMeaning, Env.measure, resolved]
    exact read_means compiled (node var rfl) (fun _ => rfl) rfl
  | «in» | inValue | stringMatch | isNull | not | neg | compare | logic | arith => cases compiled

/-- A guarded expression is true where it was, if nothing is missing. -/
theorem nullGuarded_means {truth : Bool}
    (compiled : nullGuarded embedder params scope pred roots = .ok c)
    (seen : Sees scope ctx env (allMentioned roots) (anyReadsRowChannel roots))
    (means : eval machine ctx pred = .bool truth) (plain : literalNumber pred = none) :
    eval machine ctx c = .bool (present machine embedder params env roots && truth) ∧
    literalNumber c = none := by
  obtain ⟨guards, mapped, same⟩ := bind_eq_ok.mp compiled
  have leaves : ∀ leaf ∈ nullableLeaves roots, Seen scope ctx env leaf := seen_leavesOfAll seen nofun
  have each := mapM_eq_ok.mp mapped
  have all : guards.all (holds machine ctx) = present machine embedder params env roots := by
    unfold present
    clear mapped same
    revert leaves
    generalize nullableLeaves roots = tested at each
    induction each with
    | nil => exact fun _ => rfl
    | @cons leaf guard rest guards made _ ih =>
      intro leaves
      obtain ⟨first, leaves⟩ := List.forall_mem_cons.mp leaves
      obtain ⟨own, compiled, same⟩ := bind_eq_ok.mp made
      obtain rfl := Except.ok.inj same
      rw [List.all_cons, List.all_cons, ih leaves, ← (compileLeaf_means compiled first).1]
      rfl
  obtain rfl := Except.ok.inj same
  rw [← all]
  by_cases none : guards = []
  · subst none
    exact ⟨means, plain⟩
  · obtain ⟨item, balanced, truth⟩ := @balanced_eval .and guards none
    rw [balanced, Option.elim_some, eval, means, ← show holds machine ctx item =
      guards.all _ from truth machine ctx]
    exact ⟨rfl, rfl⟩

/-- A compiled expression has the meaning of what it was compiled from, and is a number where that
is. -/
structure Means (machine : Machine) (embedder : Option Embedder) (params : Params) (env : Env)
    (ctx : EvalCtx) (e : PExpr) (c : Expr) : Prop where
  value : eval machine ctx c = meaning machine embedder params env e
  number : literalNumber c = numeral params e

theorem compiledCompare_means {op : CmpOp} {lhs rhs : PExpr} {left right : Expr}
    (compiled : compiledCompare embedder params scope op lhs rhs (.compare op left right) = .ok c)
    (seen : Seen scope ctx env (.compare op lhs rhs))
    (first : Means machine embedder params env ctx lhs left)
    (second : Means machine embedder params env ctx rhs right) :
    Means machine embedder params env ctx (.compare op lhs rhs) c := by
  obtain ⟨seenL, seenR⟩ := Sees.append.mp seen
  have both : Sees scope ctx env (allMentioned [lhs, rhs]) (anyReadsRowChannel [lhs, rhs]) :=
    Sees.append.mpr ⟨seenL, Sees.append.mpr ⟨seenR, nofun, nofun⟩⟩
  have truth : eval machine ctx (.compare op left right) = .bool (compareBy op
      (meaning machine embedder params env lhs) (meaning machine embedder params env rhs)) := by
    rw [eval, first.value, second.value]
  have guarded : nullGuarded embedder params scope (.compare op left right) [lhs, rhs] = .ok c →
      asksPresence params lhs rhs op = true →
      Means machine embedder params env ctx (.compare op lhs rhs) c := by
    intro compiled asked
    obtain ⟨value, number⟩ := nullGuarded_means compiled both truth rfl
    exact ⟨by rw [value, meaning, asked, Bool.not_true, Bool.false_or], number⟩
  have bare : Except.ok (.compare op left right) = (.ok c : Except String Expr) →
      asksPresence params lhs rhs op = false →
      Means machine embedder params env ctx (.compare op lhs rhs) c := by
    intro compiled asked
    obtain rfl := Except.ok.inj compiled
    exact ⟨by rw [truth, meaning, asked, Bool.not_false, Bool.true_or, Bool.true_and], rfl⟩
  cases op with
  | ne => exact guarded compiled rfl
  | eq =>
    simp only [compiledCompare] at compiled
    split_ifs at compiled with constant
    · exact bare compiled (by rw [asksPresence, constant, Bool.not_true])
    · exact guarded compiled (by rw [asksPresence, Bool.eq_false_iff.mpr constant, Bool.not_false])
  | lt | le | gt | ge => exact bare compiled rfl

/-- Equalities joined are true where one of them is. -/
theorem joinedEqs_means {left : Expr} {items : List Expr}
    (made : c = (balanced .or (items.map (Expr.compare .eq left))).getD (.literal (.bool false))) :
    eval machine ctx c = .bool ((items.map (eval machine ctx)).any
      (compareBy .eq (eval machine ctx left))) ∧
      literalNumber c = none := by
  subst made
  by_cases none : items.map (Expr.compare .eq left) = []
  · obtain rfl := List.map_eq_nil_iff.mp none
    exact ⟨rfl, rfl⟩
  · obtain ⟨item, balanced, truth⟩ := @balanced_eval .or _ none
    obtain ⟨decided, plain⟩ := @balanced_forall .or (items.map (Expr.compare .eq left))
      (fun c => eval machine ctx c = .bool (holds machine ctx c) ∧ literalNumber c = Option.none)
      (fun _ _ _ _ => ⟨rfl, rfl⟩) (List.forall_mem_map.mpr fun _ _ => ⟨rfl, rfl⟩) item balanced
    rw [balanced, Option.getD_some, decided, truth, joined, List.any_map, List.any_map]
    exact ⟨rfl, plain⟩

mutual

/-- **A compiled expression has the meaning of what it was compiled from.** -/
theorem compileExpr_means : ∀ {e : PExpr} {c : Expr}, compileExpr embedder params scope e = .ok c →
    Seen scope ctx env e → Means machine embedder params env ctx e c
  | .in lhs list, c, compiled, seen => by
    obtain ⟨left, compiledL, compiled⟩ := bind_eq_ok.mp compiled
    obtain ⟨items, compiledR, same⟩ := bind_eq_ok.mp compiled
    have first := compileExpr_means compiledL (Sees.append.mp seen).1
    have rest := compileExprs_means compiledR (Sees.append.mp seen).2
    obtain ⟨value, number⟩ := @joinedEqs_means machine ctx c left items (Except.ok.inj same).symm
    exact ⟨by rw [value, meaning, rest, first.value], number⟩
  | .inValue lhs rhs, c, compiled, seen | .stringMatch _ lhs rhs, c, compiled, seen
  | .arith _ lhs rhs, c, compiled, seen => by
    obtain ⟨left, compiledL, compiled⟩ := bind_eq_ok.mp compiled
    obtain ⟨right, compiledR, same⟩ := bind_eq_ok.mp compiled
    obtain rfl := Except.ok.inj same
    have first := compileExpr_means compiledL (Sees.append.mp seen).1
    have second := compileExpr_means compiledR (Sees.append.mp seen).2
    exact ⟨by rw [eval, meaning, first.value, second.value], rfl⟩
  | .logic op lhs rhs, c, compiled, seen => by
    obtain ⟨left, compiledL, compiled⟩ := bind_eq_ok.mp compiled
    obtain ⟨right, compiledR, same⟩ := bind_eq_ok.mp compiled
    obtain rfl := Except.ok.inj same
    have first := compileExpr_means compiledL (Sees.append.mp seen).1
    have second := compileExpr_means compiledR (Sees.append.mp seen).2
    exact ⟨by cases op <;> rw [eval, meaning, first.value, second.value], rfl⟩
  | .isNull inner, c, compiled, seen => by
    obtain ⟨own, made, same⟩ := bind_eq_ok.mp compiled
    obtain rfl := Except.ok.inj same
    have means := compileExpr_means made seen
    exact ⟨by rw [eval, meaning, means.value], rfl⟩
  | .not inner, c, compiled, seen => by
    obtain ⟨own, compiled, guarded⟩ := bind_eq_ok.mp compiled
    have means := compileExpr_means compiled seen
    have truth : eval machine ctx (.not own) =
        .bool (!isTrue (meaning machine embedder params env inner)) := by
      rw [eval, means.value]
    obtain ⟨value, number⟩ :=
      nullGuarded_means guarded (Sees.append.mpr ⟨seen, nofun, nofun⟩) truth rfl
    exact ⟨value, number⟩
  | .neg inner, c, compiled, seen => by
    obtain ⟨own, made, same⟩ := bind_eq_ok.mp compiled
    obtain rfl := Except.ok.inj same
    have means := compileExpr_means made seen
    have number := means.number
    rw [negated_eq, number]
    cases spelled : numeral params inner with
    | none =>
      refine ⟨?_, by rw [numeral, spelled]; rfl⟩
      rw [meaning, spelled, Option.elim_none, Option.elim_none, eval, means.value, eval]
    | some constant =>
      refine ⟨by rw [meaning, spelled]; rfl, ?_⟩
      rw [numeral, spelled]
      cases own with
      | literal value => exact asNumber_flipped (number.trans spelled)
      | _ => cases number.trans spelled
  | .compare op lhs rhs, c, compiled, seen => by
    obtain ⟨left, compiledL, compiled⟩ := bind_eq_ok.mp compiled
    obtain ⟨right, compiledR, compiled⟩ := bind_eq_ok.mp compiled
    exact compiledCompare_means compiled seen (compileExpr_means compiledL (Sees.append.mp seen).1)
      (compileExpr_means compiledR (Sees.append.mp seen).2)
  | .lit _, c, compiled, seen | .param _, c, compiled, seen | .prop .., c, compiled, seen
  | .hasLabel .., c, compiled, seen | .externalKey _, c, compiled, seen | .score, c, compiled, seen
  | .hops, c, compiled, seen | .similarity .., c, compiled, seen | .distance .., c,
    compiled, seen => by
    obtain ⟨value, number⟩ := compileLeaf_means compiled seen
    exact ⟨value, number⟩

theorem compileExprs_means :
    ∀ {list : List PExpr} {cs : List Expr}, compileExprs embedder params scope list = .ok cs →
    Sees scope ctx env (allMentioned list) (anyReadsRowChannel list) →
    cs.map (eval machine ctx) = meanings machine embedder params env list
  | [], cs, compiled, seen => by
    obtain rfl := Except.ok.inj compiled
    rfl
  | e :: rest, cs, compiled, seen => by
    obtain ⟨first, seen⟩ := Sees.append.mp seen
    obtain ⟨c, compiledL, compiled⟩ := bind_eq_ok.mp compiled
    obtain ⟨more, compiledR, same⟩ := bind_eq_ok.mp compiled
    obtain rfl := Except.ok.inj same
    rw [List.map_cons, meanings, (compileExpr_means compiledL first).value,
      compileExprs_means compiledR seen]

end

/-- `NOT (a:Author AND key(b) <> "x")`, where `b` is the current node and `a` the one before it. -/
def twoNodes : PExpr :=
  .not (.logic .and (.hasLabel "a" "Author") (.compare .ne (.externalKey "b") (.lit (.str "x"))))

theorem compileExpr_means_twoNodes :
    ∃ c, compileExpr none ∅ ⟨[("a", 0), ("b", 1)], 1⟩ twoNodes = .ok c ∧
    Means .scalar none ∅
      ⟨fun var => if var = "a" then some ⟨1, 0, none, ["Author"], ∅⟩ else some ⟨2, 0, some "y", [],
        ∅⟩, none, 1⟩
      ⟨some ⟨2, 0, some "y", [], ∅⟩, none, 1, { nodes := [some ⟨1, 0, none, ["Author"], ∅⟩] }⟩
        twoNodes c := by
  obtain ⟨c, compiled⟩ : ∃ c, compileExpr none ∅ ⟨[("a", 0), ("b", 1)], 1⟩ twoNodes = .ok c :=
    ⟨_, rfl⟩
  refine ⟨c, compiled, compileExpr_means compiled ⟨?_, nofun⟩⟩
  intro var among
  rcases List.mem_cons.mp among with rfl | among
  · exact ⟨by decide, rfl⟩
  · obtain rfl := List.mem_singleton.mp among
    exact ⟨by decide, rfl⟩

end DrStrange.Parser
