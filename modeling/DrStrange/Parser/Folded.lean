/-
**What stops the expression front end.**

A minus is folded into an int, where `i64` has no room for the negation of its smallest value; no
literal spells that value, a parameter may hold it. `checkedExpr` is the compiler with that range
checked, and agrees with `compileExpr` wherever it does not overflow (`checkedExpr_erases`). What
stops it first stands first among the terms of the expression (`stop_checkedExpr`), since guards
compile only terms that are compiled already.
-/

import DrStrange.Compute.Typed
import DrStrange.Parser.Copies
import DrStrange.Parser.Grammar

namespace DrStrange.Parser

open Std DrStrange.Graph DrStrange.Compute Lib

/-! ### The front end -/

/-- What ends it without an expression. -/
inductive Stop where
  | unread (rest : List Char) (kind : ErrorKind)
  | refused (message : String)
  /-- A slice of the text off its characters, or a loop without an end. -/
  | crash
  /-- An operation on integers out of their range. -/
  | overflow

def Stop.panics : Stop → Bool
  | .unread _ _ | .refused _ => false
  | .crash | .overflow => true

def inI64 (value : ℤ) : Bool := -2 ^ 63 ≤ value && value < 2 ^ 63

/-- `-inner`, where an int has room for it. -/
def checkedNegated : Expr → Except Stop Expr
  | .literal (.int value) =>
    if inI64 (-value) then .ok (.literal (.int (-value))) else .error .overflow
  | inner => .ok (negated inner)

section

variable (embedder : Option Embedder) (params : Params) (scope : Scope)

mutual

/-- `compile_expr`, which an operation out of range stops. -/
def checkedExpr : PExpr → Except Stop Expr
  | .in lhs list => do
    let lhs ← checkedExpr lhs
    let eqs := (← checkedExprs list).map (Expr.compare .eq lhs)
    return (balanced .or eqs).getD (.literal (.bool false))
  | .inValue lhs haystack => return .in (← checkedExpr lhs) (← checkedExpr haystack)
  | .stringMatch op lhs rhs => return .stringMatch op (← checkedExpr lhs) (← checkedExpr rhs)
  | .isNull inner => return .isNull (← checkedExpr inner)
  | .not inner => do
    let pred := Expr.not (← checkedExpr inner)
    (nullGuarded embedder params scope pred [inner]).mapError .refused
  | .neg inner => do checkedNegated (← checkedExpr inner)
  | .compare op lhs rhs => do
    let cmp := Expr.compare op (← checkedExpr lhs) (← checkedExpr rhs)
    (compiledCompare embedder params scope op lhs rhs cmp).mapError .refused
  | .logic op lhs rhs => return .logic op (← checkedExpr lhs) (← checkedExpr rhs)
  | .arith op lhs rhs => return .arith op (← checkedExpr lhs) (← checkedExpr rhs)
  | leaf => (compileLeaf embedder params scope leaf).mapError .refused

def checkedExprs : List PExpr → Except Stop (List Expr)
  | [] => .ok []
  | e :: rest => return (← checkedExpr e) :: (← checkedExprs rest)

end

/-- The expression that a text starts with, compiled. -/
def front (unicode : Unicode) (floats : Floats) (text : String) : Except Stop Expr :=
  match parseExpr unicode floats text.toList with
  | .ok _ e => checkedExpr embedder params scope e
  | .error rest kind | .failure rest kind => .error (.unread rest kind)
  | .crash => .error .crash

end

/-! ### The same compiler -/

section

variable {α β : Type} {y : Except String α}

/-- Both succeed alike or are refused alike, where the first has not left the range. -/
def Erases (checked : Except Stop α) (plain : Except String α) : Prop :=
  match checked with
  | .ok a => plain = .ok a
  | .error (.refused message) => plain = .error message
  | .error _ => True

variable {f : α → Except Stop β}

theorem Erases.bind {x : Except Stop α} {g : α → Except String β} (first : Erases x y)
    (each : ∀ a, Erases (f a) (g a)) : Erases (x >>= f) (y >>= g) := by
  cases x with
  | ok a =>
    obtain rfl : y = .ok a := first
    exact each a
  | error stop =>
    cases stop with
    | refused message =>
      obtain rfl : y = .error message := first
      exact Eq.refl (Except.error message)
    | _ => trivial

theorem Erases.mapError : Erases (y.mapError .refused) y := by
  cases y with
  | ok a => exact Eq.refl (Except.ok a)
  | error message => exact Eq.refl (Except.error message)

theorem Erases.pure {a : α} : Erases (Pure.pure a) (Pure.pure a) := Eq.refl (Except.ok a)

end

theorem negated_erases {inner : Expr} :
    Erases (checkedNegated inner) (Pure.pure (negated inner)) := by
  unfold checkedNegated
  split
  · rename_i value
    split
    · rename_i fits
      rw [inI64, Bool.and_eq_true, decide_eq_true_eq, decide_eq_true_eq] at fits
      have same : wrap (-value) = -value := by
        unfold wrap
        exact Int.bmod_eq_of_le (by omega) (by omega)
      exact congrArg (fun v => Except.ok (Expr.literal (.int v))) same
    · trivial
  · exact .pure

section

variable {embedder : Option Embedder} {params : Params} {scope : Scope}

mutual

theorem checkedExpr_erases : ∀ {e : PExpr}, Erases (checkedExpr embedder params scope e)
    (compileExpr embedder params scope e)
  | .in _ _ => checkedExpr_erases.bind fun _ => checkedExprs_erases.bind fun _ => .pure
  | .inValue _ _ | .stringMatch _ _ _ | .logic _ _ _ | .arith _ _ _ =>
    checkedExpr_erases.bind fun _ => checkedExpr_erases.bind fun _ => .pure
  | .isNull _ => checkedExpr_erases.bind fun _ => .pure
  | .not _ => checkedExpr_erases.bind fun _ => .mapError
  | .neg _ => checkedExpr_erases.bind fun _ => negated_erases
  | .compare _ _ _ => checkedExpr_erases.bind fun _ => checkedExpr_erases.bind fun _ => .mapError
  | .lit _ | .param _ | .prop _ _ | .hasLabel _ _ | .externalKey
    _ | .score | .hops | .similarity _ _ _ _
  | .distance _ _ _ _ => .mapError

theorem checkedExprs_erases : ∀ {list : List PExpr},
    Erases (checkedExprs embedder params scope list) (compileExprs embedder params scope list)
  | [] => .pure
  | _ :: _ => checkedExpr_erases.bind fun _ => checkedExprs_erases.bind fun _ => .pure

end

end

/-! ### What stops first -/

def stopOf {α : Type} : Except Stop α → Option Stop
  | .ok _ => none
  | .error stop => some stop

section

variable {α β γ : Type} {x : Except Stop α} {y : Except Stop β}

theorem stopOf_bind {later : Option Stop} (each : ∀ a, x = .ok a → stopOf (f a) = later) :
    stopOf (x >>= f) = (stopOf x).or later := by
  cases x with
  | ok a => exact each a rfl
  | error stop => rfl

theorem stopOf_map {f : α → β} : stopOf (do return f (← x)) = stopOf x := by
  cases x <;> rfl

theorem stopOf_two {f : α → β → γ} : stopOf (do return f (← x) (← y)) = (stopOf x).or (stopOf y) :=
  stopOf_bind fun _ _ => stopOf_map

end

def i64Min : ℤ := -2 ^ 63

/-- What a sign over a compiled term stops the compiler for. -/
def foldStop (minus : Bool) : Expr → Option Stop
  | .literal (.int value) => if minus ∧ value = i64Min then some .overflow else none
  | _ => none

section

variable (embedder : Option Embedder) (params : Params) (scope : Scope)

/-- What a term stops the compiler for. -/
def termStop (term : Bool × PExpr) : Option Stop :=
  match compileLeaf embedder params scope term.2 with
  | .error message => some (.refused message)
  | .ok out => foldStop term.1 out

def firstStop (all : List (Bool × PExpr)) : Option Stop :=
  all.findSome? (termStop embedder params scope)

end

section

variable {embedder : Option Embedder} {params : Params} {scope : Scope} {leaf : PExpr}

theorem firstStop_append {xs ys : List (Bool × PExpr)} : firstStop embedder params scope (xs ++ ys) =
    (firstStop embedder params scope xs).or (firstStop embedder params scope ys) :=
  List.findSome?_append

/-- Where nothing stops the compiler, every term compiles. -/
theorem compiles_of_firstStop {all : List (Bool × PExpr)}
    (none_ : firstStop embedder params scope all = none) (member : leaf ∈ all.map Prod.snd) :
    ∃ out, compileLeaf embedder params scope leaf = .ok out := by
  obtain ⟨term, held, rfl⟩ := List.mem_map.mp member
  have silent := List.findSome?_eq_none_iff.mp none_ term held
  cases compiled : compileLeaf embedder params scope term.2 with
  | ok out => exact ⟨out, rfl⟩
  | error message =>
    rw [termStop, compiled] at silent
    cases silent

/-! ### Guards stop nothing -/

theorem mem_addLeaf {out : List PExpr} {own : PExpr} (member : leaf ∈ addLeaf out own) :
    leaf ∈ out ∨ leaf = own := by
  unfold addLeaf at member
  split at member
  · exact .inl member
  · exact (List.mem_append.mp member).imp_right List.mem_singleton.mp

mutual

/-- What a guard tests is a term of what it guards. -/
theorem mem_leavesOf {leaf : PExpr} : ∀ {e : PExpr} {out : List PExpr}, leaf ∈ leavesOf out e →
    leaf ∈ out ∨ leaf ∈ (terms false e).map Prod.snd
  | .lit value, out, member => by
    cases value with
    | null => exact (mem_addLeaf member).imp_right List.mem_singleton.mpr
    | _ => exact .inl member
  | .param _, out, member | .prop _ _, out, member | .externalKey _, out, member | .score, out, member
  | .similarity _ _ _ _, out, member | .distance _ _ _ _, out, member =>
    (mem_addLeaf member).imp_right List.mem_singleton.mpr
  | .hasLabel _ _, out, member | .hops, out, member | .isNull _, out, member => .inl member
  | .in lhs list, out, member => by
    rw [terms, List.map_append, List.mem_append]
    rcases @mem_leavesOfAll leaf list (leavesOf out lhs) member with earlier | inside
    · exact (mem_leavesOf earlier).imp_right .inl
    · exact .inr (.inr inside)
  | .inValue lhs rhs, out, member | .stringMatch _ lhs rhs, out, member | .compare _ lhs rhs,
    out, member
  | .logic _ lhs rhs, out, member | .arith _ lhs rhs, out, member => by
    rw [terms, List.map_append, List.mem_append]
    rcases @mem_leavesOf leaf rhs (leavesOf out lhs) member with earlier | inside
    · exact (mem_leavesOf earlier).imp_right .inl
    · exact .inr (.inr inside)
  | .not inner, out, member => @mem_leavesOf leaf inner out member
  | .neg inner, out, member => by
    rw [terms, map_terms]
    exact @mem_leavesOf leaf inner out member

theorem mem_leavesOfAll {leaf : PExpr} :
    ∀ {list : List PExpr} {out : List PExpr}, leaf ∈ leavesOfAll out list →
    leaf ∈ out ∨ leaf ∈ (termsAll list).map Prod.snd
  | [], out, member => .inl member
  | e :: rest, out, member => by
    rw [termsAll, List.map_append, List.mem_append]
    rcases @mem_leavesOfAll leaf rest (leavesOf out e) member with earlier | inside
    · exact (mem_leavesOf earlier).imp_right .inl
    · exact .inr (.inr inside)

end

theorem nullGuarded_compiles {pred : Expr} {roots : List PExpr}
    (silent : firstStop embedder params scope (termsAll roots) = none) :
    ∃ out, nullGuarded embedder params scope pred roots = .ok out := by
  obtain ⟨present, tests⟩ := @mapM_returns _ _ _ (fun leaf => do
      return Expr.not (Expr.isNull (← compileLeaf embedder params scope leaf)))
        (nullableLeaves roots) fun leaf member => by
    have term := (mem_leavesOfAll member).resolve_left List.not_mem_nil
    obtain ⟨out, compiled⟩ := compiles_of_firstStop silent term
    exact ⟨_, bind_eq_ok.mpr ⟨out, compiled, rfl⟩⟩
  exact ⟨_, bind_eq_ok.mpr ⟨present, tests, rfl⟩⟩

theorem compiledCompare_compiles {op : CmpOp} {lhs rhs : PExpr} {cmp : Expr}
    (silent : firstStop embedder params scope (termsAll [lhs, rhs]) = none) :
    ∃ out, compiledCompare embedder params scope op lhs rhs cmp = .ok out := by
  unfold compiledCompare
  split
  · exact nullGuarded_compiles silent
  · split
    · exact ⟨cmp, rfl⟩
    · exact nullGuarded_compiles silent
  all_goals exact ⟨cmp, rfl⟩

/-! ### What a minus is folded into -/

variable {e : PExpr} {out : Expr}

theorem compileExpr_of_checked (checked : checkedExpr embedder params scope e = .ok out) :
    compileExpr embedder params scope e = .ok out := by
  have same := @checkedExpr_erases embedder params scope e
  rw [checked] at same
  exact same

/-- Only into a number, which a term or a sign makes. -/
theorem not_int_of_parts (checked : checkedExpr embedder params scope e = .ok out)
    (parts : foldsTo params e = false) (value : ℤ) : out ≠ .literal (.int value) := by
  rintro rfl
  have number := (size_compileExpr (compileExpr_of_checked checked)).number
  rw [parts] at number
  cases number

/-- The ints of the caller have 64 bits. -/
def TypedParams (params : Params) : Prop :=
  ∀ (name : String) (value : PropValue), params[name]? = some value → Compute.Typed value

theorem param_of_resolve {name : String} {value : PropValue}
    (found : resolveParam params name = .ok value) :
    params[name]? = some value := by
  unfold resolveParam at found
  split at found
  · rename_i held present
    exact Except.ok.inj found ▸ present
  · cases found

variable {value : ℤ}

theorem int_of_negated {inner : Expr} (made : checkedNegated inner = .ok (.literal (.int value))) :
    inner = .literal (.int (-value)) ∧ inI64 value := by
  unfold checkedNegated at made
  split at made
  · rename_i folded
    split at made
    · rename_i fits
      obtain rfl : -folded = value := by simpa using made
      exact ⟨by rw [neg_neg], fits⟩
    · cases made
  · rename_i other
    have same := Except.ok.inj made
    unfold negated at same
    split at same
    · rename_i folded
      exact absurd rfl (other folded)
    · cases same
    · cases same

theorem inI64_of_checked (typed : TypedParams params) (spelled : SpelledIn e)
    (checked : checkedExpr embedder params scope e = .ok (.literal (.int value))) :
    inI64 value := by
  cases e with
  | lit own =>
    have leaf : compileLeaf embedder params scope (.lit own) = .ok (.literal (.int value)) :=
      mapError_eq_ok.mp checked
    obtain rfl : own = .int value := Expr.literal.inj (Except.ok.inj leaf)
    obtain ⟨least, most⟩ := spelled (.int value) List.mem_cons_self
    rw [inI64, Bool.and_eq_true, decide_eq_true_eq, decide_eq_true_eq]
    exact ⟨by omega, most⟩
  | param name =>
    have leaf : compileLeaf embedder params scope (.param name) = .ok (.literal (.int value)) :=
      mapError_eq_ok.mp checked
    obtain ⟨held, found, same⟩ := bind_eq_ok.mp leaf
    obtain rfl : held = .int value := Expr.literal.inj (Except.ok.inj same)
    rw [inI64, Bool.and_eq_true, decide_eq_true_eq, decide_eq_true_eq]
    exact typed name _ (param_of_resolve found)
  | neg inner =>
    obtain ⟨within, -, made⟩ := bind_eq_ok.mp checked
    exact (int_of_negated made).2
  | _ => exact absurd rfl (not_int_of_parts checked rfl value)

/-- A sign over an int that has a negation is folded. -/
theorem stopOf_negated (room : ∀ value, out = .literal (.int value) → inI64 (-value)) :
    stopOf (checkedNegated out) = none := by
  unfold checkedNegated
  split
  · rename_i value
    rw [if_pos (room value rfl), stopOf]
  · rfl

/-- A sign over a term stops at the smallest int alone. -/
theorem stopOf_negated_leaf (fits : ∀ value, out = .literal (.int value) → inI64 value) :
    stopOf (checkedNegated out) = foldStop true out := by
  unfold checkedNegated
  split
  · rename_i value
    have range := fits value rfl
    rw [inI64, Bool.and_eq_true, decide_eq_true_eq, decide_eq_true_eq] at range
    rw [foldStop]
    by_cases smallest : value = i64Min
    · rw [smallest, if_neg (by decide), if_pos ⟨rfl, rfl⟩, stopOf]
    · have room : inI64 (-value) := by
        rw [i64Min] at smallest
        rw [inI64, Bool.and_eq_true, decide_eq_true_eq, decide_eq_true_eq]
        omega
      rw [if_pos room, if_neg fun both => smallest both.2, stopOf]
  · rename_i other
    rw [stopOf, foldStop.eq_def]
    split
    · rename_i value
      exact absurd rfl (other value)
    · rfl

theorem stopOf_mapError {α : Type} {x : Except String α} {a : α} (compiled : x = .ok a) :
    stopOf (x.mapError Stop.refused) = none := by
  rw [compiled]
  rfl

theorem foldStop_false : foldStop false out = none := by
  unfold foldStop
  split
  · exact if_neg (by simp)
  · rfl

theorem firstStop_term {term : Bool × PExpr} :
    firstStop embedder params scope [term] = termStop embedder params scope term := by
  rw [firstStop, List.findSome?_cons, List.findSome?_nil]
  cases termStop embedder params scope term <;> rfl

theorem stopOf_leaf : stopOf ((compileLeaf embedder params scope e).mapError .refused) =
    firstStop embedder params scope [(false, e)] := by
  rw [firstStop_term, termStop]
  cases compileLeaf embedder params scope e with
  | error message => rfl
  | ok out => exact foldStop_false.symm

theorem stopOf_signed_leaf (typed : TypedParams params) (spelled : SpelledIn e)
    (leaf : checkedExpr embedder params scope e =
      (compileLeaf embedder params scope e).mapError .refused) :
    stopOf (do checkedNegated (← checkedExpr embedder params scope e)) =
    firstStop embedder params scope [(true, e)] := by
  rw [firstStop_term, termStop]
  cases compiled : compileLeaf embedder params scope e with
  | error message =>
    rw [leaf, compiled]
    rfl
  | ok out =>
    have checked : checkedExpr embedder params scope e = .ok out := by
      rw [leaf, compiled]
      rfl
    rw [checked]
    refine stopOf_negated_leaf fun value same => ?_
    subst same
    exact inI64_of_checked typed spelled checked

/-- Over what is no term, a sign stops nothing. -/
theorem stopOf_signed_parts (own : stopOf (checkedExpr embedder params scope e) =
    firstStop embedder params scope (terms true e))
    (room : ∀ value, checkedExpr embedder params scope e = .ok (.literal (.int value)) →
      inI64 (-value)) :
    stopOf (do checkedNegated (← checkedExpr embedder params scope e)) =
    firstStop embedder params scope (terms true e) := by
  refine (stopOf_bind fun out checked => stopOf_negated fun value same => ?_).trans
    (Option.or_none.trans own)
  subst same
  exact room value checked

/-- A sign over an expression whose own terms are known. -/
theorem stopOf_signed (typed : TypedParams params) (spelled : SpelledIn e)
    (own : stopOf (checkedExpr embedder params scope e) =
      firstStop embedder params scope (terms false e)) :
    stopOf (checkedExpr embedder params scope (.neg e)) =
    firstStop embedder params scope (terms true e) := by
  have parts (same : terms true e = terms false e) (sum : foldsTo params e = false) :
      stopOf (do checkedNegated (← checkedExpr embedder params scope e)) =
      firstStop embedder params scope (terms true e) :=
    stopOf_signed_parts (same ▸ own) fun value checked =>
      absurd rfl (not_int_of_parts checked sum value)
  cases e with
  | neg inner =>
    -- what is folded already is the negation of an int, which has one
    refine stopOf_signed_parts own fun value checked => ?_
    obtain ⟨within, first, made⟩ := bind_eq_ok.mp checked
    obtain ⟨rfl, -⟩ := int_of_negated made
    exact inI64_of_checked typed (spelledAll_signed.mp spelled) first
  | lit _ => exact stopOf_signed_leaf typed spelled rfl
  | param _ => exact stopOf_signed_leaf typed spelled rfl
  | prop _ _ => exact stopOf_signed_leaf typed spelled rfl
  | hasLabel _ _ => exact stopOf_signed_leaf typed spelled rfl
  | externalKey _ => exact stopOf_signed_leaf typed spelled rfl
  | score => exact stopOf_signed_leaf typed spelled rfl
  | hops => exact stopOf_signed_leaf typed spelled rfl
  | similarity _ _ _ _ => exact stopOf_signed_leaf typed spelled rfl
  | distance _ _ _ _ => exact stopOf_signed_leaf typed spelled rfl
  | _ => exact parts rfl rfl

mutual

/-- **What stops the compiler stands first among the terms.** -/
theorem stop_checkedExpr (typed : TypedParams params) : ∀ {e : PExpr}, SpelledIn e →
    stopOf (checkedExpr embedder params scope e) = firstStop embedder params scope (terms false e)
  | .in lhs list, spelled => by
    obtain ⟨left, each⟩ := spelledAll_append.mp spelled
    rw [terms, firstStop_append, ← stop_checkedExpr typed left, ← stop_checkedExprs typed each]
    exact stopOf_bind fun _ _ => stopOf_map
  | .inValue lhs rhs, spelled | .stringMatch _ lhs rhs, spelled | .logic _ lhs rhs, spelled
  | .arith _ lhs rhs, spelled => by
    obtain ⟨left, right⟩ := spelledAll_append.mp spelled
    rw [terms, firstStop_append, ← stop_checkedExpr typed left, ← stop_checkedExpr typed right]
    exact stopOf_two
  | .isNull inner, spelled => stopOf_map.trans (@stop_checkedExpr typed inner spelled)
  | .not inner, spelled => by
    have inside := @stop_checkedExpr typed inner spelled
    refine (stopOf_bind fun out checked => ?_).trans (Option.or_none.trans inside)
    rw [checked] at inside
    obtain ⟨whole, guarded⟩ := @nullGuarded_compiles _ _ _ (.not out) [inner] (by
      rw [termsAll, termsAll, List.append_nil]
      exact inside.symm)
    exact stopOf_mapError guarded
  | .neg inner, spelled => by
    have inside := spelledAll_signed.mp spelled
    exact stopOf_signed typed inside (stop_checkedExpr typed inside)
  | .compare op lhs rhs, spelled => by
    obtain ⟨left, right⟩ := spelledAll_append.mp spelled
    have first := stop_checkedExpr typed left
    have second := stop_checkedExpr typed right
    rw [terms, firstStop_append, ← first, ← second]
    refine stopOf_bind fun out checked => (stopOf_bind fun out' checked' => ?_).trans Option.or_none
    rw [checked] at first
    rw [checked'] at second
    obtain ⟨whole, guarded⟩ := @compiledCompare_compiles _ _ _ op lhs rhs (.compare op out out') (by
      rw [termsAll, termsAll, termsAll, List.append_nil, firstStop_append, ← first, ← second]
      rfl)
    exact stopOf_mapError guarded
  | .lit _, _ | .param _, _ | .prop _ _, _ | .hasLabel _ _, _ | .externalKey _, _ | .score,
    _ | .hops, _
  | .similarity _ _ _ _, _ | .distance _ _ _ _, _ => stopOf_leaf

theorem stop_checkedExprs (typed : TypedParams params) :
    ∀ {list : List PExpr}, SpelledAll (termsAll list) →
    stopOf (checkedExprs embedder params scope list) = firstStop embedder params scope (termsAll list)
  | [], _ => rfl
  | e :: rest, spelled => by
    obtain ⟨first, each⟩ := spelledAll_append.mp spelled
    rw [termsAll, firstStop_append, ← stop_checkedExpr typed first, ← stop_checkedExprs typed each]
    exact stopOf_two

end

/-! ### When the front end returns -/

/-- No operation of it panicked. -/
def Returns {α : Type} (x : Except Stop α) : Prop := ∀ stop, x = .error stop → stop.panics = false

theorem returns_iff {α : Type} {x : Except Stop α} :
    Returns x ↔ ∀ stop, stopOf x = some stop → stop.panics = false := by
  cases x with
  | ok a => exact iff_of_true nofun nofun
  | error stop =>
    exact forall_congr' fun other => by rw [stopOf, Except.error.injEq, Option.some.injEq]

section

variable (embedder params scope)

/-- A minus stands over a parameter that holds the smallest int. -/
def Smallest (term : Bool × PExpr) : Prop :=
  term.1 = true ∧ ∃ name, term.2 = .param name ∧ params[name]? = some (.int i64Min)

def Refused (term : Bool × PExpr) : Prop :=
  ∃ message, compileLeaf embedder params scope term.2 = .error message

/-- A term that is refused stands before every smallest int under a minus. -/
def Tame (e : PExpr) : Prop :=
  ∀ before term after, terms false e = before ++ term :: after → Smallest params term →
  ∃ earlier ∈ before, Refused embedder params scope earlier

end

theorem foldStop_overflow {minus : Bool} : foldStop minus out = some .overflow ↔
    minus = true ∧ out = .literal (.int i64Min) := by
  unfold foldStop
  split
  · rename_i value
    rw [Expr.literal.injEq, PropValue.int.injEq]
    exact ite_eq_left_iff.trans (by simp)
  · rename_i other
    exact iff_of_false nofun fun same => other i64Min same.2

/-- A literal has no sign, so that it is a parameter that holds the smallest int. -/
theorem compileLeaf_smallest (spelled : ∀ value, e = .lit value → Spelled value) :
    compileLeaf embedder params scope e = .ok (.literal (.int i64Min)) ↔
      ∃ name, e = .param name ∧ params[name]? = some (.int i64Min) := by
  constructor
  · intro compiled
    have number := (size_compileLeaf compiled).2
    cases e with
    | lit value =>
      obtain rfl := Expr.literal.inj (Except.ok.inj compiled)
      exact absurd (spelled _ rfl).1 (by decide)
    | param name =>
      obtain ⟨value, found, same⟩ := bind_eq_ok.mp compiled
      obtain rfl := Expr.literal.inj (Except.ok.inj same)
      exact ⟨name, rfl, param_of_resolve found⟩
    | neg inner => cases compiled
    | _ => cases number
  · rintro ⟨name, rfl, held⟩
    have found : resolveParam params name = .ok (.int i64Min) := by
      rw [resolveParam, held]
    exact bind_eq_ok.mpr ⟨_, found, rfl⟩

theorem termStop_overflow {term : Bool × PExpr}
    (spelled : ∀ value, term.2 = .lit value → Spelled value) :
    termStop embedder params scope term = some .overflow ↔ Smallest params term := by
  rw [Smallest, ← @compileLeaf_smallest embedder params scope _ spelled, termStop]
  cases compileLeaf embedder params scope term.2 with
  | error message => exact iff_of_false nofun fun same => nomatch same.2
  | ok out => rw [foldStop_overflow, Except.ok.injEq]

/-- A term that stops the compiler and is no smallest int is refused. -/
theorem refused_of_termStop {term : Bool × PExpr} {stop : Stop}
    (stops : termStop embedder params scope term = some stop) :
    stop = .overflow ∨ Refused embedder params scope term ∧ stop.panics = false := by
  rw [termStop] at stops
  cases compiled : compileLeaf embedder params scope term.2 with
  | error message =>
    rw [compiled] at stops
    obtain rfl := Option.some.inj stops
    exact .inr ⟨⟨message, compiled⟩, rfl⟩
  | ok out =>
    rw [compiled] at stops
    change foldStop term.1 out = some stop at stops
    unfold foldStop at stops
    split at stops
    · split at stops
      · exact .inl (Option.some.inj stops).symm
      · cases stops
    · cases stops

theorem tame_iff (spelled : SpelledIn e) : Tame embedder params scope e ↔
    firstStop embedder params scope (terms false e) ≠ some .overflow := by
  have literal {term : Bool × PExpr} (held : term ∈ terms false e) (value : PropValue)
      (same : term.2 = .lit value) :
      Spelled value := spelled value (same ▸ List.mem_map_of_mem held)
  constructor
  · intro tame overflow
    obtain ⟨before, term, after, split, stops, silent⟩ := List.findSome?_eq_some_iff.mp overflow
    have held : term ∈ terms false e := split ▸ List.mem_append_right _ List.mem_cons_self
    obtain ⟨earlier, among, message, refused⟩ :=
      tame before term after split ((termStop_overflow (literal held)).mp stops)
    have passed := silent earlier among
    rw [termStop, refused] at passed
    cases passed
  · intro other before term after split smallest
    have held : term ∈ terms false e := split ▸ List.mem_append_right _ List.mem_cons_self
    have stops : termStop embedder params scope term = some .overflow :=
      (termStop_overflow (literal held)).mpr smallest
    rw [split, firstStop_append] at other
    cases first : firstStop embedder params scope before with
    | none =>
      rw [first, firstStop, List.findSome?_cons, stops] at other
      exact absurd rfl other
    | some stop =>
      rw [first] at other
      obtain ⟨earlier, among, stopped⟩ := List.exists_of_findSome?_eq_some first
      refine ⟨earlier, among, ((refused_of_termStop stopped).resolve_left ?_).1⟩
      rintro rfl
      exact other rfl

/-- The compiler stays in range exactly if a refusal stops it before it folds the smallest int. -/
theorem returns_checkedExpr_iff (typed : TypedParams params) (spelled : SpelledIn e) :
    Returns (checkedExpr embedder params scope e) ↔ Tame embedder params scope e := by
  rw [returns_iff, stop_checkedExpr typed spelled, tame_iff spelled]
  constructor
  · intro returns overflow
    exact nomatch returns _ overflow
  · intro other stop first
    obtain ⟨term, -, stopped⟩ := List.exists_of_findSome?_eq_some first
    refine ((refused_of_termStop stopped).resolve_left ?_).2
    rintro rfl
    exact other first

variable {unicode : Unicode} {floats : Floats} {text : String}

theorem front_returns_of (each : ∀ rest e, parseExpr unicode floats text.toList = .ok rest e →
    SpelledIn e →
    Returns (checkedExpr embedder params scope e)) : Returns
      (front embedder params scope unicode floats text) := by
  have ends := @parseExpr_reads unicode floats text.toList
  unfold front
  cases read : parseExpr unicode floats text.toList with
  | ok rest e =>
    rw [read] at ends
    exact each rest e read ends.2
  | error rest kind =>
    rintro _ ⟨⟩
    rfl
  | failure rest kind =>
    rintro _ ⟨⟩
    rfl
  | crash =>
    rw [read] at ends
    exact ends.elim

/-- **The front end returns exactly where no minus is folded into the smallest int**: of what a text
is read to, every parameter that holds it and has a minus over it stands after a term that is
refused. -/
theorem front_returns_iff (typed : TypedParams params) :
    Returns (front embedder params scope unicode floats text) ↔
    ∀ rest e, parseExpr unicode floats text.toList = .ok rest e → Tame embedder params scope e := by
  constructor
  · intro returns rest e read
    have ends := @parseExpr_reads unicode floats text.toList
    rw [read] at ends
    rw [front, read] at returns
    exact (returns_checkedExpr_iff typed ends.2).mp returns
  · intro each
    exact front_returns_of fun rest e read spelled =>
      (returns_checkedExpr_iff typed spelled).mpr (each rest e read)

end

/-! ### `-$p` -/

theorem signed_is_read :
    parseExpr asciiUnicode noFloats "-$p".toList = .ok [] (.neg (.param "p")) := rfl

/-- One parameter with an int. -/
def oneParam (value : ℤ) : Params := (∅ : Params).insert "p" (.int value)

theorem typed_oneParam (fits : -2 ^ 63 ≤ value ∧ value < 2 ^ 63) :
    TypedParams (oneParam value) := by
  intro name held found
  rw [oneParam, ExtTreeMap.getElem?_insert] at found
  split at found
  · exact Option.some.inj found ▸ fits
  · cases found

theorem front_returns_seven :
    Returns (front none (oneParam 7) ⟨[], 0⟩ asciiUnicode noFloats "-$p") := by
  refine (front_returns_iff (typed_oneParam (by decide))).mpr fun rest e read => ?_
  obtain ⟨rfl, rfl⟩ := Reading.ok.inj (signed_is_read.symm.trans read)
  rintro before term after split ⟨-, name, -, held⟩
  rw [oneParam, ExtTreeMap.getElem?_insert] at held
  split at held
  · cases held
  · cases held

/-- The smallest int has no negation. -/
theorem front_overflows :
    ¬ Returns (front none (oneParam i64Min) ⟨[], 0⟩ asciiUnicode noFloats "-$p") := by
  intro returns
  have stopped : front none (oneParam i64Min) ⟨[], 0⟩ asciiUnicode noFloats "-$p" =
      .error .overflow := rfl
  exact nomatch returns _ stopped

end DrStrange.Parser
