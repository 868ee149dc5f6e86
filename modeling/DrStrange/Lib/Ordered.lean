/-
**Comparators that order one value at a time.**

A comparator that recurses through a tree of values is an order because it is one at every value in
turn, smaller values first. `OrderedAt ok cmp x` says what that needs of `x` alone: swapping the two
sides swaps the result, and a chain that starts at `x` composes. It passes from the parts to
pairs compared part by part (`OrderedAt.then`) and to lists compared lexicographically
(`OrderedAt.compareLex`), and held by every value it makes the comparator a transitive one
(`transCmp_of_orderedAt`). The values compared with may be restricted to those that are `ok`.
-/

import Mathlib

namespace DrStrange.Lib

open Std

variable {α β : Type*}

/-- `cmp` orders `x` against everything that is `ok`. -/
structure OrderedAt (ok : α → Prop) (cmp : α → α → Ordering) (x : α) : Prop where
  swap : ∀ y, ok y → cmp y x = (cmp x y).swap
  chain : ∀ y z, ok y → ok z → cmp x y ≠ .gt → cmp y z ≠ .gt → cmp x z = (cmp x y).then (cmp y z)

section

variable {ok : α → Prop} {cmp cmp' : α → α → Ordering} {x : α} {ok' : β → Prop} {y : β}

theorem OrderedAt.of_transCmp [TransCmp cmp] : OrderedAt ok cmp x where
  swap _ _ := OrientedCmp.eq_swap
  chain y z _ _ first second := by
    cases fst : cmp x y with
    | gt => exact absurd fst first
    | eq => exact TransCmp.congr_left fst
    | lt =>
      refine TransCmp.lt_of_lt_of_isLE fst ?_
      cases snd : cmp y z with
      | gt => exact absurd snd second
      | _ => rfl

theorem OrderedAt.refl (ordered : OrderedAt ok cmp x) (here : ok x) : cmp x x = .eq := by
  have swapped := ordered.swap x here
  cases same : cmp x x <;> rw [same] at swapped <;> first | rfl | cases swapped

/-- Values compared by what a function reads off them. -/
theorem OrderedAt.comap {f : β → α} (ordered : OrderedAt ok cmp (f y))
    (image : ∀ z, ok' z → ok (f z)) : OrderedAt ok' (fun a b => cmp (f a) (f b)) y where
  swap z there := ordered.swap (f z) (image z there)
  chain z w there last := ordered.chain (f z) (f w) (image z there) (image w last)

/-- A comparator that agrees with one that orders `x`. -/
theorem OrderedAt.congr (ordered : OrderedAt ok cmp' x) (here : ok x)
    (same : ∀ y z, ok y → ok z → cmp y z = cmp' y z) : OrderedAt ok cmp x where
  swap y there := by rw [same _ _ there here, same _ _ here there, ordered.swap y there]
  chain y z there last := by
    rw [same _ _ here there, same _ _ there last, same _ _ here last]
    exact ordered.chain y z there last

/-- What is compared under a constructor that all the `ok` values have. -/
theorem OrderedAt.wrap {wrap : β → α} {cmp' : β → β → Ordering} (ordered : OrderedAt ok' cmp' y)
    (under : ∀ a b, cmp (wrap a) (wrap b) = cmp' a b)
    (wrapped : ∀ z, ok z → ∃ a, ok' a ∧ wrap a = z) : OrderedAt ok cmp (wrap y) where
  swap z there := by
    obtain ⟨a, held, rfl⟩ := wrapped z there
    rw [under, under, ordered.swap a held]
  chain z w there last := by
    obtain ⟨a, held, rfl⟩ := wrapped z there
    obtain ⟨b, held', rfl⟩ := wrapped w last
    rw [under, under, under]
    exact ordered.chain a b held held'

/-- Values of different ranks in the order of their ranks, and values of one rank as `cmp` says. -/
theorem OrderedAt.of_rank {rank : α → ℕ}
    (apart : ∀ y z, rank y ≠ rank z → cmp y z = compare (rank y) (rank z))
    (ordered : OrderedAt (fun y => ok y ∧ rank y = rank x) cmp x) : OrderedAt ok cmp x where
  swap y there := by
    by_cases same : rank y = rank x
    · exact ordered.swap y ⟨there, same⟩
    · rw [apart _ _ same, apart _ _ (Ne.symm same)]
      exact OrientedCmp.eq_swap
  chain y z there last one two := by
    have up {a b : α} (less : rank a < rank b) : cmp a b = .lt := by
      rw [apart _ _ less.ne]
      exact compare_lt_iff_lt.mpr less
    have le {a b : α} (small : cmp a b ≠ .gt) : rank a ≤ rank b := by
      by_contra greater
      rw [apart _ _ (by omega)] at small
      exact small (compare_gt_iff_gt.mpr (by omega))
    rcases Nat.lt_or_eq_of_le (le one) with less | same
    · rw [up less, up (less.trans_le (le two))]
      rfl
    · rcases Nat.lt_or_eq_of_le (le two) with less | same'
      · rw [up less, up (same ▸ less)]
        cases xy : cmp x y with
        | gt => exact absurd xy one
        | _ => rfl
      · exact ordered.chain y z ⟨there, same.symm⟩ ⟨last, by omega⟩ one two

/-- Two comparisons chain together if each chains alone. -/
theorem then_chain {xy yz xz xy' yz' xz' : Ordering} (first : xy ≠ .gt → yz ≠ .gt → xz = xy.then yz)
    (second : xy' ≠ .gt → yz' ≠ .gt → xz' = xy'.then yz')
    (one : xy.then xy' ≠ .gt) (two : yz.then yz' ≠ .gt) :
    xz.then xz' = (xy.then xy').then (yz.then yz') := by
  cases xy with
  | gt => exact absurd rfl one
  | lt =>
    cases yz with
    | gt => exact absurd rfl two
    | lt => rw [first nofun nofun]; rfl
    | eq => rw [first nofun nofun]; rfl
  | eq =>
    cases yz with
    | gt => exact absurd rfl two
    | lt =>
      rw [first nofun nofun]
      cases xy' <;> first | rfl | exact absurd rfl one
    | eq =>
      rw [first nofun nofun]
      exact second one two

/-- One comparator, and where it finds no difference a second one. -/
theorem OrderedAt.then (first : OrderedAt ok cmp x) (second : OrderedAt ok cmp' x) :
    OrderedAt ok (fun a b => (cmp a b).then (cmp' a b)) x where
  swap y there := by rw [first.swap y there, second.swap y there, Ordering.swap_then]
  chain y z there last :=
    then_chain (first.chain y z there last) (second.chain y z there last)

/-- Lists in lexicographic order, a prefix first. -/
theorem OrderedAt.compareLex {xs : List α} (each : ∀ x ∈ xs, OrderedAt ok cmp x) :
    OrderedAt (fun ys => ∀ y ∈ ys, ok y) (List.compareLex cmp) xs := by
  induction xs with
  | nil =>
    refine ⟨fun ys _ => ?_, fun ys zs _ _ one two => ?_⟩
    · cases ys <;> rfl
    · cases ys with
      | nil => cases zs <;> rfl
      | cons y ys =>
        cases zs with
        | nil => simp [List.compareLex_cons_nil] at two
        | cons z zs => rfl
  | cons x xs ih =>
    have head := each x List.mem_cons_self
    have tail := ih fun y member => each y (List.mem_cons_of_mem _ member)
    refine ⟨fun ys there => ?_, fun ys zs there last one two => ?_⟩
    · cases ys with
      | nil => rfl
      | cons y ys =>
        rw [List.compareLex_cons_cons, List.compareLex_cons_cons, Ordering.swap_then,
          head.swap y (there y List.mem_cons_self),
          tail.swap ys fun z member => there z (List.mem_cons_of_mem _ member)]
    · cases ys with
      | nil => simp [List.compareLex_cons_nil] at one
      | cons y ys =>
        cases zs with
        | nil => simp [List.compareLex_cons_nil] at two
        | cons z zs =>
          rw [List.compareLex_cons_cons] at one two
          rw [List.compareLex_cons_cons, List.compareLex_cons_cons, List.compareLex_cons_cons]
          have outer := head.chain y z (there y List.mem_cons_self) (last z List.mem_cons_self)
          have inner := tail.chain ys zs
            (fun w member => there w (List.mem_cons_of_mem _ member))
            fun w member => last w (List.mem_cons_of_mem _ member)
          exact then_chain outer inner one two

/-- **A comparator that orders each of its values is a transitive comparator of them.** -/
theorem transCmp_of_orderedAt (ordered : ∀ x, ok x → OrderedAt ok cmp x) :
    TransCmp fun a b : {x // ok x} => cmp a.1 b.1 where
  eq_swap {a b} := (ordered b.1 b.2).swap a.1 a.2
  isLE_trans {a b c} first second := by
    have one : cmp a.1 b.1 ≠ .gt := fun greater => by simp [greater] at first
    have two : cmp b.1 c.1 ≠ .gt := fun greater => by simp [greater] at second
    rw [(ordered a.1 a.2).chain b.1 c.1 b.2 c.2 one two]
    cases fst : cmp a.1 b.1 <;> cases snd : cmp b.1 c.1 <;> simp_all

end

end DrStrange.Lib
