/-
**Distances, layer by layer.**

The distance of a place from a seed is the least number of steps to it. Places found in layers are
the nearest ones if each stands in the layer of its distance, all up to some distance are found and
none is found beyond the next (`Nearest`). A layer of new places one step from the last keeps this
(`Nearest.grow`), and if every step from the last layer was followed it is one layer more; where no
new place is left, all are found (`Nearest.all_of_closed`).
-/

import Mathlib

namespace DrStrange.Lib

variable {α : Type}

/-! ### Distances -/

section

variable (step : α → α → Prop) (seed : α)

/-- A place that so many steps lead to. -/
inductive Reach : ℕ → α → Prop where
  | here : Reach 0 seed
  | step {n : ℕ} {u v : α} (reach : Reach n u) (next : step u v) : Reach (n + 1) v

/-- The least number of steps to a place. -/
def Distance (v : α) (n : ℕ) : Prop := IsLeast { n | Reach step seed n v } n

end

variable {step : α → α → Prop} {seed u v : α} {m n r : ℕ}

theorem Distance.unique (left : Distance step seed v m) (right : Distance step seed v n) : m = n :=
  IsLeast.unique left right

theorem Reach.distance (reach : Reach step seed n v) : ∃ m ≤ n, Distance step seed v m := by
  classical
  have some_ : ∃ n, Reach step seed n v := ⟨n, reach⟩
  exact ⟨Nat.find some_, Nat.find_min' some_ reach, Nat.find_spec some_, fun m other =>
    Nat.find_min' some_ other⟩

theorem distance_zero : Distance step seed v 0 ↔ v = seed := by
  constructor
  · intro far
    cases far.1
    rfl
  · rintro rfl
    exact ⟨.here, fun _ _ => Nat.zero_le _⟩

/-- One step goes at most one further. -/
theorem Distance.next (far : Distance step seed u n) (next : step u v) :
    ∃ m ≤ n + 1, Distance step seed v m :=
  (Reach.step far.1 next).distance

/-- A place that is not the seed is one step from a nearer one. -/
theorem Distance.pred (far : Distance step seed v (n + 1)) :
    ∃ u, Distance step seed u n ∧ step u v := by
  obtain ⟨reach, least⟩ := far
  cases reach with
  | @step _ u _ reach next =>
    obtain ⟨m, within, near⟩ := reach.distance
    have shorter : n + 1 ≤ m + 1 := least (Reach.step near.1 next)
    obtain rfl : m = n := le_antisymm within (Nat.le_of_succ_le_succ shorter)
    exact ⟨u, near, next⟩

/-- There are places at every distance up to one that there is. -/
theorem Distance.below (far : Distance step seed v n) (within : m ≤ n) :
    ∃ u, Distance step seed u m := by
  induction n generalizing v with
  | zero => exact ⟨v, Nat.le_zero.mp within ▸ far⟩
  | succ n ih =>
    obtain same | less := Nat.eq_or_lt_of_le within
    · exact ⟨v, same ▸ far⟩
    · obtain ⟨u, near, -⟩ := far.pred
      exact ih near (Nat.le_of_lt_succ less)

/-! ### Layers -/

/-- The layer of the places at a distance; the seed stands alone in the first. -/
def layer (seed : α) (levels : List (List α)) : ℕ → List α
  | 0 => [seed]
  | n + 1 => levels[n]?.getD []

/-- Layers that hold the nearest places: all up to a distance, and none beyond the next. -/
structure Nearest (step : α → α → Prop) (seed : α) (levels : List (List α)) (held : α → Prop)
    (r : ℕ) : Prop where
  held_iff : ∀ v, held v ↔ v = seed ∨ v ∈ levels.flatten
  nodup : (seed :: levels.flatten).Nodup
  far : ∀ n, ∀ v ∈ layer seed levels n, Distance step seed v n
  full : ∀ v n, Distance step seed v n → n ≤ r → held v
  near : levels.length ≤ r + 1

variable {levels : List (List α)} {held held' : α → Prop} {next : List α}

theorem nearest_start : Nearest step seed [] (· = seed) 0 where
  held_iff v := by simp
  nodup := by simp
  far n v among := by
    cases n with
    | zero => exact distance_zero.mpr (List.mem_singleton.mp among)
    | succ n => cases among
  full v n far within := distance_zero.mp (Nat.le_zero.mp within ▸ far)
  near := Nat.zero_le _

theorem Nearest.congr (nearest : Nearest step seed levels held r) (same : ∀ v, held' v ↔ held v) :
    Nearest step seed levels held' r where
  held_iff v := (same v).trans (nearest.held_iff v)
  nodup := nearest.nodup
  far := nearest.far
  full v n far within := (same v).mpr (nearest.full v n far within)
  near := nearest.near

/-- What is held stands in some layer. -/
theorem Nearest.layered (nearest : Nearest step seed levels held r) (inside : held v) :
    ∃ n ≤ levels.length, v ∈ layer seed levels n := by
  obtain rfl | among := (nearest.held_iff v).mp inside
  · exact ⟨0, Nat.zero_le _, List.mem_singleton.mpr rfl⟩
  · obtain ⟨level, member, among⟩ := List.mem_flatten.mp among
    obtain ⟨n, here⟩ := List.mem_iff_getElem?.mp member
    refine ⟨n + 1, (List.getElem?_eq_some_iff.mp here).1, ?_⟩
    rw [layer, here]
    exact among

theorem Nearest.distance_le (nearest : Nearest step seed levels held r) (inside : held v)
    (far : Distance step seed v n) : n ≤ levels.length := by
  obtain ⟨m, within, among⟩ := nearest.layered inside
  rwa [far.unique (nearest.far m v among)]

/-- What is held at a distance stands in its layer. -/
theorem Nearest.mem_layer (nearest : Nearest step seed levels held r) (inside : held v) :
    v ∈ layer seed levels n ↔ Distance step seed v n := by
  refine ⟨nearest.far n v, fun far => ?_⟩
  obtain ⟨m, -, among⟩ := nearest.layered inside
  rwa [far.unique (nearest.far m v among)]

/-- **What is held is at most as far as what is not.** -/
theorem Nearest.le_of_missing (nearest : Nearest step seed levels held r) (inside : held u)
    (missing : ¬ held v)
    (near : Distance step seed u m) (far : Distance step seed v n) : m ≤ n := by
  have beyond : r < n := Nat.lt_of_not_le fun within => missing (nearest.full v n far within)
  exact (nearest.distance_le inside near).trans (nearest.near.trans beyond)

theorem layer_append (within : n ≤ levels.length) :
    layer seed (levels ++ [next]) n = layer seed levels n := by
  cases n with
  | zero => rfl
  | succ n => rw [layer, layer, List.getElem?_append_left within]

theorem layer_length : layer seed (levels ++ [next]) (levels.length + 1) = next := by
  rw [layer, List.getElem?_concat_length]
  rfl

theorem layer_beyond (beyond : levels.length < n) : layer seed levels n = [] := by
  cases n with
  | zero => exact absurd beyond (Nat.not_lt_zero _)
  | succ n =>
    rw [layer, List.getElem?_eq_none (Nat.le_of_lt_succ beyond)]
    rfl

/-- **One layer more**: new places, each a step from the last layer. -/
theorem Nearest.grow (nearest : Nearest step seed levels held levels.length)
    (fresh : ∀ v ∈ next, ¬ held v)
    (nodup : next.Nodup) (stepped : ∀ v ∈ next, ∃ u ∈ layer seed levels levels.length, step u v)
    (held_iff : ∀ v, held' v ↔ held v ∨ v ∈ next) :
    Nearest step seed (levels ++ [next]) held' levels.length := by
  refine ⟨fun v => ?_, ?_, fun n v among => ?_, fun v n far within => ?_, ?_⟩
  · rw [held_iff, nearest.held_iff, List.flatten_append, List.flatten_singleton,
      List.mem_append, or_assoc]
  · rw [List.flatten_append, List.flatten_singleton, ← List.cons_append]
    refine List.nodup_append.mpr ⟨nearest.nodup, nodup, fun u old v new same => ?_⟩
    exact fresh v new ((nearest.held_iff v).mpr (List.mem_cons.mp (same ▸ old)))
  · obtain within | beyond := Nat.lt_or_ge levels.length n
    · obtain same | beyond := Nat.eq_or_lt_of_le within
      · obtain rfl := same
        rw [Nat.succ_eq_add_one, layer_length] at among
        obtain ⟨u, last, next⟩ := stepped v among
        obtain ⟨m, within, far⟩ := (nearest.far _ u last).next next
        obtain rfl | less := Nat.eq_or_lt_of_le within
        · exact far
        · exact absurd (nearest.full v m far (Nat.le_of_lt_succ less)) (fresh v among)
      · rw [layer_beyond (by rwa [List.length_append])] at among
        cases among
    · rw [layer_append beyond] at among
      exact nearest.far n v among
  · exact (held_iff v).mpr (.inl (nearest.full v n far within))
  · rw [List.length_append]
    exact le_rfl

/-- Where every step from the last layer was followed, one more distance is complete. -/
theorem Nearest.full_of_closed (nearest : Nearest step seed levels held levels.length)
    (held_iff : ∀ v, held' v ↔ held v ∨ v ∈ next)
    (closed : ∀ u ∈ layer seed levels levels.length, ∀ v, step u v → held' v)
    (far : Distance step seed v n) (within : n ≤ levels.length + 1) : held' v := by
  obtain rfl | less := Nat.eq_or_lt_of_le within
  · obtain ⟨u, near, next⟩ := far.pred
    exact closed u ((nearest.mem_layer (nearest.full u _ near le_rfl)).mpr near) v next
  · exact (held_iff v).mpr (.inl (nearest.full v n far (Nat.le_of_lt_succ less)))

/-- **Where no step from the last layer leads to a new place, all places are held.** -/
theorem Nearest.all_of_closed (nearest : Nearest step seed levels held levels.length)
    (closed : ∀ u ∈ layer seed levels levels.length, ∀ v, step u v → held v)
    (far : Distance step seed v n) :
    held v := by
  refine nearest.full v n far (Nat.le_of_not_lt fun beyond => ?_)
  obtain ⟨u, next⟩ := far.below beyond
  obtain ⟨before, near, step⟩ := next.pred
  have inside := closed before ((nearest.mem_layer (nearest.full before _ near le_rfl)).mpr near) u
    step
  exact absurd (nearest.distance_le inside next) (Nat.not_succ_le_self _)

end DrStrange.Lib
