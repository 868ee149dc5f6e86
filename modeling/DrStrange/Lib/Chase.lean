/-
**Following a partial function to its end.**

Along a partial function that raises a rank, but for points that it maps to themselves, every path
ends in one final point. A chase that stops where it has been before finds that point
(`chase_ends`).
-/

import Mathlib

namespace DrStrange.Lib

variable {α : Type} {next : α → Option α} {a b c : α} {rank : α → ℕ}

/-- One point leads to another. -/
def Leads (next : α → Option α) : α → α → Prop := Relation.ReflTransGen fun a b => next a = some b

/-- A point that leads nowhere else. -/
def Final (next : α → Option α) (a : α) : Prop := ∀ b, next a = some b → b = a

/-- A rank that every step to another point raises. -/
def Raises (next : α → Option α) (rank : α → ℕ) : Prop :=
  ∀ a b, next a = some b → a ≠ b → rank a < rank b

theorem Leads.single (step : next a = some b) : Leads next a b := Relation.ReflTransGen.single step

theorem Final.eq_of_leads (final : Final next a) (leads : Leads next a b) : b = a := by
  induction leads with
  | refl => rfl
  | tail _ step same => exact final _ (same ▸ step)

/-- Two paths from one point: one continues the other. -/
theorem Leads.total (left : Leads next a b) (right : Leads next a c) :
    Leads next b c ∨ Leads next c b :=
  Relation.ReflTransGen.total_of_right_unique
    (fun _ _ _ step step' => Option.some.inj (step.symm.trans step')) left right

/-- A point leads to one final point at most. -/
theorem Leads.final_unique (left : Leads next a b) (right : Leads next a c) (final : Final next b)
    (final' : Final next c) : b = c :=
  (left.total right).elim (fun leads => (final.eq_of_leads leads).symm) fun leads =>
    final'.eq_of_leads leads

/-- A path follows the function's steps. -/
theorem Leads.cases (leads : Leads next a b) : a = b ∨ ∃ c, next a = some c ∧ Leads next c b :=
  leads.cases_head

/-- A path to another point raises the rank. -/
theorem Leads.lt_rank (raises : Raises next rank) (leads : Leads next a b) (apart : a ≠ b) :
    rank a < rank b := by
  induction leads with
  | refl => exact absurd rfl apart
  | @tail b c _ step ih =>
    by_cases same : b = c
    · subst same
      exact ih apart
    · by_cases first : a = b
      · exact first ▸ raises b c step same
      · exact (ih first).trans (raises b c step same)

/-- What holds along each step holds along a path. -/
theorem Leads.eqvGen {joined : α → α → Prop}
    (joins : ∀ a b, next a = some b → Relation.EqvGen joined a b)
    (leads : Leads next a b) : Relation.EqvGen joined a b := by
  induction leads with
  | refl => exact .refl a
  | tail _ step ih => exact ih.trans _ _ _ (joins _ _ step)

section

variable [DecidableEq α] {keys : List α}

/-- Follows the function until it ends or comes back to a point it has seen, for so many rounds at
most. -/
def chase (next : α → Option α) : ℕ → List α → α → α
  | 0, _, target => target
  | fuel + 1, seen, target =>
    match next target with
    | none => target
    | some further => if target ∈ seen then target else chase next fuel (target :: seen) further

/-- What has been seen ranks lower than the target, but for a target that leads to itself. -/
structure Seen (next : α → Option α) (rank : α → ℕ) (keys seen : List α) (target : α) : Prop where
  nodup : seen.Nodup
  subset : seen ⊆ keys
  lower : ∀ a ∈ seen, rank a < rank target ∨ (a = target ∧ next target = some target)

/-- **The chase ends** in the final point that the target leads to. -/
theorem chase_ends {seen : List α} {fuel : ℕ} (raises : Raises next rank)
    (defined : ∀ a b, next a = some b → a ∈ keys) (was : Seen next rank keys seen a)
    (enough : keys.length < fuel + seen.length) :
    Leads next a (chase next fuel seen a) ∧ Final next (chase next fuel seen a) := by
  induction fuel generalizing seen a with
  | zero =>
    have few := (was.nodup.subperm was.subset).length_le
    omega
  | succ fuel ih =>
    rw [chase]
    cases found : next a with
    | none => exact ⟨.refl, fun b step => by cases found.symm.trans step⟩
    | some further =>
      dsimp only
      split_ifs with again
      · obtain loop | ⟨-, loop⟩ := was.lower a again
        · exact absurd loop (lt_irrefl _)
        · exact ⟨.refl, fun b step => Option.some.inj (step.symm.trans loop)⟩
      · have here : a ∈ keys := defined a further found
        have seen' : Seen next rank keys (a :: seen) further := by
          refine ⟨List.nodup_cons.mpr ⟨again, was.nodup⟩, List.cons_subset.mpr ⟨here, was.subset⟩, ?_⟩
          by_cases same : a = further
          · subst same
            refine List.forall_mem_cons.mpr ⟨.inr ⟨rfl, found⟩, fun b inside => .inl ?_⟩
            exact (was.lower b inside).resolve_right fun ⟨same, _⟩ => again (same ▸ inside)
          · have higher := raises a further found same
            refine List.forall_mem_cons.mpr ⟨.inl higher, fun b inside => .inl ?_⟩
            have below := (was.lower b inside).resolve_right fun ⟨same, _⟩ => again (same ▸ inside)
            exact below.trans higher
        obtain ⟨leads, final⟩ := ih seen' (by rw [List.length_cons]; omega)
        exact ⟨leads.head found, final⟩

/-- From the point after one, the chase finds what the one leads to. -/
theorem chase_next (raises : Raises next rank) (defined : ∀ a b, next a = some b → a ∈ keys)
    (step : next a = some b) :
    Leads next a (chase next (keys.length + 1) [a] b) ∧
    Final next (chase next (keys.length + 1) [a] b) := by
  have here : a ∈ keys := defined a b step
  have was : Seen next rank keys [a] b := by
    refine ⟨List.nodup_singleton a, List.cons_subset.mpr ⟨here, List.nil_subset _⟩,
      fun c inside => ?_⟩
    rw [List.mem_singleton.mp inside]
    by_cases same : a = b
    · exact .inr ⟨same, same ▸ step⟩
    · exact .inl (raises a b step same)
  obtain ⟨leads, final⟩ := chase_ends raises defined was (Nat.lt_succ_of_le (Nat.le_succ _))
  exact ⟨leads.head step, final⟩

end

end DrStrange.Lib
