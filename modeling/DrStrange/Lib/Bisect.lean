/-
**Searching an interval for its last good point.**

The search halves `[lo, hi]` around its upper middle and asks a test that may itself fail. It is
handed an interval whose first point is good. Where every good point of the interval has only good
points before it, the search ends at the greatest good one (`bisect_spec`).
-/

import Mathlib

namespace DrStrange.Lib

variable {ε : Type*} {good : ℕ → Except ε Bool} {lo hi : ℕ} {within : ℕ → Prop}

/-- The upper middle: above `lo`, so the interval shrinks whichever half is kept. -/
def upperMid (lo hi : ℕ) : ℕ := lo + (hi - lo + 1) / 2

theorem lt_upperMid (apart : lo < hi) : lo < upperMid lo hi := by
  unfold upperMid
  omega

theorem upperMid_le (apart : lo < hi) : upperMid lo hi ≤ hi := by
  unfold upperMid
  omega

def bisect (good : ℕ → Except ε Bool) (lo hi : ℕ) : Except ε ℕ :=
  if apart : lo < hi then
    good (upperMid lo hi) >>= fun yes =>
      if yes then bisect good (upperMid lo hi) hi else bisect good lo (upperMid lo hi - 1)
  else .ok lo
termination_by hi - lo
decreasing_by
  all_goals
    have above := lt_upperMid apart
    have below := upperMid_le apart
    omega

/-- Good points of the interval have only good points before them. -/
def Downward (within : ℕ → Prop) (lo hi : ℕ) : Prop :=
  ∀ a b, lo ≤ a → a ≤ b → b ≤ hi → within b → within a

theorem Downward.sub (downward : Downward within lo hi) {lo' hi' : ℕ} (lower : lo ≤ lo')
    (upper : hi' ≤ hi) : Downward within lo' hi' :=
  fun a b first order last => downward a b (lower.trans first) order (last.trans upper)

/-- **The search ends at the greatest good point**, and asks nothing outside the interval. -/
theorem bisect_spec [DecidablePred within]
    (answers : ∀ mid, lo ≤ mid → mid ≤ hi → good mid = .ok (decide (within mid)))
    (downward : Downward within lo hi) (ordered : lo ≤ hi) (start : within lo) :
    ∃ found, bisect good lo hi = .ok found ∧ IsGreatest {s | s ∈ Set.Icc lo hi ∧ within s} found := by
  induction lo, hi using bisect.induct with
  | case1 lo hi apart upper lower =>
    have above := lt_upperMid apart
    have below := upperMid_le apart
    rw [bisect, dif_pos apart, answers _ above.le below]
    show ∃ found, (if decide (within (upperMid lo hi)) = true then _ else _) = _ ∧ _
    by_cases yes : within (upperMid lo hi)
    · rw [if_pos (by simpa using yes)]
      obtain ⟨found, ends, ⟨⟨first, last⟩, holds⟩, greatest⟩ :=
        upper (fun mid first => answers mid (above.le.trans first)) (downward.sub above.le le_rfl)
          below yes
      refine ⟨found, ends, ⟨⟨above.le.trans first, last⟩, holds⟩, fun s ⟨⟨_, low⟩, member⟩ => ?_⟩
      rcases le_or_gt (upperMid lo hi) s with here | before
      · exact greatest ⟨⟨here, low⟩, member⟩
      · exact before.le.trans first
    · rw [if_neg (by simpa using yes)]
      obtain ⟨found, ends, ⟨⟨first, last⟩, holds⟩, greatest⟩ :=
        lower (fun mid first last => answers mid first (by omega))
          (downward.sub le_rfl (by omega)) (by omega) start
      refine ⟨found, ends, ⟨⟨first, by omega⟩, holds⟩, fun s ⟨⟨high, low⟩, member⟩ => ?_⟩
      rcases le_or_gt (upperMid lo hi) s with here | before
      · -- A good point above the middle would have made the middle good.
        exact absurd (downward _ s above.le here low member) yes
      · exact greatest ⟨⟨high, by omega⟩, member⟩
  | case2 lo hi apart =>
    obtain rfl : lo = hi := by omega
    rw [bisect, dif_neg apart]
    exact ⟨lo, rfl, ⟨⟨le_rfl, le_rfl⟩, start⟩, fun s ⟨⟨_, low⟩, _⟩ => low⟩

end DrStrange.Lib
