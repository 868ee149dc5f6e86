/-
**Ordered maps: what a fold over one leaves behind.**

Facts that every client of an ordered map needs. A fold whose step for a key adjusts one
observation, and no other step changes it, leaves that observation as the key's entry adjusts it
(`foldl_adjust`), and one that no step changes stays (`foldl_unchanged`). A list in strict key order
with the map's pairs is the map's list (`toList_eq_of_pairwise`), inserting pairs that give no key
two values inserts each of them (`foldl_insert`), and an entry that a filter drops may be put in
unseen (`filterMap_insert`).
-/

import Mathlib

namespace Std.ExtTreeMap

variable {κ ν σ τ : Type*} {cmp : κ → κ → Ordering} [TransCmp cmp] [LawfulEqCmp cmp]
  {map : ExtTreeMap κ ν cmp} {step : σ → κ → ν → σ} {start : σ} {pairs : List (κ × ν)} {value : ν}
  {key : κ}

theorem foldl_adjust (observe : σ → τ) (adjust : τ → ν → τ) (key : κ)
    (hit : ∀ state value, observe (step state key value) = adjust (observe state) value)
    (miss : ∀ state other value, other ≠ key →
      observe (step state other value) = observe state) :
    observe (map.foldl step start) = map[key]?.elim (observe start) (adjust (observe start)) := by
  have list : ∀ (pairs : List (κ × ν)) (start : σ), pairs.Pairwise (fun a b => a.1 ≠ b.1) →
      observe (pairs.foldl (fun state pair => step state pair.1 pair.2) start) =
        ((pairs.find? fun pair => cmp pair.1 key = .eq).map Prod.snd).elim (observe start)
          (adjust (observe start)) := by
    intro pairs
    induction pairs with
    | nil => exact fun _ _ => rfl
    | cons pair pairs ih =>
      intro start distinct
      rw [List.pairwise_cons] at distinct
      rw [List.foldl_cons, ih _ distinct.2]
      by_cases same : pair.1 = key
      · have rest : pairs.find? (fun pair => cmp pair.1 key = .eq) = none := by
          rw [List.find?_eq_none]
          intro other member
          have apart := distinct.1 other member
          rw [same] at apart
          simpa using Ne.symm apart
        rw [rest, List.find?_cons_of_pos (by simp [same]), same]
        simp [hit]
      · rw [List.find?_cons_of_neg (by simpa using same), miss _ _ _ same]
  rw [foldl_eq_foldl_toList, list _ _ (distinct_keys_toList.imp fun apart same => by
    simp [same] at apart)]
  congr 1
  cases found : map[key]? with
  | none =>
    rw [List.find?_eq_none.mpr, Option.map_none]
    intro pair member
    have held := (mem_toList_iff_getElem?_eq_some (k := pair.1) (v := pair.2)).mp member
    simp only [decide_eq_true_eq]
    intro equal
    rw [LawfulEqCmp.eq_of_compare equal, found] at held
    cases held
  | some value =>
    have member : (key, value) ∈ map.toList := mem_toList_iff_getElem?_eq_some.mpr found
    obtain ⟨pair, hit⟩ := Option.isSome_iff_exists.mp
      (List.find?_isSome.mpr ⟨(key, value), member, by simp⟩ :
        (map.toList.find? fun pair => cmp pair.1 key = .eq).isSome)
    have equal : pair.1 = key := by simpa using List.find?_some hit
    have held := (mem_toList_iff_getElem?_eq_some (k := pair.1) (v := pair.2)).mp
      (List.mem_of_find?_eq_some hit)
    rw [hit, Option.map_some, ← held, equal, found]

/-- The step for a key decides the observation. -/
theorem foldl_observe (observe : σ → τ) (decided : ν → τ) (key : κ)
    (hit : ∀ state value, observe (step state key value) = decided value)
    (miss : ∀ state other value, other ≠ key →
      observe (step state other value) = observe state) :
    observe (map.foldl step start) = map[key]?.elim (observe start) decided :=
  foldl_adjust observe (fun _ => decided) key hit miss

omit [LawfulEqCmp cmp] in
theorem foldl_unchanged (observe : σ → τ)
    (same : ∀ state key value, observe (step state key value) = observe state) :
    observe (map.foldl step start) = observe start := by
  rw [foldl_eq_foldl_toList]
  induction map.toList generalizing start with
  | nil => rfl
  | cons pair pairs ih => rw [List.foldl_cons, ih, same]

theorem toList_eq_of_pairwise (ordered : pairs.Pairwise fun a b => cmp a.1 b.1 = .lt)
    (same : ∀ key value, (key, value) ∈ pairs ↔ map[key]? = some value) : map.toList = pairs := by
  have : Std.Irrefl fun a b : κ × ν => cmp a.1 b.1 = .lt := 
    ⟨fun a less => nomatch less.symm.trans (ReflCmp.compare_self : cmp a.1 a.1 = .eq)⟩
  have : Std.Antisymm fun a b : κ × ν => cmp a.1 b.1 = .lt := ⟨fun a b less greater => by
    have loop := TransCmp.lt_trans less greater
    exact nomatch loop.symm.trans (ReflCmp.compare_self : cmp a.1 a.1 = .eq)⟩
  refine List.Pairwise.eq_of_mem_iff ordered_keys_toList ordered fun pair => ?_
  rw [same, ← mem_toList_iff_getElem?_eq_some]

/-- Pairs that give no key two values, inserted one after the other. -/
theorem foldl_insert (once : ∀ p ∈ pairs, ∀ q ∈ pairs, p.1 = q.1 → p.2 = q.2) :
    (pairs.foldl (fun map pair => map.insert pair.1 pair.2) map)[key]? = some value ↔
      (key, value) ∈ pairs ∨ key ∉ pairs.map Prod.fst ∧ map[key]? = some value := by
  induction pairs generalizing map with
  | nil => simp
  | cons pair pairs ih =>
    have rest := fun p member q member' =>
      once p (List.mem_cons_of_mem _ member) q (List.mem_cons_of_mem _ member')
    rw [List.foldl_cons, ih rest, getElem?_insert]
    constructor
    · rintro (member | ⟨fresh, found⟩)
      · exact .inl (List.mem_cons_of_mem _ member)
      · split at found
        · rename_i same
          obtain rfl := LawfulEqCmp.eq_of_compare same
          exact .inl (Option.some.inj found ▸ List.mem_cons_self)
        · rename_i other
          refine .inr ⟨?_, found⟩
          rw [List.map_cons, List.mem_cons, not_or]
          exact ⟨fun same => other (same ▸ ReflCmp.compare_self), fresh⟩
    · rintro (member | ⟨fresh, found⟩)
      · by_cases later : key ∈ pairs.map Prod.fst
        · obtain ⟨other, inside, same⟩ := List.mem_map.mp later
          have equal := once other (List.mem_cons_of_mem _ inside) (key, value) member same
          have whole : other = (key, value) := Prod.ext same equal
          exact .inl (whole ▸ inside)
        · rcases List.mem_cons.mp member with rfl | member
          · exact .inr ⟨later, by rw [if_pos ReflCmp.compare_self]⟩
          · exact absurd (List.mem_map_of_mem member) later
      · rw [List.map_cons, List.mem_cons, not_or] at fresh
        refine .inr ⟨fresh.2, ?_⟩
        rw [if_neg fun same => fresh.1 (LawfulEqCmp.eq_of_compare same).symm]
        exact found

/-- An entry that is dropped, before and after it is put in, makes no difference to what is kept. -/
theorem filterMap_insert {keep : κ → ν → Option σ} (silent : keep key value = none)
    (before : ∀ old, map[key]? = some old → keep key old = none) :
    (map.insert key value).filterMap keep = map.filterMap keep := by
  refine ext_getElem? fun other => ?_
  rw [getElem?_filterMap', getElem?_filterMap', getElem?_insert]
  split_ifs with same
  · obtain rfl := LawfulEqCmp.eq_of_compare same
    rw [Option.bind_some, silent]
    cases found : map[key]? with
    | none => rfl
    | some old => exact (before old found).symm
  · rfl

end Std.ExtTreeMap
