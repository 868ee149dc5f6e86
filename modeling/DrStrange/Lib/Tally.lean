/-
**The sum of a weight over a table.**

A number kept beside a table, such as how many rows it has of some kind, is the sum of a weight over
its rows. Writing one row takes the weight of the old row off and adds that of the new one
(`tally_write`), so whoever adjusts the number by that much at every write keeps it exact. Weights may
lie in any additive group, so several numbers are kept at once.
-/

import DrStrange.Lib.Table

namespace DrStrange.Lib

open Std ExtTreeMap

variable {κ ν M : Type*} {cmp : κ → κ → Ordering} [TransCmp cmp] [AddCommGroup M]
  {weight other : κ → ν → M} {map : ExtTreeMap κ ν cmp} {key : κ}

/-- The weights of all rows, added up. -/
def tally (weight : κ → ν → M) (map : ExtTreeMap κ ν cmp) : M :=
  (map.toList.map fun row => weight row.1 row.2).sum

/-- The weight of the row under a key, nothing if there is none. -/
def weigh (weight : κ → ν → M) (key : κ) (row : Option ν) : M := row.elim 0 (weight key)

@[simp]
theorem weigh_none : weigh weight key none = 0 := rfl

@[simp]
theorem weigh_some {value : ν} : weigh weight key (some value) = weight key value := rfl

/-- Rows without weight may be left out. -/
theorem tally_filter (keep : κ → Bool) (zero : ∀ key value, keep key = false → weight key value = 0) :
    tally weight map =
      ((map.toList.filter fun row => keep row.1).map fun row => weight row.1 row.2).sum := by
  rw [tally]
  induction map.toList with
  | nil => rfl
  | cons row rows ih =>
    rw [List.map_cons, List.sum_cons, ih, List.filter_cons]
    by_cases kept : keep row.1 = true
    · rw [if_pos kept, List.map_cons, List.sum_cons]
    · rw [if_neg kept, zero _ _ (Bool.not_eq_true _ ▸ kept), zero_add]

theorem nodup_toList : map.toList.Nodup := by
  have keys := nodup_keys (t := map)
  rw [← map_fst_toList_eq_keys] at keys
  exact keys.of_map _

variable [LawfulEqCmp cmp] [DecidableEq κ] {value : Option ν}

/-- The rows of a table are the row under a key, if any, and the others. -/
theorem toList_perm (map : ExtTreeMap κ ν cmp) (key : κ) :
    map.toList.Perm ((map[key]?).toList.map (fun value => (key, value)) ++
      map.toList.filter fun row => row.1 ≠ key) := by
  refine (List.perm_ext_iff_of_nodup nodup_toList ?_).mpr fun row => ?_
  · refine List.Nodup.append ?_ (nodup_toList.filter _) ?_
    · cases map[key]? <;> simp
    · intro row first second
      obtain ⟨value, -, rfl⟩ := List.mem_map.mp first
      simp at second
  · obtain ⟨own, value⟩ := row
    rw [List.mem_append, List.mem_map, List.mem_filter, mem_toList_iff_getElem?_eq_some]
    by_cases same : own = key
    · subst same
      simp
    · simp [same, Ne.symm same]

theorem tally_eq (map : ExtTreeMap κ ν cmp) (key : κ) :
    tally weight map = weigh weight key map[key]? +
      ((map.toList.filter fun row => row.1 ≠ key).map fun row => weight row.1 row.2).sum := by
  rw [tally, ((toList_perm map key).map _).sum_eq, List.map_append, List.sum_append]
  congr 1
  cases map[key]? <;> simp

/-- The other rows are the same once a row is written. -/
theorem filter_write_perm :
    ((map.write key value).toList.filter fun row => row.1 ≠ key).Perm
      (map.toList.filter fun row => row.1 ≠ key) := by
  refine (List.perm_ext_iff_of_nodup (nodup_toList.filter _) (nodup_toList.filter _)).mpr ?_
  rintro ⟨own, held⟩
  simp only [List.mem_filter, mem_toList_iff_getElem?_eq_some, getElem?_write, decide_eq_true_eq]
  refine and_congr_left fun different => ?_
  rw [if_neg (Ne.symm different)]

/-- **One row written**: the weight of the old row off, that of the new one on. -/
theorem tally_write :
    tally weight (map.write key value) =
      tally weight map - weigh weight key map[key]? + weigh weight key value := by
  rw [tally_eq (map.write key value) key, tally_eq map key, getElem?_write, if_pos rfl,
    (filter_write_perm.map _).sum_eq]
  abel

omit [DecidableEq κ] in
theorem tally_congr (same : ∀ key value, map[key]? = some value →
    weight key value = other key value) :
    tally weight map = tally other map := by
  rw [tally, tally]
  refine congrArg List.sum (List.map_congr_left fun row member => ?_)
  exact same row.1 row.2 (mem_toList_iff_getElem?_eq_some.mp member)

omit [DecidableEq κ] in
/-- Tables with the same rows wherever there is weight. -/
theorem tally_agree {others : ExtTreeMap κ ν cmp} (keep : κ → Bool)
    (zero : ∀ key value, keep key = false → weight key value = 0)
    (zero' : ∀ key value, keep key = false → other key value = 0)
    (rows : ∀ key, keep key = true → others[key]? = map[key]?)
    (same : ∀ key value, keep key = true → map[key]? = some value →
      weight key value = other key value) : tally weight map = tally other others := by
  have perm : (others.toList.filter fun row => keep row.1).Perm
      (map.toList.filter fun row => keep row.1) := by
    refine (List.perm_ext_iff_of_nodup (nodup_toList.filter _) (nodup_toList.filter _)).mpr ?_
    rintro ⟨key, value⟩
    simp only [List.mem_filter, mem_toList_iff_getElem?_eq_some]
    exact and_congr_left fun kept => by rw [rows key kept]
  rw [tally_filter keep zero, tally_filter keep zero', (perm.map _).sum_eq]
  refine congrArg List.sum (List.map_congr_left fun row member => ?_)
  obtain ⟨inside, kept⟩ := List.mem_filter.mp member
  exact same row.1 row.2 kept (mem_toList_iff_getElem?_eq_some.mp inside)

end DrStrange.Lib
