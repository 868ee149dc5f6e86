/-
**Ordered maps of a comparator that is lawful on some keys only.**

An ordered map is the list of its entries in ascending order of the keys, searched from the least one:
the search stops where the comparator says that the key would have stood. The comparator need only
order the keys that are `ok`; for these the search finds an entry with an equal key if there is one
(`find?_eq_some`).
-/

import DrStrange.Lib.Ordered

namespace DrStrange.Lib.SortedMap

variable {κ ν : Type*}

section

variable (cmp : κ → κ → Ordering) (key : κ)

def find? : List (κ × ν) → Option ν
  | [] => none
  | entry :: rest =>
    match cmp key entry.1 with
    | .lt => none
    | .eq => some entry.2
    | .gt => find? rest

/-- Puts a value; an equal key that is there already stays. -/
def insert (value : ν) : List (κ × ν) → List (κ × ν)
  | [] => [(key, value)]
  | entry :: rest =>
    match cmp key entry.1 with
    | .lt => (key, value) :: entry :: rest
    | .eq => (entry.1, value) :: rest
    | .gt => entry :: insert value rest

end

/-- The keys ascend strictly. -/
def Sorted (cmp : κ → κ → Ordering) (map : List (κ × ν)) : Prop :=
  map.Pairwise fun a b => cmp a.1 b.1 = .lt

variable {cmp : κ → κ → Ordering} {ok : κ → Prop} {key : κ} {value : ν} {map : List (κ × ν)}

/-- **A search finds the entry with an equal key.** -/
theorem find?_eq_some (ordered : ∀ x, ok x → OrderedAt ok cmp x) (here : ok key)
    (keys : ∀ entry ∈ map, ok entry.1) (sorted : Sorted cmp map) :
    find? cmp key map = some value ↔ ∃ entry ∈ map, cmp key entry.1 = .eq ∧ entry.2 = value := by
  induction map with
  | nil => simp [find?]
  | cons entry rest ih =>
    obtain ⟨first, keys⟩ := List.forall_mem_cons.mp keys
    obtain ⟨above, sorted⟩ := List.pairwise_cons.mp sorted
    have later := ih keys sorted
    have chain := fun other member =>
      (ordered key here).chain entry.1 (other : κ × ν).1 first (keys other member)
    rw [find?]
    cases order : cmp key entry.1 with
    | lt =>
      refine iff_of_false nofun ?_
      rintro ⟨other, member, equal, -⟩
      rcases List.mem_cons.mp member with rfl | member
      · rw [order] at equal
        cases equal
      · have less := chain other member (by rw [order]; nofun) (by rw [above other member]; nofun)
        rw [order, equal] at less
        cases less
    | eq =>
      constructor
      · intro found
        exact ⟨entry, List.mem_cons_self, order, Option.some.inj found⟩
      · rintro ⟨other, member, equal, rfl⟩
        rcases List.mem_cons.mp member with rfl | member
        · rfl
        · have less := chain other member (by rw [order]; nofun) (by rw [above other member]; nofun)
          rw [order, equal, above other member] at less
          cases less
    | gt =>
      rw [later]
      refine exists_congr fun other => ⟨fun ⟨member, found⟩ => ⟨.tail _ member, found⟩, ?_⟩
      rintro ⟨member, equal, same⟩
      rcases List.mem_cons.mp member with rfl | member
      · rw [order] at equal
        cases equal
      · exact ⟨member, equal, same⟩

/-- **A search that finds nothing: no key is equal.** -/
theorem find?_eq_none (ordered : ∀ x, ok x → OrderedAt ok cmp x) (here : ok key)
    (keys : ∀ entry ∈ map, ok entry.1) (sorted : Sorted cmp map) :
    find? cmp key map = none ↔ ∀ entry ∈ map, cmp key entry.1 ≠ .eq := by
  rw [Option.eq_none_iff_forall_ne_some]
  constructor
  · intro none entry member equal
    exact none entry.2 ((find?_eq_some ordered here keys sorted).mpr ⟨entry, member, equal, rfl⟩)
  · intro apart value found
    obtain ⟨entry, member, equal, -⟩ := (find?_eq_some ordered here keys sorted).mp found
    exact apart entry member equal

/-- A key that is not found is one entry more. -/
theorem insert_perm (absent : ∀ entry ∈ map, cmp key entry.1 ≠ .eq) :
    (insert cmp key value map).Perm ((key, value) :: map) := by
  induction map with
  | nil => exact .refl _
  | cons entry rest ih =>
    obtain ⟨apart, absent⟩ := List.forall_mem_cons.mp absent
    rw [insert]
    cases order : cmp key entry.1 with
    | lt => exact .refl _
    | eq => exact absurd order apart
    | gt => exact ((ih absent).cons entry).trans (.swap _ _ _)

theorem insert_sorted (ordered : ∀ x, ok x → OrderedAt ok cmp x) (here : ok key)
    (keys : ∀ entry ∈ map, ok entry.1) (sorted : Sorted cmp map)
    (absent : ∀ entry ∈ map, cmp key entry.1 ≠ .eq) : Sorted cmp (insert cmp key value map) := by
  induction map with
  | nil => exact List.pairwise_singleton _ _
  | cons entry rest ih =>
    obtain ⟨first, keys⟩ := List.forall_mem_cons.mp keys
    obtain ⟨above, sorted⟩ := List.pairwise_cons.mp sorted
    obtain ⟨apart, absent⟩ := List.forall_mem_cons.mp absent
    rw [insert]
    cases order : cmp key entry.1 with
    | lt =>
      refine List.pairwise_cons.mpr ⟨fun other member => ?_, List.pairwise_cons.mpr ⟨above, sorted⟩⟩
      rcases List.mem_cons.mp member with rfl | member
      · exact order
      · rw [(ordered key here).chain entry.1 other.1 first (keys other member) (by rw [order]; nofun)
          (by rw [above other member]; nofun), order]
        rfl
    | eq => exact absurd order apart
    | gt =>
      refine List.pairwise_cons.mpr ⟨fun other member => ?_, ih keys sorted absent⟩
      rcases List.mem_cons.mp ((insert_perm absent).subset member) with rfl | member
      · change cmp entry.1 key = .lt
        rw [(ordered key here).swap entry.1 first, order]
        rfl
      · exact above other member

end DrStrange.Lib.SortedMap
