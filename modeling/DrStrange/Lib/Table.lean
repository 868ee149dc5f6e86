/-
**Tables: ordered maps written row by row.**

A row is written with a value or with nothing, and a written row reads back as written while every
other row stays (`getElem?_write`). A batch of rows may be written in any order as long as it has
no two values for one key (`writeAll_perm`), and a batch that writes one value everywhere leaves
that value at its keys and nothing else changed (`getElem?_writeEach`).

Two tables are inverse to each other when one finds an id for a name exactly where the other finds
the name for the id (`Inverse`); a fresh pair may be added and a pair taken out.

Compound keys compare component by component.
-/

import Mathlib

namespace DrStrange.Lib

open Std

variable {α β : Type*}

/-- Pairs in the order of their first component, then of their second. -/
instance prodOrd [Ord α] [Ord β] : Ord (α × β) := lexOrd

instance prodTransOrd [Ord α] [Ord β] [TransOrd α] [TransOrd β] : TransOrd (α × β) :=
  inferInstanceAs (TransCmp (compareLex (compareOn Prod.fst) (compareOn Prod.snd)))

instance prodLawfulEqOrd [Ord α] [Ord β] [LawfulEqOrd α] [LawfulEqOrd β] : LawfulEqOrd (α × β) where
  eq_of_compare {a b} same := by
    obtain ⟨first, second⟩ := Ordering.then_eq_eq.mp same
    exact Prod.ext (Std.compare_eq_iff_eq.mp first) (Std.compare_eq_iff_eq.mp second)

end DrStrange.Lib

namespace Std.ExtTreeMap

section Rows

variable {κ ν : Type*} {cmp : κ → κ → Ordering} [TransCmp cmp]

/-- One row written: a value put, or the row deleted. -/
def write (map : ExtTreeMap κ ν cmp) (key : κ) : Option ν → ExtTreeMap κ ν cmp
  | some value => map.insert key value
  | none => map.erase key

/-- Rows written one after the other. -/
def writeAll (map : ExtTreeMap κ ν cmp) (rows : List (κ × Option ν)) : ExtTreeMap κ ν cmp :=
  rows.foldl (fun map row => map.write row.1 row.2) map

/-- One value written at every key of a list. -/
def writeEach (map : ExtTreeMap κ ν cmp) (keys : List κ) (value : Option ν) : ExtTreeMap κ ν cmp :=
  map.writeAll (keys.map fun key => (key, value))

variable [LawfulEqCmp cmp] [DecidableEq κ] {map : ExtTreeMap κ ν cmp} {key other : κ}
  {value : Option ν} {keys : List κ}

@[simp, grind =]
theorem getElem?_write :
    (map.write key value)[other]? = if key = other then value else map[other]? := by
  cases value with
  | none => simp [write, getElem?_erase]
  | some value => simp [write, getElem?_insert]

@[simp, grind =]
theorem mem_write :
    other ∈ map.write key value ↔ if key = other then value.isSome = true else other ∈ map := by
  simp only [mem_iff_isSome_getElem?, getElem?_write]
  split <;> simp

theorem write_comm {first second : Option ν} (agree : key = other → first = second) :
    (map.write key first).write other second = (map.write other second).write key first := by
  refine ext_getElem? fun probe => ?_
  simp only [getElem?_write]
  grind

/-- The order of a batch does not matter where its rows agree on the keys they share. -/
theorem writeAll_perm {rows sorted : List (κ × Option ν)} (perm : rows.Perm sorted)
    (agree : ∀ a ∈ rows, ∀ b ∈ rows, a.1 = b.1 → a.2 = b.2) :
    map.writeAll sorted = map.writeAll rows := by
  refine (perm.foldl_eq' (fun a memberA b memberB map => ?_) map).symm
  exact write_comm (agree a memberA b memberB)

/-- Nor does it where every row writes the same value. -/
theorem writeEach_perm {sorted : List κ} (perm : keys.Perm sorted) :
    map.writeEach sorted value = map.writeEach keys value := by
  refine writeAll_perm (perm.map _) fun a memberA b memberB _ => ?_
  obtain ⟨_, -, rfl⟩ := List.mem_map.mp memberA
  obtain ⟨_, -, rfl⟩ := List.mem_map.mp memberB
  rfl

omit [LawfulEqCmp cmp] [DecidableEq κ] in
theorem writeEach_append {first second : List κ} :
    map.writeEach (first ++ second) value = (map.writeEach first value).writeEach second value := by
  simp only [writeEach, writeAll, List.map_append, List.foldl_append]

@[simp, grind =]
theorem getElem?_writeEach :
    (map.writeEach keys value)[other]? = if other ∈ keys then value else map[other]? := by
  rw [writeEach, writeAll]
  induction keys generalizing map with
  | nil => simp
  | cons key keys ih =>
    rw [List.map_cons, List.foldl_cons, ih]
    simp only [getElem?_write, List.mem_cons]
    grind

@[simp, grind =]
theorem mem_writeEach :
    other ∈ map.writeEach keys value ↔
      if other ∈ keys then value.isSome = true else other ∈ map := by
  simp only [mem_iff_isSome_getElem?, getElem?_writeEach]
  split <;> simp

end Rows

section Inverse

variable {κ ι : Type*} [Ord κ] [TransOrd κ] [LawfulEqOrd κ] [Ord ι] [TransOrd ι] [LawfulEqOrd ι]

/-- One table finds an id for a name exactly where the other finds the name for the id. -/
def Inverse (ids : ExtTreeMap κ ι compare) (names : ExtTreeMap ι κ compare) : Prop :=
  ∀ (name : κ) (id : ι), ids[name]? = some id ↔ names[id]? = some name

variable [DecidableEq κ] [DecidableEq ι] {ids : ExtTreeMap κ ι compare}
  {names : ExtTreeMap ι κ compare} {name : κ} {id : ι}

theorem Inverse.insert (inverse : Inverse ids names) (freshName : ids[name]? = none)
    (freshId : names[id]? = none) : Inverse (ids.insert name id) (names.insert id name) := by
  intro other otherId
  have known := inverse other otherId
  simp only [getElem?_insert, Std.compare_eq_iff_eq]
  grind

end Inverse

end Std.ExtTreeMap
