/-
**Folding the spellings of a name.**

Names with the same letters and digits, in either case, are one name; the most used spelling
survives. What is neither a letter nor a digit is dropped with the separators, so names that a
symbol tells apart are folded as well: the folding keeps to the spellings of a name exactly where no
two of the given names differ in that way (`fold_spells_iff`).
-/

import DrStrange.Lib.TreeMap
import DrStrange.Lib.Utf8

namespace DrStrange.Llm

open Std (ExtTreeMap)
open Lib (Unicode)

/-- How often each name occurs. -/
abbrev Counts := ExtTreeMap String ℕ compare

/-- Every name that should be renamed, to what. Names that keep their spelling are absent. -/
abbrev Renames := ExtTreeMap String String compare

/-! ### The code -/

/-- Case and every separator ignored. -/
def foldKey (unicode : Unicode) (name : String) : String :=
  String.ofList ((name.toList.filter unicode.alphanumeric).flatMap unicode.lower)

/-- The names of each key, in order. -/
def groups (key : String → String) (names : List String) : ExtTreeMap String (List String) compare :=
  names.foldl (fun groups name => groups.insert (key name) (groups[key name]?.getD [] ++ [name])) ∅

/-- The more used name first, ties by name. -/
def preferred (counts : Counts) (a b : String) : Bool :=
  counts[b]?.getD 0 < counts[a]?.getD 0 || counts[a]?.getD 0 = counts[b]?.getD 0 && a ≤ b

/-- The names of a group renamed to the first in order of preference. -/
def groupRenames (counts : Counts) (names : List String) : List (String × String) :=
  if names.length < 2 then []
  else
    match names.mergeSort (preferred counts) with
    | [] => []
    | canonical :: others => others.map fun other => (other, canonical)

/-- The names of each key renamed to one of them. -/
def foldBy (key : String → String) (counts : Counts) : Renames :=
  (groups key counts.keys).toList.foldl (fun renames group =>
    (groupRenames counts group.2).foldl (fun renames pair => renames.insert pair.1 pair.2) renames) ∅

/-- `reconcile::fold`. -/
def fold (unicode : Unicode) (counts : Counts) : Renames := foldBy (foldKey unicode) counts

/-- `identity::fold_keys`, over the keys of entities. -/
def foldKeys (unicode : Unicode) (counts : Counts) : Renames := foldBy (foldKey unicode) counts

/-! ### What is renamed -/

/-- The name that a name goes by. -/
def canonical (renames : Renames) (name : String) : String := renames[name]?.getD name

/-- The preferred name of those with a key. -/
structure Survives (key : String → String) (counts : Counts) (name survivor : String) : Prop where
  given : survivor ∈ counts
  same : key survivor = key name
  first : ∀ other ∈ counts, key other = key name → preferred counts survivor other = true

variable {key : String → String} {counts : Counts} {names : List String} {a b c : String}

theorem getElem?_groups {k : String} : (groups key names)[k]? =
    if names.filter (key · = k) = [] then none else some (names.filter (key · = k)) := by
  suffices ∀ before : ExtTreeMap String (List String) compare, ∀ earlier : List String,
      (∀ k, before[k]? = if earlier.filter (key · = k) = [] then none
        else some (earlier.filter (key · = k))) →
      (names.foldl (fun groups name =>
        groups.insert (key name) (groups[key name]?.getD [] ++ [name])) before)[k]? =
        if (earlier ++ names).filter (key · = k) = [] then none
        else some ((earlier ++ names).filter (key · = k)) from this ∅ [] fun k => by simp
  induction names with
  | nil => exact fun before earlier start => by rw [List.append_nil]; exact start k
  | cons name names ih =>
    intro before earlier start
    rw [List.foldl_cons, List.append_cons earlier]
    refine ih _ _ fun k => ?_
    rw [ExtTreeMap.getElem?_insert, start, start, List.filter_append, List.filter_singleton]
    by_cases own : key name = k
    · subst own
      rw [if_pos (Std.LawfulEqCmp.compare_eq_iff_eq.mpr rfl)]
      by_cases none : earlier.filter (key · = key name) = []
      · simp [none]
      · simp [none]
    · simp [own]

theorem preferred_trans (first : preferred counts a b = true) (second : preferred counts b c = true) :
    preferred counts a c = true := by
  simp only [preferred, Bool.or_eq_true, Bool.and_eq_true, decide_eq_true_eq] at first second ⊢
  rcases first with more | ⟨equal, le⟩ <;> rcases second with more' | ⟨equal', le'⟩
  · exact .inl (more'.trans more)
  · exact .inl (equal' ▸ more)
  · exact .inl (equal ▸ more')
  · exact .inr ⟨equal.trans equal', le.trans le'⟩

theorem preferred_total : (preferred counts a b || preferred counts b a) = true := by
  simp only [preferred, Bool.or_eq_true, Bool.and_eq_true, decide_eq_true_eq]
  rcases lt_trichotomy (counts[a]?.getD 0) (counts[b]?.getD 0) with less | equal | more
  · exact .inr (.inl less)
  · exact (le_total a b).imp (fun le => .inr ⟨equal, le⟩) fun le => .inr ⟨equal.symm, le⟩
  · exact .inl (.inl more)

theorem preferred_antisymm (first : preferred counts a b = true)
    (second : preferred counts b a = true) :
    a = b := by
  simp only [preferred, Bool.or_eq_true, Bool.and_eq_true, decide_eq_true_eq] at first second
  rcases first with more | ⟨equal, le⟩ <;> rcases second with more' | ⟨equal', le'⟩
  · exact absurd more more'.asymm
  · exact absurd more equal'.not_lt
  · exact absurd more' equal.not_lt
  · exact le.antisymm le'

theorem preferred_refl : preferred counts a a = true := by
  have total := @preferred_total counts a a
  rwa [Bool.or_self] at total

/-- Names in order of preference: the first is preferred to all. -/
theorem sort_cons {first : String} {rest : List String}
    (order : names.mergeSort (preferred counts) = first :: rest) :
    ∀ c ∈ names, preferred counts first c = true := by
  have sorted := @List.pairwise_mergeSort _ (preferred counts) (fun _ _ _ => preferred_trans)
    (fun _ _ => preferred_total) names
  rw [order] at sorted
  intro c member
  rw [← @List.mem_mergeSort _ (preferred counts), order] at member
  rcases List.mem_cons.mp member with rfl | behind
  · exact preferred_refl
  · exact (List.pairwise_cons.mp sorted).1 c behind

theorem mem_groupRenames (once : names.Nodup) : (a, b) ∈ groupRenames counts names ↔
    a ∈ names ∧ a ≠ b ∧ b ∈ names ∧ ∀ c ∈ names, preferred counts b c = true := by
  unfold groupRenames
  split
  · rename_i few
    constructor
    · exact nofun
    · rintro ⟨left, apart, right, -⟩
      match names, few with
      | [_], _ =>
        exact absurd ((List.mem_singleton.mp left).trans (List.mem_singleton.mp right).symm) apart
  · have perm := List.mergeSort_perm names (preferred counts)
    have apart := perm.nodup_iff.mpr once
    cases order : names.mergeSort (preferred counts) with
    | nil =>
      rw [order] at perm
      simp [perm.symm.eq_nil]
    | cons canonical others =>
      rw [order] at perm apart
      have most := sort_cons order
      constructor
      · intro member
        obtain ⟨other, inside, same⟩ := List.mem_map.mp member
        obtain ⟨rfl, rfl⟩ := Prod.mk.inj same
        refine ⟨perm.subset (List.mem_cons_of_mem _ inside), ?_, perm.subset List.mem_cons_self, most⟩
        rintro rfl
        exact (List.nodup_cons.mp apart).1 inside
      · rintro ⟨left, different, right, first⟩
        obtain rfl := preferred_antisymm (first canonical (perm.subset List.mem_cons_self))
          (most b right)
        exact List.mem_map.mpr ⟨a, (List.mem_cons.mp (perm.mem_iff.mpr left)).resolve_left
          different, rfl⟩

/-- **What is folded**: every given name that is not the preferred one of its key, to that one. -/
theorem getElem?_foldBy : (foldBy key counts)[a]? = some b ↔
    a ∈ counts ∧ a ≠ b ∧ Survives key counts a b := by
  let pairs := (groups key counts.keys).toList.flatMap fun group => groupRenames counts group.2
  have mem : ∀ {a b}, (a, b) ∈ pairs ↔ a ∈ counts ∧ a ≠ b ∧ Survives key counts a b := by
    intro a b
    simp only [pairs, List.mem_flatMap, Prod.exists, ExtTreeMap.mem_toList_iff_getElem?_eq_some,
      getElem?_groups]
    constructor
    · rintro ⟨k, names, found, member⟩
      split at found
      · cases found
      · obtain rfl := Option.some.inj found
        obtain ⟨left, apart, right, first⟩ :=
          (mem_groupRenames (ExtTreeMap.nodup_keys.filter _)).mp member
        simp only [List.mem_filter, ExtTreeMap.mem_keys, decide_eq_true_eq] at left right first
        refine ⟨left.1, apart, right.1, right.2.trans left.2.symm, fun other given same => ?_⟩
        exact first other ⟨given, same.trans left.2⟩
    · rintro ⟨left, apart, given, same, first⟩
      refine ⟨key a, counts.keys.filter (key · = key a), if_neg ?_, ?_⟩
      · exact List.ne_nil_of_mem (List.mem_filter.mpr ⟨ExtTreeMap.mem_keys.mpr left, by simp⟩)
      · refine (mem_groupRenames (ExtTreeMap.nodup_keys.filter _)).mpr ?_
        simp only [List.mem_filter, ExtTreeMap.mem_keys, decide_eq_true_eq]
        exact ⟨⟨left, trivial⟩, apart, ⟨given, same⟩, fun c member => first c member.1 member.2⟩
  have once : ∀ p ∈ pairs, ∀ q ∈ pairs, p.1 = q.1 → p.2 = q.2 := by
    rintro ⟨a, b⟩ member ⟨_, c⟩ member' rfl
    obtain ⟨-, -, one⟩ := mem.mp member
    obtain ⟨-, -, two⟩ := mem.mp member'
    exact preferred_antisymm (one.first c two.given two.same) (two.first b one.given one.same)
  have folded : foldBy key counts = pairs.foldl
      (fun renames pair => renames.insert pair.1 pair.2) ∅ :=
    (List.foldl_flatMap ..).symm
  rw [folded, ExtTreeMap.foldl_insert once, mem]
  simp

/-- The names of a key have a preferred one. -/
theorem exists_survives (given : a ∈ counts) : ∃ b, Survives key counts a b := by
  let names := counts.keys.filter (key · = key a)
  have own : a ∈ names := List.mem_filter.mpr ⟨ExtTreeMap.mem_keys.mpr given, by simp⟩
  cases order : names.mergeSort (preferred counts) with
  | nil =>
    have perm := List.mergeSort_perm names (preferred counts)
    rw [order] at perm
    exact absurd (perm.mem_iff.mpr own) List.not_mem_nil
  | cons b rest =>
    have member : b ∈ names.mergeSort (preferred counts) := order ▸ List.mem_cons_self
    have inside := List.mem_filter.mp (List.mem_mergeSort.mp member)
    refine ⟨b, ExtTreeMap.mem_keys.mp inside.1, of_decide_eq_true inside.2, fun c there same => ?_⟩
    exact sort_cons order c (List.mem_filter.mpr ⟨ExtTreeMap.mem_keys.mpr there, by simpa using same⟩)

/-- **A given name goes by the preferred name of its key.** -/
theorem canonical_foldBy (given : a ∈ counts) :
    Survives key counts a (canonical (foldBy key counts) a) := by
  unfold canonical
  cases found : (foldBy key counts)[a]? with
  | some b => exact (getElem?_foldBy.mp found).2.2
  | none =>
    obtain ⟨b, survives⟩ := @exists_survives key counts a given
    by_cases same : a = b
    · exact same ▸ survives
    · rw [getElem?_foldBy.mpr ⟨given, same, survives⟩] at found
      cases found

/-- Names go by one name if their keys are the same. -/
theorem canonical_eq_iff (left : a ∈ counts) (right : b ∈ counts) :
    canonical (foldBy key counts) a = canonical (foldBy key counts) b ↔ key a = key b := by
  have one := @canonical_foldBy key counts a left
  have two := @canonical_foldBy key counts b right
  constructor
  · intro same
    rw [← one.same, ← two.same, same]
  · intro same
    refine preferred_antisymm (one.first _ two.given ?_) (two.first _ one.given ?_)
    · exact two.same.trans same.symm
    · exact one.same.trans same

/-! ### Spelling variants -/

/-- A name in lower case, without spaces, underscores and hyphens. -/
def spelling (unicode : Unicode) (name : String) : List Char :=
  (name.toList.flatMap unicode.lower).filter fun c => c ≠ ' ' && c ≠ '_' && c ≠ '-'

/-- Names go by one name exactly if they are one spelling, the most used of its names, ties by name.
-/
structure FoldsSpellings (unicode : Unicode) (counts : Counts) (renames : Renames) : Prop where
  given : ∀ a ∈ counts, canonical renames a ∈ counts
  merges : ∀ a ∈ counts, ∀ b ∈ counts,
    canonical renames a = canonical renames b ↔ spelling unicode a = spelling unicode b
  survives : ∀ a ∈ counts, ∀ b ∈ counts, spelling unicode b = spelling unicode a →
    preferred counts (canonical renames a) b = true

/-- **When folding keeps to the spellings.** It merges the spellings of a name and nothing else
exactly where, of the given names, those with one key are those of one spelling. -/
theorem fold_spells_iff (unicode : Unicode) (counts : Counts) :
    (FoldsSpellings unicode counts (fold unicode counts) ∧
      FoldsSpellings unicode counts (foldKeys unicode counts)) ↔
      ∀ a ∈ counts, ∀ b ∈ counts,
        (foldKey unicode a = foldKey unicode b ↔ spelling unicode a = spelling unicode b) := by
  have both : foldKeys unicode counts = fold unicode counts := rfl
  rw [both, and_self]
  constructor
  · intro spells a left b right
    exact (canonical_eq_iff left right).symm.trans (spells.merges a left b right)
  · intro same
    refine ⟨fun a given => (canonical_foldBy given).given, fun a left b right => ?_, ?_⟩
    · exact (canonical_eq_iff left right).trans (same a left b right)
    · exact fun a left b right one =>
        (canonical_foldBy left).first b right ((same b right a left).mpr one)

/-- `C++` and `C#`, once each. -/
def languages : Counts := (∅ : Counts).insert "C++" 1 |>.insert "C#" 1

/-- `C++` and `C#` go by one name, and they are two spellings. -/
theorem fold_symbols :
    canonical (fold .ascii languages) "C++" = canonical (fold .ascii languages) "C#" ∧
      spelling .ascii "C++" ≠ spelling .ascii "C#" ∧
      ¬ FoldsSpellings .ascii languages (fold .ascii languages) := by
  have left : "C++" ∈ languages := by simp [languages]
  have right : "C#" ∈ languages := by simp [languages]
  have one : canonical (fold .ascii languages) "C++" = canonical (fold .ascii languages) "C#" :=
    (canonical_eq_iff left right).mpr (by decide)
  have two : spelling .ascii "C++" ≠ spelling .ascii "C#" := by decide
  exact ⟨one, two, fun spells => two ((spells.merges _ left _ right).mp one)⟩

end DrStrange.Llm
