/-
**A count too large for its arithmetic.**

The `k` of a plan is any `u64`. A search of an index multiplies it for the width of its beam, and
the heap for the hits has room for one item more. Where both fit, the beam is as wide as `k`, and
the hits are the `k` nearest of the items, or all of them (`streamTopK_kLeast`); any larger `k`
panics. `hugeK_iff` says for which `k` a search of an index, a vector source and a ranked frontier
do what they are asked for.
-/

import DrStrange.Lib.Fallible
import DrStrange.Lib.KLeast
import DrStrange.Hnsw.Safety
import DrStrange.Hnsw.VectorSearch

namespace DrStrange.Hnsw

open DrStrange.Graph Lib

variable {arith : Arith} {ties : Ties} {index : HnswIndex} {query : List F32} {k ef : ℕ}
  {filter : Option (ℕ → Bool)} {items hits : List (Dist × ℕ)}

/-- A plan's `u64` count as a `usize`, saturating. -/
def clampCount (n : UInt64) : ℕ := min n.toNat (2 ^ 64 - 1)

theorem clampCount_eq (n : UInt64) : clampCount n = n.toNat :=
  min_eq_left (Nat.le_sub_one_of_lt n.toNat_lt)

/-! ### The `k` nearest -/

/-- The heap of `top_k`, ordered by distance alone. -/
abbrev HitHeap := MaxHeap (Prod.fst : Dist × ℕ → Dist)

/-- The `k` smallest-distance items of a stream, through a heap with room for `k + 1` items of 16
bytes. -/
def streamTopK (heap : HitHeap) (items : List (Dist × ℕ)) (k : ℕ) : Run (List (Dist × ℕ)) :=
  if k = 0 then .ok []
  else do
    reserve 16 (← usize (k + 1))
    return sortByDistance (heap.intoIter (heap.stream k items))

theorem sortByDistance_eq (items : List (Dist × ℕ)) :
    sortByDistance items = sortBy Prod.fst items := rfl

/-- Some order of equal distances gives what the stream gives. -/
theorem exists_ties (heap : HitHeap) (items : List (Dist × ℕ)) (k : ℕ) :
    ∃ ties, streamTopK heap items k = topK ties items k := by
  obtain ⟨all, perm, begins⟩ := ((held_stream heap k items).perm (heap.perm _)).kLeast.begins
  refine ⟨⟨fun _ xs => xs, fun _ _ => .refl _, fun xs => if xs = items then all else xs,
    fun xs => ?_⟩, ?_⟩
  · split_ifs with same
    · exact same ▸ perm
    · exact .refl xs
  · unfold streamTopK topK
    rw [sortByDistance_eq, begins]
    simp only [if_pos]
    rfl

theorem topK_kLeast (done : topK ties items k = .ok hits) : KLeast Prod.fst k items hits := by
  obtain ⟨-, rfl⟩ := topK_eq_ok.mp done
  rw [sortByDistance_eq]
  have least := kLeast_take Prod.fst k (ties.hits items)
  exact ⟨least.toHeld.of_perm (ties.permHits items), least.sorted⟩

/-- The hits are the `k` nearest of the items, whatever the order of equal distances. -/
theorem topK_ends : (∃ hits, topK ties items k = .ok hits ∧ KLeast Prod.fst k items hits) ↔ Room k :=
  ⟨fun ⟨_, done, _⟩ => (topK_eq_ok.mp done).1, fun room =>
    have done := topK_eq_ok.mpr ⟨room, rfl⟩
    ⟨_, done, topK_kLeast done⟩⟩

/-- **A stream ends with the `k` nearest of its items exactly if there is room for the heap.** -/
theorem streamTopK_ends (heap : HitHeap) (items : List (Dist × ℕ)) (k : ℕ) :
    (∃ hits, streamTopK heap items k = .ok hits ∧ KLeast Prod.fst k items hits) ↔ Room k := by
  obtain ⟨ties, same⟩ := exists_ties heap items k
  rw [same]
  exact topK_ends

/-! ### A search of an index -/

/-- The width of the beam. -/
def HnswIndex.beamWidth (index : HnswIndex) (k : ℕ) (filter : Option (ℕ → Bool)) : Run ℕ := do
  let wide ← usize (k * if filter.isSome then 8 else 2)
  return max index.params.efSearch wide

theorem search_eq : index.search arith ties query k filter =
    (index.beamWidth k filter >>= fun ef => index.searchWithEf arith ties query k filter ef) := by
  rw [HnswIndex.search, HnswIndex.beamWidth, bind_assoc]
  rfl

variable (arith ties) in
/-- What a beam of this width finds and the filter lets through. -/
def HnswIndex.found (index : HnswIndex) (query : List F32) (filter : Option (ℕ → Bool)) (ef : ℕ) :
    Run (List (Dist × ℕ)) :=
  match index.entry with
  | none => .ok []
  | some entry => do
    let q := prepare arith query
    let ep ← descend arith ties index.nodes index.metric q 0 index.topLayer entry
    let w ← searchLayer arith ties index.nodes index.metric q [ep] ef 0
    return (← w.mapM (hitOf index.nodes)).filter (passes filter)

theorem beamWidth_eq_ok : index.beamWidth k filter = .ok ef ↔
    k * (if filter.isSome then 8 else 2) < 2 ^ 64 ∧
      ef = max index.params.efSearch (k * if filter.isSome then 8 else 2) := by
  rw [HnswIndex.beamWidth]
  generalize (if filter.isSome then 8 else 2) = factor
  rw [usize]
  split_ifs with small
  · rw [and_iff_right small]
    exact ⟨fun done => (Except.ok.inj done).symm, fun same => same ▸ rfl⟩
  · exact ⟨fun done => (by cases done), fun fits => absurd fits.1 small⟩

theorem searchWithEf_eq (asked : k ≠ 0) (started : index.entry ≠ none) :
    index.searchWithEf arith ties query k filter ef =
      (index.found arith ties query filter ef >>= fun items => topK ties items k) := by
  obtain ⟨entry, held⟩ := Option.ne_none_iff_exists'.mp started
  rw [HnswIndex.searchWithEf, if_neg asked, HnswIndex.found, held]
  simp only [bind_assoc, pure_bind]

/-- A beam that searches a sound index ends. -/
theorem found_ends (sound : index.Sound) (positive : 0 < ef) :
    ∃ items, index.found arith ties query filter ef = .ok items := by
  cases started : index.entry with
  | none => exact ⟨[], by rw [HnswIndex.found, started]⟩
  | some entry =>
    obtain ⟨hits, done⟩ : ∃ hits, index.searchWithEf arith ties query 1 filter ef = .ok hits :=
      (searchWithEf_completes_iff sound fun _ => positive).mpr (.inr (.inr (by norm_num)))
    rw [searchWithEf_eq one_ne_zero (by rw [started]; nofun)] at done
    cases found : index.found arith ties query filter ef with
    | error panic => exact nomatch found ▸ done
    | ok items => exact ⟨items, rfl⟩

variable (arith ties) in
/-- A search of an index does what it is asked for: its beam can be computed and is as wide as `k`,
or as the index is large, and the hits are the `k` nearest of what the beam finds. -/
def HnswIndex.Serves (index : HnswIndex) (query : List F32) (k : ℕ) (filter : Option (ℕ → Bool)) :
    Prop :=
  ∃ ef hits items, index.beamWidth k filter = .ok ef ∧
    (k ≤ index.nodes.length → k ≤ ef) ∧ (index.nodes.length ≤ k → index.nodes.length ≤ ef) ∧
    index.search arith ties query k filter = .ok hits ∧
    (k ≠ 0 → index.found arith ties query filter ef = .ok items) ∧ KLeast Prod.fst k items hits

theorem serves_iff (sound : index.Sound) : index.Serves arith ties query k filter ↔
    k * (if filter.isSome then 8 else 2) < 2 ^ 64 ∧ (index.entry = none ∨ Room k) := by
  have positive : 0 < if filter.isSome then 8 else 2 := by split_ifs <;> norm_num
  have completes : (∃ hits, index.search arith ties query k filter = .ok hits) ↔ _ :=
    search_completes_iff ties sound
  rw [Op.Meets, ← or_assoc, or_comm (a := k = 0), or_assoc] at completes
  constructor
  · rintro ⟨ef, hits, items, _, _, _, done, _⟩
    exact completes.mp ⟨hits, done⟩
  · intro meets
    obtain ⟨hits, done⟩ := completes.mpr meets
    obtain ⟨ef, width, reaches⟩ : ∃ ef, index.beamWidth k filter = .ok ef ∧ k ≤ ef :=
      ⟨_, beamWidth_eq_ok.mpr ⟨meets.1, rfl⟩, le_max_of_le_right (Nat.le_mul_of_pos_right k positive)⟩
    have ran := done
    rw [search_eq, width] at ran
    change index.searchWithEf arith ties query k filter ef = .ok hits at ran
    refine ⟨ef, hits, ?_⟩
    by_cases asked : k = 0
    · refine ⟨[], width, fun _ => reaches, fun _ => by omega, done, absurd asked, ?_⟩
      rw [HnswIndex.searchWithEf, if_pos asked] at ran
      obtain rfl := Except.ok.inj ran
      exact kLeast_nil
    · obtain ⟨items, found⟩ : ∃ items, index.found arith ties query filter ef = .ok items :=
        found_ends sound (Nat.lt_of_lt_of_le (Nat.pos_of_ne_zero asked) reaches)
      refine ⟨items, width, fun _ => reaches, fun _ => by omega, done, fun _ => found, ?_⟩
      cases started : index.entry with
      | none =>
        rw [HnswIndex.searchWithEf, if_neg asked, started] at ran
        rw [HnswIndex.found, started] at found
        obtain rfl := Except.ok.inj ran
        obtain rfl := Except.ok.inj found
        exact kLeast_nil
      | some entry =>
        rw [searchWithEf_eq asked (by simp [started]), found] at ran
        exact topK_kLeast ran

/-! ### A plan -/

/-- No step panics. -/
def Unharmed {α : Type} (searched : Searched α) : Prop := ∀ panic, searched ≠ .error (.panic panic)

/-- Nothing panics, and where the candidates can be read, the hits are the `k` nearest of them. -/
def RanksAll (searched : Searched (List (Dist × ℕ))) (read : Except Error (List (Dist × ℕ)))
    (k : ℕ) : Prop :=
  Unharmed searched ∧ ∀ items, read = .ok items →
    ∃ hits, searched = .ok hits ∧ KLeast Prod.fst k items hits

section

variable (kernel : Kernel) (ties : Ties) (tables : Tables) (registry : Option (Registry Declared))
  (plane : PlaneId) (label : Option String) (property : String) (query : List F32) (metric : Metric)

/-- The `VectorTopK` source. -/
def vectorTopK (k : UInt64) : Searched (List (Dist × ℕ)) :=
  vectorSearch kernel ties tables registry plane label property query metric (clampCount k)

/-- The candidates that have a vector at a finite distance. -/
def ranked (candidates : List NodeId) : Except Error (List (Dist × ℕ)) := do
  return (← itemsOf PropValue.asVector tables plane property candidates).filterMap
    (near kernel query metric)

/-- The nearest of the candidates, exactly. -/
def vectorTopKRows (candidates : List NodeId) (k : ℕ) : Searched (List (Dist × ℕ)) := do
  let items ← (ranked kernel tables plane property query metric candidates).mapError .store
  (topK ties items k).mapError .panic

/-- The `FrontierTopK` step: the heads of the rows, each once, where it came first. -/
def frontierTopK (heads : List NodeId) (k : UInt64) : Searched (List (Dist × ℕ)) :=
  vectorTopKRows kernel ties tables plane property query metric heads.eraseDups (clampCount k)

/-- The search of a vector source does what it is asked for, by an index or by brute force. -/
def FindsAll (k : ℕ) : Prop :=
  match covering registry plane label property metric with
  | some entry => entry.index.Serves kernel.toArith ties query k none
  | none => RanksAll (bruteForceSearch kernel ties tables plane label property query metric k)
      (ranked kernel tables plane property query metric (candidates tables plane label)) k

/-- Where an index covers the source: the width of its beam can be computed, and the heap allocated
if it is searched. Else there is room for the heap, if the candidates can be read. -/
def Affordable (k : ℕ) : Prop :=
  match covering registry plane label property metric with
  | some entry => k * 2 < 2 ^ 64 ∧ (entry.index.entry = none ∨ Room k)
  | none =>
    (∃ items, ranked kernel tables plane property query metric (candidates tables plane label) =
      .ok items) → Room k

end

theorem unharmed_store {α : Type} (read : Except Error α) : Unharmed (read.mapError .store) := by
  intro panic
  cases read <;> nofun

theorem unharmed_panic {α : Type} (ran : Run α) :
    Unharmed (ran.mapError .panic) ↔ ∃ a, ran = .ok a := by
  cases ran with
  | error panic =>
    exact ⟨fun unharmed => absurd rfl (unharmed panic), fun ⟨_, done⟩ => (nomatch done)⟩
  | ok a => exact ⟨fun _ => ⟨a, rfl⟩, fun _ => nofun⟩

theorem unharmed_bind {α β : Type} {searched : Searched α} {f : α → Searched β}
    (after : ∀ a, Unharmed (f a)) :
    Unharmed (searched >>= f) ↔ Unharmed searched := by
  cases searched with
  | error failure => exact ⟨fun unharmed panic same => unharmed panic (same ▸ rfl),
      fun unharmed panic same => unharmed panic (congrArg _ (Except.error.inj same))⟩
  | ok a => exact ⟨fun _ => nofun, fun _ => after a⟩

section

variable {kernel : Kernel} {tables : Tables} {registry : Option (Registry Declared)} {plane : PlaneId}
  {label : Option String} {property : String} {metric : Metric} {frontier : List NodeId}

/-- Candidates are ranked exactly if they cannot be read or there is room. -/
theorem ranksAll_iff :
    RanksAll (vectorTopKRows kernel ties tables plane property query metric frontier k)
        (ranked kernel tables plane property query metric frontier) k ↔
      ((∃ items, ranked kernel tables plane property query metric frontier = .ok items) →
        Room k) := by
  unfold vectorTopKRows RanksAll
  cases ranked kernel tables plane property query metric frontier with
  | error e =>
    exact ⟨fun _ ⟨_, read⟩ => (nomatch read), fun _ => ⟨nofun, fun _ read => (nomatch read)⟩⟩
  | ok items =>
    have ends : (∃ hits, topK ties items k = .ok hits ∧ KLeast Prod.fst k items hits) ↔
        Room k := topK_ends
    change Unharmed ((topK ties items k).mapError Failure.panic) ∧
      (∀ items', Except.ok items = Except.ok items' →
      ∃ hits, (topK ties items k).mapError Failure.panic = .ok hits ∧
      KLeast Prod.fst k items' hits) ↔ _
    simp only [unharmed_panic, mapError_eq_ok, Except.ok.injEq, forall_eq', exists_eq',
      forall_const, ends]
    exact and_iff_right_of_imp fun room => (ends.mpr room).imp fun _ => And.left

theorem bruteForceSearch_eq :
    bruteForceSearch kernel ties tables plane label property query metric k =
    vectorTopKRows kernel ties tables plane property query metric
      (candidates tables plane label) k := by
  unfold bruteForceSearch vectorTopKRows ranked
  cases itemsOf PropValue.asVector tables plane property (candidates tables plane label) <;> rfl

/-- **A vector source finds all it is asked for, without a panic, exactly if its `k` is
affordable.** -/
theorem vectorTopK_iff (k : UInt64) :
    Unharmed (vectorTopK kernel ties tables registry plane label property query metric k) ∧
        FindsAll kernel ties tables registry plane label property query metric k.toNat ↔
      Affordable kernel tables registry plane label property query metric k.toNat := by
  unfold vectorTopK vectorSearch FindsAll Affordable
  rw [unharmed_bind fun _ => unharmed_store _, clampCount_eq, indexedOrBrute]
  cases covering registry plane label property metric with
  | some entry =>
    have serves : entry.index.Serves kernel.toArith ties query k.toNat none ↔ _ :=
      serves_iff entry.sound
    refine Iff.trans (and_iff_right_of_imp fun all => ?_) serves
    obtain ⟨ef, hits, items, -, -, -, done, -⟩ := all
    exact (unharmed_panic _).mpr ⟨hits, done⟩
  | none =>
    rw [← ranksAll_iff, ← bruteForceSearch_eq]
    exact and_iff_right_of_imp And.left

end

/-- At `2 ^ 63` hits a covering index does not find all, whatever run it has been through. -/
theorem not_findsAll_of_run {found : Metric} {after : HnswIndex} {wellformed : index.isWellformed}
    {ops : List (Ties × Op)} {ran : runs arith index.reindex ops = .ok after}
    (covers : covering registry plane label property metric = some (.ofRun found wellformed ran))
    {k : UInt64} (huge : 2 ^ 63 ≤ k.toNat) :
    ¬ (Unharmed (vectorTopK kernel ties tables registry plane label property query metric k) ∧
      FindsAll kernel ties tables registry plane label property query metric k.toNat) := by
  rw [vectorTopK_iff, Affordable, covers]
  rintro ⟨fits, -⟩
  omega

theorem bareIndex_runs : runs .scalar bareIndex.reindex [(.steady, .search [0x3f800000] 0 none)] =
    .ok bareIndex.reindex := by
  have found : bareIndex.reindex.search .scalar .steady [0x3f800000] 0 none = .ok [] := by
    with_unfolding_all decide
  rw [runs, List.foldlM_cons, search_run.mpr ⟨rfl, _, found⟩]
  rfl

/-- A registry with an index that has been searched once. -/
def searchedOnce : Registry Declared :=
  (∅ : Registry Declared).insert (0, "Doc", "v") (.ofRun .l2 (by decide) bareIndex_runs)

theorem searchedOnce_covers : covering (some searchedOnce) 0 (some "Doc") "v" .l2 =
    some (.ofRun .l2 (by decide) bareIndex_runs) := by
  simp [covering, searchedOnce, Declared.ofRun]

example :
    ¬ (Unharmed (vectorTopK ⟨.scalar, fun _ _ => 0⟩ .steady .empty (some searchedOnce) 0
      (some "Doc") "v" [0x3f800000] .l2 (2 ^ 63)) ∧
    FindsAll ⟨.scalar, fun _ _ => 0⟩ .steady .empty (some searchedOnce) 0 (some "Doc") "v"
      [0x3f800000] .l2 (2 ^ 63 : UInt64).toNat) :=
  not_findsAll_of_run searchedOnce_covers (by decide +kernel)

/-- **Which counts are affordable**: of `top_k`, of a search of an index, of a vector source and of
a ranked frontier. -/
theorem hugeK_iff (kernel : Kernel) (heap : HitHeap) (ties : Ties) (query : List F32) (k : UInt64) :
    (∀ items, (∃ hits, streamTopK heap items (clampCount k) = .ok hits ∧
      KLeast Prod.fst k.toNat items hits) ↔
      Room k.toNat) ∧
    (∀ (entry : Declared) (filter : Option (ℕ → Bool)),
      entry.index.Serves kernel.toArith ties query (clampCount k) filter ↔
        k.toNat * (if filter.isSome then 8 else 2) < 2 ^ 64 ∧
        (entry.index.entry = none ∨ Room k.toNat)) ∧
    (∀ (tables : Tables) registry plane label property metric,
      Unharmed (vectorTopK kernel ties tables registry plane label property query metric k) ∧
          FindsAll kernel ties tables registry plane label property query metric k.toNat ↔
        Affordable kernel tables registry plane label property query metric k.toNat) ∧
    (∀ (tables : Tables) plane property metric (heads : List NodeId),
      RanksAll (frontierTopK kernel ties tables plane property query metric heads k)
          (ranked kernel tables plane property query metric heads.eraseDups) k.toNat ↔
        ((∃ items, ranked kernel tables plane property query metric heads.eraseDups = .ok items) →
          Room k.toNat)) := by
  rw [clampCount_eq]
  refine ⟨fun items => streamTopK_ends heap items k.toNat, fun entry filter => serves_iff entry.sound,
    fun _ _ _ _ _ _ => vectorTopK_iff k, fun tables plane property metric heads => ?_⟩
  rw [frontierTopK, clampCount_eq]
  exact ranksAll_iff

/-- A `k` whose double is too large, and one for which there is no room. -/
theorem hugeK_panics :
    HnswIndex.search .scalar .steady bareIndex [0x3f800000] (clampCount (2 ^ 63)) none =
      .error .overflow ∧
      streamTopK (.first _) [(⟨0⟩, 1)] (clampCount (2 ^ 60)) = .error .capacity := by
  constructor <;> decide +kernel

end DrStrange.Hnsw
