/-
**One scratch for all searches.**

The searches of a thread share their buffers, whatever the indexes and their sizes, and the set of
visited nodes is emptied by its generation alone. A search is written here over any way to meet a
node once; the code's, by stamps, goes in step with a list that is begun anew (`search_list`), so a
call finds the same whatever the scratch was used for (`results_eq`). On the list a search ends, and
meets no node twice (`finishes_searchBy`). A call answers as the search of the index without a
scratch does, in some order of equal distances (`search_refines`).
-/

import DrStrange.Lib.Fallible
import DrStrange.Lib.Stamps
import DrStrange.Hnsw.Answers

namespace DrStrange.Hnsw

open DrStrange.Graph Lib BestFirst

/-! ### A search over marks -/

/-- A search in progress. Of the heap `w` there are the pushes since it was empty, from which its
contents and its layout follow; the nodes met are for the proofs alone. -/
structure Progress (μ : Type) where
  marks : μ
  cand : List (Dist × ℕ)
  w : List (Dist × ℕ)
  met : List ℕ

/-- What a heap of at most `ef` holds after its pushes, farthest first. -/
def held (ef : ℕ) (pushes : List (Dist × ℕ)) : List (Dist × ℕ) :=
  pushes.foldr (fun x kept => pushBounded ef kept x) []

/-- The order in which a heap is read, as the pushes left it. -/
structure Layout where
  order : ℕ → List (Dist × ℕ) → List (Dist × ℕ)
  perm : ∀ ef pushes, (order ef pushes).Perm (held ef pushes)

section

variable {μ : Type} (meet : μ → ℕ → Run (Option (μ × Dist))) (reads : Reads Run Dist) (ef : ℕ)

/-- A node met becomes a candidate, and is pushed if it is live. -/
def Progress.offer (s : Progress μ) (marks : μ) (d : Dist) (e : ℕ) (live : Bool) : Progress μ where
  marks := marks
  cand := s.cand.orderedInsert nearer (d, e)
  w := if live then (d, e) :: s.w else s.w
  met := e :: s.met

def seedBy (s : Progress μ) (e : ℕ) : Run (Progress μ) := do
  match ← meet s.marks e with
  | none => return s
  | some (marks, d) => return s.offer marks d e (← reads.live e)

def Progress.farthest (s : Progress μ) : Dist := ((held ef s.w).head?.map Prod.fst).getD reads.far

def visitBy (s : Progress μ) (e : ℕ) : Run (Progress μ) := do
  match ← meet s.marks e with
  | none => return s
  | some (marks, d) =>
    if reads.closer d (s.farthest reads ef) ∨ (held ef s.w).length < ef then
      return s.offer marks d e (← reads.live e)
    else return { s with marks, met := e :: s.met }

/-- The nearest candidate is worse than the worst that is kept. -/
def Progress.settled (s : Progress μ) (d : Dist) : Bool :=
  ef ≤ (held ef s.w).length && (held ef s.w).head?.any fun farthest => reads.closer farthest.1 d

def expandBy : ℕ → Progress μ → Run (Progress μ)
  | rounds, s =>
    match s.cand, rounds with
    | [], _ => .ok s
    | _ :: _, 0 => .error .unfinished
    | (d, c) :: cand, rounds + 1 =>
      if s.settled reads ef d then .ok s
      else do
        let s ← (← reads.links c).foldlM (visitBy meet reads ef) { s with cand }
        expandBy rounds s

/-- The search from `starts` with heaps that are empty. -/
def searchBy (marks : μ) (starts : List ℕ) (rounds : ℕ) : Run (Progress μ) := do
  let s ← starts.foldlM (seedBy meet reads) ⟨marks, [], [], []⟩
  expandBy meet reads ef rounds s

end

/-! ### The scratch of the code -/

structure Scratch extends Stamps where
  cand : List (Dist × ℕ)
  w : List (Dist × ℕ)

def Scratch.default : Scratch := ⟨.empty, [], []⟩

/-- Ready for a search over `n` nodes. -/
def Scratch.ready (scratch : Scratch) (n : ℕ) : Scratch := ⟨scratch.toStamps.ready n, [], []⟩

/-- A node that has no stamp of this search is stamped and measured. -/
def meetStamped (reads : Reads Run Dist) (stamps : Stamps) (e : ℕ) : Run (Option (Stamps × Dist)) :=
  do
  let stamp ← fetch stamps.visited e
  if stamp = stamps.epoch then return none
  else do
    let stamps := stamps.mark e
    let d ← reads.dist e
    return some (stamps, d)

/-- The arguments of a call. -/
structure Call where
  nodes : List Node
  metric : Metric
  q : Query
  starts : List ℕ
  ef : ℕ
  layer : ℕ

section

variable (arith : Arith) (layout : Layout)

/-- What is found nearest first, the nodes met on the way, and the scratch as it is left. -/
def searchLayerWith (call : Call) (scratch : Scratch) :
    Run ((List (Dist × ℕ) × List ℕ) × Scratch) := do
  let scratch := scratch.ready call.nodes.length
  let reads := layerReads arith call.nodes call.metric call.q call.layer
  let s ← searchBy (meetStamped reads) reads call.ef scratch.toStamps call.starts call.nodes.length
  return ((sortByDistance (layout.order call.ef s.w), s.met), ⟨s.marks, s.cand, s.w⟩)

/-- What is done with a scratch: a search, or it is dropped and made anew. -/
inductive Use where
  | call (call : Call)
  | drop

/-- The results of the calls of one thread. A panic takes the scratch with it. -/
def results : Scratch → List Use → List (Run (List (Dist × ℕ) × List ℕ))
  | _, [] => []
  | _, .drop :: uses => results .default uses
  | scratch, .call call :: uses =>
    match searchLayerWith arith layout call scratch with
    | .ok (found, scratch) => .ok found :: results scratch uses
    | .error panic => .error panic :: results .default uses

/-- A call with a scratch of its own. -/
def fresh (call : Call) : Run (List (Dist × ℕ) × List ℕ) :=
  (searchLayerWith arith layout call .default).map Prod.fst

end

def calls (uses : List Use) : List Call :=
  uses.filterMap fun use => match use with
    | .call call => some call
    | .drop => none

/-! ### Searches in step -/

section

variable {μ ν : Type} {meet : μ → ℕ → Run (Option (μ × Dist))}
  {meet' : ν → ℕ → Run (Option (ν × Dist))}
  {reads : Reads Run Dist} {ef : ℕ} {related : μ → ν → Prop}

/-- The same search but for the marks. -/
structure Like (related : μ → ν → Prop) (s : Progress μ) (t : Progress ν) : Prop where
  marks : related s.marks t.marks
  cand : s.cand = t.cand
  w : s.w = t.w
  met : s.met = t.met

/-- The same nodes are met at the same distances. -/
def InStep (meet : μ → ℕ → Run (Option (μ × Dist))) (meet' : ν → ℕ → Run (Option (ν × Dist)))
    (related : μ → ν → Prop) : Prop :=
  ∀ a b e, related a b →
    Paired (Option.Rel fun x y => related x.1 y.1 ∧ x.2 = y.2) (meet a e) (meet' b e)

variable {s : Progress μ} {t : Progress ν} {a : μ} {b : ν}

theorem Like.offer (like : Like related s t) (marks : related a b) (d : Dist) (e : ℕ) (live : Bool) :
    Like related (s.offer a d e live) (t.offer b d e live) where
  marks := marks
  cand := by rw [Progress.offer, Progress.offer, like.cand]
  w := by rw [Progress.offer, Progress.offer, like.w]
  met := by rw [Progress.offer, Progress.offer, like.met]

theorem seedBy_like (inStep : InStep meet meet' related) (like : Like related s t) (e : ℕ) :
    Paired (Like related) (seedBy meet reads s e) (seedBy meet' reads t e) := by
  refine (inStep _ _ e like.marks).bind fun x y same => ?_
  cases same with
  | none => exact .ok like
  | @some x y both =>
    obtain ⟨a, d⟩ := x
    obtain ⟨b, _⟩ := y
    obtain ⟨marks, rfl⟩ := both
    refine (Paired.refl (reads.live e)).bind ?_
    rintro live _ rfl
    exact .ok (like.offer marks d e live)

theorem visitBy_like (inStep : InStep meet meet' related) (like : Like related s t) (e : ℕ) :
    Paired (Like related) (visitBy meet reads ef s e) (visitBy meet' reads ef t e) := by
  refine (inStep _ _ e like.marks).bind fun x y same => ?_
  cases same with
  | none => exact .ok like
  | @some x y both =>
    obtain ⟨a, d⟩ := x
    obtain ⟨b, _⟩ := y
    obtain ⟨marks, rfl⟩ := both
    have far : s.farthest reads ef = t.farthest reads ef := by
      rw [Progress.farthest, Progress.farthest, like.w]
    by_cases near : reads.closer d (t.farthest reads ef) ∨ (held ef t.w).length < ef
    · simp only [far, like.w, if_pos near]
      refine (Paired.refl (reads.live e)).bind ?_
      rintro live _ rfl
      exact .ok (like.offer marks d e live)
    · simp only [far, like.w, if_neg near]
      exact .ok ⟨marks, like.cand, rfl, congrArg (e :: ·) like.met⟩

theorem expandBy_like (inStep : InStep meet meet' related) (rounds : ℕ) (like : Like related s t) :
    Paired (Like related) (expandBy meet reads ef rounds s) (expandBy meet' reads ef rounds t) := by
  have settled : ∀ (s : Progress μ) (t : Progress ν) d, s.w = t.w →
      s.settled reads ef d = t.settled reads ef d := by
    intro s t d same
    rw [Progress.settled, Progress.settled, same]
  induction rounds generalizing s t with
  | zero =>
    unfold expandBy
    rw [like.cand]
    cases t.cand with
    | nil => exact .ok like
    | cons x cand => exact .error _
  | succ rounds ih =>
    unfold expandBy
    rw [like.cand]
    cases t.cand with
    | nil => exact .ok like
    | cons x cand =>
      simp only [settled s t x.1 like.w]
      by_cases full : t.settled reads ef x.1
      · rw [if_pos full, if_pos full]
        exact .ok like
      · rw [if_neg full, if_neg full]
        refine (Paired.refl (reads.links x.2)).bind ?_
        rintro neighbours _ rfl
        have first : Like related { s with cand } { t with cand } :=
          ⟨like.marks, rfl, like.w, like.met⟩
        exact (Paired.foldlM neighbours first fun _ _ e like => visitBy_like inStep like e).bind
          fun _ _ like => ih like

theorem searchBy_like (inStep : InStep meet meet' related) (marks : related a b) (starts : List ℕ)
    (rounds : ℕ) :
    Paired (Like related) (searchBy meet reads ef a starts rounds)
    (searchBy meet' reads ef b starts rounds) :=
  (Paired.foldlM starts ⟨marks, rfl, rfl, rfl⟩ fun _ _ e like => seedBy_like inStep like e).bind
    fun _ _ like => expandBy_like inStep rounds like

end

/-! ### Stamps go in step with a list -/

/-- A node that is not in the list is put there and measured. -/
def meetListed (reads : Reads Run Dist) (visited : List ℕ) (e : ℕ) : Run (Option (List ℕ × Dist)) :=
  if e ∈ visited then return none
  else do
    let d ← reads.dist e
    return some (e :: visited, d)

/-- The stamped nodes are those listed, all of them among the first `n`, and there is room for
these. -/
structure Stamped (n : ℕ) (stamps : Stamps) (visited : List ℕ) : Prop where
  clean : stamps.Clean
  room : n ≤ stamps.visited.length
  same : ∀ e, stamps.Seen e ↔ e ∈ visited
  inside : ∀ e ∈ visited, e < n

theorem stamped_ready {stamps : Stamps} (clean : stamps.Clean) (n : ℕ) :
    Stamped n (stamps.ready n) [] where
  clean := Stamps.clean_ready clean
  room := Stamps.length_ready
  same _ := iff_of_false (Stamps.ready_not_seen clean) List.not_mem_nil
  inside := nofun

section

variable {reads : Reads Run Dist} {n : ℕ}

/-- Past the nodes there is nothing to measure. -/
def Bounded (reads : Reads Run Dist) (n : ℕ) : Prop := ∀ e, n ≤ e → reads.dist e = .error .outOfBounds

/-- Beyond its room the stamps panic where the measuring would. -/
theorem inStep_stamped (bounded : Bounded reads n) :
    InStep (meetStamped reads) (meetListed reads) (Stamped n) := by
  intro stamps visited e stamped
  by_cases inside : e < stamps.visited.length
  · have stamp : fetch stamps.visited e = .ok stamps.visited[e] := by
      rw [fetch, List.getElem?_eq_getElem inside]
    have seen : stamps.visited[e] = stamps.epoch ↔ e ∈ visited := by
      rw [← stamped.same, Stamps.Seen, List.getElem?_eq_getElem inside, Option.some.injEq]
    rw [meetStamped, meetListed, stamp]
    by_cases listed : e ∈ visited
    · rw [if_pos listed]
      change Paired _ (if stamps.visited[e] = stamps.epoch then _ else _) _
      rw [if_pos (seen.mpr listed)]
      exact .ok .none
    · rw [if_neg listed]
      change Paired _ (if stamps.visited[e] = stamps.epoch then _ else _) _
      rw [if_neg fun now => listed (seen.mp now)]
      by_cases node : e < n
      · refine (Paired.refl (reads.dist e)).bind ?_
        rintro d _ rfl
        refine .ok (.some ⟨⟨Stamps.clean_mark stamped.clean, ?_, fun i => ?_, ?_⟩, rfl⟩)
        · rw [Stamps.length_mark]
          exact stamped.room
        · rw [Stamps.seen_mark inside, stamped.same, List.mem_cons]
        · exact List.forall_mem_cons.mpr ⟨node, stamped.inside⟩
      · rw [bounded e (Nat.not_lt.mp node)]
        exact .error _
  · have past : n ≤ e := stamped.room.trans (Nat.not_lt.mp inside)
    have missing : fetch stamps.visited e = .error .outOfBounds := by
      rw [fetch, List.getElem?_eq_none (Nat.not_lt.mp inside)]
    have unlisted : e ∉ visited :=
      fun listed => absurd (stamped.inside e listed) (Nat.not_lt.mpr past)
    rw [meetStamped, meetListed, missing, if_neg unlisted, bounded e past]
    exact .error _

end

/-! ### A search ends, and meets no node twice -/

/-- No rounds run out, and a result is as `post` says. -/
def finishes : Outcome Run where
  ends x post := x ≠ .error .unfinished ∧ ∀ a, x = .ok a → post a
  pure holds := ⟨nofun, fun _ same => Except.ok.inj same ▸ holds⟩
  bind := by
    rintro α β (e | a) f mid post ⟨ends, holds⟩ next
    · exact ⟨fun same => ends (congrArg Except.error (Except.error.inj same)), nofun⟩
    · exact next a (holds a rfl)
  mono ends weaker := ⟨ends.1, fun a same => weaker a (ends.2 a same)⟩

section

variable {reads : Reads Run Dist} {n ef rounds e : ℕ} {s : Progress (List ℕ)}

/-- The reads end, with a node or a panic. -/
structure Finite (reads : Reads Run Dist) (n : ℕ) : Prop where
  bounded : Bounded reads n
  dist : ∀ e, reads.dist e ≠ .error .unfinished
  live : ∀ e, reads.live e ≠ .error .unfinished
  links : ∀ c, reads.links c ≠ .error .unfinished

/-- The nodes met are those listed, each once, and with the candidates what is left fits the rounds.
-/
structure Metered (n rounds : ℕ) (s : Progress (List ℕ)) : Prop where
  listed : s.marks = s.met
  once : s.met.Nodup
  inside : ∀ e ∈ s.met, e < n
  room : s.cand.length + (n - s.met.length) ≤ rounds

theorem Metered.length_lt (fits : Metered n rounds s) (new : e ∉ s.met) (inside : e < n) :
    s.met.length < n := by
  have within : e :: s.met ⊆ List.range n := fun i member => by
    obtain rfl | old := List.mem_cons.mp member
    · exact List.mem_range.mpr inside
    · exact List.mem_range.mpr (fits.inside i old)
  have short := (List.subperm_of_subset (List.nodup_cons.mpr ⟨new, fits.once⟩) within).length_le
  rwa [List.length_range] at short

theorem Metered.offer (fits : Metered n rounds s) (new : e ∉ s.met) (inside : e < n) (d : Dist)
    (live : Bool) :
    Metered n rounds (s.offer (e :: s.marks) d e live) where
  listed := congrArg (e :: ·) fits.listed
  once := List.nodup_cons.mpr ⟨new, fits.once⟩
  inside := List.forall_mem_cons.mpr ⟨inside, fits.inside⟩
  room := by
    have before := fits.room
    have short := fits.length_lt new inside
    rw [Progress.offer, List.orderedInsert_length, List.length_cons]
    omega

theorem Metered.pass (fits : Metered n rounds s) (new : e ∉ s.met) (inside : e < n) :
    Metered n rounds { s with marks := e :: s.marks, met := e :: s.met } where
  listed := congrArg (e :: ·) fits.listed
  once := List.nodup_cons.mpr ⟨new, fits.once⟩
  inside := List.forall_mem_cons.mpr ⟨inside, fits.inside⟩
  room := by
    have before := fits.room
    show s.cand.length + (n - (s.met.length + 1)) ≤ rounds
    omega

/-- What is met is a node, and new. -/
theorem finishes_meet (finite : Finite reads n) (visited : List ℕ) (e : ℕ) :
    finishes.ends (meetListed reads visited e) fun met => ∀ marks d, met = some (marks, d) →
      e ∉ visited ∧ e < n ∧ marks = e :: visited := by
  rw [meetListed]
  split_ifs with listed
  · exact finishes.pure nofun
  · have measured : finishes.ends (reads.dist e) fun _ => e < n := by
      refine ⟨finite.dist e, fun d read => ?_⟩
      by_contra past
      rw [finite.bounded e (Nat.not_lt.mp past)] at read
      cases read
    refine finishes.bind measured fun d inside => finishes.pure ?_
    rintro marks _ ⟨⟩
    exact ⟨listed, inside, rfl⟩

theorem finishes_live (finite : Finite reads n) (e : ℕ) :
    finishes.ends (reads.live e) fun _ => True :=
  ⟨finite.live e, fun _ _ => trivial⟩

theorem finishes_seedBy (finite : Finite reads n) (fits : Metered n rounds s) (e : ℕ) :
    finishes.ends (seedBy (meetListed reads) reads s e) (Metered n rounds) := by
  refine finishes.bind (finishes_meet finite s.marks e) fun met found => ?_
  cases met with
  | none => exact finishes.pure fits
  | some x =>
    obtain ⟨new, inside, same⟩ := found x.1 x.2 rfl
    rw [fits.listed] at new
    refine finishes.bind (finishes_live finite e) fun live _ => finishes.pure ?_
    rw [same]
    exact fits.offer new inside x.2 live

theorem finishes_visitBy (finite : Finite reads n) (fits : Metered n rounds s) (e : ℕ) :
    finishes.ends (visitBy (meetListed reads) reads ef s e) (Metered n rounds) := by
  refine finishes.bind (finishes_meet finite s.marks e) fun met found => ?_
  cases met with
  | none => exact finishes.pure fits
  | some x =>
    obtain ⟨new, inside, same⟩ := found x.1 x.2 rfl
    rw [fits.listed] at new
    simp only [same]
    split_ifs
    · refine finishes.bind (finishes_live finite e) fun live _ => finishes.pure ?_
      exact fits.offer new inside x.2 live
    · exact finishes.pure (fits.pass new inside)

theorem finishes_expandBy (finite : Finite reads n) (fits : Metered n rounds s) :
    finishes.ends (expandBy (meetListed reads) reads ef rounds s) fun s => s.met.Nodup ∧
    ∀ e ∈ s.met, e < n := by
  induction rounds generalizing s with
  | zero =>
    have room := fits.room
    have drained : s.cand = [] := List.length_eq_zero_iff.mp (by omega)
    unfold expandBy
    rw [drained]
    exact finishes.pure ⟨fits.once, fits.inside⟩
  | succ rounds ih =>
    unfold expandBy
    cases popped : s.cand with
    | nil => exact finishes.pure ⟨fits.once, fits.inside⟩
    | cons x cand =>
      simp only
      split_ifs
      · exact finishes.pure ⟨fits.once, fits.inside⟩
      · have room := fits.room
        rw [popped, List.length_cons] at room
        have rest : Metered n rounds { s with cand } := ⟨fits.listed, fits.once, fits.inside, by
          show cand.length + (n - s.met.length) ≤ rounds
          omega⟩
        refine finishes.bind ⟨finite.links x.2, fun _ _ => trivial⟩ fun neighbours (_ : True) => ?_
        refine finishes.bind (Outcome.foldlM (Metered n rounds) rest fun s fits e _ =>
          finishes_visitBy finite fits e) fun s fits => ih fits

theorem finishes_searchBy (finite : Finite reads n) (ef : ℕ) (starts : List ℕ) :
    finishes.ends (searchBy (meetListed reads) reads ef [] starts n) fun s =>
      s.met.Nodup ∧ ∀ e ∈ s.met, e < n := by
  have first : Metered n n (⟨[], [], [], []⟩ : Progress (List ℕ)) :=
    ⟨rfl, List.nodup_nil, nofun, by simp⟩
  exact finishes.bind (Outcome.foldlM (Metered n n) first fun s fits e _ =>
    finishes_seedBy finite fits e)
    fun s fits => finishes_expandBy finite fits

end

/-! ### The same search as without a scratch -/

section

variable {reads : Reads Run Dist} {ef : ℕ} {s : Progress (List ℕ)} {beam : Beam Dist}

/-- The beam of the search whose heap is a list. -/
structure Held (ef : ℕ) (s : Progress (List ℕ)) (beam : Beam Dist) : Prop where
  visited : s.marks = beam.visited
  cand : s.cand = beam.cand
  kept : held ef s.w = beam.kept

theorem Held.offer (same : Held ef s beam) (d : Dist) (e : ℕ) (live : Bool) :
    Held ef (s.offer (e :: s.marks) d e live) (BestFirst.offer ef beam d e live) where
  visited := congrArg (e :: ·) same.visited
  cand := congrArg (List.orderedInsert nearer (d, e)) same.cand
  kept := by
    cases live with
    | false => exact same.kept
    | true => exact congrArg (pushBounded ef · (d, e)) same.kept

theorem seedBy_held (same : Held ef s beam) (e : ℕ) :
    Paired (Held ef) (seedBy (meetListed reads) reads s e) (seed reads ef beam e) := by
  rw [seedBy, meetListed, seed, ← same.visited]
  split_ifs
  · exact .ok same
  · rw [bind_assoc]
    refine (Paired.refl (reads.dist e)).bind ?_
    rintro d _ rfl
    refine (Paired.refl (reads.live e)).bind ?_
    rintro live _ rfl
    exact .ok (same.offer d e live)

theorem visitBy_held (same : Held ef s beam) (e : ℕ) :
    Paired (Held ef) (visitBy (meetListed reads) reads ef s e) (visit reads ef beam e) := by
  rw [visitBy, meetListed, visit, ← same.visited]
  split_ifs
  · exact .ok same
  · rw [bind_assoc]
    refine (Paired.refl (reads.dist e)).bind ?_
    rintro d _ rfl
    have far : s.farthest reads ef = farthest reads beam := by
      rw [Progress.farthest, same.kept]
      rfl
    change Paired _ (if reads.closer d (s.farthest reads ef) ∨
      (held ef s.w).length < ef then _ else _) _
    rw [far, same.kept]
    split_ifs
    · refine (Paired.refl (reads.live e)).bind ?_
      rintro live _ rfl
      exact .ok (same.offer d e live)
    · exact .ok ⟨rfl, same.cand, same.kept⟩

theorem expandBy_held (stuck : reads.unfinished = .error .unfinished) (rounds : ℕ)
    (same : Held ef s beam) :
    Paired (Held ef) (expandBy (meetListed reads) reads ef rounds s)
    (expand reads ef rounds beam) := by
  induction rounds generalizing s beam with
  | zero =>
    unfold expandBy expand
    rw [same.cand]
    cases beam.cand with
    | nil => exact .ok same
    | cons x cand =>
      simp only [stuck]
      exact .error _
  | succ rounds ih =>
    unfold expandBy expand
    rw [same.cand]
    cases beam.cand with
    | nil => exact .ok same
    | cons x cand =>
      have full : s.settled reads ef x.1 = settled reads ef beam x.1 := by
        rw [Progress.settled, same.kept]
        rfl
      simp only [full]
      split_ifs
      · exact .ok same
      · refine (Paired.refl (reads.links x.2)).bind ?_
        rintro neighbours _ rfl
        have first : Held ef { s with cand } { beam with cand } := ⟨same.visited, rfl, same.kept⟩
        exact (Paired.foldlM neighbours first fun _ _ e same => visitBy_held same e).bind
          fun _ _ same => ih same

/-- The pushes hold what the search without a scratch keeps. -/
theorem search_bestFirst (stuck : reads.unfinished = .error .unfinished) (starts : List ℕ)
    (rounds : ℕ) :
    Paired (fun s kept => held ef s.w = kept) (searchBy (meetListed reads) reads ef [] starts rounds)
      (BestFirst.search reads ef starts rounds) := by
  have first : Held ef (⟨[], [], [], []⟩ : Progress (List ℕ)) ⟨[], [], []⟩ := ⟨rfl, rfl, rfl⟩
  refine (Paired.foldlM starts first fun _ _ e same => seedBy_held same e).bind fun s beam same => ?_
  exact (expandBy_held stuck rounds same).map_right fun _ _ same => same.kept

end

/-! ### Any scratch is as good as a new one -/

section

variable {arith : Arith} {layout : Layout} {scratch : Scratch}

theorem bounded_layerReads (arith : Arith) (call : Call) :
    Bounded (layerReads arith call.nodes call.metric call.q call.layer) call.nodes.length := by
  intro e past
  have missing : fetch call.nodes e = .error .outOfBounds := by
    rw [fetch, List.getElem?_eq_none past]
  show (fetch call.nodes e >>= _) = _
  rw [missing]
  rfl

theorem ends_of_finishes {α : Type} {x : Run α} (ends : finishes.ends x fun _ => True) :
    x ≠ .error .unfinished :=
  ends.1

theorem finishes_fetch {α : Type} (xs : List α) (i : ℕ) :
    finishes.ends (fetch xs i) fun _ => True := by
  refine ⟨fun unfinished => ?_, fun _ _ => trivial⟩
  rw [fetch] at unfinished
  cases found : xs[i]? <;> simp [found] at unfinished

theorem finite_layerReads (arith : Arith) (call : Call) :
    Finite (layerReads arith call.nodes call.metric call.q call.layer) call.nodes.length where
  bounded := bounded_layerReads arith call
  dist e := ends_of_finishes <| finishes.bind (finishes_fetch call.nodes e) fun _ _ =>
    finishes.pure trivial
  live e := ends_of_finishes <| finishes.bind (finishes_fetch call.nodes e) fun _ _ =>
    finishes.pure trivial
  links c := ends_of_finishes <| finishes.bind (finishes_fetch call.nodes c) fun node _ =>
    finishes_fetch node.layers call.layer

theorem clean_default : Scratch.default.Clean := Stamps.clean_empty

/-- The search with a list begun anew. -/
def searchListed (arith : Arith) (call : Call) : Run (Progress (List ℕ)) :=
  let reads := layerReads arith call.nodes call.metric call.q call.layer
  searchBy (meetListed reads) reads call.ef [] call.starts call.nodes.length

/-- Whatever a clean scratch was used for, the search goes as with a list, and leaves it clean. -/
theorem search_list (arith : Arith) (layout : Layout) (call : Call) (clean : scratch.Clean) :
    Paired (fun x t => x.1 = (sortByDistance (layout.order call.ef t.w), t.met) ∧ x.2.Clean)
      (searchLayerWith arith layout call scratch) (searchListed arith call) := by
  refine Paired.map_left (searchBy_like (inStep_stamped (bounded_layerReads arith call))
    (stamped_ready clean call.nodes.length) call.starts call.nodes.length) fun s t same =>
      ⟨?_, same.marks.clean⟩
  rw [same.w, same.met]

/-- The order that reads one heap as its pushes left it. -/
def Layout.ties (layout : Layout) (ef : ℕ) (pushes : List (Dist × ℕ)) : Ties where
  order _ xs := if xs = held ef pushes then layout.order ef pushes else xs
  perm _ xs := by
    split_ifs with same
    · exact same ▸ layout.perm ef pushes
    · exact .refl xs
  hits := Ties.steady.hits
  permHits := Ties.steady.permHits

/-- A call finds what the search of the index finds, in some order of equal distances. -/
theorem fresh_searchLayer (call : Call) : ∃ ties : Ties, (fresh arith layout call).map Prod.fst =
    searchLayer arith ties call.nodes call.metric call.q call.starts call.ef call.layer := by
  have went := search_list arith layout call clean_default
  have kept : Paired (fun s kept => held call.ef s.w = kept) (searchListed arith call)
      (BestFirst.search (layerReads arith call.nodes call.metric call.q call.layer) call.ef
        call.starts
        call.nodes.length) := search_bestFirst rfl call.starts call.nodes.length
  rw [fresh]
  unfold searchLayer
  generalize searchLayerWith arith layout call .default = own at went ⊢
  generalize searchListed arith call = listed at went kept
  revert kept
  generalize BestFirst.search (layerReads arith call.nodes call.metric call.q call.layer) call.ef
    call.starts
    call.nodes.length = beam
  intro kept
  cases went with
  | error panic =>
    cases kept with
    | error => exact ⟨layout.ties call.ef [], rfl⟩
  | @ok own t found =>
    cases kept with
    | ok same =>
      refine ⟨layout.ties call.ef t.w, ?_⟩
      show Except.ok own.1.1 = .ok (sortByDistance (if _ = held call.ef t.w then _ else _))
      rw [found.1, if_pos same.symm]

/-- The calls find what each finds with a scratch of its own. -/
theorem results_eq (arith : Arith) (layout : Layout) (uses : List Use) (clean : scratch.Clean) :
    results arith layout scratch uses = (calls uses).map (fresh arith layout) := by
  induction uses generalizing scratch with
  | nil => rfl
  | cons use uses ih =>
    cases use with
    | drop => exact ih clean_default
    | call call =>
      have here := search_list arith layout call clean
      have anew := search_list arith layout call clean_default
      rw [results]
      change _ = fresh arith layout call :: (calls uses).map (fresh arith layout)
      rw [fresh]
      generalize searchLayerWith arith layout call scratch = shared at here ⊢
      generalize searchLayerWith arith layout call .default = own at anew ⊢
      generalize searchListed arith call = listed at here anew
      cases here with
      | error panic =>
        cases anew with
        | error => exact congrArg (Except.error panic :: ·) (ih clean_default)
      | ok found =>
        cases anew with
        | ok again =>
          obtain ⟨same, left⟩ := found
          simp only [Except.map, same, again.1]
          exact congrArg (_ :: ·) (ih left)

/-- **A search does not depend on what its thread searched before.** The results of any uses of one
scratch are those of new ones; each search ends, and meets nodes alone, none of them twice. -/
theorem search_independent (arith : Arith) (layout : Layout) (uses : List Use) :
    results arith layout .default uses = (calls uses).map (fresh arith layout) ∧
    ∀ result ∈ results arith layout .default uses, result ≠ .error .unfinished ∧
      ∀ found met, result = .ok (found, met) → met.Nodup := by
  have same := results_eq arith layout uses clean_default
  refine ⟨same, fun result inside => ?_⟩
  rw [same] at inside
  obtain ⟨call, -, rfl⟩ := List.mem_map.mp inside
  have ends : finishes.ends (searchListed arith call) fun s => s.met.Nodup ∧
      ∀ e ∈ s.met, e < call.nodes.length :=
    finishes_searchBy (finite_layerReads arith call) call.ef call.starts
  have went := search_list arith layout call clean_default
  rw [fresh]
  generalize searchLayerWith arith layout call .default = own at went ⊢
  generalize searchListed arith call = listed at went ends
  cases went with
  | error panic => exact ⟨fun stuck => ends.1 (congrArg Except.error (Except.error.inj stuck)), nofun⟩
  | @ok own listed found =>
    refine ⟨nofun, fun hits met same => ?_⟩
    have both := (Except.ok.inj same).symm.trans found.1
    rw [(Prod.mk.inj both).2]
    exact (ends.2 listed rfl).1

/-- A heap read farthest first. -/
def Layout.farthestFirst : Layout := ⟨held, fun _ _ => .refl _⟩

/-- Two linked nodes are searched from the first, from a node that is not there, and from the second
with a beam of one. -/
def sharedUses : List Use :=
  let nodes : List Node := [⟨1, [0], 0, false, [[1]]⟩, ⟨2, [0x3f800000], 0x3f800000, false, [[0]]⟩]
  [.call ⟨nodes, .dot, ⟨[0x3f800000], 0x3f800000⟩, [0], 2, 0⟩,
    .call ⟨nodes, .dot, ⟨[0x3f800000], 0x3f800000⟩, [7], 2, 0⟩, .drop,
    .call ⟨nodes, .dot, ⟨[0x3f800000], 0x3f800000⟩, [1], 1, 0⟩]

/-- Both nodes are met in the first search and in the last, and the second panics. -/
theorem search_independent_shared :
    results .scalar .farthestFirst .default sharedUses =
        (calls sharedUses).map (fresh .scalar .farthestFirst) ∧
      (results .scalar .farthestFirst .default sharedUses).map
        (fun result => result.toOption.map Prod.snd) =
        [some [1, 0], none, some [0, 1]] :=
  ⟨(search_independent .scalar .farthestFirst sharedUses).1, by decide +kernel⟩

/-- **A thread's scratch searches as the index does.** Whatever one thread searches with one
scratch, and wherever it is dropped and made anew, each call answers or fails as the search of the
index without a scratch does, in some order of equal distances. -/
theorem search_refines (arith : Arith) (layout : Layout) (uses : List Use) :
    List.Forall₂ (fun result call => ∃ ties : Ties, result.map Prod.fst =
        searchLayer arith ties call.nodes call.metric call.q call.starts call.ef call.layer)
      (results arith layout .default uses) (calls uses) := by
  rw [results_eq arith layout uses clean_default, List.forall₂_map_left_iff, List.forall₂_same]
  exact fun call _ => fresh_searchLayer call

theorem search_refines_shared :
    List.Forall₂ (fun result call => ∃ ties : Ties, result.map Prod.fst =
        searchLayer .scalar ties call.nodes call.metric call.q call.starts call.ef call.layer)
      (results .scalar .farthestFirst .default sharedUses) (calls sharedUses) :=
  search_refines .scalar .farthestFirst sharedUses

end

end DrStrange.Hnsw
