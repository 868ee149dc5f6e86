/-
**Best-first search of a graph with a bounded beam.**

The nearest candidate is expanded next; the beam keeps the `ef` nearest live nodes met so far and
the search stops when no candidate can better them. Nodes that are not live are passed through and
never kept. The graph is read in a monad, and distances are compared twice over: by a linear order
in the two heaps, and by a relation of the caller's in the tests of the loop, of which nothing is
assumed.

What a search delivers (`ends_search`): live nodes it can reach, each once, at most `ef`, and fewer
than that only where it has them all. A graph of `n` nodes is searched in `n` rounds.
-/

import DrStrange.Lib.Outcome

namespace DrStrange.Lib.BestFirst

variable {m : Type → Type} [Monad m] {δ : Type} [LinearOrder δ] {kept : List (δ × ℕ)} {x y : δ × ℕ}
  {ef : ℕ}

/-! ### The search -/

structure Beam (δ : Type) where
  visited : List ℕ
  /-- The candidates, nearest first. -/
  cand : List (δ × ℕ)
  /-- The live nodes kept, farthest first. -/
  kept : List (δ × ℕ)

/-- What a search reads, how its loop compares distances, and what it answers when its rounds run
out. -/
structure Reads (m : Type → Type) (δ : Type) where
  dist : ℕ → m δ
  live : ℕ → m Bool
  links : ℕ → m (List ℕ)
  closer : δ → δ → Bool
  far : δ
  unfinished : m (Beam δ)

def nearer (a b : δ × ℕ) : Prop := a.1 < b.1 ∨ a.1 = b.1 ∧ a.2 ≤ b.2

instance : DecidableRel (@nearer δ _) := fun a b =>
  inferInstanceAs (Decidable (a.1 < b.1 ∨ a.1 = b.1 ∧ a.2 ≤ b.2))

def farther (a b : δ × ℕ) : Prop := nearer b a

instance : DecidableRel (@farther δ _) := fun a b => inferInstanceAs (Decidable (nearer b a))

/-- Pushes onto a heap capped at `ef`, dropping the farthest on overflow. -/
def pushBounded (ef : ℕ) (kept : List (δ × ℕ)) (x : δ × ℕ) : List (δ × ℕ) :=
  if ef < (kept.orderedInsert farther x).length then (kept.orderedInsert farther x).tail
  else kept.orderedInsert farther x

/-- A node met for the first time becomes a candidate, and is kept if it is live. -/
def offer (ef : ℕ) (beam : Beam δ) (d : δ) (e : ℕ) (live : Bool) : Beam δ where
  visited := e :: beam.visited
  cand := beam.cand.orderedInsert nearer (d, e)
  kept := if live then pushBounded ef beam.kept (d, e) else beam.kept

def seed (reads : Reads m δ) (ef : ℕ) (beam : Beam δ) (e : ℕ) : m (Beam δ) :=
  if e ∈ beam.visited then pure beam
  else do
    let d ← reads.dist e
    let live ← reads.live e
    return offer ef beam d e live

/-- The distance of the farthest node kept. -/
def farthest (reads : Reads m δ) (beam : Beam δ) : δ :=
  (beam.kept.head?.map Prod.fst).getD reads.far

def visit (reads : Reads m δ) (ef : ℕ) (beam : Beam δ) (e : ℕ) : m (Beam δ) :=
  if e ∈ beam.visited then pure beam
  else do
    let d ← reads.dist e
    if reads.closer d (farthest reads beam) ∨ beam.kept.length < ef then do
      let live ← reads.live e
      return offer ef beam d e live
    else return { beam with visited := e :: beam.visited }

/-- The nearest candidate is farther than every kept node of a full beam. -/
def settled (reads : Reads m δ) (ef : ℕ) (beam : Beam δ) (d : δ) : Bool :=
  ef ≤ beam.kept.length && beam.kept.head?.any fun farthest => reads.closer farthest.1 d

def expand (reads : Reads m δ) (ef : ℕ) : ℕ → Beam δ → m (Beam δ)
  | rounds, beam =>
    match beam.cand, rounds with
    | [], _ => pure beam
    | _ :: _, 0 => reads.unfinished
    | (d, c) :: cand, rounds + 1 =>
      if settled reads ef beam d then pure beam
      else do
        let neighbours ← reads.links c
        let beam ← neighbours.foldlM (visit reads ef) { beam with cand }
        expand reads ef rounds beam

/-- The live nodes kept of a search from `starts`, farthest first. -/
def search (reads : Reads m δ) (ef : ℕ) (starts : List ℕ) (rounds : ℕ) : m (List (δ × ℕ)) := do
  let beam ← starts.foldlM (seed reads ef) ⟨[], [], []⟩
  let beam ← expand reads ef rounds beam
  return beam.kept

/-! ### What the reads answer -/

/-- The terms in which a search is specified. -/
structure Facts (δ : Type) where
  inRange : ℕ → Prop
  alive : ℕ → Prop
  measured : ℕ → δ → Prop
  neighbours : ℕ → List ℕ → Prop

/-- Within range every read ends, with an answer that is as the facts say, and in range. -/
structure Answers (outcome : Outcome m) (reads : Reads m δ) (facts : Facts δ) (n : ℕ) : Prop where
  dist : ∀ e, facts.inRange e → outcome.ends (reads.dist e) (facts.measured e)
  live : ∀ e, facts.inRange e → outcome.ends (reads.live e) fun live => live = true ↔ facts.alive e
  links : ∀ c, facts.inRange c → outcome.ends (reads.links c) fun neighbours =>
    (∀ e ∈ neighbours, facts.inRange e) ∧ facts.neighbours c neighbours
  bound : ∀ e, facts.inRange e → e < n

/-- What a search can reach. -/
inductive Facts.Reach (facts : Facts δ) (starts : List ℕ) : ℕ → Prop
  | start {e : ℕ} : e ∈ starts → facts.Reach starts e
  | link {c e : ℕ} {neighbours : List ℕ} : facts.Reach starts c → facts.neighbours c neighbours →
      e ∈ neighbours → facts.Reach starts e

/-! ### The heaps -/

theorem mem_pushBounded (member : y ∈ pushBounded ef kept x) : y = x ∨ y ∈ kept := by
  have pushed : y ∈ kept.orderedInsert farther x := by
    unfold pushBounded at member
    split_ifs at member
    · exact List.mem_of_mem_tail member
    · exact member
  exact (List.mem_orderedInsert farther).mp pushed

theorem length_pushBounded (ef : ℕ) (kept : List (δ × ℕ)) (x : δ × ℕ) :
    (pushBounded ef kept x).length = if ef <
    kept.length + 1 then kept.length else kept.length + 1 := by
  unfold pushBounded
  rw [List.orderedInsert_length]
  split_ifs with full
  · rw [List.length_tail, List.orderedInsert_length]
    rfl
  · exact List.orderedInsert_length farther kept x

/-- A heap that is not full afterwards has dropped nothing. -/
theorem mem_pushBounded_of_short (short : (pushBounded ef kept x).length < ef)
    (member : y = x ∨ y ∈ kept) :
    y ∈ pushBounded ef kept x := by
  rw [length_pushBounded] at short
  have fits : ¬ ef < (kept.orderedInsert farther x).length := by
    rw [List.orderedInsert_length]
    split_ifs at short <;> omega
  rw [pushBounded, if_neg fits]
  exact (List.mem_orderedInsert farther).mpr member

theorem nodup_pushBounded (distinct : (kept.map Prod.snd).Nodup) (fresh : x.2 ∉ kept.map Prod.snd) :
    ((pushBounded ef kept x).map Prod.snd).Nodup := by
  have pushed : ((kept.orderedInsert farther x).map Prod.snd).Nodup := by
    refine ((List.perm_orderedInsert farther x kept).map Prod.snd).nodup_iff.mpr ?_
    rw [List.map_cons]
    exact List.nodup_cons.mpr ⟨fresh, distinct⟩
  unfold pushBounded
  split_ifs
  · rw [List.map_tail]
    exact pushed.tail
  · exact pushed

/-! ### The invariant -/

variable {outcome : Outcome m} {reads : Reads m δ} {facts : Facts δ} {n ef : ℕ} {starts : List ℕ}
  {beam : Beam δ} {c e : ℕ} {d : δ} {live : Bool}

/-- Every node visited is in range and can be reached; the kept ones are alive, each once, and while
the beam is not full they are all that are alive. -/
structure Sound (facts : Facts δ) (starts : List ℕ) (ef : ℕ) (beam : Beam δ) : Prop where
  range : ∀ e ∈ beam.visited, facts.inRange e ∧ facts.Reach starts e
  distinct : beam.visited.Nodup
  cands : ∀ x ∈ beam.cand, x.2 ∈ beam.visited
  kept : ∀ x ∈ beam.kept, x.2 ∈ beam.visited ∧ facts.alive x.2 ∧ facts.measured x.2 x.1
  once : (beam.kept.map Prod.snd).Nodup
  width : beam.kept.length ≤ ef
  all : beam.kept.length < ef → ∀ e ∈ beam.visited, facts.alive e → ∃ x ∈ beam.kept, x.2 = e

/-- While the beam is not full, a visited node is a candidate yet, or all its neighbours are
visited, or it is the one being expanded. -/
def Scanned (facts : Facts δ) (ef : ℕ) (current : ℕ → Prop) (beam : Beam δ) : Prop :=
  beam.kept.length < ef → ∀ e ∈ beam.visited, (∃ x ∈ beam.cand, x.2 = e) ∨
    (∃ neighbours, facts.neighbours e neighbours ∧ ∀ other ∈ neighbours, other ∈ beam.visited) ∨
    current e

/-- The invariant of the loop: besides, the candidates and the nodes not yet visited fit the rounds
that are left. -/
structure Round (facts : Facts δ) (starts : List ℕ) (ef n : ℕ) (current : ℕ → Prop) (rounds : ℕ)
    (beam : Beam δ) : Prop where
  sound : Sound facts starts ef beam
  scanned : Scanned facts ef current beam
  room : beam.cand.length + (n - beam.visited.length) ≤ rounds

/-- All that is alive of what was met is kept, and nothing more can be met. -/
def Exhausted (facts : Facts δ) (kept : List (δ × ℕ)) (visited : List ℕ) : Prop :=
  ∀ e ∈ visited, (facts.alive e → ∃ x ∈ kept, x.2 = e) ∧
    ∃ neighbours, facts.neighbours e neighbours ∧ ∀ other ∈ neighbours, other ∈ visited

omit [LinearOrder δ] in
theorem Sound.empty : Sound facts starts ef (⟨[], [], []⟩ : Beam δ) where
  range := nofun
  distinct := List.nodup_nil
  cands := nofun
  kept := nofun
  once := List.nodup_nil
  width := Nat.zero_le _
  all := nofun

omit [LinearOrder δ] in
theorem Sound.length_le (sound : Sound facts starts ef beam)
    (bound : ∀ e, facts.inRange e → e < n) : beam.visited.length ≤ n := by
  have inside : beam.visited ⊆ List.range n := fun e member =>
    List.mem_range.mpr (bound e (sound.range e member).1)
  have short := (List.subperm_of_subset sound.distinct inside).length_le
  rwa [List.length_range] at short

theorem short_of_offer (short : (offer ef beam d e live).kept.length < ef) :
    beam.kept.length < ef := by
  cases live with
  | false => exact short
  | true =>
    have grown : (pushBounded ef beam.kept (d, e)).length < ef := short
    rw [length_pushBounded] at grown
    split_ifs at grown <;> omega

theorem Sound.offer (sound : Sound facts starts ef beam) (fresh : e ∉ beam.visited)
    (range : facts.inRange e) (reach : facts.Reach starts e) (measured : facts.measured e d)
    (alive : live = true ↔ facts.alive e) :
    Sound facts starts ef (offer ef beam d e live) := by
  have freshKept : e ∉ beam.kept.map Prod.snd := fun member => by
    obtain ⟨x, kept, rfl⟩ := List.mem_map.mp member
    exact fresh (sound.kept x kept).1
  refine ⟨?_, List.nodup_cons.mpr ⟨fresh, sound.distinct⟩, ?_, ?_, ?_, ?_, ?_⟩
  · exact List.forall_mem_cons.mpr ⟨⟨range, reach⟩, sound.range⟩
  · intro x member
    rcases (List.mem_orderedInsert nearer).mp member with rfl | before
    · exact List.mem_cons_self
    · exact List.mem_cons_of_mem _ (sound.cands x before)
  · intro x member
    have old : x ∈ beam.kept →
        x.2 ∈ e :: beam.visited ∧ facts.alive x.2 ∧ facts.measured x.2 x.1 := fun before =>
      ⟨List.mem_cons_of_mem _ (sound.kept x before).1, (sound.kept x before).2⟩
    cases live with
    | false => exact old member
    | true =>
      rcases mem_pushBounded member with rfl | before
      · exact ⟨List.mem_cons_self, alive.mp rfl, measured⟩
      · exact old before
  · cases live with
    | false => exact sound.once
    | true => exact nodup_pushBounded sound.once freshKept
  · have width := sound.width
    cases live with
    | false => exact width
    | true =>
      show (pushBounded ef beam.kept (d, e)).length ≤ ef
      rw [length_pushBounded]
      split_ifs
      · exact width
      · omega
  · intro short
    cases live with
    | false =>
      refine List.forall_mem_cons.mpr ⟨fun living => ?_, sound.all short⟩
      exact absurd (alive.mpr living) Bool.false_ne_true
    | true =>
      have before := short_of_offer short
      refine List.forall_mem_cons.mpr ⟨fun _ => ⟨(d, e), ?_, rfl⟩, fun other member living => ?_⟩
      · exact mem_pushBounded_of_short short (.inl rfl)
      · obtain ⟨x, kept, same⟩ := sound.all before other member living
        exact ⟨x, mem_pushBounded_of_short short (.inr kept), same⟩

omit [LinearOrder δ] in
/-- A node passed over by a full beam. -/
theorem Sound.pass (sound : Sound facts starts ef beam) (fresh : e ∉ beam.visited)
    (range : facts.inRange e) (reach : facts.Reach starts e) (full : ef ≤ beam.kept.length) :
    Sound facts starts ef { beam with visited := e :: beam.visited } where
  range := List.forall_mem_cons.mpr ⟨⟨range, reach⟩, sound.range⟩
  distinct := List.nodup_cons.mpr ⟨fresh, sound.distinct⟩
  cands := fun x member => List.mem_cons_of_mem _ (sound.cands x member)
  kept := fun x member => ⟨List.mem_cons_of_mem _ (sound.kept x member).1, (sound.kept x member).2⟩
  once := sound.once
  width := sound.width
  all := fun short => absurd short (Nat.not_lt.mpr full)

/-! ### One node met -/

variable {current : ℕ → Prop} {rounds : ℕ}

theorem Round.offer (round : Round facts starts ef n current rounds beam) (fresh : e ∉ beam.visited)
    (bound : ∀ e, facts.inRange e → e < n) (range : facts.inRange e) (reach : facts.Reach starts e)
    (measured : facts.measured e d) (alive : live = true ↔ facts.alive e) :
    Round facts starts ef n current rounds (offer ef beam d e live) := by
  have sound := round.sound.offer fresh range reach measured alive
  refine ⟨sound, fun short => ?_, ?_⟩
  · refine List.forall_mem_cons.mpr ⟨.inl ⟨(d, e), ?_, rfl⟩, fun other member => ?_⟩
    · exact (List.mem_orderedInsert nearer).mpr (.inl rfl)
    · rcases round.scanned (short_of_offer short) other member with
        ⟨x, pending, same⟩ | ⟨neighbours, read, seen⟩ | now
      · exact .inl ⟨x, (List.mem_orderedInsert nearer).mpr (.inr pending), same⟩
      · exact .inr (.inl ⟨neighbours, read, fun y among => List.mem_cons_of_mem _ (seen y among)⟩)
      · exact .inr (.inr now)
  · have fits : beam.visited.length + 1 ≤ n := sound.length_le bound
    have room := round.room
    show (beam.cand.orderedInsert nearer (d, e)).length + (n - (beam.visited.length + 1)) ≤ rounds
    rw [List.orderedInsert_length]
    omega

omit [LinearOrder δ] in
theorem Round.pass (round : Round facts starts ef n current rounds beam) (fresh : e ∉ beam.visited)
    (range : facts.inRange e) (reach : facts.Reach starts e) (full : ef ≤ beam.kept.length) :
    Round facts starts ef n current rounds { beam with visited := e :: beam.visited } := by
  refine ⟨round.sound.pass fresh range reach full, fun short => ?_, ?_⟩
  · exact absurd short (Nat.not_lt.mpr full)
  · have room := round.room
    show beam.cand.length + (n - (beam.visited.length + 1)) ≤ rounds
    omega

theorem ends_seed (answers : Answers outcome reads facts n)
    (round : Round facts starts ef n current rounds beam) (range : facts.inRange e)
    (reach : facts.Reach starts e) :
    outcome.ends (seed reads ef beam e) fun next =>
      (Round facts starts ef n current rounds next ∧ e ∈ next.visited) ∧
        ∀ other ∈ beam.visited, other ∈ next.visited := by
  unfold seed
  split_ifs with seen
  · exact outcome.pure ⟨⟨round, seen⟩, fun _ => id⟩
  · refine outcome.bind (answers.dist e range) fun d measured => ?_
    refine outcome.bind (answers.live e range) fun live alive => outcome.pure ?_
    exact ⟨⟨round.offer seen answers.bound range reach measured alive, List.mem_cons_self⟩,
      fun _ => List.mem_cons_of_mem _⟩

theorem ends_visit (answers : Answers outcome reads facts n)
    (round : Round facts starts ef n current rounds beam) (range : facts.inRange e)
    (reach : facts.Reach starts e) :
    outcome.ends (visit reads ef beam e) fun next =>
      (Round facts starts ef n current rounds next ∧ e ∈ next.visited) ∧
        ∀ other ∈ beam.visited, other ∈ next.visited := by
  unfold visit
  split_ifs with seen
  · exact outcome.pure ⟨⟨round, seen⟩, fun _ => id⟩
  · refine outcome.bind (answers.dist e range) fun d measured => ?_
    split_ifs with near
    · refine outcome.bind (answers.live e range) fun live alive => outcome.pure ?_
      exact ⟨⟨round.offer seen answers.bound range reach measured alive, List.mem_cons_self⟩,
        fun _ => List.mem_cons_of_mem _⟩
    · refine outcome.pure ⟨⟨round.pass seen range reach ?_, List.mem_cons_self⟩,
        fun _ => List.mem_cons_of_mem _⟩
      exact not_lt.mp fun short => near (.inr short)

/-! ### The whole search -/

omit [LinearOrder δ] in
/-- The nearest candidate is taken out and expanded next. -/
theorem Round.pop {cand : List (δ × ℕ)}
    (round : Round facts starts ef n (fun _ => False) (rounds + 1) beam)
    (popped : beam.cand = x :: cand) :
    Round facts starts ef n (· = x.2) rounds { beam with cand } := by
  refine ⟨{ round.sound with cands := fun y member => ?_ }, fun short e member => ?_, ?_⟩
  · exact round.sound.cands y (popped ▸ List.mem_cons_of_mem _ member)
  · rcases round.scanned short e member with ⟨y, pending, same⟩ | scanned | nothing
    · rw [popped] at pending
      rcases List.mem_cons.mp pending with rfl | later
      · exact .inr (.inr same.symm)
      · exact .inl ⟨y, later, same⟩
    · exact .inr (.inl scanned)
    · exact nothing.elim
  · have room := round.room
    rw [popped, List.length_cons] at room
    show cand.length + (n - beam.visited.length) ≤ rounds
    omega

omit [LinearOrder δ] in
/-- The node that was expanded is scanned once all its neighbours are visited. -/
theorem Round.next {neighbours : List ℕ} (round : Round facts starts ef n (· = c) rounds beam)
    (read : facts.neighbours c neighbours) (seen : ∀ e ∈ neighbours, e ∈ beam.visited) :
    Round facts starts ef n (fun _ => False) rounds beam := by
  refine ⟨round.sound, fun short e member => ?_, round.room⟩
  rcases round.scanned short e member with pending | scanned | rfl
  · exact .inl pending
  · exact .inr (.inl scanned)
  · exact .inr (.inl ⟨neighbours, read, seen⟩)

omit [LinearOrder δ] in
theorem Round.exhausted (round : Round facts starts ef n (fun _ => False) rounds beam)
    (drained : beam.cand = []) (short : beam.kept.length < ef) :
    Exhausted facts beam.kept beam.visited := by
  intro e member
  refine ⟨round.sound.all short e member, ?_⟩
  rcases round.scanned short e member with ⟨x, pending, -⟩ | scanned | nothing
  · rw [drained] at pending
    cases pending
  · exact scanned
  · exact nothing.elim

theorem ends_expand (answers : Answers outcome reads facts n)
    (round : Round facts starts ef n (fun _ => False) rounds beam) :
    outcome.ends (expand reads ef rounds beam) fun last =>
      (Sound facts starts ef last ∧ ∀ e ∈ beam.visited, e ∈ last.visited) ∧
        (last.kept.length < ef → Exhausted facts last.kept last.visited) := by
  induction rounds generalizing beam with
  | zero =>
    have room := round.room
    have drained : beam.cand = [] := List.length_eq_zero_iff.mp (by omega)
    unfold expand
    simp only [drained]
    exact outcome.pure ⟨⟨round.sound, fun _ => id⟩, round.exhausted drained⟩
  | succ rounds ih =>
    unfold expand
    cases popped : beam.cand with
    | nil => exact outcome.pure ⟨⟨round.sound, fun _ => id⟩, round.exhausted popped⟩
    | cons x cand =>
      obtain ⟨d, c⟩ := x
      simp only
      split_ifs with full
      · refine outcome.pure ⟨⟨round.sound, fun _ => id⟩, fun short => ?_⟩
        have wide := of_decide_eq_true (Bool.and_eq_true_iff.mp full).1
        exact absurd short (Nat.not_lt.mpr wide)
      · have here := round.sound.range c (round.sound.cands (d, c) (popped ▸ List.mem_cons_self))
        refine outcome.bind (answers.links c here.1) fun neighbours read => ?_
        refine outcome.bind (Outcome.foldlM_each
          (fun next => Round facts starts ef n (· = c) rounds next ∧
            ∀ e ∈ beam.visited, e ∈ next.visited)
          (fun e next => e ∈ next.visited) ⟨round.pop popped, fun _ => id⟩ ?_) ?_
        · intro state kept e member
          refine outcome.mono (ends_visit answers kept.1 (read.1 e member)
            (here.2.link read.2 member)) fun next after => ?_
          exact ⟨⟨⟨after.1.1, fun y seen => after.2 y (kept.2 y seen)⟩, after.1.2⟩,
            fun y _ => after.2 y⟩
        · intro next after
          refine outcome.mono (ih (after.1.1.next read.2 after.2)) fun last final => ?_
          exact ⟨⟨final.1.1, fun y seen => final.1.2 y (after.1.2 y seen)⟩, final.2⟩

/-- **A search ends**, with live nodes it can reach, each once and at most `ef`; if there are fewer,
then all it can reach was met, and what is alive of it is kept. -/
theorem ends_search (ef : ℕ) (answers : Answers outcome reads facts n)
    (range : ∀ e ∈ starts, facts.inRange e) :
    outcome.ends (search reads ef starts n) fun kept =>
      (∀ x ∈ kept, facts.inRange x.2 ∧ facts.Reach starts x.2 ∧ facts.alive x.2 ∧
        facts.measured x.2 x.1) ∧
      (kept.map Prod.snd).Nodup ∧ kept.length ≤ ef ∧
      (kept.length < ef → ∃ visited, (∀ e ∈ starts, e ∈ visited) ∧ Exhausted facts kept visited) := by
  unfold search
  have first : Round facts starts ef n (fun _ => False) n (⟨[], [], []⟩ : Beam δ) :=
    ⟨Sound.empty, fun _ => nofun, by simp⟩
  refine outcome.bind (Outcome.foldlM_each _ (fun e next => e ∈ next.visited) first ?_) ?_
  · intro state round e member
    refine outcome.mono (ends_seed answers round (range e member) (.start member))
      fun next after => ?_
    exact ⟨after.1, fun y _ => after.2 y⟩
  · intro beam ⟨round, seeded⟩
    refine outcome.bind (ends_expand answers round) fun last ⟨⟨sound, kept⟩, exhausted⟩ => ?_
    refine outcome.pure ⟨fun x member => ?_, sound.once, sound.width, fun short => ?_⟩
    · obtain ⟨seen, alive, measured⟩ := sound.kept x member
      exact ⟨(sound.range x.2 seen).1, (sound.range x.2 seen).2, alive, measured⟩
    · exact ⟨last.visited, fun e member => kept e (seeded e member), exhausted short⟩

end DrStrange.Lib.BestFirst
