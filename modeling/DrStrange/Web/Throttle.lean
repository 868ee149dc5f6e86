/-
**The throttle of failed authentication.**

Each wrong bearer of a peer past the free ones doubles the wait it serves, and the table of the
peers is bounded. A quiet peer is only forgotten when a new one finds the table full: its failures
count on after any gap. Where no failure follows such a gap and the peers that fail fit the table,
every answer is what the peer's own failures since its last success impose (`throttle_charges`).
Times are in nanoseconds.
-/

import Mathlib

namespace DrStrange.Web

open Std (ExtTreeMap TransOrd LawfulEqOrd)

/-! ### The code -/

abbrev Time := ℕ
abbrev Duration := ℕ

def second : Duration := 1000000000

/-- How many wrong bearers a peer may present before it is made to wait. -/
def freeFailures : ℕ := 5

/-- The longest a peer is made to wait between attempts. -/
def maxLockout : Duration := 300 * second

/-- The most peers that are remembered at once. -/
def trackedPeers : ℕ := 4096

/-- A peer that has been quiet this long is forgotten. -/
def forgetAfter : Duration := 15 * 60 * second

structure Strikes where
  failures : ℕ
  lockedUntil : Option Time
  lastSeen : Time
  deriving DecidableEq, Repr

section Code

variable {Peer : Type} [Ord Peer] [TransOrd Peer]

abbrev Peers (Peer : Type) [Ord Peer] := ExtTreeMap Peer Strikes compare

/-- How much longer a peer must wait. -/
def lockedFor (peers : Peers Peer) (peer : Peer) (now : Time) : Option Duration :=
  (peers[peer]?.bind Strikes.lockedUntil).bind fun ending =>
    if now < ending then some (ending - now) else none

/-- Drops every entry idle too long, and if the table is still full the one idle longest; `order` is
the order in which the table is walked. -/
def makeRoom (order : List (Peer × Strikes) → List (Peer × Strikes)) (peers : Peers Peer)
    (now : Time) :
    Peers Peer :=
  let kept := peers.filter fun _ strikes => now - strikes.lastSeen < forgetAfter
  if trackedPeers ≤ kept.size then
    match (order kept.toList).argmin fun entry => entry.2.lastSeen with
    | some oldest => kept.erase oldest.1
    | none => kept
  else kept

/-- The wait that a count of failures imposes, past the free ones. -/
def waitOf (failures : ℕ) : Option Duration :=
  if failures < freeFailures + 1 then none
  else some (min (2 ^ min (failures - (freeFailures + 1)) 20 * second) maxLockout)

/-- The table with room for a peer. -/
def roomFor (order : List (Peer × Strikes) → List (Peer × Strikes)) (peers : Peers Peer) (peer : Peer)
    (now : Time) : Peers Peer :=
  if ¬ peer ∈ peers ∧ trackedPeers ≤ peers.size then makeRoom order peers now else peers

/-- Records a wrong bearer; the lockout now imposed. The count is of 32 bits and saturates. -/
def failed (order : List (Peer × Strikes) → List (Peer × Strikes)) (peers : Peers Peer) (peer : Peer)
    (now : Time) : Option Duration × Peers Peer :=
  let peers := roomFor order peers peer now
  let strikes := peers[peer]?.getD ⟨0, none, now⟩
  let failures := min (strikes.failures + 1) (2 ^ 32 - 1)
  match waitOf failures with
  | none => (none, peers.insert peer { strikes with failures := failures, lastSeen := now })
  | some wait => (some wait, peers.insert peer ⟨failures, some (now + wait), now⟩)

/-- A correct bearer: its failures are forgotten. -/
def succeeded (peers : Peers Peer) (peer : Peer) : Peers Peer := peers.erase peer

inductive Call (Peer : Type) where
  | failed (peer : Peer) (now : Time)
  | succeeded (peer : Peer)
  | lockedFor (peer : Peer) (now : Time)
  deriving DecidableEq, Repr

/-- What a call answers, and the table after it. -/
def call (order : List (Peer × Strikes) → List (Peer × Strikes)) (peers : Peers Peer) :
    Call Peer → Option Duration × Peers Peer
  | .failed peer now => failed order peers peer now
  | .succeeded peer => (none, succeeded peers peer)
  | .lockedFor peer now => (lockedFor peers peer now, peers)

/-- The table after some calls. -/
def tableAfter (order : List (Peer × Strikes) → List (Peer × Strikes)) (calls : List (Call Peer)) :
    Peers Peer :=
  calls.foldl (fun peers next => (call order peers next).2) ∅

end Code

/-! ### What is owed -/

section Owed

variable {Peer : Type} [DecidableEq Peer]

/-- The failures of a peer since its last success, the latest first. -/
def failuresOf (peer : Peer) (calls : List (Call Peer)) : List Time :=
  calls.foldl (fun times next =>
    match next with
    | .failed other now => if other = peer then now :: times else times
    | .succeeded other => if other = peer then [] else times
    | .lockedFor .. => times) []

/-- The failures since the last quiet gap. -/
def recent : List Time → List Time
  | [] => []
  | [time] => [time]
  | time :: earlier :: times =>
    if forgetAfter ≤ time - earlier then [time] else time :: recent (earlier :: times)

/-- The wait imposed by the n-th failure. -/
def imposed (n : ℕ) : Option Duration :=
  if n ≤ freeFailures then none else some (min (2 ^ (n - freeFailures - 1) * second) maxLockout)

/-- The end of the last wait that was imposed. -/
def lastWait : List Time → Option Time
  | [] => none
  | time :: times =>
    match imposed (recent (time :: times)).length with
    | some wait => some (time + wait)
    | none => lastWait times

/-- What a call should answer after others. -/
def owed (calls : List (Call Peer)) : Call Peer → Option Duration
  | .failed peer now => imposed (recent (now :: failuresOf peer calls)).length
  | .succeeded _ => none
  | .lockedFor peer now =>
    (lastWait (failuresOf peer calls)).bind fun ending =>
      if now < ending then some (ending - now) else none

/-- The peers that fail. -/
def failing (calls : List (Call Peer)) : List Peer :=
  calls.filterMap fun next => match next with
    | .failed peer _ => some peer
    | .succeeded _ | .lockedFor .. => none

/-- The peer that calls. -/
def Call.caller : Call Peer → Peer
  | .failed peer _ => peer
  | .succeeded peer => peer
  | .lockedFor peer _ => peer

/-- A failure that does not follow a quiet gap of its peer. -/
def Prompt (calls : List (Call Peer)) : Call Peer → Prop
  | .failed peer now => ∀ last ∈ (failuresOf peer calls).head?, now - last < forgetAfter
  | .succeeded _ | .lockedFor .. => True

end Owed

/-! ### The bound -/

section Bound

variable {Peer : Type} [Ord Peer] [TransOrd Peer] [LawfulEqOrd Peer]
  {order : List (Peer × Strikes) → List (Peer × Strikes)} {peers : Peers Peer} {peer : Peer}
    {now : Time}

/-- There is room for one more. -/
theorem makeRoom_size (walks : ∀ entries, (order entries).Perm entries)
    (bounded : peers.size ≤ trackedPeers) : (makeRoom order peers now).size < trackedPeers := by
  unfold makeRoom
  dsimp only
  have fewer : (peers.filter fun _ strikes => now - strikes.lastSeen < forgetAfter).size ≤
      peers.size :=
    ExtTreeMap.size_filter_le_size
  generalize peers.filter _ = kept at fewer
  split
  · rename_i full
    cases found : (order kept.toList).argmin fun entry => entry.2.lastSeen with
    | none =>
      have empty : kept.toList.length = 0 := by
        rw [← (walks kept.toList).length_eq, List.argmin_eq_none.mp found]
        rfl
      rw [ExtTreeMap.length_toList] at empty
      exact absurd full (by rw [empty]; decide)
    | some oldest =>
      have inside := (walks kept.toList).subset (List.argmin_mem found)
      have held : kept.contains oldest.1 = true := by
        rw [ExtTreeMap.contains_eq_isSome_getElem?,
          ExtTreeMap.mem_toList_iff_getElem?_eq_some.mp inside]
        rfl
      rw [ExtTreeMap.size_erase, if_pos held]
      have some : 0 < trackedPeers := by decide
      omega
  · omega

theorem failed_size (walks : ∀ entries, (order entries).Perm entries)
    (bounded : peers.size ≤ trackedPeers) : (failed order peers peer now).2.size ≤ trackedPeers := by
  have room : ∀ strikes, ((roomFor order peers peer now).insert peer strikes).size ≤
      trackedPeers := by
    intro strikes
    have grown := ExtTreeMap.size_insert_le (t := roomFor order peers peer now) (k := peer)
      (v := strikes)
    unfold roomFor at grown ⊢
    split at grown
    · rename_i full
      rw [if_pos full]
      have free := @makeRoom_size _ _ _ _ order peers now walks bounded
      omega
    · rename_i room
      rw [if_neg room, ExtTreeMap.size_insert]
      split_ifs with known
      · exact bounded
      · have absent : ¬ peer ∈ peers := by rwa [← ExtTreeMap.contains_iff_mem]
        have fits : ¬ trackedPeers ≤ peers.size := fun full => room ⟨absent, full⟩
        omega
  unfold failed
  dsimp only
  split <;> exact room _

/-- **The table is bounded**, whatever is called. -/
theorem tableAfter_size (walks : ∀ entries, (order entries).Perm entries) (calls : List (Call Peer)) :
    (tableAfter order calls).size ≤ trackedPeers := by
  suffices ∀ peers : Peers Peer, peers.size ≤ trackedPeers →
      (calls.foldl (fun peers next => (call order peers next).2) peers).size ≤ trackedPeers from
    this ∅ (Nat.zero_le _)
  induction calls with
  | nil => exact fun peers bounded => bounded
  | cons next calls ih =>
    intro peers bounded
    refine ih _ ?_
    cases next with
    | failed peer now => exact failed_size walks bounded
    | succeeded peer => exact ExtTreeMap.size_erase_le.trans bounded
    | lockedFor peer now => exact bounded

omit [LawfulEqOrd Peer] in
/-- Who is forgotten for a peer is not the peer itself. -/
theorem admit_own : (roomFor order peers peer now)[peer]? = peers[peer]? := by
  unfold roomFor
  split
  · rename_i full
    have absent : peers[peer]? = none := ExtTreeMap.getElem?_eq_none full.1
    have dropped : (peers.filter fun _ strikes => now - strikes.lastSeen < forgetAfter)[peer]? =
        none := by
      rw [ExtTreeMap.getElem?_filter, absent]
      rfl
    rw [absent]
    unfold makeRoom
    dsimp only
    split
    · split
      · rw [ExtTreeMap.getElem?_erase, dropped, ite_self]
      · exact dropped
    · exact dropped
  · rfl

omit [LawfulEqOrd Peer] in
/-- A failure is answered by the count of the peer's own entry, whoever is forgotten for it. -/
theorem failed_answer : (failed order peers peer now).1 =
    waitOf (min ((peers[peer]?.getD ⟨0, none, now⟩).failures + 1) (2 ^ 32 - 1)) := by
  unfold failed
  dsimp only
  rw [admit_own]
  split <;> rename_i imposed <;> exact imposed.symm

omit [LawfulEqOrd Peer] in
/-- What is answered to a peer, to a bearer that is wrong and to the question how long to wait, is
read off its own entry. -/
theorem answers_of_entry {changed : Peers Peer} (same : changed[peer]? = peers[peer]?) :
    lockedFor changed peer now = lockedFor peers peer now ∧
      (failed order changed peer now).1 = (failed order peers peer now).1 := by
  refine ⟨?_, ?_⟩
  · unfold lockedFor
    rw [same]
  · rw [failed_answer, failed_answer, same]

end Bound

/-! ### The charges -/

section Charges

variable {Peer : Type} [DecidableEq Peer] {peer other : Peer} {calls : List (Call Peer)}
  {now : Time} {times : List Time} {next : Call Peer}

theorem failuresOf_append : failuresOf peer (calls ++ [next]) =
    match next with
    | .failed other now =>
      if other = peer then now :: failuresOf peer calls else failuresOf peer calls
    | .succeeded other => if other = peer then [] else failuresOf peer calls
    | .lockedFor .. => failuresOf peer calls := by
  rw [failuresOf, List.foldl_append]
  rfl

omit [DecidableEq Peer] in
theorem mem_failing_append : peer ∈ failing (calls ++ [next]) ↔
    peer ∈ failing calls ∨ ∃ now, next = .failed peer now := by
  rw [failing, List.filterMap_append, List.mem_append]
  refine or_congr_right ?_
  cases next <;> simp [eq_comm]

theorem failing_mono {more : List (Call Peer)} (sub : calls ⊆ more) :
    (failing calls).dedup.length ≤ (failing more).dedup.length := by
  refine ((List.nodup_dedup _).subperm fun peer known => ?_).length_le
  rw [List.mem_dedup, failing, List.mem_filterMap] at known ⊢
  obtain ⟨call, inside, fails⟩ := known
  exact ⟨call, sub inside, fails⟩

theorem failuresOf_append_other (other : next.caller ≠ peer) :
    failuresOf peer (calls ++ [next]) = failuresOf peer calls := by
  rw [failuresOf_append]
  cases next with
  | failed => exact if_neg other
  | succeeded => exact if_neg other
  | lockedFor => rfl

/-- A peer that has failed since its last success has failed. -/
theorem mem_failing_of_failuresOf (some : failuresOf peer calls ≠ []) : peer ∈ failing calls := by
  induction calls using List.reverseRecOn with
  | nil => exact absurd rfl some
  | append_singleton calls next ih =>
    rw [mem_failing_append]
    rw [failuresOf_append] at some
    cases next with
    | failed other now =>
      by_cases own : other = peer
      · exact .inr ⟨now, own ▸ rfl⟩
      · exact .inl (ih (by simpa only [if_neg own] using some))
    | succeeded other =>
      by_cases own : other = peer
      · simp only [if_pos own] at some
        exact absurd rfl some
      · exact .inl (ih (by simpa only [if_neg own] using some))
    | lockedFor => exact .inl (ih some)

/-- A saturating count imposes what the count itself does. -/
theorem waitOf_saturated (n : ℕ) : waitOf (min n (2 ^ 32 - 1)) = imposed n := by
  unfold waitOf imposed freeFailures
  split_ifs with few free free
  · rfl
  · omega
  · omega
  · refine congrArg some ?_
    by_cases small : n - 6 ≤ 20
    · have count : min (min n (2 ^ 32 - 1) - (5 + 1)) 20 = n - 5 - 1 := by omega
      rw [count]
    · have capped : min (min n (2 ^ 32 - 1) - (5 + 1)) 20 = 20 := by omega
      rw [capped, min_eq_right (by decide), min_eq_right]
      calc maxLockout ≤ 2 ^ 20 * second := by decide
        _ ≤ 2 ^ (n - 5 - 1) * second :=
          Nat.mul_le_mul_right _ (Nat.pow_le_pow_right (by decide) (by omega))

/-- The entry that a peer's failures leave. -/
def entryOf : List Time → Option Strikes
  | [] => none
  | time :: times => some ⟨min (times.length + 1) (2 ^ 32 - 1), lastWait (time :: times), time⟩

/-- A prompt failure counts on. -/
theorem recent_cons (all : recent times = times)
    (prompt : ∀ last ∈ times.head?, now - last < forgetAfter) :
    recent (now :: times) = now :: times := by
  cases times with
  | nil => rfl
  | cons time times =>
    have soon := prompt time rfl
    rw [recent, if_neg (not_le.mpr soon), all]

/-- The table is what the failures of each peer leave, and none of them followed a quiet gap. -/
structure Charged [Ord Peer] [TransOrd Peer] (calls : List (Call Peer)) (peers : Peers Peer) :
    Prop where
  entries : ∀ peer, peers[peer]? = entryOf (failuresOf peer calls)
  prompt : ∀ peer, recent (failuresOf peer calls) = failuresOf peer calls

end Charges

section Run

variable {Peer : Type} [DecidableEq Peer] [Ord Peer] [TransOrd Peer] [LawfulEqOrd Peer]
  {peer other : Peer}
  {calls past : List (Call Peer)} {next : Call Peer} {peers : Peers Peer} {now : Time}
  {order : List (Peer × Strikes) → List (Peer × Strikes)}

/-- The peers that are remembered have failed, and there is room for one more that fails. -/
theorem Charged.room (charged : Charged past peers) (absent : ¬ peer ∈ peers)
    (few : (failing (past ++ [.failed peer now])).dedup.length ≤ trackedPeers) :
    ¬ trackedPeers ≤ peers.size := by
  have known : ∀ other ∈ peers, other ∈ failing past := by
    intro other held
    refine mem_failing_of_failuresOf fun none => ?_
    have found := charged.entries other
    rw [none, entryOf] at found
    rw [ExtTreeMap.mem_iff_isSome_getElem?, found] at held
    exact absurd held (by decide)
  have apart : (peer :: peers.keys).Nodup :=
    List.nodup_cons.mpr ⟨fun held => absent (ExtTreeMap.mem_keys.mp held), ExtTreeMap.nodup_keys⟩
  have inside : peer :: peers.keys ⊆ (failing (past ++ [.failed peer now])).dedup := by
    intro other held
    rw [List.mem_dedup, mem_failing_append]
    rcases List.mem_cons.mp held with rfl | held
    · exact .inr ⟨now, rfl⟩
    · exact .inl (known other (ExtTreeMap.mem_keys.mp held))
  have count := (apart.subperm inside).length_le
  rw [List.length_cons, ExtTreeMap.length_keys] at count
  omega

omit [LawfulEqOrd Peer] in
/-- One more failure of a peer, where nobody is forgotten for it. -/
theorem failed_next (unmoved : roomFor order peers peer now = peers)
    (entry : peers[peer]? = entryOf (failuresOf peer calls))
    (all : recent (now :: failuresOf peer calls) = now :: failuresOf peer calls) :
    failed order peers peer now = (imposed (recent (now :: failuresOf peer calls)).length,
      peers.insert peer ⟨min ((failuresOf peer calls).length + 1) (2 ^ 32 - 1),
        lastWait (now :: failuresOf peer calls), now⟩) := by
  have counted : min ((peers[peer]?.getD ⟨0, none, now⟩).failures + 1) (2 ^ 32 - 1) =
      min ((failuresOf peer calls).length + 1) (2 ^ 32 - 1) := by
    rw [entry]
    cases failuresOf peer calls with
    | nil => rfl
    | cons time times =>
      simp only [entryOf, Option.getD_some, List.length_cons]
      omega
  have locked : (peers[peer]?.getD ⟨0, none, now⟩).lockedUntil =
      lastWait (failuresOf peer calls) := by
    rw [entry]
    cases failuresOf peer calls <;> rfl
  unfold failed
  dsimp only
  rw [unmoved, counted, waitOf_saturated, locked, lastWait, all, List.length_cons]
  split <;> rename_i wait <;> rw [wait]

/-- **One call** of a run in which few peers fail, and promptly, keeps the table charged. -/
theorem Charged.step (charged : Charged past peers) (prompt : Prompt past next)
    (few : (failing (past ++ [next])).dedup.length ≤ trackedPeers) :
    Charged (past ++ [next]) (call order peers next).2 ∧
    (call order peers next).1 = owed past next := by
  cases next with
  | failed peer now =>
    have unmoved : roomFor order peers peer now = peers :=
      if_neg fun full => charged.room full.1 few full.2
    have all := recent_cons (charged.prompt peer) prompt
    have step := failed_next unmoved (charged.entries peer) all
    rw [call, step]
    refine ⟨⟨fun other => ?_, fun other => ?_⟩, rfl⟩
    · rw [ExtTreeMap.getElem?_insert, failuresOf_append]
      by_cases own : peer = other
      · subst own
        simp only [Std.ReflCmp.compare_self, entryOf, if_true]
      · have apart : ¬ compare peer other = .eq := fun same => own (LawfulEqOrd.eq_of_compare same)
        simp only [if_neg own, if_neg apart, charged.entries]
    · rw [failuresOf_append]
      by_cases own : peer = other
      · subst own
        simpa only [if_true] using all
      · simpa only [if_neg own] using charged.prompt other
  | succeeded peer =>
    refine ⟨⟨fun other => ?_, fun other => ?_⟩, rfl⟩
    · rw [call, succeeded, ExtTreeMap.getElem?_erase, failuresOf_append]
      by_cases own : peer = other
      · subst own
        simp only [Std.ReflCmp.compare_self, if_true, entryOf]
      · have apart : ¬ compare peer other = .eq := fun same => own (LawfulEqOrd.eq_of_compare same)
        simp only [if_neg own, if_neg apart, charged.entries]
    · rw [failuresOf_append]
      by_cases own : peer = other
      · simp only [if_pos own, recent]
      · simpa only [if_neg own] using charged.prompt other
  | lockedFor peer now =>
    refine ⟨⟨fun other => ?_, fun other => ?_⟩, ?_⟩
    · rw [failuresOf_append]
      exact charged.entries other
    · rw [failuresOf_append]
      exact charged.prompt other
    · rw [call, owed, lockedFor, charged.entries]
      cases failuresOf peer past <;> rfl

/-- **A run** in which few peers fail, and promptly, leaves the table charged. -/
theorem charged_tableAfter (few : (failing calls).dedup.length ≤ trackedPeers)
    (prompt : ∀ past next rest, calls = past ++ next :: rest → Prompt past next) :
    Charged calls (tableAfter order calls) := by
  induction calls using List.reverseRecOn with
  | nil => exact ⟨fun peer => ExtTreeMap.getElem?_empty, fun peer => rfl⟩
  | append_singleton calls next ih =>
    have fewer := failing_mono (List.subset_append_left calls [next])
    have earlier : Charged calls (tableAfter order calls) :=
      ih (fewer.trans few) fun past last rest split =>
      prompt past last (rest ++ [next]) (by rw [split, List.append_assoc, List.cons_append])
    rw [tableAfter, List.foldl_append]
    exact (earlier.step (prompt calls next [] rfl) few).1

/-- The table is bounded in every run. In a run whose failures are prompt, and in which no more peers
fail than are tracked, every call is answered with what it owes, and no call changes what another peer
is answered. -/
theorem throttle_charges (order : List (Peer × Strikes) → List (Peer × Strikes))
    (walks : ∀ entries, (order entries).Perm entries) (calls : List (Call Peer)) :
    (tableAfter order calls).size ≤ trackedPeers ∧
      ((failing calls).dedup.length ≤ trackedPeers →
        (∀ past next rest, calls = past ++ next :: rest → Prompt past next) →
        ∀ past next rest, calls = past ++ next :: rest →
          (call order (tableAfter order past) next).1 = owed past next ∧
          ∀ other, next.caller ≠ other → ∀ now,
            lockedFor (call order (tableAfter order past) next).2 other now =
              lockedFor (tableAfter order past) other now ∧
            (failed order (call order (tableAfter order past) next).2 other now).1 =
              (failed order (tableAfter order past) other now).1) := by
  refine ⟨tableAfter_size walks calls, fun few prompt past next rest split => ?_⟩
  have first : past ++ [next] ⊆ calls := by
    rw [split, List.append_cons past next rest]
    exact List.subset_append_left _ _
  have charged : Charged past (tableAfter order past) := by
    refine charged_tableAfter ((failing_mono ?_).trans few) fun before last after earlier => ?_
    · exact List.Subset.trans (List.subset_append_left _ _) first
    · exact prompt before last (after ++ next :: rest)
        (by rw [split, earlier, List.append_assoc, List.cons_append])
  have step := @Charged.step _ _ _ _ _ past next _ order charged (prompt past next rest split)
    ((failing_mono first).trans few)
  refine ⟨step.2, fun other apart now => answers_of_entry ?_⟩
  rw [step.1.entries, charged.entries, failuresOf_append_other apart]

/-- The sixth failure of a peer locks it out, and nobody else. -/
theorem throttle_charges_sixth :
    let wrong : Call ℕ := .failed 0 0
    let table := tableAfter id (List.replicate 5 wrong)
    table.size ≤ trackedPeers ∧ (call id table wrong).1 = some second ∧
      lockedFor (call id table wrong).2 1 0 = lockedFor table 1 0 := by
  intro wrong table
  have walks : ∀ entries : List (ℕ × Strikes), (id entries).Perm entries :=
    fun entries => .refl entries
  have prompt : ∀ past next rest, List.replicate 6 wrong = past ++ next :: rest →
      Prompt past next := by
    intro past next rest split
    have member : next ∈ List.replicate 6 wrong := by
      rw [split]
      exact List.mem_append_right _ List.mem_cons_self
    rw [List.eq_of_mem_replicate member]
    intro last _
    rw [Nat.zero_sub]
    decide
  have answers := (throttle_charges id walks (List.replicate 6 wrong)).2 (by decide) prompt
    (List.replicate 5 wrong) wrong [] rfl
  refine ⟨(throttle_charges id walks (List.replicate 5 wrong)).1, ?_, ?_⟩
  · exact answers.1.trans (by decide)
  · exact (answers.2 1 (by decide) 0).1

/-- Five failures, and after a quiet gap a sixth, which is not free. -/
theorem failed_after_gap :
    let past := List.replicate 5 (Call.failed (0 : ℕ) 0)
    (call id (tableAfter id past) (.failed 0 forgetAfter)).1 ≠ owed past (.failed 0 forgetAfter) := by
  decide

end Run

end DrStrange.Web
