/-
**The tail of replicated batches.**

A follower reads the batches that a master commits while it pulls a snapshot. Until the snapshot's
sequence, the cutover, is known, a forwarder holds them; then it hands on those past the cutover,
first those it held and then those that still come.

In every interleaving, what is read from the tail is a prefix of the delivered batches past the
cutover, all of them once the source is closed and the tail is read on, and the backlog is bounded
(`tail_exactly_once`).
-/

import DrStrange.Api.AsOf
import DrStrange.Lib.Channel

namespace DrStrange.Web

open DrStrange.Graph Lib

/-! ### The code -/

/-- How many batches wait in a queue. -/
def replicationQueue : ℕ := 1024

/-- How many operations the backlog is read up to. -/
def pullBacklogOps : ℕ := 2 ^ 18

/-- The sequence that a snapshot ends at: still to come, known, or never to come. -/
inductive Cutover where
  | pending
  | sent (seq : ℕ)
  | lost
  deriving DecidableEq, Repr

/-- Where the forwarder is. -/
inductive Forwarder where
  | buffering (backlog : List Landed) (backlogOps : ℕ) (rawOpen : Bool)
  | draining (floor : ℕ) (backlog : List Landed)
  | live (floor : ℕ)
  | sending (floor : ℕ) (batch : Landed)
  | done

/-- The queue from the socket's reader, the tail, and the forwarder between them. -/
structure Follow where
  raw : Channel Landed replicationQueue
  tail : Channel Landed replicationQueue
  cutover : Cutover
  forwarder : Forwarder

def Follow.start : Follow := ⟨.new _ _, .new _ _, .pending, .buffering [] 0 true⟩

/-- What a batch adds to the backlog; an empty one counts one. -/
def cost (batch : Landed) : ℕ := max batch.writes.length 1

/-- The forwarder has returned, and its ends of both queues are gone. -/
def Follow.returned (state : Follow) : Follow :=
  { state with raw := state.raw.drop, tail := state.tail.close, forwarder := .done }

/-- A batch goes to the tail, which may be full or gone; one that the snapshot covers is skipped. -/
def Follow.handOn (state : Follow) (floor : ℕ) (batch : Landed) (next : Forwarder) : Option Follow :=
  if floor < batch.seq then
    if state.tail.reads then (state.tail.send batch).map fun tail =>
      { state with tail := tail, forwarder := next }
    else some state.returned
  else some { state with forwarder := next }

/-- The forwarder waits for the cutover. -/
def Follow.cut (state : Follow) : Option Follow :=
  match state.forwarder, state.cutover with
  | .buffering backlog _ _, .sent seq => some { state with forwarder := .draining seq backlog }
  | .buffering _ _ _, .lost => some state.returned
  | _, _ => none

/-- The forwarder reads on, or hands on. -/
def Follow.forward (state : Follow) : Option Follow :=
  match state.forwarder with
  | .buffering backlog ops rawOpen =>
    if rawOpen ∧ ops < pullBacklogOps then
      if state.raw.ended then some { state with forwarder := .buffering backlog ops false }
      else state.raw.recv.map fun (batch, raw) =>
        { state with raw := raw, forwarder := .buffering (backlog ++ [batch]) (ops +
          cost batch) rawOpen }
    else none
  | .draining floor [] => some { state with forwarder := .live floor }
  | .draining floor (batch :: backlog) => state.handOn floor batch (.draining floor backlog)
  | .live floor =>
    if state.raw.ended then some state.returned
    else state.raw.recv.map fun (batch, raw) =>
      { state with raw := raw, forwarder := .sending floor batch }
  | .sending floor batch => state.handOn floor batch (.live floor)
  | .done => none

inductive FollowAction where
  | deliver (batch : Landed)
  | close
  | restored (seq : ℕ)
  | failed
  | cut
  | forward
  | read
  | drop

/-- The state after an action, if it is possible now. Sequences increase as the reader delivers. -/
def Follow.after (state : Follow) : FollowAction → Option Follow
  | .deliver batch =>
    if state.raw.sent.all (·.seq < batch.seq) then
      (state.raw.send batch).map fun raw => { state with raw := raw }
    else none
  | .close => some { state with raw := state.raw.close }
  | .restored seq =>
    if state.cutover = .pending then some { state with cutover := .sent seq } else none
  | .failed => if state.cutover = .pending then some { state with cutover := .lost } else none
  | .cut => state.cut
  | .forward => state.forward
  | .read => state.tail.recv.map fun (_, tail) => { state with tail := tail }
  | .drop => some { state with tail := state.tail.drop }

/-- The state after some actions, each of them possible. -/
def Follow.run (state : Follow) (actions : List FollowAction) : Option Follow :=
  actions.foldlM Follow.after state

/-! ### What is past the cutover -/

/-- The batches that a snapshot does not cover. -/
def past (floor : ℕ) (batches : List Landed) : List Landed :=
  batches.filter fun batch => floor < batch.seq

variable {state next : Follow} {floor c : ℕ} {batch : Landed} {batches held : List Landed}
  {forwarder : Forwarder} {raw : Channel Landed replicationQueue} {action : FollowAction}

theorem past_append {more : List Landed} :
    past floor (batches ++ more) = past floor batches ++ past floor more :=
  List.filter_append ..

theorem past_cons_of_lt (later : floor < batch.seq) :
    past floor (batch :: batches) = batch :: past floor batches :=
  List.filter_cons_of_pos (by simpa using later)

theorem past_cons_of_le (covered : ¬ floor < batch.seq) :
    past floor (batch :: batches) = past floor batches :=
  List.filter_cons_of_neg (by simpa using covered)

/-! ### The invariant -/

/-- All but the last batch of a backlog cost less than the bound. -/
def Bounded (backlog : List Landed) : Prop :=
  ∀ before last, backlog = before ++ [last] → (before.map cost).sum < pullBacklogOps

/-- What the forwarder took from the reader and what it handed on, by where it is. -/
def Follow.Accounts (state : Follow) : Forwarder → Prop
  | .buffering backlog ops rawOpen => state.raw.received = backlog ∧ state.tail.sent = [] ∧
      ops = (backlog.map cost).sum ∧ (rawOpen = false →
        state.raw.queue = [] ∧ state.raw.sends = false)
  | .draining floor backlog => state.cutover = .sent floor ∧
      past floor state.raw.received = state.tail.sent ++ past floor backlog
  | .live floor => state.cutover = .sent floor ∧ past floor state.raw.received = state.tail.sent
  | .sending floor batch => state.cutover = .sent floor ∧
      past floor state.raw.received = state.tail.sent ++ past floor [batch]
  | .done => (state.cutover = .lost ∧ state.tail.sent = []) ∨ ∃ floor, state.cutover = .sent floor ∧
      state.tail.sent <+: past floor state.raw.received ∧ (state.tail.reads = true →
        state.raw.queue = [] ∧ state.raw.sends = false ∧
        state.tail.sent = past floor state.raw.received)

/-- The backlog that is held. -/
def Forwarder.backlog : Forwarder → List Landed
  | .buffering backlog _ _ => backlog
  | .draining _ backlog => backlog
  | _ => []

/-- Only the forwarder that has returned has let go of its ends. -/
def Forwarder.running : Forwarder → Bool
  | .done => false
  | _ => true

structure Follow.Inv (state : Follow) : Prop where
  increasing : state.raw.sent.Pairwise (·.seq < ·.seq)
  accounts : state.Accounts state.forwarder
  bounded : Bounded state.forwarder.backlog
  ends : state.raw.reads = state.forwarder.running ∧ state.tail.sends = state.forwarder.running

theorem inv_start : Follow.start.Inv :=
  ⟨.nil, ⟨rfl, rfl, rfl, nofun⟩, fun before last empty => by
    simp [Follow.start, Forwarder.backlog] at empty, rfl, rfl⟩

theorem bounded_nil : Bounded [] := fun before last empty => by simp at empty

theorem Bounded.snoc (within : (held.map cost).sum < pullBacklogOps) : Bounded (held ++ [batch]) := by
  intro before last same
  obtain ⟨rfl, -⟩ := List.append_inj' same rfl
  exact within

theorem Bounded.tail (bounded : Bounded (batch :: held)) : Bounded held := by
  rintro before last rfl
  have whole := bounded (batch :: before) last rfl
  rw [List.map_cons, List.sum_cons] at whole
  omega

/-- Every end of a queue is let go of in the end. -/
theorem Follow.Inv.returned (inv : state.Inv) (accounts : state.returned.Accounts .done) :
    state.returned.Inv :=
  ⟨inv.increasing, accounts, bounded_nil, rfl, rfl⟩

/-- **Handing on** a batch that is owed, before the rest. -/
theorem Follow.Inv.handOn {rest : List Landed} (inv : state.Inv)
    (ran : state.handOn floor batch forwarder = some next) (cut : state.cutover = .sent floor)
    (owed : past floor state.raw.received = state.tail.sent ++ past floor (batch :: rest))
    (bounded : Bounded forwarder.backlog) (running : forwarder.running = true)
    (alive : state.forwarder.running = true)
    (accounts : ∀ tail : Channel Landed replicationQueue, past floor state.raw.received =
      tail.sent ++ past floor rest →
      ({ state with tail := tail, forwarder := forwarder } : Follow).Accounts forwarder) :
    next.Inv := by
  unfold Follow.handOn at ran
  split_ifs at ran with later reads
  · obtain ⟨tail, sent, rfl⟩ := Option.map_eq_some_iff.mp ran
    have sent := Channel.sent_of_send sent
    refine ⟨inv.increasing, accounts tail ?_, bounded, ?_, ?_⟩
    · rw [owed, sent.sent, past_cons_of_lt later, List.append_assoc]
      rfl
    · exact inv.ends.1.trans (alive.trans running.symm)
    · exact sent.sends.trans (inv.ends.2.trans (alive.trans running.symm))
  · obtain rfl := Option.some.inj ran
    refine inv.returned (.inr ⟨floor, cut, ?_, fun still => absurd still reads⟩)
    exact ⟨_, owed.symm⟩
  · obtain rfl := Option.some.inj ran
    refine ⟨inv.increasing, accounts state.tail ?_, bounded, ?_, ?_⟩
    · rw [owed, past_cons_of_le later]
    · exact inv.ends.1.trans (alive.trans running.symm)
    · exact inv.ends.2.trans (alive.trans running.symm)

theorem Follow.Inv.deliver (inv : state.Inv) (ran : state.after (.deliver batch) = some next) :
    next.Inv := by
  unfold Follow.after at ran
  dsimp only at ran
  split_ifs at ran with later
  obtain ⟨raw, sent, rfl⟩ := Option.map_eq_some_iff.mp ran
  have sent := Channel.sent_of_send sent
  refine ⟨?_, ?_, inv.bounded, sent.reads.trans inv.ends.1, inv.ends.2⟩
  · change raw.sent.Pairwise _
    rw [sent.sent, List.pairwise_append]
    refine ⟨inv.increasing, List.pairwise_singleton _ _, fun before inside last here => ?_⟩
    rw [List.mem_singleton.mp here]
    exact of_decide_eq_true (List.all_eq_true.mp later before inside)
  · have accounts := inv.accounts
    have running := inv.ends.1.symm.trans sent.alive.2
    dsimp only
    cases phase : state.forwarder with
    | buffering backlog ops rawOpen =>
      rw [phase] at accounts
      obtain ⟨taken, silent, total, closed⟩ := accounts
      refine ⟨sent.received.trans taken, silent, total, fun shut => ?_⟩
      cases (closed shut).2.symm.trans sent.alive.1
    | draining floor backlog =>
      rw [phase] at accounts
      exact ⟨accounts.1, (congrArg _ sent.received).trans accounts.2⟩
    | live floor =>
      rw [phase] at accounts
      exact ⟨accounts.1, (congrArg _ sent.received).trans accounts.2⟩
    | sending floor batch =>
      rw [phase] at accounts
      exact ⟨accounts.1, (congrArg _ sent.received).trans accounts.2⟩
    | done =>
      rw [phase] at running
      cases running

theorem Follow.Inv.close (inv : state.Inv) :
    ({ state with raw := state.raw.close } : Follow).Inv := by
  refine ⟨inv.increasing, ?_, inv.bounded, inv.ends⟩
  have accounts := inv.accounts
  dsimp only
  cases phase : state.forwarder with
  | buffering backlog ops rawOpen =>
    rw [phase] at accounts
    exact ⟨accounts.1, accounts.2.1, accounts.2.2.1, fun shut => ⟨(accounts.2.2.2 shut).1, rfl⟩⟩
  | done =>
    rw [phase] at accounts
    refine accounts.imp_right fun ⟨floor, cut, owed, all⟩ => ⟨floor, cut, owed, fun still => ?_⟩
    exact ⟨(all still).1, rfl, (all still).2.2⟩
  | _ =>
    rw [phase] at accounts
    exact accounts

/-- What becomes of the snapshot, while the forwarder waits for it. -/
theorem Follow.Inv.settle {cutover : Cutover} (inv : state.Inv) (pending : state.cutover = .pending) :
    ({ state with cutover := cutover } : Follow).Inv := by
  refine ⟨inv.increasing, ?_, inv.bounded, inv.ends⟩
  have accounts := inv.accounts
  dsimp only
  cases phase : state.forwarder with
  | buffering backlog ops rawOpen =>
    rw [phase] at accounts
    exact accounts
  | done =>
    rw [phase] at accounts
    obtain ⟨lost, -⟩ | ⟨floor, cut, -⟩ := accounts
    · cases pending.symm.trans lost
    · cases pending.symm.trans cut
  | _ =>
    rw [phase] at accounts
    cases pending.symm.trans accounts.1

theorem Follow.Inv.cut (inv : state.Inv) (ran : state.cut = some next) : next.Inv := by
  have accounts := inv.accounts
  have bounded := inv.bounded
  have ends := inv.ends
  unfold Follow.cut at ran
  split at ran
  · rename_i backlog ops rawOpen seq phase known
    obtain rfl := Option.some.inj ran
    rw [phase] at accounts bounded ends
    refine ⟨inv.increasing, ⟨known, ?_⟩, bounded, ends⟩
    rw [accounts.1]
    exact (congrArg (· ++ past seq backlog) accounts.2.1).symm
  · rename_i backlog ops rawOpen phase lost
    obtain rfl := Option.some.inj ran
    rw [phase] at accounts
    exact inv.returned (.inl ⟨lost, accounts.2.1⟩)
  · cases ran

theorem Follow.Inv.forward (inv : state.Inv) (ran : state.forward = some next) : next.Inv := by
  have accounts := inv.accounts
  have bounded := inv.bounded
  have ends := inv.ends
  unfold Follow.forward at ran
  cases phase : state.forwarder with
  | buffering backlog ops rawOpen =>
    rw [phase] at accounts bounded ends ran
    dsimp only at ran
    obtain ⟨taken, silent, total, closed⟩ := accounts
    split_ifs at ran with going finished
    · obtain rfl := Option.some.inj ran
      exact ⟨inv.increasing, ⟨taken, silent, total, fun _ => Channel.ended_iff.mp finished⟩,
        bounded, ends⟩
    · obtain ⟨⟨batch, raw⟩, received, rfl⟩ := Option.map_eq_some_iff.mp ran
      have received := Channel.received_of_recv received
      refine ⟨?_, ⟨?_, silent, ?_, fun shut => ?_⟩, .snoc (total ▸ going.2),
        received.reads.trans ends.1, ends.2⟩
      · exact received.sent.symm ▸ inv.increasing
      · exact received.received.trans (congrArg (· ++ [batch]) taken)
      · rw [total, List.map_append, List.sum_append, List.map_singleton, List.sum_singleton]
      · cases going.1.symm.trans shut
  | draining floor backlog =>
    rw [phase] at accounts bounded ends ran
    have alive : state.forwarder.running = true := by rw [phase]; rfl
    cases backlog with
    | nil =>
      obtain rfl := Option.some.inj ran
      exact ⟨inv.increasing, ⟨accounts.1, accounts.2.trans (List.append_nil _)⟩, bounded_nil, ends⟩
    | cons batch backlog =>
      exact inv.handOn ran accounts.1 accounts.2 (Bounded.tail bounded) rfl alive
        fun tail owed => ⟨accounts.1, owed⟩
  | live floor =>
    rw [phase] at accounts ends ran
    dsimp only at ran
    split_ifs at ran with finished
    · obtain rfl := Option.some.inj ran
      obtain ⟨empty, shut⟩ := Channel.ended_iff.mp finished
      exact inv.returned (.inr ⟨floor, accounts.1, accounts.2 ▸ List.prefix_rfl, fun _ =>
        ⟨empty, shut, accounts.2.symm⟩⟩)
    · obtain ⟨⟨batch, raw⟩, received, rfl⟩ := Option.map_eq_some_iff.mp ran
      have received := Channel.received_of_recv received
      refine ⟨received.sent.symm ▸ inv.increasing, ⟨accounts.1, ?_⟩, bounded_nil,
        received.reads.trans ends.1, ends.2⟩
      rw [received.received, past_append, accounts.2]
  | sending floor batch =>
    rw [phase] at accounts ran
    have alive : state.forwarder.running = true := by rw [phase]; rfl
    exact inv.handOn ran accounts.1 accounts.2 bounded_nil rfl alive
      fun tail owed => ⟨accounts.1, owed.trans (List.append_nil _)⟩
  | done =>
    rw [phase] at ran
    cases ran

theorem Follow.Inv.tail (inv : state.Inv) {tail : Channel Landed replicationQueue}
    (sent : tail.sent = state.tail.sent)
    (sends : tail.sends = state.tail.sends) (reads : tail.reads = true → state.tail.reads = true) :
    ({ state with tail := tail } : Follow).Inv := by
  refine ⟨inv.increasing, ?_, inv.bounded, inv.ends.1, sends.trans inv.ends.2⟩
  have accounts := inv.accounts
  dsimp only
  cases phase : state.forwarder with
  | buffering backlog ops rawOpen =>
    rw [phase] at accounts
    exact ⟨accounts.1, sent.trans accounts.2.1, accounts.2.2⟩
  | draining floor backlog =>
    rw [phase] at accounts
    exact ⟨accounts.1, accounts.2.trans (congrArg (· ++ _) sent.symm)⟩
  | live floor =>
    rw [phase] at accounts
    exact ⟨accounts.1, accounts.2.trans sent.symm⟩
  | sending floor batch =>
    rw [phase] at accounts
    exact ⟨accounts.1, accounts.2.trans (congrArg (· ++ _) sent.symm)⟩
  | done =>
    rw [phase] at accounts
    refine accounts.imp (fun lost => ⟨lost.1, sent.trans lost.2⟩) fun ⟨floor, cut, owed, all⟩ => ?_
    refine ⟨floor, cut, sent.symm ▸ owed, fun still => ?_⟩
    exact ⟨(all (reads still)).1, (all (reads still)).2.1, sent.trans (all (reads still)).2.2⟩

/-- **One action** keeps the invariant. -/
theorem Follow.Inv.after {action : FollowAction} (inv : state.Inv)
    (ran : state.after action = some next) :
    next.Inv := by
  cases action with
  | deliver batch => exact inv.deliver ran
  | close => exact Option.some.inj ran ▸ inv.close
  | restored seq =>
    unfold Follow.after at ran
    dsimp only at ran
    split_ifs at ran with pending
    exact Option.some.inj ran ▸ inv.settle pending
  | failed =>
    unfold Follow.after at ran
    dsimp only at ran
    split_ifs at ran with pending
    exact Option.some.inj ran ▸ inv.settle pending
  | cut => exact inv.cut ran
  | forward => exact inv.forward ran
  | read =>
    obtain ⟨⟨batch, tail⟩, received, rfl⟩ := Option.map_eq_some_iff.mp ran
    have received := Channel.received_of_recv received
    exact inv.tail received.sent received.sends fun still => received.reads.symm.trans still
  | drop => exact Option.some.inj ran ▸ inv.tail rfl rfl nofun

/-- **A run** keeps it. -/
theorem Follow.Inv.run {actions : List FollowAction} (inv : state.Inv)
    (ran : state.run actions = some next) :
    next.Inv := by
  induction actions generalizing state with
  | nil => exact Option.some.inj ran ▸ inv
  | cons action actions ih =>
    obtain ⟨mid, first, rest⟩ := Option.bind_eq_some_iff.mp ran
    exact ih (inv.after first) rest

/-! ### What was handed on -/

/-- What was handed on are the first of the batches that were taken past the cutover. -/
theorem Follow.Inv.handed (inv : state.Inv) (cut : state.cutover = .sent c) :
    state.tail.sent <+: past c state.raw.received := by
  have accounts := inv.accounts
  cases phase : state.forwarder with
  | buffering backlog ops rawOpen =>
    rw [phase] at accounts
    exact accounts.2.1 ▸ List.nil_prefix
  | done =>
    rw [phase] at accounts
    obtain ⟨lost, -⟩ | ⟨floor, cut', owed, -⟩ := accounts
    · cases cut.symm.trans lost
    · obtain rfl := Cutover.sent.inj (cut.symm.trans cut')
      exact owed
  | draining floor backlog =>
    rw [phase] at accounts
    obtain rfl := Cutover.sent.inj (cut.symm.trans accounts.1)
    exact ⟨_, accounts.2.symm⟩
  | live floor =>
    rw [phase] at accounts
    obtain rfl := Cutover.sent.inj (cut.symm.trans accounts.1)
    exact accounts.2 ▸ List.prefix_rfl
  | sending floor batch =>
    rw [phase] at accounts
    obtain rfl := Cutover.sent.inj (cut.symm.trans accounts.1)
    exact ⟨_, accounts.2.symm⟩

theorem Follow.Inv.past (inv : state.Inv) (cut : state.cutover = .sent c) :
    state.tail.received <+: Web.past c state.raw.sent := by
  have read : state.tail.received <+: state.tail.sent := ⟨_, state.tail.split.symm⟩
  have taken : Web.past c state.raw.received <+: Web.past c state.raw.sent := by
    rw [state.raw.split, past_append]
    exact List.prefix_append _ _
  exact read.trans ((inv.handed cut).trans taken)

theorem Follow.Inv.silent (inv : state.Inv) (unknown : ∀ c, state.cutover ≠ .sent c) :
    state.tail.sent = [] := by
  have accounts := inv.accounts
  cases phase : state.forwarder with
  | buffering backlog ops rawOpen =>
    rw [phase] at accounts
    exact accounts.2.1
  | done =>
    rw [phase] at accounts
    obtain ⟨-, silent⟩ | ⟨floor, cut, -⟩ := accounts
    · exact silent
    · exact absurd cut (unknown floor)
  | _ =>
    rw [phase] at accounts
    exact absurd accounts.1 (unknown _)

theorem Follow.Inv.ordered (inv : state.Inv) : state.tail.received.Pairwise (·.seq < ·.seq) := by
  cases cut : state.cutover with
  | sent c => exact (inv.increasing.filter _).sublist (inv.past cut).sublist
  | _ =>
    have silent := inv.silent (by rw [cut]; nofun)
    rw [state.tail.split, List.append_eq_nil_iff] at silent
    exact silent.1 ▸ .nil

theorem ops_le_cost : (held.map fun batch => batch.writes.length).sum ≤ (held.map cost).sum :=
  List.sum_le_sum fun _ _ => le_max_left _ _

/-- A backlog holds less than the bound and one batch more. -/
theorem Bounded.ops_le (bounded : Bounded held) (last : Landed) (here : last ∈ held.getLast?) :
    (held.map fun batch => batch.writes.length).sum ≤ pullBacklogOps + last.writes.length := by
  obtain ⟨before, rfl⟩ := List.getLast?_eq_some_iff.mp here
  have within := bounded before last rfl
  have fewer := @ops_le_cost before
  rw [List.map_append, List.sum_append, List.map_singleton, List.sum_singleton]
  omega

/-! ### The end of a run -/

/-- What the forwarder and the reader of the tail do. -/
def FollowAction.inner : FollowAction → Bool
  | .cut | .forward | .read => true
  | _ => false

def Forwarder.work : Forwarder → ℕ
  | .buffering backlog _ rawOpen => 3 * backlog.length + rawOpen.toNat + 3
  | .draining _ backlog => 3 * backlog.length + 2
  | .live _ => 1
  | .sending _ _ => 3
  | .done => 0

/-- How many actions of the forwarder and the tail's reader are left at most. -/
def Follow.work (state : Follow) : ℕ :=
  4 * state.raw.queue.length + state.forwarder.work + state.tail.queue.length

theorem work_returned (left : 0 < state.forwarder.work) : state.returned.work < state.work := by
  change 4 * state.raw.queue.length + 0 + state.tail.queue.length <
    4 * state.raw.queue.length + state.forwarder.work + state.tail.queue.length
  omega

theorem work_handOn (ran : state.handOn floor batch forwarder = some next)
    (lighter : forwarder.work + 1 < state.forwarder.work) : next.work < state.work := by
  unfold Follow.handOn at ran
  split_ifs at ran
  · obtain ⟨tail, sent, rfl⟩ := Option.map_eq_some_iff.mp ran
    have length := congrArg List.length (Channel.sent_of_send sent).queue
    rw [List.length_append, List.length_singleton] at length
    simp only [Follow.work]
    omega
  · exact Option.some.inj ran ▸ work_returned (by omega)
  · obtain rfl := Option.some.inj ran
    simp only [Follow.work]
    omega

theorem work_recv (ran : state.raw.recv = some (batch, raw)) :
    state.raw.queue.length = raw.queue.length + 1 :=
  congrArg List.length (Channel.received_of_recv ran).queue

theorem work_forward (ran : state.forward = some next) : next.work < state.work := by
  unfold Follow.forward at ran
  cases phase : state.forwarder with
  | buffering backlog ops rawOpen =>
    rw [phase] at ran
    dsimp only at ran
    split_ifs at ran with going
    · obtain rfl := Option.some.inj ran
      simp only [Follow.work, Forwarder.work, phase, going.1, Bool.toNat_false, Bool.toNat_true]
      omega
    · obtain ⟨⟨batch, raw⟩, received, rfl⟩ := Option.map_eq_some_iff.mp ran
      have length := work_recv received
      simp only [Follow.work, Forwarder.work, phase, List.length_append, List.length_singleton]
      omega
  | draining floor backlog =>
    rw [phase] at ran
    cases backlog with
    | nil =>
      obtain rfl := Option.some.inj ran
      simp only [Follow.work, Forwarder.work, phase]
      omega
    | cons batch backlog =>
      refine work_handOn ran ?_
      simp only [Forwarder.work, phase, List.length_cons]
      omega
  | live floor =>
    rw [phase] at ran
    dsimp only at ran
    split_ifs at ran
    · exact Option.some.inj ran ▸ work_returned (by rw [phase]; exact Nat.one_pos)
    · obtain ⟨⟨batch, raw⟩, received, rfl⟩ := Option.map_eq_some_iff.mp ran
      have length := work_recv received
      simp only [Follow.work, Forwarder.work, phase]
      omega
  | sending floor batch =>
    rw [phase] at ran
    refine work_handOn ran ?_
    simp only [Forwarder.work, phase]
    omega
  | done =>
    rw [phase] at ran
    cases ran

theorem work_cut (ran : state.cut = some next) : next.work < state.work := by
  unfold Follow.cut at ran
  split at ran
  · rename_i phase _
    obtain rfl := Option.some.inj ran
    simp only [Follow.work, Forwarder.work, phase]
    omega
  · rename_i phase _
    exact Option.some.inj ran ▸ work_returned (by rw [phase]; exact Nat.succ_pos _)
  · cases ran

theorem work_after (inner : action.inner = true) (ran : state.after action = some next) :
    next.work < state.work := by
  cases action with
  | cut => exact work_cut ran
  | forward => exact work_forward ran
  | read =>
    obtain ⟨⟨batch, tail⟩, received, rfl⟩ := Option.map_eq_some_iff.mp ran
    have length : state.tail.queue.length = tail.queue.length + 1 :=
      congrArg List.length (Channel.received_of_recv received).queue
    simp only [Follow.work]
    omega
  | _ => cases inner

/-- Left to themselves, the forwarder and the tail's reader come to an end. -/
theorem work_run {actions : List FollowAction} (inner : ∀ action ∈ actions, action.inner = true)
    (ran : state.run actions = some next) : actions.length ≤ state.work := by
  induction actions generalizing state with
  | nil => exact Nat.zero_le _
  | cons action actions ih =>
    obtain ⟨mid, first, rest⟩ := Option.bind_eq_some_iff.mp ran
    have less := work_after (inner action List.mem_cons_self) first
    have later := ih (fun other among => inner other (List.mem_cons_of_mem _ among)) rest
    rw [List.length_cons]
    omega

/-- Handing on waits only for room in the tail. -/
theorem handOn_ne_none (alive : state.tail.sends = true) (reads : state.tail.reads = true)
    (empty : state.tail.queue = []) : state.handOn floor batch forwarder ≠ none := by
  intro stuck
  unfold Follow.handOn at stuck
  split_ifs at stuck
  rw [Option.map_eq_none_iff, Channel.send_eq_none ⟨alive, reads⟩, empty] at stuck
  cases stuck

/-- **Where nothing can go on**, everything past the cutover has been read. -/
theorem Follow.Inv.complete (inv : state.Inv) (cut : state.cutover = .sent c)
    (shut : state.raw.sends = false) (reads : state.tail.reads = true)
    (stuck : ∀ action, action.inner = true → state.after action = none) :
    state.tail.received = Web.past c state.raw.sent := by
  have accounts := inv.accounts
  have empty : state.tail.queue = [] :=
    (Channel.recv_eq_none reads).mp (Option.map_eq_none_iff.mp (stuck .read rfl))
  have held := stuck .forward rfl
  change state.forward = none at held
  unfold Follow.forward at held
  cases phase : state.forwarder with
  | buffering backlog ops rawOpen =>
    have waits := stuck .cut rfl
    change state.cut = none at waits
    unfold Follow.cut at waits
    rw [phase, cut] at waits
    cases waits
  | draining floor backlog =>
    have alive : state.tail.sends = true := inv.ends.2.trans (by rw [phase]; rfl)
    rw [phase] at held
    cases backlog with
    | nil => cases held
    | cons batch backlog => exact absurd held (handOn_ne_none alive reads empty)
  | live floor =>
    have alive : state.raw.reads = true := inv.ends.1.trans (by rw [phase]; rfl)
    rw [phase] at held
    dsimp only at held
    split_ifs at held with finished
    have none := (Channel.recv_eq_none alive).mp (Option.map_eq_none_iff.mp held)
    exact absurd (Channel.ended_iff.mpr ⟨none, shut⟩) finished
  | sending floor batch =>
    have alive : state.tail.sends = true := inv.ends.2.trans (by rw [phase]; rfl)
    rw [phase] at held
    exact absurd held (handOn_ne_none alive reads empty)
  | done =>
    rw [phase] at accounts
    obtain ⟨lost, -⟩ | ⟨floor, cut', -, all⟩ := accounts
    · cases cut.symm.trans lost
    · obtain rfl := Cutover.sent.inj (cut.symm.trans cut')
      obtain ⟨drained, -, handed⟩ := all reads
      rw [Channel.received_eq_sent empty, handed, Channel.received_eq_sent drained]

/-- What neither the forwarder nor the tail's reader changes. -/
structure Follow.Same (state next : Follow) : Prop where
  cutover : next.cutover = state.cutover
  sent : next.raw.sent = state.raw.sent
  sends : next.raw.sends = state.raw.sends
  reads : next.tail.reads = state.tail.reads

theorem same_handOn (ran : state.handOn floor batch forwarder = some next) : state.Same next := by
  unfold Follow.handOn at ran
  split_ifs at ran
  · obtain ⟨tail, sent, rfl⟩ := Option.map_eq_some_iff.mp ran
    exact ⟨rfl, rfl, rfl, (Channel.sent_of_send sent).reads⟩
  · exact Option.some.inj ran ▸ ⟨rfl, rfl, rfl, rfl⟩
  · exact Option.some.inj ran ▸ ⟨rfl, rfl, rfl, rfl⟩

theorem same_recv (ran : state.raw.recv = some (batch, raw)) :
    state.Same { state with raw := raw, forwarder := forwarder } :=
  ⟨rfl, (Channel.received_of_recv ran).sent, (Channel.received_of_recv ran).sends, rfl⟩

theorem same_forward (ran : state.forward = some next) : state.Same next := by
  unfold Follow.forward at ran
  split at ran
  · split_ifs at ran
    · exact Option.some.inj ran ▸ ⟨rfl, rfl, rfl, rfl⟩
    · obtain ⟨⟨batch, raw⟩, received, rfl⟩ := Option.map_eq_some_iff.mp ran
      exact same_recv received
  · exact Option.some.inj ran ▸ ⟨rfl, rfl, rfl, rfl⟩
  · exact same_handOn ran
  · split_ifs at ran
    · exact Option.some.inj ran ▸ ⟨rfl, rfl, rfl, rfl⟩
    · obtain ⟨⟨batch, raw⟩, received, rfl⟩ := Option.map_eq_some_iff.mp ran
      exact same_recv received
  · exact same_handOn ran
  · cases ran

theorem same_after (inner : action.inner = true) (ran : state.after action = some next) :
    state.Same next := by
  cases action with
  | cut =>
    change state.cut = some next at ran
    unfold Follow.cut at ran
    split at ran
    · exact Option.some.inj ran ▸ ⟨rfl, rfl, rfl, rfl⟩
    · exact Option.some.inj ran ▸ ⟨rfl, rfl, rfl, rfl⟩
    · cases ran
  | forward => exact same_forward ran
  | read =>
    obtain ⟨⟨batch, tail⟩, received, rfl⟩ := Option.map_eq_some_iff.mp ran
    exact ⟨rfl, rfl, rfl, (Channel.received_of_recv received).reads⟩
  | _ => cases inner

/-- **Everything is read in the end**, once the source is closed and the tail is read on. -/
theorem Follow.Inv.settles (inv : state.Inv) (cut : state.cutover = .sent c)
    (shut : state.raw.sends = false) (reads : state.tail.reads = true) :
    ∃ actions final, (∀ action ∈ actions, FollowAction.inner action = true) ∧
      state.run actions = some final ∧ final.tail.received = Web.past c state.raw.sent := by
  induction work : state.work using Nat.strong_induction_on generalizing state with
  | _ n ih =>
    by_cases stuck : ∀ action, action.inner = true → state.after action = none
    · exact ⟨[], state, nofun, rfl, inv.complete cut shut reads stuck⟩
    · obtain ⟨action, free⟩ := not_forall.mp stuck
      obtain ⟨inner, goes⟩ := Classical.not_imp.mp free
      obtain ⟨next, ran⟩ := Option.ne_none_iff_exists'.mp goes
      have same := same_after inner ran
      obtain ⟨actions, final, rest, run, read⟩ :=
        ih next.work (work ▸ work_after inner ran) (inv.after ran)
        (same.cutover.trans cut) (same.sends.trans shut) (same.reads.trans reads) rfl
      refine ⟨action :: actions, final, List.forall_mem_cons.mpr ⟨inner, rest⟩, ?_, same.sent ▸ read⟩
      exact Option.bind_eq_some_iff.mpr ⟨next, ran, run⟩

/-! ### The tail -/

/-- What holds of the tail, whatever has happened. -/
structure Follow.Delivers (state : Follow) : Prop where
  ordered : state.tail.received.Pairwise (·.seq < ·.seq)
  past : ∀ c, state.cutover = .sent c → state.tail.received <+: Web.past c state.raw.sent
  silent : (∀ c, state.cutover ≠ .sent c) → state.tail.sent = []
  bounded : ∀ last ∈ state.forwarder.backlog.getLast?,
    (state.forwarder.backlog.map fun batch => batch.writes.length).sum ≤
    pullBacklogOps + last.writes.length
  complete : ∀ c, state.cutover = .sent c → state.raw.sends = false → state.tail.reads = true →
    (∀ action, action.inner = true → state.after action = none) →
    state.tail.received = Web.past c state.raw.sent
  settles : ∀ c, state.cutover = .sent c → state.raw.sends = false → state.tail.reads = true →
    ∃ actions final, (∀ action ∈ actions, FollowAction.inner action = true) ∧
    state.run actions = some final ∧ final.tail.received = Web.past c state.raw.sent
  ends : ∀ actions final, (∀ action ∈ actions, FollowAction.inner action = true) →
    state.run actions = some final → actions.length ≤ state.work

/-- **The tail is delivered exactly once, in order, past the cutover.** In every interleaving of
what the reader delivers, of what becomes of the snapshot, of the close, and of the forwarder and
the reads: what was read is a prefix of what was delivered past the cutover, and nothing is sent
before it is known, nor if it is lost. The backlog stays in its bound. Once the source is closed,
with the tail still read, the rest comes to an end, and where it does everything past the cutover
has been read. -/
theorem tail_exactly_once {actions : List FollowAction}
    (ran : Follow.start.run actions = some state) :
    state.Delivers := by
  have inv := inv_start.run ran
  exact ⟨inv.ordered, fun c cut => inv.past cut, inv.silent, inv.bounded.ops_le,
    fun c cut shut reads stuck => inv.complete cut shut reads stuck, fun c cut shut reads =>
      inv.settles cut shut reads,
    fun _ _ inner ran => work_run inner ran⟩

/-- Two batches arrive before the cutover is known to be the first's, and one after it. -/
def lateCutover : List FollowAction :=
  [.deliver ⟨1, []⟩, .forward, .deliver ⟨2, []⟩, .forward, .restored 1, .cut, .deliver ⟨3, []⟩,
    .close, .forward,
    .forward, .read, .forward, .forward, .forward, .forward, .read]

theorem tail_exactly_once_lateCutover :
    ∃ state, Follow.start.run lateCutover = some state ∧ state.Delivers := by
  have runs : (Follow.start.run lateCutover).isSome = true := by decide
  obtain ⟨state, ran⟩ := Option.isSome_iff_exists.mp runs
  exact ⟨state, ran, tail_exactly_once ran⟩

/-- The second batch and the third are read. -/
example : (Follow.start.run lateCutover).map (fun state => state.tail.received.map Landed.seq) =
    some [2, 3] := by
  decide

end DrStrange.Web
