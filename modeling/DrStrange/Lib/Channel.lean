/-
**Bounded channels.**

A channel remembers what was sent through it and what was received: what was sent is what was
received, followed by what still waits (`Channel.split`). No channel can be built that loses,
repeats or reorders.
-/

import Mathlib

namespace DrStrange.Lib

variable {α : Type} {capacity : ℕ}

/-- A queue between a sender and a receiver, either of which may be gone. -/
structure Channel (α : Type) (capacity : ℕ) where
  sent : List α
  received : List α
  queue : List α
  sends : Bool
  reads : Bool
  split : sent = received ++ queue
  fits : queue.length ≤ capacity

namespace Channel

variable {channel after : Channel α capacity} {a : α}

def new (α : Type) (capacity : ℕ) : Channel α capacity := ⟨[], [], [], true, true, rfl, Nat.zero_le _⟩

/-- Sending waits while the queue is full, and fails once the receiver is gone. -/
def send (channel : Channel α capacity) (a : α) : Option (Channel α capacity) :=
  if room : channel.queue.length < capacity then
    if channel.sends ∧ channel.reads then
      some { channel with
        sent := channel.sent ++ [a]
        queue := channel.queue ++ [a]
        split := by rw [channel.split, List.append_assoc]
        fits := by rw [List.length_append]; exact room }
    else none
  else none

/-- Receiving waits while the queue is empty. -/
def recv (channel : Channel α capacity) : Option (α × Channel α capacity) :=
  match first : channel.queue with
  | [] => none
  | a :: rest =>
    if channel.reads then
      some (a, { channel with
        received := channel.received ++ [a]
        queue := rest
        split := by rw [channel.split, first, List.append_assoc]; rfl
        fits := (Nat.le_succ _).trans ((congrArg List.length first).symm.trans_le channel.fits) })
    else none

/-- The sender is gone. -/
def close (channel : Channel α capacity) : Channel α capacity := { channel with sends := false }

/-- The receiver is gone. -/
def drop (channel : Channel α capacity) : Channel α capacity := { channel with reads := false }

/-- The receiver knows that nothing more will come. -/
def ended (channel : Channel α capacity) : Bool := channel.queue.isEmpty && !channel.sends

/-! ### What the operations do -/

@[simp] theorem new_sent : (new α capacity).sent = [] := rfl
@[simp] theorem new_received : (new α capacity).received = [] := rfl
@[simp] theorem close_sent : channel.close.sent = channel.sent := rfl
@[simp] theorem close_received : channel.close.received = channel.received := rfl
@[simp] theorem close_queue : channel.close.queue = channel.queue := rfl
@[simp] theorem close_sends : channel.close.sends = false := rfl
@[simp] theorem close_reads : channel.close.reads = channel.reads := rfl
@[simp] theorem drop_sent : channel.drop.sent = channel.sent := rfl
@[simp] theorem drop_received : channel.drop.received = channel.received := rfl
@[simp] theorem drop_queue : channel.drop.queue = channel.queue := rfl
@[simp] theorem drop_sends : channel.drop.sends = channel.sends := rfl
@[simp] theorem drop_reads : channel.drop.reads = false := rfl

/-- What a send did. -/
structure Sent (channel : Channel α capacity) (a : α) (after : Channel α capacity) : Prop where
  room : channel.queue.length < capacity
  alive : channel.sends = true ∧ channel.reads = true
  sent : after.sent = channel.sent ++ [a]
  received : after.received = channel.received
  queue : after.queue = channel.queue ++ [a]
  sends : after.sends = channel.sends
  reads : after.reads = channel.reads

theorem sent_of_send (ran : channel.send a = some after) : channel.Sent a after := by
  unfold send at ran
  split_ifs at ran with room alive
  obtain rfl := Option.some.inj ran
  exact ⟨room, alive, rfl, rfl, rfl, rfl, rfl⟩

/-- What a receive did. -/
structure Received (channel : Channel α capacity) (a : α) (after : Channel α capacity) : Prop where
  alive : channel.reads = true
  queue : channel.queue = a :: after.queue
  received : after.received = channel.received ++ [a]
  sent : after.sent = channel.sent
  sends : after.sends = channel.sends
  reads : after.reads = channel.reads

theorem received_of_recv (ran : channel.recv = some (a, after)) : channel.Received a after := by
  unfold recv at ran
  split at ran
  · cases ran
  · rename_i first
    split_ifs at ran with alive
    obtain ⟨rfl, rfl⟩ := Prod.mk.inj (Option.some.inj ran)
    exact ⟨alive, first, rfl, rfl, rfl, rfl⟩

/-- A receive has to wait only while nothing is queued. -/
theorem recv_eq_none (alive : channel.reads = true) : channel.recv = none ↔ channel.queue = [] := by
  unfold recv
  split
  · rename_i empty
    exact iff_of_true rfl empty
  · rename_i first
    rw [if_pos alive]
    exact iff_of_false nofun fun empty => by cases first.symm.trans empty

/-- A send has to wait only while the queue is full. -/
theorem send_eq_none (alive : channel.sends = true ∧ channel.reads = true) :
    channel.send a = none ↔ channel.queue.length = capacity := by
  unfold send
  have fits := channel.fits
  split_ifs with room
  · exact iff_of_false nofun (by omega)
  · exact iff_of_true rfl (by omega)

theorem ended_iff : channel.ended = true ↔ channel.queue = [] ∧ channel.sends = false := by
  rw [ended, Bool.and_eq_true, List.isEmpty_iff, Bool.not_eq_true']

/-- Once nothing waits, everything that was sent has been received. -/
theorem received_eq_sent (empty : channel.queue = []) : channel.received = channel.sent := by
  rw [channel.split, empty, List.append_nil]

end Channel

end DrStrange.Lib
