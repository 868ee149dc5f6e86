/-
**The change feed and the true difference.**

The methods of a transaction are the steps of a journal over the records of its plane, and while the
buffer has room its entries are the notes of that journal (`FeedTxn.journaled`). So what is published
for a commit is the difference between the store before it and after it just in case the transaction
deletes only what was there, deletes by their ids the edges that its deleted nodes take along, and
leaves nothing that it updates as it was (`changes_exact`).
-/

import DrStrange.Api.Noted

namespace DrStrange.Graph

open Std Lib ExtTreeMap

variable {base tables : Tables} {plane : PlaneId} {nodes edges : Set ℕ}
  {start before write : WriteTxn base} {feed next : FeedTxn base} {ops : List WriteOp}
  {op : WriteOp} {entity : Entity} {note : Entity × ChangeOp}

/-! ### The calls of a transaction -/

/-- The changes recorded by the calls of a transaction. -/
def WriteTxn.notes (write : WriteTxn base) : List WriteOp → List (Entity × ChangeOp)
  | [] => []
  | op :: ops => (op.note write).toList ++ (op.after write).notes ops

/-- A method is called on the transaction as the calls before it leave it. -/
def WriteTxn.Calls (start : WriteTxn base) (ops : List WriteOp) (write : WriteTxn base)
    (op : WriteOp) : Prop :=
  ∃ done, done ++ [op] <+: ops ∧ write = start.afterAll done

theorem WriteTxn.afterAll_concat : start.afterAll (ops ++ [op]) = op.after (start.afterAll ops) :=
  List.foldl_concat ..

theorem WriteTxn.notes_concat :
    start.notes (ops ++ [op]) = start.notes ops ++ (op.note (start.afterAll ops)).toList := by
  induction ops generalizing start with
  | nil => simp [WriteTxn.notes, WriteTxn.afterAll]
  | cons first ops ih =>
    rw [List.cons_append, WriteTxn.notes, ih, WriteTxn.notes, List.append_assoc]
    rfl

theorem WriteTxn.calls_concat {call : WriteOp} :
    start.Calls (ops ++ [op]) write call ↔
      start.Calls ops write call ∨ write = start.afterAll ops ∧ call = op := by
  constructor
  · rintro ⟨done, inside, rfl⟩
    rcases List.prefix_concat_iff.mp inside with whole | inside
    · obtain ⟨rfl, single⟩ := List.append_inj' whole rfl
      exact .inr ⟨rfl, List.singleton_inj.mp single⟩
    · exact .inl ⟨done, inside, rfl⟩
  · rintro (⟨done, inside, rfl⟩ | ⟨rfl, rfl⟩)
    · exact ⟨done, inside.trans (List.prefix_append ..), rfl⟩
    · exact ⟨ops, List.prefix_rfl, rfl⟩

theorem WriteTxn.mem_notes :
    note ∈ start.notes ops ↔ ∃ write op, start.Calls ops write op ∧ op.note write = some note := by
  induction ops using List.reverseRecOn with
  | nil =>
    refine ⟨nofun, ?_⟩
    rintro ⟨_, _, ⟨done, inside, -⟩, -⟩
    simp at inside
  | append_singleton ops op ih =>
    rw [WriteTxn.notes_concat, List.mem_append, ih, Option.mem_toList]
    constructor
    · rintro (⟨write, call, called, noted⟩ | noted)
      · exact ⟨write, call, WriteTxn.calls_concat.mpr (.inl called), noted⟩
      · exact ⟨_, op, WriteTxn.calls_concat.mpr (.inr ⟨rfl, rfl⟩), noted⟩
    · rintro ⟨write, call, called, noted⟩
      rcases WriteTxn.calls_concat.mp called with called | ⟨rfl, rfl⟩
      · exact .inl ⟨write, call, called, noted⟩
      · exact .inr noted

theorem WriteTxn.Calls.mem (called : start.Calls ops write op) : op ∈ ops := by
  obtain ⟨done, inside, -⟩ := called
  exact inside.subset (List.mem_append_right _ (List.mem_singleton_self op))

theorem WriteTxn.exists_calls (member : op ∈ ops) : ∃ write, start.Calls ops write op := by
  obtain ⟨done, rest, rfl⟩ := List.append_of_mem member
  exact ⟨_, done, ⟨rest, by simp⟩, rfl⟩

theorem WriteTxn.Calls.sound (called : start.Calls ops write op) (sound : start.world.Sound) :
    write.world.Sound := by
  obtain ⟨done, -, rfl⟩ := called
  exact sound.changes (WriteTxn.afterAll_follows.changes sound)

/-! ### The journal of a transaction -/

/-- The journal of a transaction's calls, from the records it began with. -/
structure WriteTxn.Journaled (start : WriteTxn base) (ops : List WriteOp)
    (journal : Journal Entity EntityRow) : Prop where
  kept : journal.Kept start.record
  values : journal.values = (start.afterAll ops).record
  made : ∀ entity ∈ journal.held, (start.afterAll ops).world.Made entity
  notes : journal.notes = start.notes ops
  lost : ∀ entity, entity ∈ journal.lost ↔
    ∃ write op, start.Calls ops write op ∧ entity ∈ op.cascade write

/-- A call is a step of the journal. -/
theorem FeedTxn.Steps.journal {journal : Journal Entity EntityRow} {along : List Entity}
    {note : Option (Entity × ChangeOp)} (steps : feed.Steps next along note)
    (values : journal.values = feed.write.record)
    (made : ∀ entity ∈ journal.held, feed.write.world.Made entity)
    (stays : ∀ entity, feed.write.world.Made entity → next.write.world.Made entity) :
    ∃ journal', journal.Step next.write.record journal' ∧ journal'.values = next.write.record ∧
      (∀ entity ∈ journal'.held, next.write.world.Made entity) ∧
      journal'.notes = journal.notes ++ note.toList ∧
      journal'.lost = journal.lost ∪ {entity | entity ∈ along} := by
  have held : ∀ entity ∈ journal.held, next.write.world.Made entity := fun entity inside =>
    stays entity (made entity inside)
  have clear : journal.lost ∪ {entity | entity ∈ ([] : List Entity)} = journal.lost := by simp
  cases steps with
  | failed same kept =>
    exact ⟨journal, .quiet (same.trans values.symm), values.trans same.symm, held,
      by simp, clear.symm⟩
  | noted noted pushed =>
    cases noted with
    | @created entity row fresh made' written =>
      refine ⟨_, .create (fun inside => fresh (made entity inside))
        ((congrFun written entity).trans (Function.update_self ..)) fun other apart => ?_, rfl, ?_,
        rfl, clear.symm⟩
      · rw [written, Function.update_of_ne apart, values]
      · rintro other (rfl | inside)
        · exact made'
        · exact held other inside
    | @updated entity old new found written =>
      refine ⟨_, .update ((congrFun values entity).trans found)
        ((congrFun written entity).trans (Function.update_self ..)) fun other apart => ?_, rfl, held,
        rfl, clear.symm⟩
      rw [written, Function.update_of_ne apart, values]
    | @deleted entity _ gone here gone' rest =>
      refine ⟨_, .delete gone (fun other inside => ?_) gone' fun other apart outside => ?_, rfl, held,
        rfl, rfl⟩
      · rw [values]
        exact here other inside
      · rw [values]
        exact rest other apart outside

/-- A transaction of methods on single entities has a journal. -/
theorem WriteTxn.journaled (sound : start.world.Sound) (recorded : start.world.Recorded)
    (single : ∀ op ∈ ops, op.Single) : ∃ journal, start.Journaled ops journal := by
  induction ops using List.reverseRecOn with
  | nil =>
    refine ⟨.start start.record, Journal.start_kept, rfl, fun entity here =>
      recorded.made here, rfl, ?_⟩
    intro entity
    refine ⟨nofun, ?_⟩
    rintro ⟨_, _, ⟨done, inside, -⟩, -⟩
    simp at inside
  | append_singleton ops op ih =>
    obtain ⟨journal, journaled⟩ := ih fun op member => single op (List.mem_append_left _ member)
    have sound' : (start.afterAll ops).world.Sound :=
      sound.changes (WriteTxn.afterAll_follows.changes sound)
    have steps := @FeedTxn.after_steps base ⟨start.afterAll ops, .default⟩ op
      (single op (List.mem_append_right _ (List.mem_singleton_self op))) sound'
    have same : (FeedTxn.after ⟨start.afterAll ops, .default⟩ op).write =
        start.afterAll (ops ++ [op]) := FeedTxn.after_write.trans WriteTxn.afterAll_concat.symm
    obtain ⟨next, step, values, made, notes, lost⟩ := steps.journal journaled.values journaled.made
      fun entity here => by
        rw [FeedTxn.after_write]
        exact (op.follows.changes sound').made here
    rw [same] at step values made
    refine ⟨next, journaled.kept.step step, values, made, ?_, fun entity => ?_⟩
    · rw [notes, journaled.notes, WriteTxn.notes_concat]
    · rw [lost, Set.mem_union, journaled.lost entity]
      constructor
      · rintro (⟨write, call, called, inside⟩ | inside)
        · exact ⟨write, call, WriteTxn.calls_concat.mpr (.inl called), inside⟩
        · exact ⟨_, op, WriteTxn.calls_concat.mpr (.inr ⟨rfl, rfl⟩), inside⟩
      · rintro ⟨write, call, called, inside⟩
        rcases WriteTxn.calls_concat.mp called with called | ⟨rfl, rfl⟩
        · exact .inl ⟨write, call, called, inside⟩
        · exact .inr inside

/-! ### What the notes have to say -/

/-- The calls of a transaction account for what it changes: what is deleted was there at some point
and is not there in the end, the edges a deleted node takes along are deleted by their ids as well,
and what is updated is not as it was before. -/
structure WriteTxn.Accounts (start : WriteTxn base) (ops : List WriteOp) : Prop where
  deletes : ∀ op ∈ ops, ∀ entity, op.target = some (entity, .deleted) →
    (∃ done, done <+: ops ∧ (start.afterAll done).record entity ≠ none) ∧
      (start.afterAll ops).record entity = none
  cascades : ∀ write id, start.Calls ops write (.deleteNode id) →
    ∀ edge ∈ incidentEdges write.txn.tables write.plane id, .deleteEdge edge ∈ ops
  updates : ∀ write op, start.Calls ops write op → (returned op.call write).isSome →
    ∀ entity row, op.target = some (entity, .updated) → start.record entity = some row →
      (start.afterAll ops).record entity ≠ some row

theorem WriteTxn.mem_notes_deleted (sound : start.world.Sound) :
    (entity, .deleted) ∈ start.notes ops ↔ ∃ op ∈ ops, op.target = some (entity, .deleted) := by
  rw [WriteTxn.mem_notes]
  constructor
  · rintro ⟨write, op, called, noted⟩
    exact ⟨op, called.mem, WriteOp.note_target noted nofun⟩
  · rintro ⟨op, member, target⟩
    obtain ⟨write, called⟩ := @WriteTxn.exists_calls base start ops op member
    exact ⟨write, op, called, WriteOp.note_deleted (called.sound sound) target⟩

theorem WriteTxn.mem_notes_updated :
    (entity, .updated) ∈ start.notes ops ↔ ∃ write op, start.Calls ops write op ∧
      (returned op.call write).isSome ∧ op.target = some (entity, .updated) := by
  rw [WriteTxn.mem_notes]
  refine exists_congr fun write => exists_congr fun op => and_congr_right fun _ => ?_
  constructor
  · intro noted
    have target := WriteOp.note_target noted nofun
    exact ⟨(WriteOp.note_eq target).mp noted, target⟩
  · rintro ⟨returns, target⟩
    exact (WriteOp.note_eq target).mpr returns

/-- What was held is what was there at some point. -/
theorem WriteTxn.Journaled.held_iff {journal : Journal Entity EntityRow}
    (journaled : start.Journaled ops journal) (sound : start.world.Sound)
    (recorded : start.world.Recorded) (single : ∀ op ∈ ops, op.Single) :
    entity ∈ journal.held ↔ ∃ done, done <+: ops ∧ (start.afterAll done).record entity ≠ none := by
  rw [journaled.kept.held, journaled.notes]
  constructor
  · rintro (here | noted)
    · exact ⟨[], List.nil_prefix, here⟩
    · obtain ⟨write, op, ⟨done, inside, rfl⟩, noted⟩ := WriteTxn.mem_notes.mp noted
      refine ⟨done ++ [op], inside, ?_⟩
      have steps := @FeedTxn.after_steps base ⟨start.afterAll done, .default⟩ op
        (single op (inside.subset (List.mem_append_right _ (List.mem_singleton_self op))))
        (sound.changes (WriteTxn.afterAll_follows.changes sound))
      have same : (FeedTxn.after ⟨start.afterAll done, .default⟩ op).write =
          start.afterAll (done ++ [op]) := FeedTxn.after_write.trans WriteTxn.afterAll_concat.symm
      rw [show op.note (FeedTxn.write ⟨start.afterAll done, .default⟩) = _ from noted] at steps
      rw [← same]
      generalize WriteOp.cascade _ op = along at steps
      cases steps with
      | noted noted _ =>
        cases noted with
        | created _ _ written =>
          rw [written, Function.update_self]
          exact nofun
  · rintro ⟨done, inside, here⟩
    obtain ⟨earlier, journaled'⟩ := @WriteTxn.journaled base start done sound recorded
      fun op member => single op (inside.subset member)
    have held := journaled'.kept.present entity (journaled'.values ▸ here)
    rw [journaled'.kept.held, journaled'.notes] at held
    refine held.imp_right fun noted => ?_
    obtain ⟨write, op, ⟨done', inside', rfl⟩, noted⟩ := WriteTxn.mem_notes.mp noted
    exact WriteTxn.mem_notes.mpr ⟨_, op, ⟨done', inside'.trans inside, rfl⟩, noted⟩

/-- The edges of a node deleted are deleted by their ids just in case no entity is lost unnoted. -/
theorem WriteTxn.Journaled.exact_iff {journal : Journal Entity EntityRow}
    (journaled : start.Journaled ops journal) (sound : start.world.Sound)
    (recorded : start.world.Recorded) (single : ∀ op ∈ ops, op.Single) :
    journal.Exact start.record ↔ start.Accounts ops := by
  have deleted : ∀ entity, (entity, .deleted) ∈ journal.notes ↔
      ∃ op ∈ ops, op.target = some (entity, .deleted) := fun entity => by
    rw [journaled.notes, WriteTxn.mem_notes_deleted sound]
  have held : ∀ entity, entity ∈ journal.held ↔ _ := fun entity =>
    journaled.held_iff sound recorded single
  constructor
  · intro exact
    refine ⟨?_, ?_, ?_⟩
    · intro op member entity target
      obtain ⟨inside, gone⟩ := exact.deleted entity ((deleted entity).mpr ⟨op, member, target⟩)
      exact ⟨(held entity).mp inside, journaled.values ▸ gone⟩
    · intro write id called edge incident
      have lost : (.edge, edge) ∈ journal.lost :=
        (journaled.lost _).mpr ⟨write, _, called, List.mem_map_of_mem incident⟩
      obtain ⟨op, member, target⟩ := (deleted _).mp (exact.lost _ lost)
      cases op with
      | deleteEdge other =>
        obtain rfl : other = edge := by simpa [WriteOp.target] using target
        exact member
      | _ => simp [WriteOp.target] at target
    · intro write op called returns entity row target found
      have noted : (entity, .updated) ∈ journal.notes := by
        rw [journaled.notes, WriteTxn.mem_notes_updated]
        exact ⟨write, op, called, returns, target⟩
      exact journaled.values ▸ exact.updated entity row noted found
  · intro accounts
    refine ⟨?_, ?_, ?_⟩
    · intro entity noted
      obtain ⟨op, member, target⟩ := (deleted entity).mp noted
      obtain ⟨here, gone⟩ := accounts.deletes op member entity target
      exact ⟨(held entity).mpr here, journaled.values ▸ gone⟩
    · intro entity lost
      obtain ⟨write, op, called, inside⟩ := (journaled.lost entity).mp lost
      cases op with
      | deleteNode id =>
        obtain ⟨edge, incident, rfl⟩ := List.mem_map.mp inside
        exact (deleted _).mpr ⟨_, accounts.cascades write id called edge incident, rfl⟩
      | _ => cases inside
    · intro entity row noted found
      rw [journaled.notes, WriteTxn.mem_notes_updated] at noted
      obtain ⟨write, op, called, returns, target⟩ := noted
      rw [journaled.values]
      exact accounts.updates write op called returns entity row target found

/-! ### The buffer -/

/-- Changes pushed one after the other. -/
def ChangeBuffer.pushAll (buffer : ChangeBuffer) (notes : List (Entity × ChangeOp)) : ChangeBuffer :=
  notes.foldl (fun buffer note => buffer.push note.1 note.2) buffer

/-- The entities that the calls of a transaction touch. -/
def WriteTxn.touched (start : WriteTxn base) (ops : List WriteOp) : Finset Entity :=
  ((start.notes ops).map Prod.fst).toFinset

theorem FeedTxn.afterAll_changes (sound : feed.write.world.Sound) (single : ∀ op ∈ ops, op.Single) :
    (feed.afterAll ops).changes = feed.changes.pushAll (feed.write.notes ops) := by
  induction ops generalizing feed with
  | nil => rfl
  | cons op ops ih =>
    have steps := FeedTxn.after_steps (single op List.mem_cons_self) sound
    have sound' : (feed.after op).write.world.Sound := by
      rw [FeedTxn.after_write]
      exact sound.changes (op.follows.changes sound)
    have pushed : (feed.after op).changes = feed.changes.pushAll (op.note feed.write).toList := by
      generalize op.note feed.write = note, op.cascade feed.write = along at steps
      cases steps with
      | noted _ pushed => exact pushed
      | failed _ kept => exact kept
    have rest := ih sound' fun op member => single op (List.mem_cons_of_mem _ member)
    rw [FeedTxn.afterAll, List.foldl_cons, ← FeedTxn.afterAll, rest, pushed, FeedTxn.after_write,
      WriteTxn.notes, ChangeBuffer.pushAll, ChangeBuffer.pushAll, ChangeBuffer.pushAll,
      List.foldl_append]

/-- While it follows all entities there are, the buffer holds every change. -/
theorem ChangeBuffer.pushAll_entries {notes : List (Entity × ChangeOp)}
    (few : (notes.map Prod.fst).toFinset.card ≤ changeDetailCap) :
    (ChangeBuffer.default.pushAll notes).entries = notes ∧
      (ChangeBuffer.default.pushAll notes).overflowed = false ∧
      (ChangeBuffer.default.pushAll notes).tracked.Nodup ∧
      (ChangeBuffer.default.pushAll notes).tracked.toFinset = (notes.map Prod.fst).toFinset := by
  induction notes using List.reverseRecOn with
  | nil => exact ⟨rfl, rfl, List.nodup_nil, rfl⟩
  | append_singleton notes note ih =>
    rw [List.map_append, List.map_singleton, List.toFinset_append, List.toFinset_cons,
      List.toFinset_nil, insert_empty_eq] at few ⊢
    obtain ⟨entries, fits, nodup, tracked⟩ :=
      ih ((Finset.card_le_card Finset.subset_union_left).trans few)
    have pushed : ChangeBuffer.default.pushAll (notes ++ [note]) =
        (ChangeBuffer.default.pushAll notes).push note.1 note.2 := List.foldl_concat ..
    rw [pushed, ChangeBuffer.push]
    split
    · rename_i seen
      rw [← List.mem_toFinset, tracked] at seen
      refine ⟨by rw [entries], fits, nodup, ?_⟩
      rw [tracked, Finset.union_eq_left.mpr (Finset.singleton_subset_iff.mpr seen)]
    · rename_i unseen
      have unseen' := unseen
      rw [← List.mem_toFinset, tracked] at unseen'
      have room : (ChangeBuffer.default.pushAll notes).tracked.length < changeDetailCap := by
        rw [← List.toFinset_card_of_nodup nodup, tracked]
        rw [Finset.card_union_of_disjoint (Finset.disjoint_singleton_right.mpr unseen'),
          Finset.card_singleton] at few
        exact few
      rw [if_pos room]
      refine ⟨by rw [entries], fits, List.nodup_cons.mpr ⟨unseen, nodup⟩, ?_⟩
      rw [List.toFinset_cons, tracked, Finset.union_comm, Finset.singleton_union]

/-! ### The change set -/

/-- The entity that a change names, and what happened to it. -/
def EntityChange.named (change : EntityChange) : Entity × ChangeOp :=
  ((change.kind, change.id), change.op)

/-- What is published names an entity of a plane. -/
def Names (published : Option ChangeSet) (plane : PlaneId) (entity : Entity) (op : ChangeOp) : Prop :=
  ∃ set, published = some set ∧ set.plane = plane ∧ (entity, op) ∈ set.changes.map EntityChange.named

theorem mem_resolved {entries : List (Entity × ChangeOp)} {op : ChangeOp} :
    (entity, op) ∈ resolved entries ↔ net entries entity = some op := by
  rw [resolved, List.mem_filterMap]
  constructor
  · rintro ⟨other, -, folded⟩
    obtain ⟨_, found, same⟩ := Option.map_eq_some_iff.mp folded
    obtain ⟨rfl, rfl⟩ := Prod.mk.inj same
    exact found
  · intro folded
    refine ⟨entity, ?_, by rw [folded]; rfl⟩
    obtain ⟨note, noted⟩ : ∃ note, (entity, note) ∈ entries := by
      by_contra none
      have unnoted := not_exists.mp none
      simp [net, unnoted] at folded
    exact List.mem_eraseDups.mpr (List.mem_map_of_mem noted)

/-- Reading a change from a sound store never fails. -/
theorem Sound.readChange (sound : Sound nodes edges tables) (note : Entity × ChangeOp) :
    ∃ change, Graph.readChange tables plane note = .ok change ∧ change.named = note := by
  obtain ⟨⟨kind, id⟩, op⟩ := note
  obtain ⟨node, gotNode⟩ := @Sound.getNode_returns tables plane id _ _ sound
  obtain ⟨edge, gotEdge⟩ := @Sound.getEdge_returns tables plane id _ _ sound
  cases op with
  | deleted => exact ⟨_, rfl, rfl⟩
  | created | updated =>
    cases kind with
    | node =>
      rw [Graph.readChange, gotNode]
      cases node <;> exact ⟨_, rfl, rfl⟩
      exact nofun
    | edge =>
      rw [Graph.readChange, gotEdge]
      cases edge <;> exact ⟨_, rfl, rfl⟩
      exact nofun

theorem Sound.readChanges (sound : Sound nodes edges tables) (notes : List (Entity × ChangeOp)) :
    ∃ changes, notes.mapM (Graph.readChange tables plane) = .ok changes ∧
      changes.map EntityChange.named = notes ∧
      ∀ change ∈ changes, Graph.readChange tables plane change.named = .ok change := by
  induction notes with
  | nil => exact ⟨[], rfl, rfl, nofun⟩
  | cons note notes ih =>
    obtain ⟨change, read, named⟩ := @Sound.readChange tables plane _ _ sound note
    obtain ⟨changes, read', named', each⟩ := ih
    refine ⟨change :: changes, ?_, by rw [List.map_cons, named, named'], ?_⟩
    · rw [List.mapM_cons, read, read']
      rfl
    · rintro other (_ | ⟨_, member⟩)
      · rw [named, read]
      · exact each other member

/-- What the observer is told names what the entries of the buffer add up to. -/
theorem Sound.notified_names (sound : Sound nodes edges tables) {buffered : ChangeBuffer} {seq : ℕ} :
    ∃ set, notified tables plane seq buffered = .ok set ∧ ∀ p entity op, Names set p entity op ↔
      p = plane ∧ net buffered.entries entity = some op := by
  have silent : resolved buffered.entries = [] → ∀ p entity op, Names none p entity op ↔
      p = plane ∧ net buffered.entries entity = some op := by
    intro empty p entity op
    constructor
    · rintro ⟨_, published, -⟩
      cases published
    · rintro ⟨-, folded⟩
      exact nomatch empty ▸ mem_resolved.mpr folded
  rw [notified, buildChangeSet]
  split
  · rename_i empty
    rw [ChangeBuffer.isEmpty, Bool.and_eq_true, List.isEmpty_iff] at empty
    exact ⟨none, rfl, silent (by rw [empty.1]; rfl)⟩
  · split
    · rename_i empty
      rw [Bool.and_eq_true, List.isEmpty_iff] at empty
      exact ⟨none, rfl, silent empty.1⟩
    · obtain ⟨changes, read, named, -⟩ := @Sound.readChanges tables plane _ _ sound
        (resolved buffered.entries)
      refine ⟨some ⟨plane, seq, changes, buffered.overflowed⟩, by rw [read]; rfl, ?_⟩
      intro p entity op
      rw [← mem_resolved, ← named]
      constructor
      · rintro ⟨set, published, same, member⟩
        obtain rfl := Option.some.inj published
        exact ⟨same.symm, member⟩
      · rintro ⟨rfl, member⟩
        exact ⟨_, rfl, rfl, member⟩

/-! ### Transactions -/

variable {host : Host} {millis : ℤ} {db : Database}

/-- What is published for a transaction names what becomes of every node and edge between the store
before it and after it, and nothing else. -/
def Database.TellsDifference (host : Host) (db : Database) (millis : ℤ) (plane : PlaneId)
    (ops : List WriteOp) : Prop :=
  ∃ set, db.published host millis plane ops = .ok set ∧
    ∀ (p : PlaneId) (entity : Entity) (op : ChangeOp), Names set p entity op ↔
      Became (db.tables.record p entity)
        ((db.after host millis (.write plane ops true)).tables.record p entity) op

/-- A commit changes no record further. -/
theorem WriteTxn.sealed_record : (write.sealed millis).record = write.txn.tables.record := by
  have sealed := write.sealed_sameGraph millis
  exact Tables.record_same (by rw [sealed]) (by rw [sealed])

/-- A transaction leaves the records of the other planes as they are. -/
theorem Changes.record_off {world after : World} {p : PlaneId} (changes : Changes plane world after)
    (off : p ≠ plane) : after.tables.record p = world.tables.record p := by
  funext entity
  obtain ⟨kind, id⟩ := entity
  cases kind with
  | node =>
    exact congrArg (Option.map Sum.inl) (@Changes.nodes_off plane world after changes (p, id) off)
  | edge =>
    exact congrArg (Option.map Sum.inr) (@Changes.edges_off plane world after changes (p, id) off)

theorem Database.Sound.published_names (sound : db.Sound) (single : ∀ op ∈ ops, op.Single)
    (few : ((db.beginTxn host plane).touched ops).card ≤ changeDetailCap) :
    ∃ set, db.published host millis plane ops = .ok set ∧ ∀ p entity op, Names set p entity op ↔
      p = plane ∧ net ((db.beginTxn host plane).notes ops) entity = some op := by
  have start : (db.beginTxn host plane).world.Sound := WriteTxn.begin_world ▸ sound.world
  have changes : (db.feedTxn host plane ops).changes =
      ChangeBuffer.default.pushAll ((db.beginTxn host plane).notes ops) :=
    @FeedTxn.afterAll_changes _ ⟨db.beginTxn host plane, .default⟩ ops start single
  obtain ⟨entries, -⟩ := ChangeBuffer.pushAll_entries few
  obtain ⟨seq, txn, sealed, tables⟩ := sealCommit_eq (db.feedTxn host plane ops).write millis
  have committed : (db.after host millis (.write plane ops true)).tables = txn.tables := by
    rw [tables, Database.feedTxn_write, Database.after_write]
  have after : (db.after host millis (.write plane ops true)).Sound := sound.write
  have sound' : Graph.Sound ∅ ∅ txn.tables := committed ▸ after.world.tables
  obtain ⟨set, told, names⟩ := @Sound.notified_names txn.tables plane _ _ sound'
    (db.feedTxn host plane ops).changes seq
  rw [changes, entries] at names
  refine ⟨set, ?_, names⟩
  rw [Database.published, sealed]
  exact told

/-- **The change feed tells the difference if the calls account for it**: in every state reached from
an empty store, what is published for a transaction of methods on single entities that touches at
most 256 of them names exactly the nodes and edges whose records differ before and after, just in
case the transaction deletes what was there, deletes the edges of its deleted nodes too, and leaves
nothing it updates as it was. -/
theorem changes_exact (host : Host) (first millis : ℤ) (steps : List (ℤ × Command))
    (plane : PlaneId) (ops : List WriteOp) (single : ∀ op ∈ ops, op.Single)
    (few : ((((Database.new host first).run host steps).beginTxn host plane).touched ops).card ≤
      changeDetailCap) :
    ((Database.new host first).run host steps).TellsDifference host millis plane ops ↔
      (((Database.new host first).run host steps).beginTxn host plane).Accounts ops := by
  generalize same : (Database.new host first).run host steps = db at few
  have sound : db.Sound := same ▸ Database.new_sound.run steps
  have start : (db.beginTxn host plane).world.Sound := WriteTxn.begin_world ▸ sound.world
  have recorded : (db.beginTxn host plane).world.Recorded := by
    rw [Database.beginTxn, WriteTxn.begin_world]
    exact ⟨sound.recorded.nodes, sound.recorded.edges⟩
  have changes := sound.writeTxn_changes host plane ops
  obtain ⟨journal, journaled⟩ := WriteTxn.journaled start recorded single
  obtain ⟨set, told, names⟩ :=
    @Database.Sound.published_names plane ops host millis db sound single few
  have after : ∀ p, (db.after host millis (.write plane ops true)).tables.record p =
      (db.writeTxn host plane ops).txn.tables.record p := by
    intro p
    rw [Database.after_write, WriteTxn.sealed_record]
  have values : (db.after host millis (.write plane ops true)).tables.record plane =
      journal.values := by
    rw [after, journaled.values, WriteTxn.record]
    exact congrArg _ Database.writeTxn_plane.symm
  rw [← journaled.exact_iff start recorded single, ← journaled.kept.net_iff, journaled.notes]
  have here : (db.beginTxn host plane).record = db.tables.record plane := rfl
  rw [here]
  constructor
  · rintro ⟨set', told', tells⟩ entity op
    obtain rfl := Except.ok.inj (told.symm.trans told')
    have named := tells plane entity op
    rw [names, values] at named
    exact (and_iff_right rfl).symm.trans named
  · intro right
    refine ⟨set, told, fun p entity op => ?_⟩
    rw [names]
    by_cases on : p = plane
    · subst on
      rw [values]
      exact (and_iff_right rfl).trans (right entity op)
    · have still : (db.writeTxn host plane ops).txn.tables.record p = db.tables.record p :=
        changes.record_off on
      rw [after, still]
      refine ⟨fun named => absurd named.1 on, fun became => ?_⟩
      exact absurd rfl (exists_became_iff.mp ⟨op, became⟩)

/-- Two nodes and an edge between them, at node ids one and two and edge id one. -/
def linkedSteps : List (ℤ × Command) :=
  [(1, .write 0 [.createNode ["A"] ∅, .createNode ["B"] ∅, .createEdge 1 2 "T" ∅] true)]

/-- A node deleted after its edge is told as it was. -/
theorem changes_exact_of_edge_first :
    ((Database.new plainHost 0).run plainHost linkedSteps).TellsDifference plainHost 2 0
        [.deleteEdge 1, .deleteNode 1] ↔
      (((Database.new plainHost 0).run plainHost linkedSteps).beginTxn plainHost 0).Accounts
        [.deleteEdge 1, .deleteNode 1] := by
  refine changes_exact plainHost 0 2 linkedSteps 0 [.deleteEdge 1, .deleteNode 1] ?_
    (by with_unfolding_all decide)
  intro op member
  simp only [List.mem_cons, List.not_mem_nil, or_false] at member
  rcases member with rfl | rfl <;> trivial

/-- A node deleted takes its edge along, and the edge is not told of. -/
theorem cascade_untold :
    ¬ ((Database.new plainHost 0).run plainHost linkedSteps).TellsDifference plainHost 2 0
      [.deleteNode 1] := by
  rintro ⟨set, told, tells⟩
  have here : ((((Database.new plainHost 0).run plainHost linkedSteps).tables.record 0
      (.edge, 1)).isSome ∧ ((((Database.new plainHost 0).run plainHost linkedSteps).after plainHost 2
        (.write 0 [.deleteNode 1] true)).tables.record 0 (.edge, 1)).isNone) := by
          with_unfolding_all decide
  have untold : ((((Database.new plainHost 0).run plainHost linkedSteps).published plainHost 2 0
      [.deleteNode 1]).toOption.join.elim [] fun set => set.changes.map EntityChange.named) =
        [((.node, 1), .deleted)] := by with_unfolding_all decide
  obtain ⟨row, found⟩ := Option.isSome_iff_exists.mp here.1
  have gone : Became (((Database.new plainHost 0).run plainHost linkedSteps).tables.record 0
      (.edge, 1)) ((((Database.new plainHost 0).run plainHost linkedSteps).after plainHost 2
        (.write 0 [.deleteNode 1] true)).tables.record 0 (.edge, 1)) .deleted := by
    rw [found, Option.isNone_iff_eq_none.mp here.2]
    exact .deleted
  obtain ⟨named, rfl, -, member⟩ := (tells 0 (.edge, 1) .deleted).mpr gone
  rw [told] at untold
  rw [show named.changes.map EntityChange.named = [((.node, 1), .deleted)] from untold] at member
  simp at member

/-- What was never there is told to be deleted, and what was written as it was to be updated. -/
example : ((((Database.new plainHost 0).run plainHost linkedSteps).published plainHost 2 0
    [.deleteNode 9, .removeProp 1 "age"]).toOption.join.elim [] fun set =>
      set.changes.map EntityChange.named) =
    [((.node, 9), .deleted), ((.node, 1), .updated)] := by with_unfolding_all decide

end DrStrange.Graph
