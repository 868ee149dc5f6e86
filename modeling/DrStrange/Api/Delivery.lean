/-
**Change sets and the commits they are of.**

A commit gives the gate back before its change set is built: the records are read from whatever is
committed by then. Any number of transactions and other calls may come between a commit and its
read, and change sets may be delivered in any order.

In every run, the change sets built show the records of their own commits just in case at each read
no record that the set carries shows anything else than what its commit left
(`change_sets_show_commits`).
-/

import DrStrange.Api.Difference

namespace DrStrange.Graph

open Std Lib ExtTreeMap

variable {tables own now : Tables} {plane : PlaneId} {nodes edges nodes' edges' : Set ℕ}
  {host : Host} {millis : ℤ} {db next : Database} {id : ℕ} {op : ChangeOp}

/-! ### Threads that commit -/

/-- A transaction that has committed, and whose change set is still to be built. -/
structure Unread where
  plane : PlaneId
  seq : ℕ
  changes : ChangeBuffer

/-- The database, the stores it has committed, and the change sets under way. -/
structure Delivery where
  db : Database
  history : List Tables
  unread : List Unread
  built : List ChangeSet
  published : List ChangeSet

/-- A database in which nothing is under way. -/
def Delivery.quiet (db : Database) : Delivery := ⟨db, [db.tables], [], [], []⟩

/-- One step of some thread. -/
inductive DeliveryAction where
  | commit (millis : ℤ) (plane : PlaneId) (ops : List WriteOp)
  | call (millis : ℤ) (command : Command)
  | build (turn : ℕ)
  | publish (turn : ℕ)

/-- The database after a commit or another call; what it has committed is remembered. -/
def Delivery.moved (delivery : Delivery) (db : Database) : Delivery :=
  { delivery with db := db, history := delivery.history ++ [db.tables] }

/-- The state after a step; a step that is not possible now changes nothing. A database is not
opened while it is in use. -/
def Delivery.after (host : Host) (delivery : Delivery) : DeliveryAction → Delivery
  | .commit millis plane ops =>
    match (sealCommit millis : WriteM delivery.db.tables ℕ)
        (delivery.db.feedTxn host plane ops).write with
    | .error _ _ => delivery
    | .ok seq _ =>
      { delivery.moved (delivery.db.after host millis (.write plane ops true)) with
        unread := delivery.unread ++ [⟨plane, seq, (delivery.db.feedTxn host plane ops).changes⟩] }
  | .call _ .reopen => delivery
  | .call millis command => delivery.moved (delivery.db.after host millis command)
  | .build turn =>
    match delivery.unread[turn]? with
    | none => delivery
    | some commit =>
      match notified delivery.db.tables commit.plane commit.seq commit.changes with
      | .ok (some set) => { delivery with
          unread := delivery.unread.eraseIdx turn, built := delivery.built ++ [set] }
      | _ => { delivery with unread := delivery.unread.eraseIdx turn }
  | .publish turn =>
    match delivery.built[turn]? with
    | none => delivery
    | some set => { delivery with
        built := delivery.built.eraseIdx turn, published := delivery.published ++ [set] }

/-- Steps taken one after the other, by whatever threads. -/
def Delivery.run (host : Host) (delivery : Delivery) (actions : List DeliveryAction) : Delivery :=
  actions.foldl (Delivery.after host) delivery

/-! ### What a change set shows -/

/-- What a change set shows of a stored record: all but the properties that are held back. -/
def EntityRow.shown : EntityRow → EntityRow
  | .inl row => .inl { row with props := sanitizedProperties row.props }
  | .inr row => .inr { row with props := sanitizedProperties row.props }

def Tables.shown (tables : Tables) (plane : PlaneId) (entity : Entity) : Option EntityRow :=
  (tables.record plane entity).map EntityRow.shown

/-- The records of a change set are those of a store. -/
def ChangeSet.Shows (set : ChangeSet) (tables : Tables) : Prop :=
  ∀ change ∈ set.changes, readChange tables set.plane change.named = .ok change

/-- The records of a change set are those of the store committed at its sequence. -/
def Delivery.ShowsOwn (delivery : Delivery) (set : ChangeSet) : Prop :=
  ∀ tables ∈ delivery.history, tables.commitSeq = some set.seq → set.Shows tables

/-- Every name of one store is a name of the other. -/
def NamesStay (own now : Tables) : Prop :=
  ∀ dict (id : ℕ) (name : String), (own.dictNames dict)[id]? = some name →
    (now.dictNames dict)[id]? = some name

/-- Labels that have names are known by them. -/
theorem labels_of_names {labels : List ℕ}
    (inverse : Inverse (tables.dictIds .label) (tables.dictNames .label))
    (named : ∀ label ∈ labels, label ∈ tables.dictNames .label) :
    (labels.filterMap fun label => (tables.dictNames .label)[label]?).filterMap
      (fun name => (tables.dictIds .label)[name]?) = labels := by
  induction labels with
  | nil => rfl
  | cons label labels ih =>
    have rest := ih fun other member => named other (List.mem_cons_of_mem _ member)
    have found := getElem?_eq_some_getElem (named label List.mem_cons_self)
    rw [List.filterMap_cons, found, List.filterMap_cons, (inverse _ _).mpr found, rest]

theorem labelsOf_inj {row other : NodeRow}
    (inverse : Inverse (tables.dictIds .label) (tables.dictNames .label))
    (named : ∀ label ∈ row.labels, label ∈ tables.dictNames .label)
    (named' : ∀ label ∈ other.labels, label ∈ tables.dictNames .label) :
    tables.labelsOf row = tables.labelsOf other ↔ row.labels = other.labels := by
  constructor
  · intro same
    rw [← labels_of_names inverse named, ← labels_of_names inverse named']
    exact congrArg (List.filterMap _) same
  · intro same
    rw [Tables.labelsOf, Tables.labelsOf, same]

/-- Two stores give one change just in case they show one record. -/
theorem readNode_eq_iff (sound : Sound nodes edges own) (sound' : Sound nodes' edges' now)
    (stay : NamesStay own now) (kept : op ≠ .deleted) :
    readChange own plane ((.node, id), op) = readChange now plane ((.node, id), op) ↔
      own.shown plane (.node, id) = now.shown plane (.node, id) := by
  have read : ∀ tables : Tables, readChange tables plane ((.node, id), op) = do
      return (← getNode tables plane id).elim ⟨.node, op, id, [], none, none⟩ fun node =>
        ⟨.node, op, id, node.labels,
          some { node with properties := sanitizedProperties node.properties }, none⟩ := by
    intro tables
    cases op with
    | deleted => exact absurd rfl kept
    | created | updated =>
      refine congrArg (getNode tables plane id >>= ·) (funext fun found => ?_)
      cases found <;> rfl
  rw [read, read, Tables.shown, Tables.shown, Tables.record, Tables.record]
  cases stored : own.nodes[(plane, id)]? with
  | none =>
    cases stored' : now.nodes[(plane, id)]? with
    | none => simp [getNode_absent stored, getNode_absent stored']
    | some row' =>
      rw [getNode_absent stored, sound'.getNode stored']
      simp [bind, Except.bind, pure, Except.pure]
  | some row =>
    cases stored' : now.nodes[(plane, id)]? with
    | none =>
      rw [getNode_absent stored', sound.getNode stored]
      simp [bind, Except.bind, pure, Except.pure]
    | some row' =>
      have named := sound.labels _ row stored
      have same : now.labelsOf row = own.labelsOf row := labelsOf_named named fun _ _ =>
        stay .label _ _
      have inj := @labelsOf_inj now row row' (sound'.exact.dict .label)
        (fun label member => mem_of_getElem? (stay .label _ _
          (getElem?_eq_some_getElem (named label member)))) (sound'.labels _ row' stored')
      rw [sound.getNode stored, sound'.getNode stored', ← same]
      obtain ⟨key, labels, props⟩ := row
      obtain ⟨key', labels', props'⟩ := row'
      simp only [bind, Except.bind, pure, Except.pure, Option.elim_some, Except.ok.injEq,
        EntityChange.mk.injEq, Option.some.injEq, NodeRecord.mk.injEq, Option.map_some,
        EntityRow.shown, Sum.inl.injEq,
        NodeRow.mk.injEq, true_and, and_true, inj]
      tauto

theorem readEdge_eq_iff (sound : Sound nodes edges own) (sound' : Sound nodes' edges' now)
    (stay : NamesStay own now) (kept : op ≠ .deleted) :
    readChange own plane ((.edge, id), op) = readChange now plane ((.edge, id), op) ↔
      own.shown plane (.edge, id) = now.shown plane (.edge, id) := by
  have read : ∀ tables : Tables, readChange tables plane ((.edge, id), op) = do
      return (← getEdge tables plane id).elim ⟨.edge, op, id, [], none, none⟩ fun edge =>
        ⟨.edge, op, id, [], none,
          some { edge with properties := sanitizedProperties edge.properties }⟩ := by
    intro tables
    cases op with
    | deleted => exact absurd rfl kept
    | created | updated =>
      refine congrArg (getEdge tables plane id >>= ·) (funext fun found => ?_)
      cases found <;> rfl
  rw [read, read, Tables.shown, Tables.shown, Tables.record, Tables.record]
  cases stored : own.edges[(plane, id)]? with
  | none =>
    cases stored' : now.edges[(plane, id)]? with
    | none => simp [getEdge_absent stored, getEdge_absent stored']
    | some row' =>
      obtain ⟨ty', -, got'⟩ := sound'.getEdge stored'
      rw [getEdge_absent stored, got']
      simp [bind, Except.bind, pure, Except.pure]
  | some row =>
    obtain ⟨ty, known, got⟩ := sound.getEdge stored
    cases stored' : now.edges[(plane, id)]? with
    | none =>
      rw [getEdge_absent stored', got]
      simp [bind, Except.bind, pure, Except.pure]
    | some row' =>
      obtain ⟨ty', known', got'⟩ := sound'.getEdge stored'
      have same : ty = ty' ↔ row.ty = row'.ty := by
        constructor
        · rintro rfl
          have inverse := sound'.exact.dict .edgeType
          have first := (inverse ty row.ty).mpr (stay .edgeType _ _ known)
          exact Option.some.inj (first.symm.trans ((inverse ty row'.ty).mpr known'))
        · intro types
          have first := stay .edgeType _ _ known
          rw [types] at first
          exact Option.some.inj (first.symm.trans known')
      rw [got, got']
      obtain ⟨src, dst, type, props⟩ := row
      obtain ⟨src', dst', type', props'⟩ := row'
      simp only [bind, Except.bind, pure, Except.pure, Option.elim_some, Except.ok.injEq,
        EntityChange.mk.injEq, Option.some.injEq, EdgeRecord.mk.injEq, Option.map_some,
        EntityRow.shown, Sum.inr.injEq,
        EdgeRow.mk.injEq, true_and, same]

/-- Two stores give the same changes just in case they show the same of every entity that is not
deleted. -/
theorem readChange_eq_iff {note : Entity × ChangeOp} (sound : Sound nodes edges own)
    (sound' : Sound nodes' edges' now) (stay : NamesStay own now) :
    readChange own plane note = readChange now plane note ↔
      (note.2 ≠ .deleted → own.shown plane note.1 = now.shown plane note.1) := by
  obtain ⟨⟨kind, id⟩, op⟩ := note
  by_cases kept : op = .deleted
  · subst kept
    exact ⟨fun _ absurd => (absurd rfl).elim, fun _ => by cases kind <;> rfl⟩
  · refine Iff.trans ?_ (imp_iff_right kept).symm
    cases kind with
    | node => exact readNode_eq_iff sound sound' stay kept
    | edge => exact readEdge_eq_iff sound sound' stay kept

/-! ### Calls and their sequence numbers -/

theorem applyAll_commitSeq {writes : List Write} (none : ∀ seq, .commitSeq seq ∉ writes) :
    (tables.applyAll writes).commitSeq = tables.commitSeq := by
  induction writes generalizing tables with
  | nil => rfl
  | cons write writes ih =>
    have rest := fun seq member => none seq (List.mem_cons_of_mem write member)
    rw [Tables.applyAll_cons, ih rest]
    cases write with
    | commitSeq seq => exact absurd List.mem_cons_self (none seq)
    | _ => rfl

/-- What a step of the database leaves of sequence and names: nothing is changed, or the sequence is
one further. -/
structure Advances (before after : Tables) : Prop where
  seq : after = before ∨ after.commitSeq = some (readCommitSeq before + 1)
  stay : NamesStay before after

theorem Advances.refl : Advances tables tables := ⟨.inl rfl, fun _ _ _ known => known⟩

theorem Advances.stamped {middle : Tables} (seq : middle.commitSeq = tables.commitSeq)
    (stay : NamesStay tables middle) : Advances tables (middle.stamped millis) := by
  refine ⟨.inr ?_, stay⟩
  rw [Tables.stamped, readCommitSeq, readCommitSeq, seq]

theorem Database.Step.advances {command : Command} (sound : db.Sound) (opened : command ≠ .reopen)
    (step : Database.Step host millis db command next) : Advances db.tables next.tables := by
  cases step with
  | refused => exact .refl
  | createPlane | setPlaneProperties | keepName | renamePlane =>
    exact .stamped rfl fun _ _ _ known => known
  | @dropPlane plane =>
    have without : (db.tables.withoutPlane plane).commitSeq = db.tables.commitSeq ∧
        (db.tables.withoutPlane plane).dictNames = db.tables.dictNames := by
      rw [Tables.withoutPlane]
      split <;> exact ⟨rfl, rfl⟩
    have cleared := @planeMetaDeletes_sameGraph (db.tables.withoutPlane plane)
      (db.tables.withoutPlane plane) plane
    refine .stamped ((applyAll_commitSeq ?_).trans without.1) fun dict id name known => ?_
    · simp [planeMetaDeletes]
    · rw [cleared]
      exact without.2 ▸ known
  | ensureVectorIndex declares | ensureKeywordIndex declares =>
    rcases declares with ⟨-, rfl⟩ | ⟨-, rfl⟩ <;> exact .stamped rfl fun _ _ _ known => known
  | @write plane ops =>
    have changes := sound.writeTxn_changes host plane ops
    have same := changes.sameMeta
    refine ⟨.inr ?_, fun dict id name known => ?_⟩
    · have folded : (db.writeTxn host plane ops).folded.tables.commitSeq = db.tables.commitSeq := by
        have unstamped : (db.writeTxn host plane ops).txn.tables.commitSeq = db.tables.commitSeq := by
          have whole : (db.writeTxn host plane ops).world.tables.commitSeq = _ :=
            congrArg Tables.commitSeq same
          exact whole
        rw [WriteTxn.folded]
        split <;> exact unstamped
      show some (readCommitSeq (db.writeTxn host plane ops).folded.tables + 1) = _
      rw [readCommitSeq, folded, readCommitSeq]
    · have sealed := (db.writeTxn host plane ops).sealed_sameGraph millis
      rw [sealed]
      exact sound.world.named changes known
  | reopen => exact absurd rfl opened

theorem Database.after_advances {command : Command} (sound : db.Sound) (opened : command ≠ .reopen) :
    Advances db.tables (db.after host millis command).tables :=
  (Database.after_steps host millis db command).advances sound opened

/-! ### What every step keeps -/

variable {delivery : Delivery} {set : ChangeSet} {turn : ℕ}

/-- The committed stores have sequence numbers of their own, and everything under way is of one of
them. -/
structure Delivery.Sound (delivery : Delivery) : Prop where
  db : delivery.db.Sound
  latest : delivery.db.tables ∈ delivery.history
  below : ∀ tables ∈ delivery.history, ∀ seq, tables.commitSeq = some seq →
    seq ≤ readCommitSeq delivery.db.tables
  unique : ∀ first ∈ delivery.history, ∀ second ∈ delivery.history, ∀ seq,
    first.commitSeq = some seq → second.commitSeq = some seq → first = second
  sound : ∀ tables ∈ delivery.history, ∃ nodes edges, Graph.Sound nodes edges tables
  stay : ∀ tables ∈ delivery.history, NamesStay tables delivery.db.tables
  unread : ∀ commit ∈ delivery.unread, ∃ tables ∈ delivery.history,
    tables.commitSeq = some commit.seq
  sets : ∀ set, set ∈ delivery.built ∨ set ∈ delivery.published →
    ∃ tables ∈ delivery.history, tables.commitSeq = some set.seq

theorem Delivery.quiet_sound (sound : db.Sound) : (Delivery.quiet db).Sound where
  db := sound
  latest := List.mem_singleton_self _
  below tables member seq known := by
    rw [List.mem_singleton.mp member] at known
    exact (congrArg (Option.getD · 0) known).ge
  unique first member second member' _ _ _ :=
    (List.mem_singleton.mp member).trans (List.mem_singleton.mp member').symm
  sound tables member := List.mem_singleton.mp member ▸ ⟨_, _, sound.world.tables⟩
  stay tables member _ _ _ known := List.mem_singleton.mp member ▸ known
  unread _ member := nomatch member
  sets _ member := by rcases member with member | member <;> cases member

/-- A commit or another call that leaves a sound store. -/
theorem Delivery.Sound.moved (sound : delivery.Sound) (after : next.Sound)
    (advances : Advances delivery.db.tables next.tables) : (delivery.moved next).Sound where
  db := after
  latest := List.mem_append_right _ (List.mem_singleton_self _)
  below tables member seq known := by
    show seq ≤ readCommitSeq next.tables
    have older : readCommitSeq delivery.db.tables ≤ readCommitSeq next.tables := by
      rcases advances.seq with same | further
      · rw [same]
      · rw [readCommitSeq, readCommitSeq, further]
        exact Nat.le_succ _
    rcases List.mem_append.mp member with old | new
    · exact (sound.below tables old seq known).trans older
    · rw [List.mem_singleton.mp new] at known
      exact (congrArg (Option.getD · 0) known).ge
  unique first member second member' seq known known' := by
    -- a store committed before has an earlier number, unless nothing was committed
    have fresh : ∀ tables ∈ delivery.history, tables.commitSeq = some seq →
        next.tables.commitSeq = some seq → tables = next.tables := by
      intro tables old seq' seq''
      rcases advances.seq with same | further
      · rw [same] at seq'' ⊢
        exact sound.unique _ old _ sound.latest seq seq' seq''
      · have below := sound.below tables old seq seq'
        have above := Option.some.inj (further.symm.trans seq'')
        omega
    rcases List.mem_append.mp member with old | new
    · rcases List.mem_append.mp member' with old' | new'
      · exact sound.unique _ old _ old' seq known known'
      · obtain rfl := List.mem_singleton.mp new'
        exact fresh _ old known known'
    · obtain rfl := List.mem_singleton.mp new
      rcases List.mem_append.mp member' with old' | new'
      · exact (fresh _ old' known' known).symm
      · exact (List.mem_singleton.mp new').symm
  sound tables member := by
    rcases List.mem_append.mp member with old | new
    · exact sound.sound tables old
    · exact List.mem_singleton.mp new ▸ ⟨_, _, after.world.tables⟩
  stay tables member dict id name known := by
    rcases List.mem_append.mp member with old | new
    · exact advances.stay _ _ _ (sound.stay tables old _ _ _ known)
    · exact List.mem_singleton.mp new ▸ known
  unread commit member := by
    obtain ⟨tables, old, seq⟩ := sound.unread commit member
    exact ⟨tables, List.mem_append_left _ old, seq⟩
  sets set member := by
    obtain ⟨tables, old, seq⟩ := sound.sets set member
    exact ⟨tables, List.mem_append_left _ old, seq⟩

theorem mem_eraseIdx_or {α : Type} {items : List α} {item other : α}
    (found : items[turn]? = some item) :
    other ∈ items ↔ other ∈ items.eraseIdx turn ∨ other = item := by
  obtain ⟨within, rfl⟩ := List.getElem?_eq_some_iff.mp found
  have parts : items = items.take turn ++ items[turn] :: items.drop (turn + 1) := by simp
  rw [List.eraseIdx_eq_take_drop_succ, List.mem_append]
  conv_lhs => rw [parts, List.mem_append, List.mem_cons]
  tauto

/-- The sets of a state once a change set is published. -/
theorem mem_sets_publish {published : List ChangeSet} {built : List ChangeSet} {other : ChangeSet}
    (found : built[turn]? = some set) :
    (other ∈ built.eraseIdx turn ∨ other ∈ published ++ [set]) ↔
      (other ∈ built ∨ other ∈ published) := by
  rw [mem_eraseIdx_or found, List.mem_append, List.mem_singleton]
  tauto

theorem notified_some {seq : ℕ} {buffered : ChangeBuffer}
    (told : notified tables plane seq buffered = .ok (some set)) :
    ∃ changes, (resolved buffered.entries).mapM (readChange tables plane) = .ok changes ∧
      set = ⟨plane, seq, changes, buffered.overflowed⟩ := by
  rw [notified, buildChangeSet] at told
  split at told
  · cases told
  · split at told
    · cases told
    · cases read : (resolved buffered.entries).mapM (readChange tables plane) with
      | error error =>
        rw [read] at told
        cases told
      | ok changes =>
        rw [read] at told
        exact ⟨changes, rfl, (Option.some.inj (Except.ok.inj told)).symm⟩

theorem Delivery.Sound.after (sound : delivery.Sound) (action : DeliveryAction) :
    (delivery.after host action).Sound := by
  cases action with
  | commit millis plane ops =>
    rw [Delivery.after, sealCommit_run]
    have written : (delivery.db.after host millis (.write plane ops true)).Sound := sound.db.write
    have moved := sound.moved written (Database.after_advances sound.db nofun)
    refine ⟨moved.db, moved.latest, moved.below, moved.unique, moved.sound, moved.stay, ?_,
      moved.sets⟩
    intro commit member
    rcases List.mem_append.mp member with old | new
    · exact moved.unread commit old
    · obtain rfl := List.mem_singleton.mp new
      refine ⟨_, moved.latest, ?_⟩
      show (delivery.db.after host millis (.write plane ops true)).tables.commitSeq = _
      rw [Database.after_write, Database.feedTxn_write]
      rfl
  | call millis command =>
    by_cases opened : command = .reopen
    · subst opened
      exact sound
    · have same : delivery.after host (.call millis command) =
          delivery.moved (delivery.db.after host millis command) := by
        cases command with
        | reopen => exact absurd rfl opened
        | _ => rfl
      rw [same]
      exact sound.moved (sound.db.step (Database.after_steps host millis _ command))
        (Database.after_advances sound.db opened)
  | build turn =>
    rw [Delivery.after]
    cases found : delivery.unread[turn]? with
    | none => exact sound
    | some commit =>
      have fewer : ∀ other ∈ delivery.unread.eraseIdx turn, other ∈ delivery.unread :=
        fun other => List.mem_of_mem_eraseIdx
      have dropped : Delivery.Sound { delivery with unread := delivery.unread.eraseIdx turn } :=
        ⟨sound.db, sound.latest, sound.below, sound.unique, sound.sound, sound.stay,
          fun other member => sound.unread other (fewer other member), sound.sets⟩
      dsimp only
      split
      · rename_i set told
        refine ⟨sound.db, sound.latest, sound.below, sound.unique, sound.sound, sound.stay,
          dropped.unread, ?_⟩
        rintro other (member | member)
        · rcases List.mem_append.mp member with old | new
          · exact sound.sets other (.inl old)
          · obtain rfl := List.mem_singleton.mp new
            obtain ⟨tables, old, seq⟩ := sound.unread commit (List.mem_of_getElem? found)
            obtain ⟨changes, -, rfl⟩ := notified_some told
            exact ⟨tables, old, seq⟩
        · exact sound.sets other (.inr member)
      · exact dropped
  | publish turn =>
    rw [Delivery.after]
    cases found : delivery.built[turn]? with
    | none => exact sound
    | some set =>
      refine ⟨sound.db, sound.latest, sound.below, sound.unique, sound.sound, sound.stay,
        sound.unread, fun other member => sound.sets other ?_⟩
      exact (mem_sets_publish found).mp member

/-! ### Which change sets show their own commit -/

/-- No record that the change set of a commit carries shows anything else now than what the commit
left. -/
def Delivery.Intact (delivery : Delivery) (commit : Unread) : Prop :=
  ∀ tables ∈ delivery.history, tables.commitSeq = some commit.seq →
    ∀ note ∈ resolved commit.changes.entries, note.2 ≠ .deleted →
      tables.shown commit.plane note.1 = delivery.db.tables.shown commit.plane note.1

/-- A change set is built while its commit is intact. -/
def Delivery.Undisturbed (delivery : Delivery) : DeliveryAction → Prop
  | .build turn => ∀ commit, delivery.unread[turn]? = some commit → delivery.Intact commit
  | _ => True

/-- A run in which no read is disturbed. -/
def Delivery.Calm (host : Host) (delivery : Delivery) : List DeliveryAction → Prop
  | [] => True
  | action :: actions =>
    delivery.Undisturbed action ∧ (delivery.after host action).Calm host actions

/-- Every change set built shows the records of its own commit. -/
def Delivery.AllShowOwn (delivery : Delivery) : Prop :=
  ∀ set, set ∈ delivery.built ∨ set ∈ delivery.published → delivery.ShowsOwn set

/-- What is committed later does not matter to the sets already built. -/
theorem Delivery.Sound.moved_showsOwn (moved : (delivery.moved next).Sound)
    (known : ∃ tables ∈ delivery.history, tables.commitSeq = some set.seq) :
    (delivery.moved next).ShowsOwn set ↔ delivery.ShowsOwn set := by
  constructor
  · exact fun shows tables member => shows tables (List.mem_append_left _ member)
  · intro shows tables member seq
    obtain ⟨own, old, seq'⟩ := known
    obtain rfl := moved.unique _ member _ (List.mem_append_left _ old) _ seq seq'
    exact shows tables old seq

theorem Delivery.Sound.moved_allShowOwn (sound : delivery.Sound)
    (moved : (delivery.moved next).Sound) :
    (delivery.moved next).AllShowOwn ↔ delivery.AllShowOwn := by
  constructor
  · exact fun all set member => (moved.moved_showsOwn (sound.sets set member)).mp (all set member)
  · exact fun all set member => (moved.moved_showsOwn (sound.sets set member)).mpr (all set member)

/-- A set shows a store just in case each entity it carries shows the same there. -/
theorem shows_iff {commit : Unread} (sound : Graph.Sound nodes edges now)
    (sound' : Graph.Sound nodes' edges' own) (stay : NamesStay own now)
    (told : notified now commit.plane commit.seq commit.changes = .ok (some set)) :
    set.Shows own ↔ ∀ note ∈ resolved commit.changes.entries, note.2 ≠ .deleted →
      own.shown commit.plane note.1 = now.shown commit.plane note.1 := by
  obtain ⟨changes, read, rfl⟩ := notified_some told
  obtain ⟨_, read', named, each⟩ := @Sound.readChanges now commit.plane _ _ sound
    (resolved commit.changes.entries)
  obtain rfl := Except.ok.inj (read.symm.trans read')
  rw [← named, List.forall_mem_map]
  refine forall₂_congr fun change member => ?_
  show readChange own commit.plane change.named = .ok change ↔ _
  rw [← readChange_eq_iff sound' sound stay, each change member]

theorem Delivery.Sound.after_allShowOwn (sound : delivery.Sound) (action : DeliveryAction) :
    (delivery.after host action).AllShowOwn ↔
      delivery.AllShowOwn ∧ delivery.Undisturbed action := by
  have later := @Delivery.Sound.after host delivery sound action
  cases action with
  | commit millis plane ops =>
    rw [Delivery.after, sealCommit_run] at later ⊢
    have written : (delivery.db.after host millis (.write plane ops true)).Sound := sound.db.write
    have moved := sound.moved written (Database.after_advances sound.db nofun)
    exact (sound.moved_allShowOwn moved).trans (and_true _).symm.to_iff
  | call millis command =>
    refine Iff.trans ?_ (and_true _).symm.to_iff
    by_cases opened : command = .reopen
    · subst opened
      exact Iff.rfl
    · have same : delivery.after host (.call millis command) =
          delivery.moved (delivery.db.after host millis command) := by
        cases command with
        | reopen => exact absurd rfl opened
        | _ => rfl
      rw [same] at later ⊢
      exact sound.moved_allShowOwn later
  | build turn =>
    rw [Delivery.after]
    cases found : delivery.unread[turn]? with
    | none =>
      refine (and_iff_left ?_).symm
      exact fun commit waiting => nomatch found.symm.trans waiting
    | some commit =>
      have here : delivery.Undisturbed (.build turn) ↔ delivery.Intact commit := by
        constructor
        · exact fun undisturbed => undisturbed commit found
        · intro intact other waiting
          exact Option.some.inj (found.symm.trans waiting) ▸ intact
      rw [here]
      have now : Graph.Sound ∅ ∅ delivery.db.tables := sound.db.world.tables
      dsimp only
      split
      · rename_i set told
        have seq : set.seq = commit.seq := by
          obtain ⟨changes, -, rfl⟩ := notified_some told
          rfl
        have shows : delivery.ShowsOwn set ↔ delivery.Intact commit := by
          rw [Delivery.ShowsOwn, seq]
          refine forall₂_congr fun tables member => imp_congr_right fun _ => ?_
          obtain ⟨nodes, edges, sound'⟩ := sound.sound tables member
          exact shows_iff now sound' (sound.stay tables member) told
        rw [← shows]
        constructor
        · intro all
          refine ⟨fun other member => all other (member.imp_left (List.mem_append_left _)), ?_⟩
          exact all set (.inl (List.mem_append_right _ (List.mem_singleton_self _)))
        · rintro ⟨all, own⟩ other (member | member)
          · rcases List.mem_append.mp member with old | new
            · exact all other (.inl old)
            · exact List.mem_singleton.mp new ▸ own
          · exact all other (.inr member)
      · rename_i untold
        refine (and_iff_left ?_).symm
        obtain ⟨told, notifies, names⟩ := @Sound.notified_names _ commit.plane _ _ now
          commit.changes commit.seq
        cases told with
        | some set => exact absurd notifies (untold set)
        | none =>
          -- where nothing is told, nothing is left of the buffer
          intro tables _ _ note member
          have named := (names commit.plane note.1 note.2).mpr ⟨rfl, mem_resolved.mp member⟩
          obtain ⟨_, published, -⟩ := named
          cases published
  | publish turn =>
    refine Iff.trans ?_ (and_true _).symm.to_iff
    rw [Delivery.after]
    cases found : delivery.built[turn]? with
    | none => exact Iff.rfl
    | some set => exact forall_congr' fun other => imp_congr_left (mem_sets_publish found)

theorem Delivery.Sound.run_allShowOwn (sound : delivery.Sound) (actions : List DeliveryAction) :
    (delivery.run host actions).AllShowOwn ↔ delivery.AllShowOwn ∧ delivery.Calm host actions := by
  induction actions generalizing delivery with
  | nil => exact (and_iff_left trivial).symm
  | cons action actions ih =>
    have rest := ih (sound.after action : (delivery.after host action).Sound)
    rw [sound.after_allShowOwn action] at rest
    exact rest.trans and_assoc

/-- **A change set shows its own commit if nothing comes between**: from every state reached from an
empty store, in every run of commits, other calls, reads and deliveries, all change sets built show
the records of their own commits just in case at each read no record that the set carries shows
anything else than what its commit left. -/
theorem change_sets_show_commits (host : Host) (first : ℤ) (steps : List (ℤ × Command))
    (actions : List DeliveryAction) :
    ((Delivery.quiet ((Database.new host first).run host steps)).run host actions).AllShowOwn ↔
      (Delivery.quiet ((Database.new host first).run host steps)).Calm host actions := by
  have sound : ((Database.new host first).run host steps).Sound := Database.new_sound.run steps
  rw [(Delivery.quiet_sound sound).run_allShowOwn]
  refine and_iff_right ?_
  rintro set (member | member) <;> cases member

/-- A node is made, a second transaction gives it a property, and only then is the change set of the
first one built: it shows the property. -/
theorem later_commit_shown : ¬ ((Delivery.quiet (Database.new plainHost 0)).run plainHost
    [.commit 1 0 [.createNode ["A"] ∅], .commit 2 0 [.setProp 1 "age" (.mk none (.int 7))],
      .build 0, .publish 0]).AllShowOwn := by
  rw [(Delivery.quiet_sound Database.new_sound).run_allShowOwn]
  rintro ⟨-, -, -, undisturbed, -⟩
  generalize two : ((Delivery.quiet (Database.new plainHost 0)).after plainHost
    (.commit 1 0 [.createNode ["A"] ∅])).after plainHost
      (.commit 2 0 [.setProp 1 "age" (.mk none (.int 7))]) = delivery at undisturbed
  have waits : (delivery.unread[0]?).map (fun commit =>
      (commit.plane, commit.seq, resolved commit.changes.entries)) =
        some (0, 2, [((.node, 1), .created)]) := by
    rw [← two]
    with_unfolding_all decide
  have own : (delivery.history[1]?).map (fun tables => (tables.commitSeq,
      (tables.shown 0 (.node, 1)).map (Sum.elim (·.props.size) (·.props.size)))) =
        some (some 2, some 0) := by
    rw [← two]
    with_unfolding_all decide
  have now : (delivery.db.tables.shown 0 (.node, 1)).map
      (Sum.elim (·.props.size) (·.props.size)) = some 1 := by
    rw [← two]
    with_unfolding_all decide
  obtain ⟨commit, waiting, same⟩ := Option.map_eq_some_iff.mp waits
  obtain ⟨tables, old, same'⟩ := Option.map_eq_some_iff.mp own
  obtain ⟨plane, seq, carried⟩ := commit
  simp only [Prod.mk.injEq] at same same'
  obtain ⟨rfl, rfl, entries⟩ := same
  have shown := undisturbed _ waiting tables (List.mem_of_getElem? old) same'.1 ((.node, 1), .created)
    (by rw [entries]; exact List.mem_singleton_self _) nofun
  have sizes := same'.2
  rw [shown] at sizes
  exact nomatch sizes.symm.trans now

end DrStrange.Graph
