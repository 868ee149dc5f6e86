/-
**Planes are isolated in the indexes, but for a delete that names a node of another plane.**

Every event but one names the index it is about, and so its plane. The event of a deleted node names
the node only, and takes it out of every index on every plane. So a transaction leaves the indexes of
the other planes as they were just in case it deletes no id that one of them holds
(`other_planes_isolated`): deleting an id that is not on the plane is no error, and it buffers the
event all the same (`World.Sound.afterAll_removes`).
-/

import DrStrange.Api.Mirror

namespace DrStrange.Graph

open Std Lib ExtTreeMap

variable {base tables after : Tables} {plane other : PlaneId} {millis : ℤ} {nodes edges : Set ℕ}
  {α σ ε γ : Type} {id : NodeId} {kind : IndexKind α σ ε} {contents : kind.Contents γ}
  {registry next : Registry ε} {host : Host} {db : Database} {before : WriteTxn base}
  {ops : List WriteOp}

/-! ### Declarations read back -/

/-- The key of every declaration has the byte that ends its label. -/
structure Database.Parsed (db : Database) : Prop where
  vectors : Graph.Parsed db.tables.vectorIndexes
  keywords : Graph.Parsed db.tables.keywordIndexes

theorem Parsed.of_subset {rows fewer : ExtTreeMap IndexRowKey σ compare} (parsed : Parsed rows)
    (subset : ∀ key ∈ fewer, key ∈ rows) : Parsed fewer :=
  fun key member => parsed key (subset key member)

theorem Parsed.write {rows : ExtTreeMap IndexRowKey σ compare} {label property : String}
    {setting : σ} (parsed : Parsed rows) :
    Parsed (rows.write (indexRowKey plane label property) (some setting)) := by
  intro key member
  rw [mem_write] at member
  split at member
  · rename_i here
    exact here ▸ nul_mem_indexRowKey
  · exact parsed key member

/-- Rows that declare nothing. -/
theorem Parsed.applyAll {writes : List Write}
    (vectors : ∀ key metric, .vectorIndex key (some metric) ∉ writes)
    (keywords : ∀ key language, .keywordIndex key (some language) ∉ writes)
    (parsed : Parsed tables.vectorIndexes) (parsed' : Parsed tables.keywordIndexes) :
    Parsed (tables.applyAll writes).vectorIndexes ∧
      Parsed (tables.applyAll writes).keywordIndexes := by
  induction writes generalizing tables with
  | nil => exact ⟨parsed, parsed'⟩
  | cons write writes ih =>
    have later := fun key metric member => vectors key metric (List.mem_cons_of_mem write member)
    have later' := fun key language member =>
      keywords key language (List.mem_cons_of_mem write member)
    rw [Tables.applyAll_cons]
    cases write with
    | vectorIndex key metric =>
      cases metric with
      | none =>
        exact ih later later' (parsed.of_subset fun _ member => (mem_erase.mp member).2) parsed'
      | some metric => exact absurd List.mem_cons_self (vectors key metric)
    | keywordIndex key language =>
      cases language with
      | none =>
        exact ih later later' parsed (parsed'.of_subset fun _ member => (mem_erase.mp member).2)
      | some language => exact absurd List.mem_cons_self (keywords key language)
    | _ => exact ih later later' parsed parsed'

theorem Database.Parsed.step {command : Command} {next : Database} (sound : db.Sound)
    (parsed : db.Parsed) (step : Database.Step host millis db command next) : next.Parsed := by
  cases step with
  | refused => exact parsed
  | createPlane | setPlaneProperties | keepName | renamePlane =>
    exact ⟨parsed.vectors, parsed.keywords⟩
  | @dropPlane plane =>
    have start : Graph.Parsed (db.tables.withoutPlane plane).vectorIndexes ∧
        Graph.Parsed (db.tables.withoutPlane plane).keywordIndexes := by
      rw [Tables.withoutPlane]
      split <;> exact ⟨parsed.vectors, parsed.keywords⟩
    have cleared := @Parsed.applyAll (db.tables.withoutPlane plane)
      (planeMetaDeletes (db.tables.withoutPlane plane) plane)
      (by simp [planeMetaDeletes]) (by simp [planeMetaDeletes]) start.1 start.2
    exact ⟨cleared.1, cleared.2⟩
  | ensureVectorIndex declares =>
    rcases declares with ⟨-, rfl⟩ | ⟨-, rfl⟩
    · exact ⟨parsed.vectors, parsed.keywords⟩
    · exact ⟨parsed.vectors.write, parsed.keywords⟩
  | ensureKeywordIndex declares =>
    rcases declares with ⟨-, rfl⟩ | ⟨-, rfl⟩
    · exact ⟨parsed.vectors, parsed.keywords⟩
    · exact ⟨parsed.vectors, parsed.keywords.write⟩
  | @write plane ops =>
    obtain ⟨vectors, keywords⟩ := (db.writeTxn host plane ops).sealed_indexes millis
    obtain ⟨vectors', keywords'⟩ := (sound.writeTxn_changes host plane ops).sameMeta.indexes
    refine ⟨?_, ?_⟩
    · exact (vectors.trans vectors').symm ▸ parsed.vectors
    · exact (keywords.trans keywords').symm ▸ parsed.keywords
  | reopen opened =>
    rcases openTables_ok opened with ⟨blank, -⟩ | ⟨-, filled⟩
    · cases blank.symm.trans sound.magic
    · exact ⟨filled.vectorIndexes ▸ parsed.vectors, filled.keywordIndexes ▸ parsed.keywords⟩

theorem Database.Parsed.run (sound : db.Sound) (parsed : db.Parsed) (steps : List (ℤ × Command)) :
    (db.run host steps).Parsed := by
  induction steps generalizing db with
  | nil => exact parsed
  | cons step steps ih =>
    have taken := Database.after_steps host step.1 db step.2
    exact ih (sound.step taken) (parsed.step sound taken)

theorem Database.new_parsed : (Database.new host millis).Parsed := by
  obtain ⟨-, -, vectors, keywords⟩ := @Database.new_follows millis 0 host
  exact ⟨vectors.parsed, keywords.parsed⟩

/-! ### The event of a deleted node -/

/-- A read that succeeds. -/
theorem reading_returns {read : Tables → PlaneId → Except Error α} {result : α}
    (ran : read before.txn.tables before.plane = .ok result) :
    Does before (reading read) (fun found after => found = result ∧ after = before)
      (fun _ => False) := by
  rw [Does, reading, ran]
  exact ⟨rfl, rfl⟩

/-- A method that only counts, and never fails. -/
def Counts (before : WriteTxn base) (run : WriteM base α) : Prop :=
  Does before run (fun _ after => after = { before with counters := after.counters })
    (fun _ => False)

theorem Counts.bind {β : Type} {run : WriteM base α} {rest : α → WriteM base β}
    (one : Counts before run)
    (two : ∀ result counters, Counts { before with counters := counters } (rest result)) :
    Counts before (run >>= rest) := by
  refine Does.bind one ?_
  intro result middle same
  rw [same]
  exact two result middle.counters

theorem countRemoved_counts {ids : List EdgeId} (sound : Sound nodes edges before.txn.tables) :
    Counts before (countRemoved ids) := by
  induction ids generalizing before with
  | nil => exact (rfl : before = _)
  | cons id ids ih =>
    obtain ⟨stored, ran⟩ := @Sound.getEdge_returns before.txn.tables before.plane id _ _ sound
    refine (reading_returns ran).bind ?_
    rintro found _ ⟨same, rfl⟩
    cases found with
    | some edge => exact Counts.bind (rfl : _ = _) fun _ _ => ih sound
    | none => exact ih sound

/-- What a delete takes off the counters can always be read. -/
theorem countNode_counts (sound : Sound nodes edges before.txn.tables) :
    Counts before (countNode id) := by
  obtain ⟨stored, ran⟩ := @Sound.getNode_returns before.txn.tables before.plane id _ _ sound
  refine (reading_returns ran).bind ?_
  rintro found _ ⟨same, rfl⟩
  cases found with
  | some node =>
    refine (reading_returns rfl).bind ?_
    rintro _ _ ⟨rfl, rfl⟩
    exact Counts.bind (countRemoved_counts sound) fun _ _ => (rfl : _ = _)
  | none => exact (rfl : _ = _)

/-- Deleting a node buffers its event, whether or not the node is there. -/
theorem deleteNodeTxn_removes {before : WriteTxn base} (sound : Sound nodes edges before.txn.tables) :
    Does before (deleteNodeTxn id)
      (fun _ after => .removeNode id ∈ after.events ∧ .removeNode id ∈ after.kwEvents)
      (fun _ => False) := by
  refine Does.bind (countNode_counts sound) ?_
  intro _ counted same
  refine ((@onTxn_does base _ _ (fun plane => deleteNode plane id) _ _ deleteNode_runs).mono
    (fun _ _ gone => gone) ?_).bind ?_
  · rintro _ ⟨txn, -, failed⟩
    exact failed
  · rintro _ _ ⟨txn, rfl, -⟩
    exact ⟨List.mem_append_right _ List.mem_cons_self, List.mem_append_right _ List.mem_cons_self⟩

/-- The event of every node a transaction deletes is among those it hands over. -/
theorem World.Sound.afterAll_removes (sound : before.world.Sound) (deletes : .deleteNode id ∈ ops) :
    .removeNode id ∈ (before.afterAll ops).events ∧
      .removeNode id ∈ (before.afterAll ops).kwEvents := by
  induction ops generalizing before with
  | nil => exact nomatch deletes
  | cons op ops ih =>
    have here : before.Moves Set.univ op.removes (op.after before) := op.moves
    rcases List.mem_cons.mp deletes with rfl | later
    · have removes := @deleteNodeTxn_removes base _ _ id before sound.tables
      have buffered : .removeNode id ∈ (WriteOp.after (.deleteNode id) before).events ∧
          .removeNode id ∈ (WriteOp.after (.deleteNode id) before).kwEvents :=
        @WriteOp.after_does _ _ (.deleteNode id)
          (fun write => .removeNode id ∈ write.events ∧ .removeNode id ∈ write.kwEvents)
          (removes.mono (fun _ _ held => held) fun _ failed => failed.elim)
      have rest : (WriteOp.after (.deleteNode id) before).Moves Set.univ (removedBy ops)
          ((WriteOp.after (.deleteNode id) before).afterAll ops) := WriteTxn.afterAll_moves
      obtain ⟨events, same, -⟩ := rest.vectors
      obtain ⟨kwEvents, same', -⟩ := rest.keywords
      rw [WriteTxn.afterAll, List.foldl_cons, ← WriteTxn.afterAll, same, same']
      exact ⟨List.mem_append_left _ buffered.1, List.mem_append_left _ buffered.2⟩
    · exact ih (sound.changes (here.follows.changes sound)) later

/-! ### The indexes of one plane -/

/-- Two registries show the same on a plane. -/
def SameOn (contents : kind.Contents γ) (plane : PlaneId) (registry next : Registry ε) : Prop :=
  ∀ label property : String, (next[(plane, label, property)]?).map contents.view =
    (registry[(plane, label, property)]?).map contents.view

/-- A registry holds on a plane what a rebuild from the store computes. -/
def FreshOn (contents : kind.Contents γ) (tables : Tables) (plane : PlaneId) (registry : Registry ε) :
    Prop :=
  ∃ rebuilt, rebuildFrom kind tables = .ok rebuilt ∧ SameOn contents plane rebuilt registry

/-- An index of another plane holds the node. -/
def HeldOff (contents : kind.Contents γ) (plane : PlaneId) (registry : Registry ε) (id : NodeId) :
    Prop :=
  ∃ (key : IndexKey) (entry : ε), key.1 ≠ plane ∧ registry[key]? = some entry ∧
    contents.holds entry id ≠ none

/-- A stream that takes points out changes nothing just in case there was nothing at them. -/
theorem replay_removals {values : NodeId → Option γ} {updates : List (NodeId × Option γ)}
    (removals : ∀ update ∈ updates, update.2 = none) :
    replay values updates = values ↔ ∀ id ∈ updates.map Prod.fst, values id = none := by
  constructor
  · intro same id named
    rw [← same]
    exact replay_of_forall named fun update member _ => removals update member
  · intro empty
    exact replay_of_held fun update member =>
      (removals update member).trans (empty _ (List.mem_map_of_mem member)).symm

/-- What the events of a plane tell an index of another plane: the nodes deleted are out. -/
theorem told_off {events : List (IndexEvent α)} {key : IndexKey} (off : key.1 ≠ plane) :
    id ∈ (updatesAt plane key events).map Prod.fst ↔ .removeNode id ∈ events := by
  constructor
  · intro named
    obtain ⟨update, member, rfl⟩ := List.mem_map.mp named
    exact (mem_updatesAt_off off member).2
  · intro member
    exact List.mem_map.mpr ⟨(id, none), List.mem_filterMap.mpr ⟨_, member, rfl⟩, rfl⟩

/-- The events of a plane leave the indexes of the others alone just in case none of those holds a
node that the events delete. -/
theorem applyEvents_sameOn (contents : kind.Contents γ) {events : List (IndexEvent α)} :
    (∀ other ≠ plane, SameOn contents other registry (applyEvents kind plane registry events)) ↔
      ∀ id, .removeNode id ∈ events → ¬ HeldOff contents plane registry id := by
  have removals : ∀ {key : IndexKey} {setting : σ}, key.1 ≠ plane →
      ∀ update ∈ contents.told setting (updatesAt plane key events), update.2 = none := by
    rintro key setting off update member
    obtain ⟨told, inside, rfl⟩ := List.mem_map.mp member
    rw [(mem_updatesAt_off off inside).1]
    rfl
  constructor
  · rintro same id deleted ⟨key, entry, off, installed, held⟩
    obtain ⟨other, label, property⟩ := key
    have kept := same other off label property
    rw [view_applyEvents contents, installed, Option.map_some, Option.map_some,
      Option.some.injEq] at kept
    refine held ((replay_removals (removals off)).mp (congrArg Prod.snd kept) id ?_)
    rw [contents.told_fst]
    exact (told_off off).mpr deleted
  · intro free other off label property
    rw [view_applyEvents contents]
    cases installed : registry[(other, label, property)]? with
    | none => rfl
    | some entry =>
      rw [Option.map_some, Option.map_some, Option.some.injEq]
      refine Prod.ext rfl ((replay_removals (removals off)).mpr fun id named => ?_)
      rw [contents.told_fst, told_off off] at named
      by_contra held
      exact free id named ⟨_, entry, off, installed, held⟩

/-- Tables between which nothing that is due on a plane changes, nor any declaration, rebuild to the
same on it. -/
theorem FreshOn.congr (contents : kind.Contents γ) (sound : Sound nodes edges tables)
    {nodes' edges' : Set ℕ} (sound' : Sound nodes' edges' after) (parsed : Parsed (kind.rows tables))
    (rows : kind.rows after = kind.rows tables) (due : ∀ label property : String,
      after.due kind.read plane label property = tables.due kind.read plane label property)
    (same : SameOn contents plane registry next) :
    FreshOn contents after plane next ↔ FreshOn contents tables plane registry := by
  obtain ⟨rebuilt, made, seen⟩ := rebuildFrom_sound contents sound parsed
  obtain ⟨rebuilt', made', seen'⟩ := rebuildFrom_sound contents sound' (rows ▸ parsed)
  have alike : SameOn contents plane rebuilt rebuilt' := by
    intro label property
    rw [seen, seen', rows]
    refine congrArg (Option.map · _) (funext fun setting => ?_)
    rw [IndexKind.Contents.due, IndexKind.Contents.due, due]
  constructor
  · rintro ⟨_, built, shown⟩
    obtain rfl := Except.ok.inj (made'.symm.trans built)
    exact ⟨rebuilt, made, fun label property =>
      (same label property).symm.trans ((shown label property).trans (alike label property))⟩
  · rintro ⟨_, built, shown⟩
    obtain rfl := Except.ok.inj (made.symm.trans built)
    exact ⟨rebuilt', made', fun label property =>
      (same label property).trans ((shown label property).trans (alike label property).symm)⟩

/-! ### Transactions -/

/-- An index of another plane holds the node, in either registry. -/
def Database.HeldOff (host : Host) (db : Database) (plane : PlaneId) (id : NodeId) : Prop :=
  Graph.HeldOff (vectorContents host) plane db.vectors id ∨
    Graph.HeldOff (keywordContents host) plane db.keywords id

/-- Both registries show the same on a plane. -/
def Database.SameOn (host : Host) (plane : PlaneId) (db next : Database) : Prop :=
  Graph.SameOn (vectorContents host) plane db.vectors next.vectors ∧
    Graph.SameOn (keywordContents host) plane db.keywords next.keywords

/-- Both registries hold on a plane what a rebuild from the store computes. -/
def Database.FreshOn (host : Host) (plane : PlaneId) (db : Database) : Prop :=
  Graph.FreshOn (vectorContents host) db.tables plane db.vectors ∧
    Graph.FreshOn (keywordContents host) db.tables plane db.keywords

theorem Database.Sound.removes_iff (sound : db.Sound) :
    (.removeNode id ∈ (db.writeTxn host plane ops).events ↔ .deleteNode id ∈ ops) ∧
      (.removeNode id ∈ (db.writeTxn host plane ops).kwEvents ↔ .deleteNode id ∈ ops) := by
  have start : (db.beginTxn host plane).world.Sound := db.beginTxn_world ▸ sound.world
  have moves : (db.beginTxn host plane).Moves Set.univ (removedBy ops) (db.writeTxn host plane ops) :=
    WriteTxn.afterAll_moves
  obtain ⟨events, buffered, emits⟩ := moves.vectors
  obtain ⟨kwEvents, buffered', emits'⟩ := moves.keywords
  refine ⟨⟨fun member => emits.removed id ?_, fun deleted => (start.afterAll_removes deleted).1⟩,
    ⟨fun member => emits'.removed id ?_, fun deleted => (start.afterAll_removes deleted).2⟩⟩
  · rwa [buffered] at member
  · rwa [buffered'] at member

/-- A transaction leaves the indexes of the other planes alone just in case it deletes no node that
one of them holds. -/
theorem Database.Sound.write_sameOn (sound : db.Sound) {ops : List WriteOp} :
    (∀ other ≠ plane, Database.SameOn host other db (db.after host millis (.write plane ops true))) ↔
      ∀ id, .deleteNode id ∈ ops → ¬ db.HeldOff host plane id := by
  have vectors := @applyEvents_sameOn plane _ _ _ _ _ db.vectors (vectorContents host)
    (db.writeTxn host plane ops).events
  have keywords := @applyEvents_sameOn plane _ _ _ _ _ db.keywords (keywordContents host)
    (db.writeTxn host plane ops).kwEvents
  simp only [(sound.removes_iff).1] at vectors
  simp only [(sound.removes_iff).2] at keywords
  rw [Database.after_write, Database.writeTxn_plane]
  simp only [Database.SameOn, Database.HeldOff, not_or, forall_and, vectors, keywords]

/-- What a rebuild makes on another plane does not change with the transaction. -/
theorem Database.Sound.write_freshOn (sound : db.Sound) (parsed : db.Parsed) (off : other ≠ plane)
    (same : Database.SameOn host other db (db.after host millis (.write plane ops true))) :
    (db.after host millis (.write plane ops true)).FreshOn host other ↔ db.FreshOn host other := by
  have changes := sound.writeTxn_changes host plane ops
  have written : (db.after host millis (.write plane ops true)).Sound := sound.write
  obtain ⟨vectorRows, keywordRows⟩ := (db.writeTxn host plane ops).sealed_indexes millis
  obtain ⟨vectorRows', keywordRows'⟩ := changes.sameMeta.indexes
  have due : ∀ {α : Type} (read : PropValue → Option α) (label property : String),
      ((db.writeTxn host plane ops).sealed millis).due read other label property =
        db.tables.due read other label property := by
    intro α read label property
    rw [((db.writeTxn host plane ops).sealed_sameGraph millis).due]
    exact sound.world.due_off changes off
  rw [Database.after_write] at *
  exact and_congr
    (FreshOn.congr (vectorContents host) sound.world.tables written.world.tables parsed.vectors
      (vectorRows.trans vectorRows') (due _) same.1)
    (FreshOn.congr (keywordContents host) sound.world.tables written.world.tables parsed.keywords
      (keywordRows.trans keywordRows') (due _) same.2)

/-- **Planes are isolated in the indexes, but for deletes**: in every state reached from an empty
store, a transaction leaves the registries of every other plane as they were and equal to a rebuild
just in case they were equal to one and it deletes no id that an index of another plane holds. -/
theorem other_planes_isolated (host : Host) (start millis : ℤ) (steps : List (ℤ × Command))
    (plane : PlaneId) (ops : List WriteOp) :
    (∀ other ≠ plane,
      Database.SameOn host other ((Database.new host start).run host steps)
          (((Database.new host start).run host steps).after host millis (.write plane ops true)) ∧
        (((Database.new host start).run host steps).after host millis
          (.write plane ops true)).FreshOn host other) ↔
      (∀ id, .deleteNode id ∈ ops →
        ¬ ((Database.new host start).run host steps).HeldOff host plane id) ∧
        ∀ other ≠ plane, ((Database.new host start).run host steps).FreshOn host other := by
  have sound : ((Database.new host start).run host steps).Sound := Database.new_sound.run steps
  have parsed : ((Database.new host start).run host steps).Parsed :=
    Database.new_parsed.run Database.new_sound steps
  rw [← @Database.Sound.write_sameOn plane millis host _ sound ops]
  constructor
  · intro isolated
    refine ⟨fun other off => (isolated other off).1, fun other off => ?_⟩
    exact (sound.write_freshOn parsed off (isolated other off).1).mp (isolated other off).2
  · rintro ⟨same, fresh⟩ other off
    exact ⟨same other off, (sound.write_freshOn parsed off (same other off)).mpr (fresh other off)⟩

/-- A node of plane one is indexed there, and a transaction on plane zero deletes its id. -/
theorem delete_reaches_other_plane : ¬ Database.SameOn plainHost 1
    ((Database.new plainHost 0).run plainHost
      [(1, .createPlane "notes" ∅), (2, .ensureVectorIndex 1 "Note" "at" .l2),
        (3, .write 1 [.createNode ["Note"]
          ((∅ : Properties).insert "at" (.mk none (.vector [1])))] true)])
    (((Database.new plainHost 0).run plainHost
      [(1, .createPlane "notes" ∅), (2, .ensureVectorIndex 1 "Note" "at" .l2),
        (3, .write 1 [.createNode ["Note"]
          ((∅ : Properties).insert "at" (.mk none (.vector [1])))] true)]).after plainHost 4
      (.write 0 [.deleteNode 1] true)) := by
  rintro ⟨same, -⟩
  have here := congrArg (Option.map fun seen : Metric × (NodeId → Option (List UInt32)) =>
    (seen.2 1).isSome) (same "Note" "at")
  rw [Option.map_map, Option.map_map] at here
  revert here
  with_unfolding_all decide

end DrStrange.Graph
