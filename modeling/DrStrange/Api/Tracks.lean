/-
**Every method of a write transaction buffers the events it owes.**

Whether it returns or fails, a method takes what was due before it to what is due after it by the
events it buffers (`WriteOp.moves`), and so do all methods of a transaction (`afterAll_moves`).

A bulk load that merges kept nodes may fail after it has landed, and then its events are missing. It
fails so only when the label dictionary has run over.
-/

import DrStrange.Api.Contents
import DrStrange.Graph.BulkLines

namespace DrStrange.Graph

open Std Lib ExtTreeMap

variable {base tables after : Tables} {plane : PlaneId} {label property key ty : String}
  {α σ : Type} {read : PropValue → Option α} {decls : List (String × String × σ)} {node id : NodeId}
  {verdict : String → String → Option (Option α)} {setting : σ}
  {touched removed more gone ids : Set NodeId} {first middle last before : WriteTxn base}
  {one two events : List (IndexEvent α)} {update : Properties → Properties}
  {value : Option PropValue} {nodes : List BulkNode} {run : WriteM base α}
  {lines : List (NodeId × BulkNode)} {labels : List String} {props : Properties} {prop : PropDesc}
  {row : NodeRow}

/-! ### Methods on edges -/

theorem createEdge_tracks {src dst : NodeId} :
    Tracks touched removed (createEdge src dst ty props : WriteM base _) := by
  refine createEdge_keeps.tracks fun before => ?_
  refine (nextEdgeId_does.mono (fun _ _ taken => taken) ?_).bind ?_
  · rintro _ ⟨txn, rfl, same⟩ follows
    exact .still follows rfl (by rw [same])
  · rintro id _ ⟨txn, batch, rfl, reserved, -, -⟩
    refine ((onTxn_does insertEdge_runs).mono (fun _ _ inserted => inserted) ?_).bind ?_
    · rintro _ ⟨after, rfl, grows⟩ follows
      exact .still follows rfl (reserved.trans grows).nodes_eq
    · rintro _ _ ⟨after, rfl, -, -, named, number, grows, -, written⟩ follows
      refine .still follows rfl ?_
      have kept : after.tables.nodes = named.nodes := by rw [written, applyAll_edgeWrites]
      exact kept.trans (reserved.trans grows).nodes_eq

theorem deleteEdgeTxn_tracks {id : EdgeId} :
    Tracks touched removed (deleteEdgeTxn id : WriteM base _) := by
  have deleted : Tracks touched removed (onTxn fun plane => deleteEdge plane id : WriteM base _) := by
    refine .onTxn deleteEdge_keeps (fun _ _ => deleteEdge_runs) ?_ fun _ _ _ failed => failed.elim
    rintro plane tables _ _ rfl
    rw [applyAll_edgeDeletes]
    cases tables.edges[(plane, id)]? <;> rfl
  refine .bind .reading fun found => ?_
  cases found with
  | some edge => exact .bind (.count fun _ => rfl) fun _ => deleted
  | none => exact deleted

theorem updateEdgeProps_tracks {id : EdgeId} :
    Tracks touched removed (onTxn fun plane => updateEdgeProps plane id update : WriteM base _) := by
  refine .onTxn updateEdgeProps_keeps (fun _ _ => updateEdgeProps_runs) ?_ fun _ _ _ same => ?_
  · rintro plane tables _ _ ⟨row, -, rfl⟩
    rfl
  · rw [same]

theorem setEdgeTypeTxn_tracks {id : EdgeId} :
    Tracks touched removed (setEdgeTypeTxn id ty : WriteM base _) := by
  have retyped : Tracks touched removed (onTxn fun plane => setEdgeType plane id ty :
      WriteM base _) := by
    refine .onTxn setEdgeType_keeps (fun _ _ => setEdgeType_runs) ?_ fun _ _ _ grows =>
      grows.nodes_eq
    rintro plane tables _ _ ⟨row, named, number, -, grows, -, rfl⟩
    rw [applyAll_retypeWrites]
    exact grows.nodes_eq
  refine .bind .reading fun found => ?_
  cases found with
  | some edge =>
    dsimp only
    split
    · exact .bind (.count fun _ => rfl) fun _ => retyped
    · exact retyped
  | none => exact retyped

/-! ### Methods on nodes -/

/-- A transaction further on that has buffered these events. -/
theorem WriteTxn.Moves.emit {events : List (IndexEvent (List UInt32))}
    {kwEvents : List (IndexEvent String)} (follows : first.Follows last) (same : last = { first with
      txn := last.txn, ids := last.ids, counters := last.counters
      events := first.events ++ events, kwEvents := first.kwEvents ++ kwEvents
      madeNodes := last.madeNodes, madeEdges := last.madeEdges })
    (vectors : Emits PropValue.asVector first.decls touched removed first last events)
    (keywords : Emits PropValue.asText first.kwDecls touched removed first last kwEvents) :
    first.Moves touched removed last where
  follows := follows
  decls := by rw [same]
  kwDecls := by rw [same]
  vectors := ⟨events, by rw [same], vectors⟩
  keywords := ⟨kwEvents, by rw [same], keywords⟩

/-- What is due once a new node is there. -/
theorem due_inserted {world : World} {named : Tables} {id : NodeId} {key : Option String}
    {labels : List String} {numbers : List ℕ} {props : Properties} (sound : world.Sound)
    (absent : world.tables.nodes[(plane, id)]? = none) (grows : Grows world.tables named)
    (known : named.Names .label labels numbers)
    (written : after = named.applyAll (nodeWrites plane id ⟨key, numbers, props⟩)) :
    after.due read plane label property =
      (if label ∈ labels then some (indexed read props property) else none).elim
        (world.tables.due read plane label property)
        (Function.update (world.tables.due read plane label property) id) := by
  have inverse := (sound.grows grows).tables.exact.dict .label
  have row : after.nodes = named.nodes.write (plane, id) (some ⟨key, numbers, props⟩) := by
    rw [written, applyAll_nodeWrites]
  have names : after.dictNames = named.dictNames := by rw [written, applyAll_nodeWrites]
  rw [due_write row names, grows.due sound, Option.bind_some, known.labelsOf inverse]
  split
  · rfl
  · rw [Option.elim_none, ← @due_absent _ _ label property _ read id absent, Function.update_eq_self]

theorem createNodeAs_tracks {key : Option String} :
    Tracks Set.univ removed (createNodeAs key labels props : WriteM base _) := by
  refine createNodeAs_keeps.tracks fun before => ?_
  refine (nextNodeId_does.mono (fun _ _ taken => taken) ?_).bind ?_
  · rintro _ ⟨txn, rfl, same⟩ follows
    exact .still follows rfl (by rw [same])
  rintro id _ ⟨txn, batch, rfl, reserved, taken, -⟩
  refine ((onTxn_does insertNode_runs).mono (fun _ _ inserted => inserted) ?_).bind ?_
  · rintro _ ⟨after, rfl, grows⟩ follows
    exact .still follows rfl (reserved.trans grows).nodes_eq
  rintro _ _ ⟨after, rfl, -, named, numbers, grows, known, written⟩ follows
  have fresh : before.world.Sound → before.txn.tables.nodes[(before.plane, id)]? = none := by
    intro sound
    have free := (sound.changes taken).tables.nodeIds before.plane id
    rw [← reserved.nodes_eq]
    exact getElem?_eq_none fun member => (free member).2 (Set.mem_insert id _)
  refine .emit follows rfl (nodeEvents_eq ▸ .decl trivial ?_) (nodeEvents_eq ▸ .decl trivial ?_)
  · intro sound _ label property setting _
    exact @due_inserted _ _ label property _ _ before.world named id key labels numbers props sound
      (fresh sound) (reserved.trans grows) known written
  · intro sound _ label property setting _
    exact @due_inserted _ _ label property _ _ before.world named id key labels numbers props sound
      (fresh sound) (reserved.trans grows) known written

theorem countNode_tracks : Tracks touched removed (countNode id : WriteM base _) := by
  have each : ∀ ids, Tracks touched removed (countRemoved ids : WriteM base _) := by
    intro ids
    induction ids with
    | nil => exact .pure
    | cons id ids ih =>
      refine .bind .reading fun found => ?_
      cases found with
      | some edge => exact .bind (.count fun _ => rfl) fun _ => ih
      | none => exact ih
  refine .bind .reading fun found => ?_
  cases found with
  | some node => exact .bind .reading fun _ => .bind (each _) fun _ => .count fun _ => rfl
  | none => exact .pure

/-- What is due once a node is gone. -/
theorem due_deleted (deleted : (tables.nodes[(plane, id)]? = none ∧ after = tables) ∨
      ∃ row, tables.nodes[(plane, id)]? = some row ∧ after = tables.deleteNode plane id row) :
    after.due read plane label property =
      Function.update (tables.due read plane label property) id none := by
  rcases deleted with ⟨absent, rfl⟩ | ⟨row, -, rfl⟩
  · rw [← @due_absent _ _ label property _ read id absent, Function.update_eq_self]
  · refine (@due_write _ _ _ label property _ read id none ?_ ?_).trans rfl
    · rw [Tables.deleteNode, Tables.withoutNode, withoutEdges_records]
    · rw [Tables.deleteNode, Tables.withoutNode, withoutEdges_records]

theorem updatesFor_removeNode :
    updatesFor label property [(.removeNode id : IndexEvent α)] = [(id, none)] := rfl

theorem deleteNodeTxn_tracks : Tracks {id} {id} (deleteNodeTxn id : WriteM base _) := by
  have deleted : Tracks {id} {id} (do
      onTxn fun plane => deleteNode plane id
      modify fun write => { write with
        events := write.events ++ [.removeNode id]
        kwEvents := write.kwEvents ++ [.removeNode id] } : WriteM base _) := by
    have keeps : Keeps (do
        onTxn fun plane => deleteNode plane id
        modify fun write => { write with
          events := write.events ++ [.removeNode id]
          kwEvents := write.kwEvents ++ [.removeNode id] } : WriteM base _) :=
      .bind deleteNode_keeps fun _ => .modify (fun _ => rfl) fun _ => rfl
    refine keeps.tracks fun before => ?_
    have gone := @onTxn_does base _ before (fun plane => deleteNode plane id) _ _ deleteNode_runs
    refine (gone.mono (fun _ _ gone => gone) ?_).bind ?_
    · rintro _ ⟨txn, rfl, failed⟩
      exact failed.elim
    rintro _ _ ⟨txn, rfl, gone⟩ follows
    have emits : ∀ {α σ : Type} (read : PropValue → Option α)
        (decls : List (String × String × σ)) (last : WriteTxn base),
          last.txn.tables = txn.tables →
            Emits read decls {id} {id} before last [.removeNode id] := by
      intro α σ read decls last same
      refine ⟨?_, ?_, fun _ _ label property _ _ => ?_⟩
      · rintro event (_ | ⟨_, ⟨⟩⟩)
        rfl
      · rintro node (_ | ⟨_, ⟨⟩⟩)
        rfl
      · rw [updatesFor_removeNode, same, due_deleted gone]
        rfl
    exact .emit follows rfl (emits _ _ _ rfl) (emits _ _ _ rfl)
  exact .bind countNode_tracks fun _ => deleted

/-! ### Property and label changes -/

/-- An update of properties that leaves `value` under `key` and touches no other. -/
def Rewrites (update : Properties → Properties) (key : String) (value : Option PropValue) : Prop :=
  ∀ props : Properties, ((update props)[key]?).map PropDesc.value = value ∧
    ∀ other, other ≠ key → (update props)[other]? = props[other]?

theorem rewrites_insert : Rewrites (fun props => props.insert key prop) key (some prop.value) := by
  intro props
  refine ⟨by simp, fun other different => ?_⟩
  rw [getElem?_insert, if_neg fun same => different (Std.compare_eq_iff_eq.mp same).symm]

theorem rewrites_erase : Rewrites (fun props => props.erase key) key none := by
  intro props
  refine ⟨by simp, fun other different => ?_⟩
  rw [getElem?_erase, if_neg fun same => different (Std.compare_eq_iff_eq.mp same).symm]

/-- A point given what it has. -/
theorem update_of_eq {values : NodeId → Option α} {value : Option α} (held : values id = value) :
    Function.update values id value = values := by
  rw [← held, Function.update_eq_self]

/-- What is due once a property is changed. -/
theorem due_rewritten (rewrites : Rewrites update key value)
    (found : tables.nodes[(plane, id)]? = some row) (written : after = tables.apply
      (.node (plane, id) (some { row with props := update row.props }))) :
    after.due read plane label property =
      (if property = key ∧ label ∈ tables.labelsOf row then some (value.bind read) else none).elim
        (tables.due read plane label property)
        (Function.update (tables.due read plane label property) id) := by
  obtain ⟨here, elsewhere⟩ := rewrites row.props
  have changed : after.due read plane label property =
      Function.update (tables.due read plane label property) id
        (if label ∈ tables.labelsOf row then indexed read (update row.props) property else none) := by
    subst written
    exact @due_write _ _ _ label property _ read id (some { row with props := update row.props })
      rfl rfl
  have old := @due_found _ _ label property _ read id row found
  rw [changed]
  by_cases carried : label ∈ tables.labelsOf row
  · rw [if_pos carried] at old ⊢
    by_cases same : property = key
    · subst same
      rw [if_pos ⟨rfl, carried⟩, Option.elim_some, indexed, ← here, Option.bind_map]
      rfl
    · rw [if_neg fun both => same both.1, Option.elim_none]
      refine update_of_eq (old.trans ?_)
      rw [indexed, indexed, elsewhere property same]
  · rw [if_neg carried] at old ⊢
    rw [if_neg fun both => carried both.2, Option.elim_none]
    exact update_of_eq old

/-- What is due once the labels are replaced. -/
theorem due_relabelled {world : World} {id : NodeId} {row : NodeRow} {named : Tables}
    {labels : List String} {numbers : List ℕ} (sound : world.Sound)
    (found : world.tables.nodes[(plane, id)]? = some row) (grows : Grows world.tables named)
    (known : named.Names .label labels numbers)
    (written : after = named.applyAll (relabelWrites plane id row numbers)) :
    after.due read plane label property =
      (if decide (label ∈ world.tables.labelsOf row) = decide (label ∈ labels) then none
        else (indexed read row.props property).map fun value =>
          if label ∈ labels then some value else none).elim
        (world.tables.due read plane label property)
        (Function.update (world.tables.due read plane label property) id) := by
  have inverse := (sound.grows grows).tables.exact.dict .label
  have changed : after.due read plane label property =
      Function.update (world.tables.due read plane label property) id
        (if label ∈ labels then indexed read row.props property else none) := by
    have nodes : after.nodes =
        named.nodes.write (plane, id) (some { row with labels := numbers }) := by
      rw [written, applyAll_relabelWrites]
    have names : after.dictNames = named.dictNames := by rw [written, applyAll_relabelWrites]
    rw [due_write nodes names, grows.due sound, Option.bind_some]
    rw [show named.labelsOf { row with labels := numbers } = labels from known.labelsOf inverse]
  have old := @due_found _ _ label property _ read id row found
  rw [changed]
  by_cases before : label ∈ world.tables.labelsOf row <;> by_cases now : label ∈ labels
  · rw [if_pos before] at old
    simpa [before, now] using update_of_eq old
  · rw [if_pos before] at old
    cases held : indexed read row.props property with
    | none => simpa [before, now] using update_of_eq (old.trans held)
    | some value => simp [before, now]
  · rw [if_neg before] at old
    cases held : indexed read row.props property with
    | none => simpa [before, now] using update_of_eq old
    | some value => simp [before, now]
  · rw [if_neg before] at old
    simpa [before, now] using update_of_eq old

theorem declEvents_none : declEvents decls node (fun _ _ => none) = ([] : List (IndexEvent α)) :=
  List.filterMap_eq_nil_iff.mpr fun _ _ => rfl

/-- The events of one property change, for one kind of index: read where the indexes are declared,
put where its events are. -/
def recordEvent (read : PropValue → Option α) (decls : WriteTxn base → List (String × String × σ))
    (put : WriteTxn base → List (IndexEvent α) → WriteTxn base) (id : NodeId) (key : String)
    (value : Option PropValue) : WriteM base Unit := do
  if (decls (← get)).any (fun decl => decl.2.1 = key) then
    match ← reading fun tables plane => getNode tables plane id with
    | some node =>
      modify fun write => put write (propEvents read (decls write) id key value node.labels)
    | none => return
  else return

/-- What a property change tells an index. -/
def Tells (read : PropValue → Option α) (decls : List (String × String × σ)) (write : WriteTxn base)
    (id : NodeId) (key : String) (value : Option PropValue)
    (verdict : String → String → Option (Option α)) : Prop :=
  write.world.Sound → ∀ row, write.txn.tables.nodes[(write.plane, id)]? = some row →
    ∀ label property setting, (label, property, setting) ∈ decls →
      verdict label property =
        if property = key ∧ label ∈ write.txn.tables.labelsOf row then some (value.bind read)
        else none

/-- A node read in a sound store is what is stored. -/
theorem readNode_does :
    Does before (reading fun tables plane => getNode tables plane id)
      (fun found after => after = before ∧ (before.world.Sound → ∀ row,
        before.txn.tables.nodes[(before.plane, id)]? = some row → found = some
          ⟨id, before.plane, row.externalKey, before.txn.tables.labelsOf row, row.props⟩))
      (fun after => after = before ∧ ¬ before.world.Sound) := by
  rw [Does, reading]
  cases ran : getNode before.txn.tables before.plane id with
  | ok found =>
    refine ⟨rfl, fun sound row stored => ?_⟩
    exact Except.ok.inj (ran.symm.trans (sound.tables.getNode stored))
  | error error =>
    refine ⟨rfl, fun sound => ?_⟩
    cases found : before.txn.tables.nodes[(before.plane, id)]? with
    | none => cases (getNode_absent found).symm.trans ran
    | some row => cases (sound.tables.getNode found).symm.trans ran

theorem recordEvent_does {before : WriteTxn base} {decls : WriteTxn base → List (String × String × σ)}
    {put : WriteTxn base → List (IndexEvent α) → WriteTxn base} {id : NodeId} {key : String}
    {value : Option PropValue} (still : put before [] = before) :
    Does before (recordEvent read decls put id key value)
      (fun _ after => ∃ verdict, after = put before (declEvents (decls before) id verdict) ∧
        Tells read (decls before) before id key value verdict)
      (fun after => after = before ∧ ¬ before.world.Sound) := by
  refine Does.get.bind ?_
  rintro _ _ ⟨rfl, rfl⟩
  rename_i write
  split
  · refine readNode_does.bind ?_
    rintro found _ ⟨rfl, got⟩
    cases found with
    | some node =>
      refine ⟨_, congrArg _ propEvents_eq, fun sound row found label property setting _ => ?_⟩
      cases got sound row found
      rfl
    | none =>
      refine ⟨fun _ _ => none, by rw [declEvents_none, still], fun sound row found => ?_⟩
      exact nomatch got sound row found
  · rename_i undeclared
    refine ⟨fun _ _ => none, by rw [declEvents_none, still], ?_⟩
    intro sound row found label property setting declared
    rw [if_neg]
    rintro ⟨rfl, -⟩
    exact undeclared (List.any_eq_true.mpr ⟨_, declared, decide_eq_true rfl⟩)

theorem recordPropEvent_does :
    Does before (recordPropEvent id key value)
      (fun _ after => ∃ verdict,
        after = { before with events := before.events ++ declEvents before.decls id verdict } ∧
        Tells PropValue.asVector before.decls before id key value verdict)
      (fun after => after = before ∧ ¬ before.world.Sound) :=
  @recordEvent_does base _ _ PropValue.asVector before WriteTxn.decls
    (fun write events => { write with events := write.events ++ events }) id key value
    (by simp only [List.append_nil])

theorem recordKwPropEvent_does :
    Does before (recordKwPropEvent id key value)
      (fun _ after => ∃ verdict,
        after = { before with kwEvents := before.kwEvents ++ declEvents before.kwDecls id verdict } ∧
        Tells PropValue.asText before.kwDecls before id key value verdict)
      (fun after => after = before ∧ ¬ before.world.Sound) :=
  @recordEvent_does base _ _ PropValue.asText before WriteTxn.kwDecls
    (fun write events => { write with kwEvents := write.kwEvents ++ events }) id key value
    (by simp only [List.append_nil])

/-- A method on some nodes that succeeds if they are there and labels can be named, and leaves every
node there. -/
def Settles (ids : Set NodeId) (run : WriteM base α) : Prop :=
  ∀ before, Does before run
    (fun _ after => before.Moves ids ∅ after ∧
      ∀ key ∈ before.txn.tables.nodes, key ∈ after.txn.tables.nodes)
    (fun after => before.Moves ids ∅ after ∧ (before.world.Sound →
      (∀ id ∈ ids, (before.plane, id) ∈ before.txn.tables.nodes) → ¬ after.txn.tables.Room))

theorem Settles.tracks (settles : Settles ids run) : Tracks ids ∅ run :=
  fun before => (settles before).mono (fun _ _ held => held.1) fun _ held => held.1

theorem Settles.pure {result : α} : Settles ids (pure result : WriteM base α) :=
  fun _ => ⟨WriteTxn.Moves.refl, fun _ member => member⟩

theorem Settles.mono {wider : Set NodeId} (settles : Settles ids run) (subset : ids ⊆ wider) :
    Settles wider run := by
  refine fun before => (settles before).mono ?_ ?_
  · exact fun _ _ held => ⟨held.1.mono subset subset_rfl, held.2⟩
  · exact fun _ held => ⟨held.1.mono subset subset_rfl, fun sound present =>
      held.2 sound fun id member => present id (subset member)⟩

theorem Settles.bind {β : Type} {rest : α → WriteM base β} (one : Settles ids run)
    (two : ∀ result, Settles ids (rest result)) :
    Settles ids (run >>= rest) := by
  refine fun before => (one before).bind fun result middle first => ?_
  obtain ⟨moves, kept⟩ := first
  refine (two result middle).mono ?_ ?_
  · rintro _ after ⟨further, kept'⟩
    exact ⟨moves.trans further, fun key member => kept' key (kept key member)⟩
  · rintro after ⟨further, failed⟩
    refine ⟨moves.trans further, fun sound present => ?_⟩
    refine failed (sound.changes (moves.follows.changes sound)) fun id member => ?_
    rw [moves.follows.plane]
    exact kept _ (present id member)

/-- The events of a property change. -/
theorem Emits.rewritten {write : WriteTxn base} (rewrites : Rewrites update key value)
    (follows : before.Follows write)
    (found : before.txn.tables.nodes[(before.plane, id)]? = some row)
    (written : write.txn.tables = before.txn.tables.apply
      (.node (before.plane, id) (some { row with props := update row.props })))
    (same : last.txn.tables = write.txn.tables)
    (tells : Tells read decls write id key value verdict) :
    Emits read decls {id} ∅ before last (declEvents decls id verdict) := by
  refine .decl rfl fun sound _ label property setting declared => ?_
  have found' : write.txn.tables.nodes[(write.plane, id)]? =
      some { row with props := update row.props } := by
    rw [written, follows.plane, Tables.apply, getElem?_write, if_pos rfl]
  have told := tells (sound.changes (follows.changes sound)) _ found' label property setting declared
  rw [told, same, due_rewritten rewrites found written, written]
  rfl

theorem rewriteProp_settles (rewrites : Rewrites update key value) : Settles {id} (do
      onTxn fun plane => updateNodeProps plane id update
      recordPropEvent id key value
      recordKwPropEvent id key value : WriteM base Unit) := by
  intro before
  have keeps : Keeps (do
      onTxn fun plane => updateNodeProps plane id update
      recordPropEvent id key value
      recordKwPropEvent id key value : WriteM base Unit) :=
    .bind updateNodeProps_keeps fun _ => .bind recordPropEvent_keeps fun _ => recordKwPropEvent_keeps
  refine keeps.also ?_
  have updated := @onTxn_does base _ before (fun plane => updateNodeProps plane id update) _ _
    updateNodeProps_runs
  refine (updated.mono (fun _ _ updated => updated) ?_).bind ?_
  · rintro _ ⟨txn, rfl, same, absent⟩ follows
    refine ⟨.still follows rfl (by rw [same]), fun _ present => ?_⟩
    exact absurd (getElem?_eq_some_getElem (present id rfl)) (by simp [absent])
  rintro _ _ ⟨txn, rfl, row, found, written⟩
  -- The record calls fail on a store that is not sound only.
  refine (recordPropEvent_does.mono (fun _ _ recorded => recorded) ?_).bind ?_
  · rintro _ ⟨rfl, unsound⟩ follows
    have unsound' : ¬ before.world.Sound :=
      fun sound => unsound (sound.changes (follows.changes sound))
    refine ⟨.emit follows (by simp only [List.append_nil]) (.none fun sound => ?_)
      (.none fun sound => ?_), fun sound => ?_⟩ <;> exact absurd sound unsound'
  rintro _ _ ⟨verdict, rfl, tells⟩
  refine recordKwPropEvent_does.mono ?_ ?_
  · rintro _ _ ⟨kwVerdict, rfl, kwTells⟩ follows
    have updated : before.Follows { before with txn := txn } :=
      ⟨rfl, follows.changes, follows.numbered⟩
    have recorded : before.Follows { before with
        txn := txn, events := before.events ++ declEvents before.decls id verdict } :=
      ⟨rfl, follows.changes, follows.numbered⟩
    refine ⟨.emit follows rfl (.rewritten rewrites updated found written rfl tells)
      (.rewritten rewrites recorded found written rfl kwTells), fun key member => ?_⟩
    simp only [written, Tables.apply, mem_write]
    grind
  · rintro _ ⟨rfl, unsound⟩ follows
    have unsound' : ¬ before.world.Sound :=
      fun sound => unsound (sound.changes (follows.changes sound))
    have vectors : Emits PropValue.asVector before.decls {id} ∅ before
        { before with txn := txn, events := before.events ++ declEvents before.decls id verdict }
        (declEvents before.decls id verdict) := .decl rfl fun sound => absurd sound unsound'
    refine ⟨.emit follows (by simp only [List.append_nil]) vectors (.none fun sound => ?_),
      fun sound => ?_⟩ <;> exact absurd sound unsound'

theorem setProp_settles : Settles {id} (setProp id key prop : WriteM base Unit) :=
  rewriteProp_settles rewrites_insert

theorem removeProp_settles : Settles {id} (removeProp id key : WriteM base Unit) :=
  rewriteProp_settles rewrites_erase

theorem setLabels_settles : Settles {id} (setLabels id labels : WriteM base Unit) := by
  intro before
  refine setLabels_keeps.also ?_
  refine (readNode_does.mono (fun _ _ found => found) ?_).bind ?_
  · rintro _ ⟨rfl, unsound⟩ follows
    exact ⟨.refl, fun sound => absurd sound unsound⟩
  rintro found _ ⟨rfl, got⟩
  cases found with
  | none =>
    intro follows
    refine ⟨.refl, fun sound present => ?_⟩
    exact nomatch got sound _ (getElem?_eq_some_getElem (present id rfl))
  | some node =>
    rename_i write
    have relabelled := @onTxn_does base _ write (fun plane => setNodeLabels plane id labels) _ _
      (setNodeLabels_runs.and setNodeLabels_fails)
    refine (relabelled.mono (fun _ _ relabelled => relabelled) ?_).bind ?_
    · rintro _ ⟨txn, rfl, grows, failed⟩ follows
      refine ⟨.still follows rfl grows.nodes_eq, fun _ present => failed.resolve_left ?_⟩
      exact fun absent => absurd (getElem?_eq_some_getElem (present id rfl)) (by simp [absent])
    rintro _ _ ⟨txn, rfl, ⟨row, named, ids, found, grows, known, written⟩, -⟩ follows
    have emits : ∀ {α σ : Type} (read : PropValue → Option α)
        (decls : List (String × String × σ)) (last : WriteTxn base),
          last.txn.tables = txn.tables → Emits read decls {id} ∅ write last
            (labelsEvents read decls id node.labels labels node.properties) := by
      intro α σ read decls last same
      refine labelsEvents_eq ▸ .decl rfl fun sound _ label property setting _ => ?_
      cases got sound row found
      rw [same]
      exact @due_relabelled _ _ label property _ read write.world id row named labels ids sound found
        grows known written
    refine ⟨.emit follows rfl (emits _ _ _ rfl) (emits _ _ _ rfl), fun key member => ?_⟩
    simp only [written, applyAll_relabelWrites, mem_write, grows.nodes_eq]
    grind

theorem setProps_settles {props : List (String × PropDesc)} :
    Settles {id} (setProps id props : WriteM base Unit) := by
  induction props with
  | nil => exact .pure
  | cons prop props ih => exact .bind setProp_settles fun _ => ih

/-- The nodes that the lines of a load keep. -/
def keptIds (existing : List (ℕ × NodeId)) : Set NodeId := {id | id ∈ existing.map Prod.snd}

theorem mergeKept_settles {existing : List (ℕ × NodeId)} :
    Settles (keptIds existing) (mergeKept nodes existing : WriteM base Unit) := by
  induction existing with
  | nil => exact .pure
  | cons kept existing ih =>
    obtain ⟨position, id⟩ := kept
    have rest := ih.mono fun other member => List.mem_cons_of_mem id member
    have own : ({id} : Set NodeId) ⊆ keptIds ((position, id) :: existing) := by
      rintro _ rfl
      exact List.mem_cons_self
    rw [mergeKept]
    split
    · refine .bind (setProps_settles.mono own) fun _ => ?_
      split
      · exact rest
      · exact .bind (setLabels_settles.mono own) fun _ => rest
    · exact rest

/-! ### Bulk loads -/

theorem due_congr (nodes : after.nodes = tables.nodes) (names : after.dictNames = tables.dictNames) :
    after.due read plane label property = tables.due read plane label property := by
  have labels : after.labelsOf = tables.labelsOf := by
    funext row
    rw [Tables.labelsOf, Tables.labelsOf, names]
  funext id
  rw [Tables.due, Tables.due, nodes, labels]

/-- What is due once the nodes of a load are there: the nodes are new, so nothing was due for
them. -/
theorem due_insertNodes {named : Tables} {rows : List (NodeId × NodeRow)}
    (names : tables.dictNames = named.dictNames)
    (inverse : Inverse (named.dictIds .label) (named.dictNames .label))
    (nodup : (rows.map Prod.fst).Nodup)
    (absent : ∀ row ∈ rows, tables.nodes[(plane, row.1)]? = none)
    (made : List.Forall₂ (fun row => Made named plane ((plane, row.1), row.2)) rows lines)
    (declared : (label, property, setting) ∈ decls) :
    (insertNodes tables plane rows).due read plane label property =
      replay (tables.due read plane label property)
        (updatesFor label property (bulkEvents read decls lines)) := by
  rw [bulkEvents_eq]
  induction made generalizing tables with
  | nil => rfl
  | @cons row line rows lines first _ ih =>
    obtain ⟨fresh, nodup⟩ := List.nodup_cons.mp nodup
    have here := absent row List.mem_cons_self
    have inserted : (tables.applyAll (nodeWrites plane row.1 row.2)).nodes =
        tables.nodes.write (plane, row.1) (some row.2) := by rw [applyAll_nodeWrites]
    have kept : (tables.applyAll (nodeWrites plane row.1 row.2)).dictNames = tables.dictNames := by
      rw [applyAll_nodeWrites]
    have rest := ih (kept.trans names) nodup (by
      intro other member
      have apart : (plane, row.1) ≠ (plane, other.1) := by
        intro same
        exact fresh (List.mem_map.mpr ⟨other, member, (Prod.mk.inj same).2.symm⟩)
      rw [inserted, getElem?_write, if_neg apart]
      exact absent other (List.mem_cons_of_mem _ member))
    have labels : tables.labelsOf row.2 = line.2.labels := by
      rw [Tables.labelsOf, names]
      exact @Tables.Names.labelsOf named _ _ row.2.externalKey row.2.props first.labels inverse
    have id : row.1 = line.1 := (Prod.mk.inj first.id).2
    rw [insertNodes, List.foldl_cons, ← insertNodes, rest, List.flatMap_cons, updatesFor_append,
      replay_append, replay_declEvents declared, due_write inserted kept, Option.bind_some, labels,
      first.props, ← id]
    congr 1
    by_cases carried : label ∈ line.2.labels
    · rw [if_pos carried, if_pos carried]
      cases indexed read line.2.props property with
      | none => exact update_of_eq (due_absent here)
      | some value => rfl
    · rw [if_neg carried, if_neg carried]
      exact update_of_eq (due_absent here)

/-- What a load that landed has done for the indexes: it kept nodes that were there, made nodes that
were not, and the events of the nodes it made account for what is due now. -/
structure Lands (plane : PlaneId) (nodes : List BulkNode) (stats : BulkStats)
    (before after : Tables) :
    Prop where
  kept : ∀ id ∈ keptIds stats.existing, (plane, id) ∈ before.nodes
  stays : ∀ id, (plane, id) ∈ before.nodes → (plane, id) ∈ after.nodes
  absent : ∀ line ∈ madeLines nodes stats, before.nodes[(plane, line.1)]? = none
  due : ∀ {α σ : Type} {read : PropValue → Option α} {decls : List (String × String × σ)}
    {label property : String} {setting : σ}, (label, property, setting) ∈ decls →
      after.due read plane label property = replay (before.due read plane label property)
        (updatesFor label property (bulkEvents read decls (madeLines nodes stats)))

theorem BulkLoads.lands {world : World} {onConflict : OnConflict} {nodes : List BulkNode}
    {edges : List BulkEdge} {result : BulkStats × List EdgeId} (sound : world.Sound)
    (loads : BulkLoads plane onConflict nodes edges world.tables result after) :
    Lands plane nodes result.1 world.tables after := by
  obtain ⟨nodeStart, edgeStart, nodesNamed, named, staged, batches, foundNode, grewNodes, foundEdge,
    grewEdges, stagesNodes, stagesEdges, rfl, rfl⟩ := loads
  have chain : Changes plane world _ := (reservedNodes_changes foundNode grewNodes).trans
    (reservedEdges_changes foundEdge grewEdges)
  have grows : Grows world.tables named :=
    (Grows.reserved ⟨foundNode, rfl⟩).trans
      (grewNodes.trans ((Grows.reserved ⟨foundEdge, rfl⟩).trans grewEdges))
  have sound' := sound.changes chain
  have exact := sound'.tables.exact
  obtain ⟨rows, staging⟩ := stagesNodes.staging Staging.empty
  have lines := stagesNodes.lines Lines.empty rfl
  rw [Nat.zero_add] at staging
  rw [List.nil_append] at lines
  have made := lines.made
  rw [staging.holds.nodes, List.forall₂_map_left_iff] at made
  have absent : ∀ row ∈ rows, named.nodes[(plane, row.1)]? = none := by
    intro row member
    refine getElem?_eq_none fun present => ?_
    exact (sound'.tables.nodeIds plane row.1 present).2 (.inr (staging.ids row member))
  refine ⟨?_, ?_, ?_, ?_⟩
  · intro id member
    obtain ⟨entry, inside, rfl⟩ := List.mem_map.mp member
    obtain ⟨key, owned⟩ := lines.kept entry inside
    obtain ⟨row, found, -⟩ := (exact.extKeys plane key entry.2).mp owned
    rw [← grows.nodes_eq]
    exact mem_of_getElem? found
  · intro id member
    rw [staging.holds.applyAll staging.keysApart, applyAll_bulkEdgeWrites, insertEdges_eq]
    exact mem_insertNodes.mpr (.inr (grows.nodes_eq ▸ member))
  · intro line member
    have ids : rows.map Prod.fst = (linesOf staged.nodeIds staged.existing nodes).map Prod.fst := by
      rw [← List.forall₂_eq_eq_eq, List.forall₂_map_left_iff, List.forall₂_map_right_iff]
      exact made.imp fun _ _ held => (Prod.mk.inj held.id).2
    have inside : line.1 ∈ rows.map Prod.fst := ids ▸ List.mem_map_of_mem member
    obtain ⟨row, held, same⟩ := List.mem_map.mp inside
    rw [← same, ← grows.nodes_eq]
    exact absent row held
  · intro α σ read decls label property setting declared
    rw [staging.holds.applyAll staging.keysApart, applyAll_bulkEdgeWrites]
    have edgesIn : (insertEdges (insertNodes named plane rows) plane batches).due read plane label
        property = (insertNodes named plane rows).due read plane label property := by
      rw [insertEdges_eq]
      exact due_congr rfl rfl
    rw [edgesIn, due_insertNodes rfl (exact.dict .label) staging.nodup absent made declared,
      grows.due sound]
    rfl

theorem exists_of_mem_updatesFor (member : id ∈ (updatesFor label property events).map Prod.fst) :
    ∃ event ∈ events, event.node = id := by
  obtain ⟨update, inside, rfl⟩ := List.mem_map.mp member
  obtain ⟨event, held, told⟩ := List.mem_filterMap.mp inside
  exact ⟨event, held, (IndexEvent.node_of_on told).symm⟩

theorem node_of_bulkEvents {event : IndexEvent α} (member : event ∈ bulkEvents read decls lines) :
    (∃ line ∈ lines, event.node = line.1) ∧ ∀ other, event ≠ .removeNode other := by
  rw [bulkEvents_eq] at member
  obtain ⟨line, inside, held⟩ := List.mem_flatMap.mp member
  exact ⟨⟨line, inside, (node_of_declEvents held).1⟩, (node_of_declEvents held).2⟩

/-- The events of a load that merges: those of the merge and then those of the nodes made. The two
are about different nodes, so it does not matter that the nodes were made first. -/
theorem Emits.landed {loaded merged : WriteTxn base} {stats : BulkStats}
    (follows : before.Follows loaded)
    (lands : before.world.Sound → Lands before.plane nodes stats before.txn.tables loaded.txn.tables)
    (merges : Emits read decls (keptIds stats.existing) ∅ loaded merged events)
    (same : last.txn.tables = merged.txn.tables) :
    Emits read decls Set.univ ∅ before last
      (events ++ bulkEvents read decls (madeLines nodes stats)) where
  touched _ _ := trivial
  removed node member := by
    rcases List.mem_append.mp member with merge | made
    · exact merges.removed node merge
    · exact absurd rfl ((node_of_bulkEvents made).2 node)
  moves sound spare label property setting declared := by
    have landed := lands sound
    have apart : ∀ id ∈ (updatesFor label property events).map Prod.fst,
        id ∉ (updatesFor label property
          (bulkEvents read decls (madeLines nodes stats))).map Prod.fst := by
      intro id merge made
      obtain ⟨event, inside, rfl⟩ := exists_of_mem_updatesFor merge
      obtain ⟨event', inside', here⟩ := exists_of_mem_updatesFor made
      obtain ⟨⟨line, member, made⟩, -⟩ := node_of_bulkEvents inside'
      have absent := landed.absent line member
      rw [← made, here] at absent
      have present := landed.kept _ (merges.touched event inside)
      exact nomatch absent.symm.trans (getElem?_eq_some_getElem present)
    calc replay (before.txn.tables.due read before.plane label property)
          (updatesFor label property (events ++ bulkEvents read decls (madeLines nodes stats)))
        = replay (replay (before.txn.tables.due read before.plane label property)
            (updatesFor label property (bulkEvents read decls (madeLines nodes stats))))
            (updatesFor label property events) := by
          rw [updatesFor_append, replay_append, replay_comm apart]
      _ = replay (loaded.txn.tables.due read loaded.plane label property)
            (updatesFor label property events) := by rw [← landed.due declared, follows.plane]
      _ = merged.txn.tables.due read loaded.plane label property :=
          merges.moves (sound.changes (follows.changes sound)) (same ▸ spare) label property setting
            declared
      _ = last.txn.tables.due read before.plane label property := by rw [same, follows.plane]

theorem bulkUpsert_tracks {edges : List BulkEdge} {onConflict : OnConflict} :
    Tracks Set.univ ∅ (bulkUpsert nodes edges onConflict : WriteM base _) := by
  intro before
  refine bulkUpsert_keeps.also ?_
  refine ((onTxn_does bulkLoadIds_runs).mono (fun _ _ loaded => loaded) ?_).bind ?_
  · rintro _ ⟨txn, rfl, grows⟩ follows
    exact .still follows rfl grows.nodes_eq
  rintro ⟨stats, edgeIds⟩ _ ⟨txn, rfl, loads⟩
  refine Does.modify.bind ?_
  rintro _ _ rfl
  have loaded : before.Follows { before with
      txn := txn
      madeNodes := before.madeNodes ++ stats.created
      madeEdges := before.madeEdges ++ edgeIds } :=
    ⟨rfl, fun sound => loads.changes sound, fun started => loads.numbered started⟩
  have lands : before.world.Sound →
      Lands before.plane nodes stats before.txn.tables txn.tables := fun sound => loads.lands sound
  -- What a merge that has gone through, or none at all, leaves to be done.
  have rest : ∀ merged : WriteTxn base, WriteTxn.Moves (keptIds stats.existing) ∅ { before with
      txn := txn
      madeNodes := before.madeNodes ++ stats.created
      madeEdges := before.madeEdges ++ edgeIds } merged →
      ∀ counters, before.Follows merged → before.Moves Set.univ ∅ { merged with
        counters := counters
        events := merged.events ++
          bulkEvents PropValue.asVector merged.decls (madeLines nodes stats)
        kwEvents := merged.kwEvents ++
          bulkEvents PropValue.asText merged.kwDecls (madeLines nodes stats) } := by
    intro merged merges counters follows
    obtain ⟨events, same, vectors⟩ := merges.vectors
    obtain ⟨kwEvents, same', keywords⟩ := merges.keywords
    refine ⟨⟨follows.plane, follows.changes, follows.numbered⟩, merges.decls, merges.kwDecls, ?_, ?_⟩
    · refine ⟨events ++ bulkEvents PropValue.asVector before.decls (madeLines nodes stats), ?_,
        vectors.landed loaded lands rfl⟩
      simp only [same, merges.decls, List.append_assoc]
    · refine ⟨kwEvents ++ bulkEvents PropValue.asText before.kwDecls (madeLines nodes stats), ?_,
        keywords.landed loaded lands rfl⟩
      simp only [same', merges.kwDecls, List.append_assoc]
  split
  · refine ((mergeKept_settles _).mono (fun _ _ held => held.1) ?_).bind ?_
    · rintro merged ⟨merges, failed⟩ follows
      -- The nodes to merge into are there, so only the label dictionary can have failed.
      have full : before.world.Sound → ¬ merged.txn.tables.Room := fun sound =>
        failed (sound.changes (loaded.changes sound)) fun id member =>
          (lands sound).stays id ((lands sound).kept id member)
      obtain ⟨events, same, vectors⟩ := merges.vectors
      obtain ⟨kwEvents, same', keywords⟩ := merges.keywords
      refine ⟨follows, merges.decls, merges.kwDecls, ⟨events, same, fun _ _ => trivial,
        vectors.removed, fun sound room => absurd room (full sound)⟩, ⟨kwEvents, same',
        fun _ _ => trivial, keywords.removed, fun sound room => absurd room (full sound)⟩⟩
    · intro _ merged merges
      refine Does.modify.bind ?_
      rintro _ _ rfl
      exact fun _ => rest merged merges _ (loaded.trans merges.follows)
  · refine Does.modify.bind ?_
    rintro _ _ rfl
    exact fun _ => rest _ .refl _ loaded

/-! ### Every method -/

/-- The node a method deletes. -/
def WriteOp.removes : WriteOp → Set NodeId
  | .deleteNode id => {id}
  | _ => ∅

theorem WriteOp.tracks (op : WriteOp) : Tracks Set.univ op.removes (op.call : WriteM base _) := by
  cases op with
  | createNode | createNodeWithKey => exact createNodeAs_tracks.discard
  | createEdge => exact createEdge_tracks.discard
  | bulkUpsert => exact bulkUpsert_tracks.discard
  | deleteNode => exact deleteNodeTxn_tracks.mono (Set.subset_univ _) subset_rfl
  | deleteEdge => exact deleteEdgeTxn_tracks
  | setProp => exact setProp_settles.tracks.mono (Set.subset_univ _) subset_rfl
  | removeProp => exact removeProp_settles.tracks.mono (Set.subset_univ _) subset_rfl
  | setLabels => exact setLabels_settles.tracks.mono (Set.subset_univ _) subset_rfl
  | setEdgeProp | removeEdgeProp => exact updateEdgeProps_tracks
  | setEdgeType => exact setEdgeTypeTxn_tracks

theorem WriteOp.moves (op : WriteOp) : before.Moves Set.univ op.removes (op.after before) :=
  WriteOp.after_does (op.tracks before)

/-- The nodes a list of methods deletes. -/
def removedBy (ops : List WriteOp) : Set NodeId := {id | .deleteNode id ∈ ops}

/-- The events a transaction has buffered account for what it has changed. -/
theorem WriteTxn.afterAll_moves {ops : List WriteOp} :
    before.Moves Set.univ (removedBy ops) (before.afterAll ops) := by
  induction ops generalizing before with
  | nil => exact .refl
  | cons op ops ih =>
    refine (op.moves.mono subset_rfl ?_).trans (ih.mono subset_rfl ?_)
    · intro id removed
      cases op with
      | deleteNode other =>
        obtain rfl := removed
        exact List.mem_cons_self
      | _ => exact removed.elim
    · exact fun id later => List.mem_cons_of_mem op later

end DrStrange.Graph
