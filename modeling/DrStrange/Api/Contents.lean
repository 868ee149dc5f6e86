/-
**What an index should hold, and the events that keep it so.**

An index over a label and a property should hold, for every node of its plane that carries the
label, what it reads off the property (`Tables.due`). An event changes one index at one node, and a
deleted node leaves every index. A transaction moves on (`WriteTxn.Moves`) when the events it buffers
take what was due before to what is due after, for each index declared when the transaction began.
-/

import DrStrange.Api.Follows
import DrStrange.Graph.Labels
import DrStrange.Lib.Replay

namespace DrStrange.Graph

open Std Lib ExtTreeMap

variable {base tables after : Tables} {plane : PlaneId} {label property : String} {α σ : Type}
  {read : PropValue → Option α} {decls : List (String × String × σ)} {update : NodeId × Option α}
  {event : IndexEvent α} {labels : List String} {props : Properties}

/-! ### What is due -/

/-- What an index over `label` and `property` should hold for each node. -/
def Tables.due (tables : Tables) (read : PropValue → Option α) (plane : PlaneId)
    (label property : String) (id : NodeId) : Option α :=
  (tables.nodes[(plane, id)]?).bind fun row =>
    if label ∈ tables.labelsOf row then indexed read row.props property else none

theorem due_absent {id : NodeId} (absent : tables.nodes[(plane, id)]? = none) :
    tables.due read plane label property id = none := by
  rw [Tables.due, absent]
  rfl

theorem due_found {id : NodeId} {row : NodeRow} (found : tables.nodes[(plane, id)]? = some row) :
    tables.due read plane label property id =
      if label ∈ tables.labelsOf row then indexed read row.props property else none := by
  rw [Tables.due, found]
  rfl

/-- Names added and other rows written change nothing that is due. -/
theorem Sound.due_kept {nodes edges : Set ℕ} (sound : Sound nodes edges tables)
    (same : ∀ id : NodeId, after.nodes[(plane, id)]? = tables.nodes[(plane, id)]?)
    (kept : ∀ (number : ℕ) (name : String), (tables.dictNames .label)[number]? = some name →
      (after.dictNames .label)[number]? = some name) :
    after.due read plane label property = tables.due read plane label property := by
  funext id
  rw [Tables.due, Tables.due, same id]
  cases found : tables.nodes[(plane, id)]? with
  | none => rfl
  | some row => simp only [Option.bind_some, labelsOf_named (sound.labels _ row found) kept]

/-- One node row written, with the names as they are. -/
theorem due_write {id : NodeId} {row : Option NodeRow}
    (written : after.nodes = tables.nodes.write (plane, id) row)
    (names : after.dictNames = tables.dictNames) :
    after.due read plane label property =
      Function.update (tables.due read plane label property) id
        (row.bind fun row =>
          if label ∈ tables.labelsOf row then indexed read row.props property else none) := by
  have labels : ∀ row, after.labelsOf row = tables.labelsOf row := by
    intro row
    rw [Tables.labelsOf, Tables.labelsOf, names]
  funext other
  by_cases same : other = id
  · subst same
    rw [Function.update_self, Tables.due, written, getElem?_write, if_pos rfl]
    simp only [labels]
  · rw [Function.update_of_ne same, Tables.due, Tables.due, written, getElem?_write,
      if_neg fun here => same (Prod.mk.inj here).2.symm]
    simp only [labels]

theorem Grows.due {world : World} (grows : Grows world.tables after) (sound : world.Sound) :
    after.due read plane label property = world.tables.due read plane label property :=
  sound.tables.due_kept (fun _ => by rw [grows.nodes_eq]) fun _ _ known =>
    sound.named (grows.changes : Changes 0 world _) known

/-! ### Events -/

/-- The node an event is about. -/
def IndexEvent.node : IndexEvent α → NodeId
  | .upsert _ _ node _ => node
  | .remove _ _ node => node
  | .removeNode node => node

/-- What an event does to the index over `label` and `property`. -/
def IndexEvent.on (label property : String) : IndexEvent α → Option (NodeId × Option α)
  | .upsert label' property' node value =>
    if label' = label ∧ property' = property then some (node, some value) else none
  | .remove label' property' node =>
    if label' = label ∧ property' = property then some (node, none) else none
  | .removeNode node => some (node, none)

/-- What events do to the index over `label` and `property`. -/
def updatesFor (label property : String) (events : List (IndexEvent α)) :
    List (NodeId × Option α) :=
  events.filterMap (·.on label property)

theorem updatesFor_append {first second : List (IndexEvent α)} :
    updatesFor label property (first ++ second) =
      updatesFor label property first ++ updatesFor label property second :=
  List.filterMap_append

theorem IndexEvent.node_of_on (told : event.on label property = some update) :
    update.1 = event.node := by
  cases event with
  | upsert | remove =>
    simp only [IndexEvent.on] at told
    split at told
    · rw [← Option.some.inj told]
      rfl
    · cases told
  | removeNode =>
    rw [← Option.some.inj told]
    rfl

/-- One event for each index that `verdict` gives a value, or takes the value of. -/
def declEvents (decls : List (String × String × σ)) (node : NodeId)
    (verdict : String → String → Option (Option α)) : List (IndexEvent α) :=
  decls.filterMap fun (label, property, _) => (verdict label property).map fun
    | some value => .upsert label property node value
    | none => .remove label property node

theorem nodeEvents_eq {node : NodeId} :
    nodeEvents read decls node labels props = declEvents decls node fun label property =>
      if label ∈ labels then some (indexed read props property) else none := by
  refine List.filterMap_congr fun decl _ => ?_
  obtain ⟨label, property, _⟩ := decl
  dsimp only
  split
  · cases indexed read props property <;> rfl
  · rfl

theorem labelsEvents_eq {node : NodeId} {old new : List String} :
    labelsEvents read decls node old new props = declEvents decls node fun label property =>
      if decide (label ∈ old) = decide (label ∈ new) then none
      else (indexed read props property).map fun value =>
        if label ∈ new then some value else none := by
  refine List.filterMap_congr fun decl _ => ?_
  obtain ⟨label, property, _⟩ := decl
  dsimp only
  split
  · rfl
  · cases indexed read props property with
    | none => rfl
    | some value => by_cases gained : label ∈ new <;> simp [gained]

theorem propEvents_eq {node : NodeId} {key : String} {value : Option PropValue} :
    propEvents read decls node key value labels = declEvents decls node fun label property =>
      if property = key ∧ label ∈ labels then some (value.bind read) else none := by
  refine List.filterMap_congr fun decl _ => ?_
  obtain ⟨label, property, _⟩ := decl
  dsimp only
  split
  · cases value.bind read <;> rfl
  · rfl

theorem bulkEvents_eq {lines : List (NodeId × BulkNode)} :
    bulkEvents read decls lines = lines.flatMap fun line =>
      declEvents decls line.1 fun label property =>
        if label ∈ line.2.labels then (indexed read line.2.props property).map some else none := by
  refine List.flatMap_congr fun line _ => List.filterMap_congr fun decl _ => ?_
  obtain ⟨label, property, _⟩ := decl
  dsimp only
  split
  · cases indexed read line.2.props property <;> rfl
  · rfl

variable {node : NodeId} {verdict : String → String → Option (Option α)} {setting : σ}

theorem node_of_declEvents (member : event ∈ declEvents decls node verdict) :
    event.node = node ∧ ∀ other, event ≠ .removeNode other := by
  obtain ⟨decl, -, told⟩ := List.mem_filterMap.mp member
  obtain ⟨value, -, rfl⟩ := Option.map_eq_some_iff.mp told
  cases value <;> exact ⟨rfl, fun _ same => nomatch same⟩

/-- What the events do to a declared index. -/
theorem mem_updatesFor_declEvents (declared : (label, property, setting) ∈ decls) :
    update ∈ updatesFor label property (declEvents decls node verdict) ↔
      ∃ value, verdict label property = some value ∧ update = (node, value) := by
  simp only [updatesFor, declEvents, List.mem_filterMap, Option.map_eq_some_iff]
  constructor
  · rintro ⟨_, ⟨⟨label', property', _⟩, -, value, told, rfl⟩, here⟩
    cases value with
    | some value =>
      simp only [IndexEvent.on] at here
      split at here
      · rename_i same
        obtain ⟨rfl, rfl⟩ := same
        exact ⟨some value, told, (Option.some.inj here).symm⟩
      · cases here
    | none =>
      simp only [IndexEvent.on] at here
      split at here
      · rename_i same
        obtain ⟨rfl, rfl⟩ := same
        exact ⟨none, told, (Option.some.inj here).symm⟩
      · cases here
  · rintro ⟨value, told, rfl⟩
    refine ⟨_, ⟨(label, property, setting), declared, value, told, rfl⟩, ?_⟩
    cases value <;> simp [IndexEvent.on]

/-- The events leave a declared index with what the verdict tells. -/
theorem replay_declEvents {values : NodeId → Option α}
    (declared : (label, property, setting) ∈ decls) :
    replay values (updatesFor label property (declEvents decls node verdict)) =
      (verdict label property).elim values (Function.update values node) := by
  funext id
  cases told : verdict label property with
  | none =>
    refine replay_of_notMem fun member => ?_
    obtain ⟨update, inside, -⟩ := List.mem_map.mp member
    obtain ⟨value, told', -⟩ := (mem_updatesFor_declEvents declared).mp inside
    exact nomatch told.symm.trans told'
  | some value =>
    have only : ∀ update ∈ updatesFor label property (declEvents decls node verdict),
        update = (node, value) := by
      intro update inside
      obtain ⟨value', told', same⟩ := (mem_updatesFor_declEvents declared).mp inside
      rw [same, Option.some.inj (told.symm.trans told')]
    by_cases here : id = node
    · subst here
      rw [Option.elim_some, Function.update_self]
      refine replay_of_forall ?_ fun update inside _ => congrArg Prod.snd (only update inside)
      exact List.mem_map.mpr ⟨(id, value),
        (mem_updatesFor_declEvents declared).mpr ⟨value, told, rfl⟩, rfl⟩
    · rw [Option.elim_some, Function.update_of_ne here]
      refine replay_of_notMem fun member => ?_
      obtain ⟨update, inside, rfl⟩ := List.mem_map.mp member
      exact here (congrArg Prod.fst (only update inside))

/-! ### Moves -/

/-- Where events take what is due: from `before` to `after`, for every declared index. -/
structure Emits (read : PropValue → Option α) (decls : List (String × String × σ))
    (touched removed : Set NodeId) (before after : WriteTxn base) (events : List (IndexEvent α)) :
    Prop where
  touched : ∀ event ∈ events, event.node ∈ touched
  removed : ∀ node, .removeNode node ∈ events → node ∈ removed
  moves : before.world.Sound → after.txn.tables.Room → ∀ label property setting,
    (label, property, setting) ∈ decls →
      replay (before.txn.tables.due read before.plane label property)
        (updatesFor label property events) = after.txn.tables.due read before.plane label property

/-- A transaction further on, whose events account for what has changed: at the nodes `touched`,
of which `removed` may have been deleted. -/
structure WriteTxn.Moves (touched removed : Set NodeId) (before after : WriteTxn base) : Prop where
  follows : before.Follows after
  decls : after.decls = before.decls
  kwDecls : after.kwDecls = before.kwDecls
  vectors : ∃ events, after.events = before.events ++ events ∧
    Emits PropValue.asVector before.decls touched removed before after events
  keywords : ∃ events, after.kwEvents = before.kwEvents ++ events ∧
    Emits PropValue.asText before.kwDecls touched removed before after events

variable {touched removed more gone : Set NodeId} {first middle last : WriteTxn base}
  {one two : List (IndexEvent α)} {run : WriteM base α}

theorem Emits.trans (follows : first.Follows middle) (follows' : middle.Follows last)
    (here : Emits read decls touched removed first middle one)
    (there : Emits read decls touched removed middle last two) :
    Emits read decls touched removed first last (one ++ two) where
  touched event member :=
    (List.mem_append.mp member).elim (here.touched event) (there.touched event)
  removed node member :=
    (List.mem_append.mp member).elim (here.removed node) (there.removed node)
  moves sound room label property setting declared := by
    have sound' := sound.changes (follows.changes sound)
    have moved := here.moves sound ((follows'.changes sound').room room) label property setting
      declared
    rw [updatesFor_append, replay_append, moved, ← follows.plane]
    exact there.moves sound' room label property setting declared

theorem Emits.mono (emits : Emits read decls touched removed first last one)
    (wider : touched ⊆ more) (wider' : removed ⊆ gone) :
    Emits read decls more gone first last one :=
  ⟨fun event member => wider (emits.touched event member),
    fun node member => wider' (emits.removed node member), emits.moves⟩

theorem WriteTxn.Moves.trans (here : first.Moves touched removed middle)
    (there : middle.Moves touched removed last) : first.Moves touched removed last where
  follows := here.follows.trans there.follows
  decls := there.decls.trans here.decls
  kwDecls := there.kwDecls.trans here.kwDecls
  vectors := by
    obtain ⟨events, same, emits⟩ := here.vectors
    obtain ⟨events', same', emits'⟩ := there.vectors
    rw [here.decls] at emits'
    exact ⟨events ++ events', by rw [same', same, List.append_assoc],
      emits.trans here.follows there.follows emits'⟩
  keywords := by
    obtain ⟨events, same, emits⟩ := here.keywords
    obtain ⟨events', same', emits'⟩ := there.keywords
    rw [here.kwDecls] at emits'
    exact ⟨events ++ events', by rw [same', same, List.append_assoc],
      emits.trans here.follows there.follows emits'⟩

theorem WriteTxn.Moves.mono (moves : first.Moves touched removed last) (wider : touched ⊆ more)
    (wider' : removed ⊆ gone) : first.Moves more gone last where
  follows := moves.follows
  decls := moves.decls
  kwDecls := moves.kwDecls
  vectors := moves.vectors.imp fun _ held => ⟨held.1, held.2.mono wider wider'⟩
  keywords := moves.keywords.imp fun _ held => ⟨held.1, held.2.mono wider wider'⟩

/-- No events where nothing that is due has changed. -/
theorem Emits.none (same : first.world.Sound → ∀ label property,
      last.txn.tables.due read first.plane label property =
        first.txn.tables.due read first.plane label property) :
    Emits read decls touched removed first last [] :=
  ⟨fun _ member => (nomatch member), fun _ member => (nomatch member),
    fun sound _ label property _ _ => (same sound label property).symm⟩

/-- A transaction further on that buffers no events, because the nodes and their names are as they
were. -/
theorem WriteTxn.Moves.still (follows : first.Follows last) (same : last = { first with
      txn := last.txn, ids := last.ids, counters := last.counters,
      madeNodes := last.madeNodes, madeEdges := last.madeEdges })
    (nodes : last.txn.tables.nodes = first.txn.tables.nodes) : first.Moves touched removed last := by
  have due : ∀ {α : Type} (read : PropValue → Option α), first.world.Sound → ∀ label property,
      last.txn.tables.due read first.plane label property =
        first.txn.tables.due read first.plane label property := by
    intro α read sound label property
    exact sound.tables.due_kept (fun _ => by rw [nodes]; rfl) fun _ _ known =>
      sound.named (follows.changes sound) known
  refine ⟨follows, ?_, ?_, ⟨[], ?_, .none (due _)⟩, ⟨[], ?_, .none (due _)⟩⟩ <;> rw [same] <;> simp

theorem WriteTxn.Moves.refl {write : WriteTxn base} : write.Moves touched removed write :=
  .still .refl rfl rfl

/-- One event for each declared index that changes at a node. -/
theorem Emits.decl (inside : node ∈ touched)
    (moved : first.world.Sound → last.txn.tables.Room → ∀ label property setting,
      (label, property, setting) ∈ decls →
        last.txn.tables.due read first.plane label property = (verdict label property).elim
          (first.txn.tables.due read first.plane label property)
          (Function.update (first.txn.tables.due read first.plane label property) node)) :
    Emits read decls touched removed first last (declEvents decls node verdict) where
  touched event member := (node_of_declEvents member).1 ▸ inside
  removed other member := absurd rfl ((node_of_declEvents member).2 other)
  moves sound room label property setting declared := by
    rw [replay_declEvents declared, moved sound room label property setting declared]

/-- A method moves on from the transaction it is called on. -/
def Tracks (touched removed : Set NodeId) (run : WriteM base α) : Prop :=
  ∀ before, Does before run (fun _ => before.Moves touched removed) (before.Moves touched removed)

/-- What holds of the outcome whenever the method goes on, holds of the outcome. -/
theorem Keeps.also {before : WriteTxn base} {after : α → WriteTxn base → Prop}
    {failed : WriteTxn base → Prop} (keeps : Keeps run)
    (does : Does before run (fun result write => before.Follows write → after result write)
      (fun write => before.Follows write → failed write)) : Does before run after failed := by
  have follows := keeps before
  rw [Does] at *
  cases ran : run before with
  | ok result write =>
    rw [ran] at follows does
    exact does follows
  | error error write =>
    rw [ran] at follows does
    exact does follows

theorem Keeps.tracks (keeps : Keeps run) (moves : ∀ before, Does before run
      (fun _ after => before.Follows after → before.Moves touched removed after)
      (fun after => before.Follows after → before.Moves touched removed after)) :
    Tracks touched removed run :=
  fun before => keeps.also (moves before)

theorem Tracks.bind {β : Type} {rest : α → WriteM base β} (one : Tracks touched removed run)
    (two : ∀ result, Tracks touched removed (rest result)) :
    Tracks touched removed (run >>= rest) :=
  fun before => (one before).bind fun result write moves =>
    (two result write).mono (fun _ _ further => moves.trans further) fun _ further =>
      moves.trans further

theorem Tracks.pure {result : α} : Tracks touched removed (pure result : WriteM base α) :=
  fun _ => WriteTxn.Moves.refl

theorem Tracks.mono (tracks : Tracks touched removed run) (wider : touched ⊆ more)
    (wider' : removed ⊆ gone) : Tracks more gone run :=
  fun before => (tracks before).mono (fun _ _ moves => moves.mono wider wider') fun _ moves =>
    moves.mono wider wider'

theorem Tracks.discard (tracks : Tracks touched removed run) :
    Tracks touched removed (discard run) :=
  tracks.bind fun _ => .pure

/-- What a method only counts is no move. -/
theorem Tracks.count {change : WriteTxn base → WriteTxn base}
    (same : ∀ write, change write = { write with counters := (change write).counters }) :
    Tracks touched removed (modify change) := by
  intro before
  have unchanged := same before
  refine WriteTxn.Moves.still (.of_changes ?_ ?_) ?_ ?_
  · rw [unchanged]
  · have world : (change before).world = before.world := by rw [unchanged]; rfl
    rw [world]
  · rw [unchanged]
  · rw [unchanged]

theorem Tracks.reading {read : Tables → PlaneId → Except Error α} :
    Tracks touched removed (reading read : WriteM base α) :=
  fun _ => reading_does.mono (fun _ _ same => same.1 ▸ .refl) fun _ same => same ▸ .refl

/-- Graph code that leaves the nodes as they were. -/
theorem Tracks.onTxn {run : PlaneId → TxnM base α}
    {after : PlaneId → Tables → α → Tables → Prop} {failed : PlaneId → Tables → Tables → Prop}
    (keeps : Keeps (onTxn run))
    (triple : ∀ plane tables, Runs tables (run plane) (after plane tables) (failed plane tables))
    (nodes : ∀ plane tables result next, after plane tables result next →
      next.nodes = tables.nodes)
    (nodes' : ∀ plane tables next, failed plane tables next → next.nodes = tables.nodes) :
    Tracks touched removed (onTxn run) := by
  refine keeps.tracks fun before => (onTxn_does (triple before.plane before.txn.tables)).mono ?_ ?_
  · rintro result _ ⟨txn, rfl, held⟩ follows
    exact .still follows rfl (nodes before.plane before.txn.tables result txn.tables held)
  · rintro _ ⟨txn, rfl, held⟩ follows
    exact .still follows rfl (nodes' before.plane before.txn.tables txn.tables held)

end DrStrange.Graph
