/-
**A registry in step with the store.**

A commit lands in the store first and its events reach a registry afterwards, so between the two a
registry trails. It is in step if every entry would hold what is due once the events still pending
are replayed over it in the order of their commits (`InStep`). A commit keeps it so by the events it
owes (`InStep.commit`); events that reach the registry out of turn keep it so if no earlier commit
still pending tells an index of the same node (`InStep.applied`); an index installed late keeps it so
if what was due when it was built is still due (`InStep.install`). With nothing pending and every
declared index installed, the registry is what a rebuild would make of the store (`InStep.fresh`).
-/

import DrStrange.Api.Rebuild
import DrStrange.Api.Tracks

namespace DrStrange.Graph

open Std Lib ExtTreeMap

variable {base tables after : Tables} {plane : PlaneId} {label property : String}
  {nodes edges : Set ℕ} {α σ ε γ : Type} {id node : NodeId} {setting : σ} {kind : IndexKind α σ ε}
  {contents : kind.Contents γ} {registry : Registry ε} {key : IndexKey}
  {second first updates : List (NodeId × Option α)} {events : List (IndexEvent α)} {entry : ε}

/-! ### Events at one index of a registry -/

/-- What an event of a plane does to the index under a key: an event for a property is about one
index, and a deleted node leaves every index, on whatever plane. -/
def IndexEvent.at (plane : PlaneId) (key : IndexKey) : IndexEvent α → Option (NodeId × Option α)
  | .upsert label property node value =>
    if (plane, label, property) = key then some (node, some value) else none
  | .remove label property node => if (plane, label, property) = key then some (node, none) else none
  | .removeNode node => some (node, none)

/-- What the events of a plane do to the index under a key. -/
def updatesAt (plane : PlaneId) (key : IndexKey) (events : List (IndexEvent α)) :
    List (NodeId × Option α) :=
  events.filterMap (·.at plane key)

/-- On the plane itself they do what they do to the label and property. -/
theorem updatesAt_own :
    updatesAt plane (plane, label, property) events = updatesFor label property events := by
  refine List.filterMap_congr fun event _ => ?_
  cases event <;> simp [IndexEvent.at, IndexEvent.on]

/-- On another plane they take nodes out. -/
theorem mem_updatesAt_off {update : NodeId × Option α} (off : key.1 ≠ plane)
    (member : update ∈ updatesAt plane key events) :
    update.2 = none ∧ .removeNode update.1 ∈ events := by
  obtain ⟨event, inside, told⟩ := List.mem_filterMap.mp member
  cases event with
  | upsert | remove =>
    simp only [IndexEvent.at] at told
    split at told
    · rename_i same
      exact absurd (congrArg Prod.fst same).symm off
    · cases told
  | removeNode node =>
    cases told
    exact ⟨rfl, inside⟩

/-- The updates of an index as its entry takes them. -/
def IndexKind.Contents.told (contents : kind.Contents γ) (setting : σ)
    (updates : List (NodeId × Option α)) : List (NodeId × Option γ) :=
  updates.map fun update => (update.1, update.2.bind (contents.image setting))

theorem IndexKind.Contents.told_append :
    contents.told setting (first ++ second) =
      contents.told setting first ++ contents.told setting second :=
  List.map_append

theorem IndexKind.Contents.told_fst :
    (contents.told setting updates).map Prod.fst = updates.map Prod.fst := by
  rw [told, List.map_map]
  rfl

/-- What is seen of an entry once it is given updates. -/
def IndexKind.Contents.moved (contents : kind.Contents γ) (seen : σ × (NodeId → Option γ))
    (updates : List (NodeId × Option α)) : σ × (NodeId → Option γ) :=
  (seen.1, replay seen.2 (contents.told seen.1 updates))

/-- An entry changed at one node is the entry given one update. -/
theorem IndexKind.Contents.view_told {changed : ε} {value : Option α}
    (setting : kind.setting changed = kind.setting entry)
    (holds : ∀ other, contents.holds changed other =
      if node = other then value.bind (contents.image (kind.setting entry))
      else contents.holds entry other) :
    contents.view changed = contents.moved (contents.view entry) [(node, value)] := by
  refine Prod.ext setting (funext fun other => ?_)
  simp only [view, moved, told, List.map_cons, List.map_nil, replay_cons, replay_nil, holds]
  by_cases same : node = other
  · rw [if_pos same, same, Function.update_self]
  · rw [if_neg same, Function.update_of_ne (Ne.symm same)]

theorem IndexKind.Contents.view_upsert {value : α} :
    contents.view ∘ (kind.upsert · node value) =
      (contents.moved · [(node, some value)]) ∘ contents.view :=
  funext fun entry => view_told (contents.setting_upsert entry node value)
    (contents.holds_upsert entry node value)

theorem IndexKind.Contents.view_remove :
    contents.view ∘ (kind.remove · node) =
      (contents.moved · ([(node, none)] : List (NodeId × Option α))) ∘ contents.view :=
  funext fun entry => view_told (contents.setting_remove entry node)
    (contents.holds_remove entry node)

theorem view_applyEvent (contents : kind.Contents γ) {event : IndexEvent α} :
    ((applyEvent kind plane registry event)[key]?).map contents.view =
      ((registry[key]?).map contents.view).map (contents.moved · (event.at plane key).toList) := by
  have stays : ∀ seen : Option (σ × (NodeId → Option γ)),
      seen.map (contents.moved · (none : Option (NodeId × Option α)).toList) = seen :=
    fun seen => by cases seen <;> rfl
  cases event with
  | upsert label property node value =>
    simp only [applyEvent, getElem?_modify, Std.compare_eq_iff_eq, IndexEvent.at]
    split
    · rename_i same
      subst same
      rw [Option.map_map, Option.map_map, Option.toList_some, contents.view_upsert]
    · rw [stays]
  | remove label property node =>
    simp only [applyEvent, getElem?_modify, Std.compare_eq_iff_eq, IndexEvent.at]
    split
    · rename_i same
      subst same
      rw [Option.map_map, Option.map_map, Option.toList_some, contents.view_remove]
    · rw [stays]
  | removeNode node =>
    simp only [applyEvent, getElem?_map, IndexEvent.at]
    rw [Option.map_map, Option.map_map, Option.toList_some, contents.view_remove]

theorem IndexKind.Contents.moved_append {seen : σ × (NodeId → Option γ)} :
    contents.moved seen (first ++ second) = contents.moved (contents.moved seen first) second :=
  Prod.ext rfl (by simp only [moved, told_append, replay_append])

/-- What is seen of an index once events are applied. -/
theorem view_applyEvents (contents : kind.Contents γ) {events : List (IndexEvent α)} :
    ((applyEvents kind plane registry events)[key]?).map contents.view =
      ((registry[key]?).map contents.view).map (contents.moved · (updatesAt plane key events)) := by
  induction events generalizing registry with
  | nil =>
    change (registry[key]?).map _ = _
    cases registry[key]? <;> rfl
  | cons event events ih =>
    have split : updatesAt plane key (event :: events) =
        (event.at plane key).toList ++ updatesAt plane key events := by
      rw [updatesAt, List.filterMap_cons]
      cases event.at plane key <;> rfl
    rw [applyEvents, List.foldl_cons, ← applyEvents, ih, view_applyEvent, Option.map_map, split]
    simp only [Function.comp_def, contents.moved_append]

/-! ### The invariant -/

/-- Events of a committed transaction that have not reached the registry, with their plane. -/
abbrev Batch (α : Type) := PlaneId × List (IndexEvent α)

/-- What the batches still to come do to an index, in the order of their commits. -/
def pendingAt (key : IndexKey) (pending : List (Batch α)) : List (NodeId × Option α) :=
  pending.flatMap fun batch => updatesAt batch.1 key batch.2

/-- Every entry is declared in the store, with its setting, and holds what is due once the batches
still to come are replayed over it. -/
def InStep (contents : kind.Contents γ) (tables : Tables) (registry : Registry ε)
    (pending : List (Batch α)) : Prop :=
  ∀ (plane : PlaneId) (label property : String) (entry : ε),
    registry[(plane, label, property)]? = some entry →
      declaredSetting (kind.rows tables) plane label property = some (kind.setting entry) ∧
        contents.moved (contents.view entry) (pendingAt (plane, label, property) pending) =
          contents.due tables plane label property (kind.setting entry)

/-- Every declared index is installed. -/
def Complete (kind : IndexKind α σ ε) (tables : Tables) (registry : Registry ε) : Prop :=
  ∀ (plane : PlaneId) (label property : String),
    (declaredSetting (kind.rows tables) plane label property).isSome →
      (plane, label, property) ∈ registry

/-- A registry holds what a rebuild from the store computes. -/
def Fresh (contents : kind.Contents γ) (tables : Tables) (registry : Registry ε) : Prop :=
  ∃ rebuilt, rebuildFrom kind tables = .ok rebuilt ∧ ∀ key : IndexKey,
    (registry[key]?).map contents.view = (rebuilt[key]?).map contents.view

/-- With nothing to come and every declared index installed, a registry is what a rebuild makes. -/
theorem InStep.fresh (inStep : InStep contents tables registry []) (sound : Sound nodes edges tables)
    (parsed : Parsed (kind.rows tables)) (complete : Complete kind tables registry) :
    Fresh contents tables registry := by
  obtain ⟨rebuilt, made, seen⟩ := rebuildFrom_sound contents sound parsed
  refine ⟨rebuilt, made, ?_⟩
  rintro ⟨plane, label, property⟩
  rw [seen]
  cases installed : registry[(plane, label, property)]? with
  | some entry =>
    obtain ⟨declared, held⟩ := inStep plane label property entry installed
    rw [declared, Option.map_some, Option.map_some, ← held]
    rfl
  | none =>
    cases declared : declaredSetting (kind.rows tables) plane label property with
    | none => rfl
    | some setting =>
      have member := complete plane label property (by rw [declared]; rfl)
      cases installed.symm.trans (getElem?_eq_some_getElem member)

/-- A rebuilt registry is in step. -/
theorem InStep.rebuilt {rebuilt : Registry ε} (sound : Sound nodes edges tables)
    (parsed : Parsed (kind.rows tables)) (made : rebuildFrom kind tables = .ok rebuilt) :
    InStep contents tables rebuilt [] ∧ Complete kind tables rebuilt := by
  obtain ⟨registry, same, seen⟩ := rebuildFrom_sound contents sound parsed
  obtain rfl := Except.ok.inj (same.symm.trans made)
  refine ⟨fun plane label property entry installed => ?_, fun plane label property declared => ?_⟩
  · have view := seen plane label property
    rw [installed, Option.map_some] at view
    obtain ⟨setting, declared, held⟩ := Option.map_eq_some_iff.mp view.symm
    have setting' : setting = kind.setting entry := congrArg Prod.fst held
    subst setting'
    exact ⟨declared, held.symm⟩
  · obtain ⟨setting, found⟩ := Option.isSome_iff_exists.mp declared
    have view := seen plane label property
    rw [found, Option.map_some] at view
    obtain ⟨entry, installed, -⟩ := Option.map_eq_some_iff.mp view
    exact mem_of_getElem? installed

/-! ### Commits -/

theorem pendingAt_append {first second : List (Batch α)} :
    pendingAt key (first ++ second) = pendingAt key first ++ pendingAt key second :=
  List.flatMap_append

/-- Updates that take what was due to what is due take an entry with them. -/
theorem IndexKind.Contents.moved_due
    (moved : replay (tables.due kind.read plane label property) updates =
      after.due kind.read plane label property) :
    contents.moved (contents.due tables plane label property setting) updates =
      contents.due after plane label property setting := by
  refine Prod.ext rfl ?_
  have image := @replay_map _ _ _ (tables.due kind.read plane label property) updates _
    fun value : Option α => value.bind (contents.image setting)
  rw [moved] at image
  exact image

theorem Tables.SameGraph.due {read : PropValue → Option α} (same : tables.SameGraph after) :
    after.due read plane label property = tables.due read plane label property :=
  due_congr (by rw [same]) (by rw [same])

/-- What is due on another plane is what was due. -/
theorem World.Sound.due_off {world next : World} {read : PropValue → Option α} {other : PlaneId}
    (sound : world.Sound) (changes : Changes plane world next) (off : other ≠ plane) :
    next.tables.due read other label property = world.tables.due read other label property :=
  sound.tables.due_kept (fun _ => changes.nodes_off off) fun _ _ known => sound.named changes known

/-- A commit adds its events to those still to come. It has read the declaration of every index of
its plane, and deletes no node of another plane. -/
theorem InStep.commit {before write : WriteTxn base} {pending : List (Batch α)}
    {decls : List (String × String × σ)} {touched removed : Set NodeId}
    (inStep : InStep contents before.txn.tables registry pending) (sound : before.world.Sound)
    (follows : before.Follows write) (room : write.txn.tables.Room)
    (emits : Emits kind.read decls touched removed before write events)
    (same : write.txn.tables.SameGraph after) (rows : kind.rows after = kind.rows before.txn.tables)
    (told : ∀ (label property : String), (before.plane, label, property) ∈ registry →
      ∃ setting, (label, property, setting) ∈ decls)
    (apart : ∀ id ∈ removed, ∀ other ≠ before.plane, (other, id) ∉ before.txn.tables.nodes) :
    InStep contents after registry (pending ++ [(before.plane, events)]) := by
  intro plane label property entry installed
  obtain ⟨declared, held⟩ := inStep plane label property entry installed
  refine ⟨rows ▸ declared, ?_⟩
  rw [pendingAt_append, contents.moved_append, held]
  refine contents.moved_due ?_
  rw [same.due, pendingAt, List.flatMap_singleton]
  by_cases own : plane = before.plane
  · subst own
    obtain ⟨setting, read⟩ := told label property (mem_of_getElem? installed)
    rw [updatesAt_own]
    exact emits.moves sound room label property setting read
  · have off := @World.Sound.due_off before.plane label property _ _ _ kind.read plane sound
      (follows.changes sound) own
    refine (replay_of_held fun update member => ?_).trans off.symm
    obtain ⟨gone, named⟩ := mem_updatesAt_off own member
    have absent := apart update.1 (emits.removed update.1 named) plane own
    rw [gone, due_absent (getElem?_eq_none absent)]

/-! ### Events that reach the registry -/

/-- Two batches that tell no installed index of the same node. -/
def Apart (registry : Registry ε) (one two : Batch α) : Prop :=
  ∀ key ∈ registry, ∀ id ∈ (updatesAt one.1 key one.2).map Prod.fst,
    id ∉ (updatesAt two.1 key two.2).map Prod.fst

theorem IndexKind.Contents.moved_comm {seen : σ × (NodeId → Option γ)}
    (apart : ∀ id ∈ first.map Prod.fst, id ∉ second.map Prod.fst) :
    contents.moved (contents.moved seen first) second =
      contents.moved (contents.moved seen second) first := by
  refine Prod.ext rfl (replay_comm fun id member => ?_)
  rw [told_fst] at member
  rw [told_fst]
  exact apart id member

/-- An index after the events is the index before them, given its updates. -/
theorem exists_of_applyEvents {events : List (IndexEvent α)} {entry : ε}
    (installed : (applyEvents kind plane registry events)[key]? = some entry) :
    ∃ old, registry[key]? = some old ∧
      contents.view entry = contents.moved (contents.view old) (updatesAt plane key events) := by
  have view := @view_applyEvents plane _ _ _ _ kind registry key contents events
  rw [installed, Option.map_map] at view
  obtain ⟨old, found, same⟩ := Option.map_eq_some_iff.mp view.symm
  exact ⟨old, found, same.symm⟩

/-- The events of a commit reach the registry, if those before it still to come tell no index of a
node that they tell it of. -/
theorem InStep.applied {earlier later : List (Batch α)} {batch : Batch α}
    (inStep : InStep contents tables registry (earlier ++ batch :: later))
    (apart : ∀ other ∈ earlier, Apart registry other batch) :
    InStep contents tables (applyEvents kind batch.1 registry batch.2) (earlier ++ later) := by
  intro plane label property entry installed
  obtain ⟨old, found, view⟩ := @exists_of_applyEvents _ _ _ _ _ kind contents _ _ _ entry installed
  obtain ⟨declared, held⟩ := inStep plane label property old found
  have setting : kind.setting entry = kind.setting old := congrArg Prod.fst view
  refine ⟨setting ▸ declared, ?_⟩
  have turn : ∀ id ∈ (updatesAt batch.1 (plane, label, property) batch.2).map Prod.fst,
      id ∉ (pendingAt (plane, label, property) earlier).map Prod.fst := by
    intro id told member
    obtain ⟨update, inside, rfl⟩ := List.mem_map.mp member
    obtain ⟨other, before, held⟩ := List.mem_flatMap.mp inside
    exact apart other before _ (mem_of_getElem? found) update.1 (List.mem_map_of_mem held) told
  have whole : pendingAt (plane, label, property) (earlier ++ batch :: later) =
      pendingAt (plane, label, property) earlier ++
        (updatesAt batch.1 (plane, label, property) batch.2 ++
          pendingAt (plane, label, property) later) := by
    rw [pendingAt_append]
    rfl
  rw [view, setting, ← held, whole, pendingAt_append]
  simp only [contents.moved_append]
  rw [contents.moved_comm turn]

/-! ### Installing an index -/

/-- An index built from a snapshot is installed, over an older one or as a new one: what is due for
it is what was due in the snapshot, and if it is new the events still to come tell it nothing else. -/
theorem InStep.install {built : Tables} {pending : List (Batch α)}
    (inStep : InStep contents tables registry pending)
    (declared : declaredSetting (kind.rows tables) plane label property = some setting)
    (holds : contents.view entry = contents.due built plane label property setting)
    (same : built.due kind.read plane label property = tables.due kind.read plane label property)
    (told : (plane, label, property) ∈ registry ∨
      ∀ update ∈ pendingAt (plane, label, property) pending,
        update.2 = tables.due kind.read plane label property update.1) :
    InStep contents tables (registry.insert (plane, label, property) entry) pending := by
  intro p l q other installed
  rw [getElem?_insert] at installed
  simp only [Std.compare_eq_iff_eq] at installed
  split at installed
  · rename_i here
    cases here
    cases installed
    have now : contents.view entry = contents.due tables plane label property setting := by
      rw [holds, IndexKind.Contents.due, same]
      rfl
    have setting' : kind.setting entry = setting := congrArg Prod.fst now
    rw [setting']
    refine ⟨declared, ?_⟩
    rcases told with older | told
    · obtain ⟨declared', held⟩ := inStep plane label property _ (getElem?_eq_some_getElem older)
      rw [← Option.some.inj (declared.symm.trans declared')] at held
      rw [now, ← held]
      exact Prod.ext rfl replay_replay
    · rw [now]
      exact contents.moved_due (replay_of_held told)
  · exact inStep p l q other installed

end DrStrange.Graph
