/-
**Indexes follow the store on one plane.**

Write transactions one after the other on one plane, mixed with declarations of indexes on it, leave
both registries as a rebuild would make them, under two conditions. A declared label holds no NUL: the
row of a declaration ends the label with one, so a label that has one is read back as another label
and property. And the label dictionary does not run over: a bulk load that merges kept nodes has
landed by then, but fails before it buffers its events.
-/

import DrStrange.Api.InStep
import DrStrange.Api.Planes

namespace DrStrange.Graph

open Std Lib ExtTreeMap

variable {millis : ℤ} {tables after : Tables} {plane p : PlaneId} {label property l : String}
  {nodes edges : Set ℕ} {α σ ε γ : Type} {setting : σ} {kind : IndexKind α σ ε}
  {contents : kind.Contents γ} {registry : Registry ε} {host : Host} {db : Database}
  {rows : Tables → ExtTreeMap IndexRowKey σ compare}

/-! ### Declarations -/

/-- No two indexes whose labels have no NUL share a row. -/
theorem indexRowKey_inj {q : String} (clean : nul ∉ label.toList) (clean' : nul ∉ l.toList) :
    indexRowKey plane label property = indexRowKey p l q ↔
      (plane, label, property) = (p, l, q) := by
  constructor
  · intro same
    rw [← parse_indexRowKey clean, same, parse_indexRowKey clean']
  · intro same
    cases same
    rfl

/-- A row written for a label without NUL is read back, and the others are as they were. -/
theorem declaredSetting_write {rows : ExtTreeMap IndexRowKey σ compare} {q : String}
    (clean : nul ∉ label.toList) :
    declaredSetting (rows.write (indexRowKey plane label property) (some setting)) p l q =
      if (plane, label, property) = (p, l, q) then some setting
      else declaredSetting rows p l q := by
  by_cases dirty : nul ∈ l.toList
  · have apart : (plane, label, property) ≠ (p, l, q) := by
      intro same
      cases same
      exact clean dirty
    rw [if_neg apart, declaredSetting, declaredSetting, if_pos dirty, if_pos dirty]
  · rw [declaredSetting, declaredSetting, if_neg dirty, if_neg dirty, getElem?_write]
    simp only [indexRowKey_inj clean dirty]

/-- What a declaration leaves in the rows of its kind. -/
theorem Declares.rows_eq {write : IndexRowKey → Option σ → Write} {key : IndexRowKey}
    (declares : Declares rows write key setting tables after)
    (writes : ∀ key value (tables : Tables),
      rows (tables.apply (write key value)) = (rows tables).write key value) :
    rows after = (rows tables).write key (some setting) := by
  rcases declares with ⟨found, rfl⟩ | ⟨-, rfl⟩
  · refine ext_getElem? fun other => ?_
    rw [getElem?_write]
    split
    · rename_i same
      rw [← same, found]
    · rfl
  · exact writes key _ tables

/-- An index that was declared stays declared. -/
theorem Declares.kept {write : IndexRowKey → Option σ → Write} {other : σ} {q : String}
    (declares : Declares rows write (indexRowKey plane label property) setting tables after)
    (writes : ∀ key value (tables : Tables),
      rows (tables.apply (write key value)) = (rows tables).write key value)
    (clean : nul ∉ label.toList) (declared : declaredSetting (rows tables) p l q = some other) :
    declaredSetting (rows after) p l q = some other := by
  rw [declares.rows_eq writes, declaredSetting_write clean]
  split
  · rename_i same
    cases same
    rw [declaredSetting, if_neg clean] at declared
    rcases declares with ⟨found, -⟩ | ⟨absent, -⟩
    · exact found.symm.trans declared
    · cases absent.symm.trans declared
  · exact declared

/-- Tables that differ in what no index reads keep a registry in step. -/
theorem InStep.sameGraph {pending : List (Batch α)}
    (inStep : InStep contents tables registry pending) (same : tables.SameGraph after)
    (kept : ∀ (plane : PlaneId) (label property : String) (setting : σ),
      declaredSetting (kind.rows tables) plane label property = some setting →
        declaredSetting (kind.rows after) plane label property = some setting) :
    InStep contents after registry pending := by
  intro plane label property entry installed
  obtain ⟨declared, held⟩ := inStep plane label property entry installed
  refine ⟨kept plane label property _ declared, held.trans ?_⟩
  rw [IndexKind.Contents.due, IndexKind.Contents.due, same.due]

/-- A registry and the store it mirrors, with nothing to come. -/
structure Mirrors (contents : kind.Contents γ) (tables : Tables) (registry : Registry ε) : Prop where
  inStep : InStep contents tables registry []
  complete : Complete kind tables registry
  parsed : Parsed (kind.rows tables)

theorem Mirrors.fresh (mirrors : Mirrors contents tables registry)
    (sound : Sound nodes edges tables) : Fresh contents tables registry :=
  mirrors.inStep.fresh sound mirrors.parsed mirrors.complete

/-- Tables that differ in what neither graph nor this kind of index reads. -/
theorem Mirrors.sameGraph (mirrors : Mirrors contents tables registry)
    (same : tables.SameGraph after) (rows : kind.rows after = kind.rows tables) :
    Mirrors contents after registry where
  inStep := mirrors.inStep.sameGraph same fun _ _ _ _ declared => rows ▸ declared
  complete _ _ _ declared := mirrors.complete _ _ _ (rows ▸ declared)
  parsed := rows ▸ mirrors.parsed

/-- An index declared and built. -/
theorem Mirrors.ensure {write : IndexRowKey → Option σ → Write} {declared : Tables}
    (mirrors : Mirrors contents tables registry) (sound : Sound nodes edges after)
    (declares : Declares kind.rows write (indexRowKey plane label property) setting tables declared)
    (writes : ∀ key value (tables : Tables),
      kind.rows (tables.apply (write key value)) = (kind.rows tables).write key value)
    (same : tables.SameGraph after) (rows : kind.rows after = kind.rows declared)
    (clean : nul ∉ label.toList) :
    Mirrors contents after (orKeep registry
      (buildEntry kind after registry plane label property setting)) := by
  obtain ⟨entry, built, holds⟩ := buildEntry_sound contents sound
  rw [built, orKeep]
  have written := declares.rows_eq writes
  refine ⟨?_, ?_, ?_⟩
  · refine (mirrors.inStep.sameGraph same ?_).install ?_ holds rfl
      (.inr fun _ member => (nomatch member))
    · intro _ _ _ _ old
      rw [rows]
      exact declares.kept writes clean old
    · rw [rows, written, declaredSetting_write clean, if_pos rfl]
  · intro p l q found
    rw [rows, written, declaredSetting_write clean] at found
    rw [mem_insert, Std.compare_eq_iff_eq]
    split at found
    · exact .inl ‹_›
    · exact .inr (mirrors.complete p l q found)
  · rw [rows, written]
    intro key member
    rw [mem_write] at member
    split at member
    · rename_i here
      rw [← here]
      exact nul_mem_indexRowKey
    · exact mirrors.parsed key member

/-! ### Write transactions -/

/-- What a transaction reads of an installed index when it begins. -/
theorem mem_declared :
    (label, property, setting) ∈ declared kind registry plane ↔
      ∃ entry, registry[(plane, label, property)]? = some entry ∧ kind.setting entry = setting := by
  simp only [declared, List.mem_map, List.mem_filter, decide_eq_true_eq]
  constructor
  · rintro ⟨⟨⟨p, l, q⟩, entry⟩, ⟨member, rfl⟩, same⟩
    cases same
    exact ⟨entry, mem_toList_iff_getElem?_eq_some.mp member, rfl⟩
  · rintro ⟨entry, installed, rfl⟩
    exact ⟨((plane, label, property), entry),
      ⟨mem_toList_iff_getElem?_eq_some.mpr installed, rfl⟩, rfl⟩

/-- A transaction commits and its events reach the registry before anything else happens. -/
theorem Mirrors.write {base : Tables} {before write : WriteTxn base} {events : List (IndexEvent α)}
    {touched removed : Set NodeId} (mirrors : Mirrors contents before.txn.tables registry)
    (sound : before.world.Sound) (follows : before.Follows write) (room : write.txn.tables.Room)
    (emits : Emits kind.read (declared kind registry before.plane) touched removed before
      write events)
    (same : write.txn.tables.SameGraph after) (rows : kind.rows after = kind.rows before.txn.tables)
    (apart : ∀ id ∈ removed, ∀ other ≠ before.plane, (other, id) ∉ before.txn.tables.nodes) :
    Mirrors contents after (applyEvents kind before.plane registry events) where
  inStep := by
    have told : ∀ label property : String, (before.plane, label, property) ∈ registry →
        ∃ setting, (label, property, setting) ∈ declared kind registry before.plane := by
      intro label property installed
      exact ⟨_, mem_declared.mpr ⟨_, getElem?_eq_some_getElem installed, rfl⟩⟩
    have committed := mirrors.inStep.commit sound follows room emits same rows told apart
    exact @InStep.applied _ _ _ _ _ kind contents registry [] [] (before.plane, events) committed
      fun _ member => nomatch member
  complete p l q found := by
    have installed := mirrors.complete p l q (rows ▸ found)
    have view := @view_applyEvents before.plane _ _ _ _ kind registry (p, l, q) contents events
    rw [getElem?_eq_some_getElem installed, Option.map_some, Option.map_some] at view
    obtain ⟨entry, held, -⟩ := Option.map_eq_some_iff.mp view
    exact mem_of_getElem? held
  parsed := rows ▸ mirrors.parsed

/-! ### Runs on one plane -/

/-- A write on a plane, or an index declared on it. -/
def Command.On (plane : PlaneId) : Command → Prop
  | .write other _ _ => other = plane
  | .ensureVectorIndex other _ _ _ => other = plane
  | .ensureKeywordIndex other _ _ _ => other = plane
  | _ => False

/-- A declared label has no NUL, and a transaction that commits has not run over the label
dictionary. -/
def Command.Clean (host : Host) (db : Database) : Command → Prop
  | .write plane ops true => (db.writeTxn host plane ops).txn.tables.Room
  | .ensureVectorIndex _ label _ _ => nul ∉ label.toList
  | .ensureKeywordIndex _ label _ _ => nul ∉ label.toList
  | _ => True

/-- Every call of a run is clean when it is made. -/
def Database.Clean (host : Host) (db : Database) : List (ℤ × Command) → Prop
  | [] => True
  | step :: steps => step.2.Clean host db ∧ (db.after host step.1 step.2).Clean host steps

/-- Both registries hold what a rebuild from the store computes. -/
def Database.Fresh (host : Host) (db : Database) : Prop :=
  Graph.Fresh (vectorContents host) db.tables db.vectors ∧
    Graph.Fresh (keywordContents host) db.tables db.keywords

/-- A sound store with nodes on one plane only, and both registries that mirror it. -/
structure Database.Follows (host : Host) (plane : PlaneId) (db : Database) : Prop where
  sound : db.Sound
  own : ∀ key ∈ db.tables.nodes, key.1 = plane
  vectors : Mirrors (vectorContents host) db.tables db.vectors
  keywords : Mirrors (keywordContents host) db.tables db.keywords

theorem Database.Follows.fresh (follows : db.Follows host plane) : db.Fresh host :=
  ⟨follows.vectors.fresh follows.sound.world.tables,
    follows.keywords.fresh follows.sound.world.tables⟩

/-- A commit declares nothing. -/
theorem WriteTxn.sealed_indexes {base : Tables} (write : WriteTxn base) (millis : ℤ) :
    (write.sealed millis).vectorIndexes = write.txn.tables.vectorIndexes ∧
      (write.sealed millis).keywordIndexes = write.txn.tables.keywordIndexes := by
  rw [WriteTxn.sealed, WriteTxn.folded]
  split <;> exact ⟨rfl, rfl⟩

theorem Tables.SameMeta.indexes (same : tables.SameMeta after) :
    after.vectorIndexes = tables.vectorIndexes ∧ after.keywordIndexes = tables.keywordIndexes := by
  rw [same]
  exact ⟨rfl, rfl⟩

theorem Database.Follows.write {ops : List WriteOp} (follows : db.Follows host plane)
    (room : (db.writeTxn host plane ops).txn.tables.Room) :
    (db.after host millis (.write plane ops true)).Follows host plane := by
  have sound := follows.sound
  have changes := sound.writeTxn_changes host plane ops
  have moves : (db.beginTxn host plane).Moves Set.univ (removedBy ops) (db.writeTxn host plane ops) :=
    WriteTxn.afterAll_moves
  have start : (db.beginTxn host plane).world.Sound := db.beginTxn_world ▸ sound.world
  have sealed := (db.writeTxn host plane ops).sealed_sameGraph millis
  obtain ⟨vectorRows, keywordRows⟩ := (db.writeTxn host plane ops).sealed_indexes millis
  obtain ⟨vectorRows', keywordRows'⟩ := changes.sameMeta.indexes
  have apart : ∀ id ∈ removedBy ops, ∀ other ≠ plane, (other, id) ∉ db.tables.nodes :=
    fun _ _ other off member => off (follows.own _ member)
  obtain ⟨events, buffered, emits⟩ := moves.vectors
  obtain ⟨kwEvents, buffered', emits'⟩ := moves.keywords
  have written : (db.after host millis (.write plane ops true)).Sound := sound.write
  rw [Database.after_write, Database.writeTxn_plane] at *
  refine ⟨written, fun key member => ?_, ?_, ?_⟩
  · by_contra off
    rw [sealed.nodes] at member
    have here := mem_iff_isSome_getElem?.mp member
    have there := (congrArg Option.isSome (changes.nodes_off off)).symm.trans here
    exact off (follows.own key (mem_iff_isSome_getElem?.mpr there))
  · rw [buffered]
    exact follows.vectors.write start moves.follows room emits sealed
      (vectorRows.trans vectorRows') apart
  · rw [buffered']
    exact follows.keywords.write start moves.follows room emits' sealed
      (keywordRows.trans keywordRows') apart

theorem Database.Follows.step {command : Command} {next : Database}
    (follows : db.Follows host plane) (on : command.On plane) (clean : command.Clean host db)
    (step : Database.Step host millis db command next) : next.Follows host plane := by
  cases step with
  | refused => exact follows
  | createPlane | setPlaneProperties | keepName | renamePlane | dropPlane | reopen => exact on.elim
  | write =>
    obtain rfl := on
    rw [← Database.after_write]
    exact follows.write clean
  | @ensureVectorIndex p label property metric declared declares =>
    have same : db.tables.SameGraph (declared.stamped millis) :=
      (declares.sameGraph fun _ _ _ => rfl).trans Tables.sameGraph_stamped
    have kept : declared.keywordIndexes = db.tables.keywordIndexes := by
      rcases declares with ⟨-, rfl⟩ | ⟨-, rfl⟩ <;> rfl
    have sound := follows.sound.world.tables.sameGraph same
    exact ⟨follows.sound.sameGraph same, same.nodes ▸ follows.own,
      follows.vectors.ensure sound declares (fun _ _ _ => rfl) same rfl clean,
      follows.keywords.sameGraph same kept⟩
  | @ensureKeywordIndex p label property language declared declares =>
    have same : db.tables.SameGraph (declared.stamped millis) :=
      (declares.sameGraph fun _ _ _ => rfl).trans Tables.sameGraph_stamped
    have kept : declared.vectorIndexes = db.tables.vectorIndexes := by
      rcases declares with ⟨-, rfl⟩ | ⟨-, rfl⟩ <;> rfl
    have sound := follows.sound.world.tables.sameGraph same
    exact ⟨follows.sound.sameGraph same, same.nodes ▸ follows.own,
      follows.vectors.sameGraph same kept,
      follows.keywords.ensure sound declares (fun _ _ _ => rfl) same rfl clean⟩

theorem Database.Follows.run (follows : db.Follows host plane) {steps : List (ℤ × Command)}
    (on : ∀ step ∈ steps, step.2.On plane) (clean : db.Clean host steps) :
    (db.run host steps).Follows host plane := by
  induction steps generalizing db with
  | nil => exact follows
  | cons step steps ih =>
    have taken := Database.after_steps host step.1 db step.2
    exact ih (follows.step (on step List.mem_cons_self) clean.1 taken)
      (fun later member => on later (List.mem_cons_of_mem _ member)) clean.2

/-- A registry rebuilt from a sound store mirrors it. -/
theorem Mirrors.rebuilt (contents : kind.Contents γ) (sound : Sound nodes edges tables)
    (parsed : Parsed (kind.rows tables)) :
    ∃ registry, rebuildFrom kind tables = .ok registry ∧ Mirrors contents tables registry := by
  obtain ⟨registry, made, -⟩ := rebuildFrom_sound contents sound parsed
  obtain ⟨inStep, complete⟩ := InStep.rebuilt sound parsed made
  exact ⟨registry, made, inStep, complete, parsed⟩

/-- A store that is reopened has both registries rebuilt. -/
theorem Database.reopen_mirrors (opened : openTables db.tables millis = .ok tables)
    (sound : Graph.Sound nodes edges tables) (parsed : Parsed tables.vectorIndexes)
    (parsed' : Parsed tables.keywordIndexes) :
    ∃ vectors keywords, db.after host millis .reopen =
        { db with tables := tables, vectors := vectors, keywords := keywords } ∧
      Mirrors (vectorContents host) tables vectors ∧
      Mirrors (keywordContents host) tables keywords := by
  obtain ⟨vectors, made, mirrors⟩ := Mirrors.rebuilt (vectorContents host) sound parsed
  obtain ⟨keywords, made', mirrors'⟩ := Mirrors.rebuilt (keywordContents host) sound parsed'
  refine ⟨vectors, keywords, ?_, mirrors, mirrors'⟩
  simp only [Database.after, opened, Database.openFrom, made, made', bind, Except.bind, pure,
    Except.pure, orKeep]

theorem Parsed.empty : Parsed (∅ : ExtTreeMap IndexRowKey σ compare) :=
  fun _ member => (not_mem_empty member).elim

theorem Database.new_follows : (Database.new host millis).Follows host plane := by
  obtain ⟨tables, opened⟩ := @openTables_first millis
  have sound : (Database.new host millis).Sound := Database.new_sound
  rcases openTables_ok opened with ⟨-, filled⟩ | ⟨formatted, -⟩
  · obtain ⟨vectors, keywords, same, mirrors, mirrors'⟩ :=
      @Database.reopen_mirrors millis tables ∅ ∅ host .blank opened
        (sound_first.sameGraph filled.same) (filled.vectorIndexes ▸ .empty)
        (filled.keywordIndexes ▸ .empty)
    rw [Database.new, same] at sound ⊢
    refine ⟨sound, fun key member => ?_, mirrors, mirrors'⟩
    rw [filled.same.nodes] at member
    exact (not_mem_empty member).elim
  · cases formatted

/-- **Vector and keyword indexes follow the store on one plane**: after every run of transactions and
declarations on one plane, all of them clean, both registries hold what a rebuild computes. -/
theorem registries_follow (host : Host) (millis : ℤ) (plane : PlaneId) (steps : List (ℤ × Command))
    (on : ∀ step ∈ steps, step.2.On plane) (clean : (Database.new host millis).Clean host steps) :
    ((Database.new host millis).run host steps).Fresh host :=
  (Database.new_follows.run on clean).fresh

theorem registries_follow_of_labels : ((Database.new plainHost 0).run plainHost
    [(1, .ensureVectorIndex 0 "Note" "at" .l2),
      (2, .write 0 [.createNode ["Note"] ((∅ : Properties).insert "at" (.mk none (.vector [1]))),
        .setLabels 1 ["Done"]] true),
      (3, .ensureKeywordIndex 0 "Done" "text" .english),
      (4, .write 0 [.setProp 1 "text" (.mk none (.str "hello"))] true)]).Fresh plainHost :=
  registries_follow plainHost 0 0 _ (by simp [Command.On])
    ⟨(by decide : nul ∉ "Note".toList), ⟨3, by with_unfolding_all decide, by decide⟩,
      (by decide : nul ∉ "Done".toList), ⟨3, by with_unfolding_all decide, by decide⟩, trivial⟩

/-- A label with a NUL is declared: the index stands under it, and a rebuild puts it under the part
before the NUL. -/
theorem nul_label_rebuilt_elsewhere : ¬ ((Database.new plainHost 0).run plainHost
    [(1, .ensureVectorIndex 0 "a\x00b" "at" .l2)]).Fresh plainHost := by
  rintro ⟨⟨rebuilt, made, same⟩, -⟩
  have installed : (((Database.new plainHost 0).run plainHost
      [(1, .ensureVectorIndex 0 "a\x00b" "at" .l2)]).vectors[(0, "a\x00b", "at")]?).isSome =
        true := by
    with_unfolding_all decide
  have elsewhere : ((rebuildFrom (vectorKind plainHost) ((Database.new plainHost 0).run plainHost
      [(1, .ensureVectorIndex 0 "a\x00b" "at" .l2)]).tables).toOption.bind fun rebuilt =>
        rebuilt[((0, "a\x00b", "at") : IndexKey)]?).isSome = false := by
    with_unfolding_all decide
  rw [made, Except.toOption, Option.bind_some] at elsewhere
  have seen := congrArg Option.isSome (same (0, "a\x00b", "at"))
  rw [Option.isSome_map, Option.isSome_map, installed, elsewhere] at seen
  cases seen

end DrStrange.Graph
