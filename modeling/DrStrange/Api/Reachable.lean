/-
**Every database that can be reached is sound.**

Opening, the calls on planes, index declarations and write transactions, committed or dropped, each
keep what `World.Sound` says: the tables agree with one another, what is stored lies below its
counter, and no two records made so far have one id. A database keeps no ids in reserve, because an
allocator lives as long as its transaction.
-/

import DrStrange.Api.Database
import DrStrange.Api.Follows

namespace DrStrange.Graph

open Std Lib ExtTreeMap Std.Do

set_option mvcgen.warning false

variable {millis : ℤ} {base tables after : Tables} {nodes edges : Set ℕ} {plane : PlaneId} {id : ℕ}
  {α : Type} {post : α → Tables → Prop} {failed : Tables → Prop} {filled : List PlaneId}

/-! ### What the graph does not read -/

/-- Tables that differ in commit sequence and time, counters of planes and declarations only. -/
def Tables.SameGraph (before after : Tables) : Prop :=
  after = { before with
    commitSeq := after.commitSeq, commitTime := after.commitTime, counters := after.counters,
    vectorIndexes := after.vectorIndexes, keywordIndexes := after.keywordIndexes }

theorem Tables.SameGraph.refl : tables.SameGraph tables := rfl

theorem Tables.SameGraph.trans {first second third : Tables} (one : first.SameGraph second)
    (two : second.SameGraph third) : first.SameGraph third := by
  rw [Tables.SameGraph] at *
  rw [two, one]

theorem Tables.SameGraph.applyAll {writes : List Write}
    (each : ∀ write ∈ writes, ∀ tables : Tables, tables.SameGraph (tables.apply write)) :
    tables.SameGraph (tables.applyAll writes) := by
  induction writes generalizing tables with
  | nil => exact .refl
  | cons write writes ih =>
    have first := each write List.mem_cons_self tables
    exact first.trans (ih fun write member => each write (List.mem_cons_of_mem _ member))

theorem Sound.sameGraph (sound : Sound nodes edges tables) (same : tables.SameGraph after) :
    Sound nodes edges after := by
  rw [same]
  exact ⟨⟨sound.exact.labelIdx, sound.exact.nodePlane, sound.exact.extKeys, sound.exact.adj,
    sound.exact.endpoints, sound.exact.dict, sound.exact.planeNames⟩, sound.nodeIds, sound.edgeIds,
    sound.dictIds, sound.labels, sound.types, sound.planeIds, sound.freeNodes, sound.freeEdges⟩

theorem World.Sound.sameGraph {world : World} (sound : world.Sound)
    (same : world.tables.SameGraph after) : World.Sound { world with tables := after } :=
  sound.write (sound.tables.sameGraph same) (by rw [same])

theorem World.Recorded.sameGraph {world : World} (recorded : world.Recorded)
    (same : world.tables.SameGraph after) : World.Recorded { world with tables := after } := by
  rw [same]
  exact ⟨recorded.nodes, recorded.edges⟩

/-- The tables with the sequence advanced and the time written. -/
def Tables.stamped (tables : Tables) (millis : ℤ) : Tables :=
  { tables with commitSeq := some (readCommitSeq tables + 1), commitTime := some millis }

theorem Tables.sameGraph_stamped : tables.SameGraph (tables.stamped millis) := rfl

/-! ### Writes -/

/-- What a committed write leaves: what `run` leaves, stamped. -/
theorem withWrite_ok {run : TxnM tables α} {out : α} (triple : Runs tables run post failed)
    (committed : withWrite tables millis run = .ok (out, after)) :
    ∃ middle, post out middle ∧ after = middle.stamped millis := by
  obtain ⟨returns, -⟩ := @Runs.outcome tables α run post failed (.start tables) triple
  rw [withWrite] at committed
  cases ran : run (.start tables) with
  | error error txn => simp [bind, EStateM.bind, ran] at committed
  | ok result txn =>
    simp only [bind, EStateM.bind, ran] at committed
    obtain ⟨rfl, rfl⟩ := Prod.mk.inj (Except.ok.inj committed)
    exact ⟨txn.tables, returns result txn ran, rfl⟩

/-- A run that does not fail is committed. -/
theorem withWrite_returns {run : TxnM tables α} (triple : Runs tables run post fun _ => False)
    (millis : ℤ) :
    ∃ out, withWrite tables millis run = .ok out := by
  obtain ⟨-, fails⟩ := @Runs.outcome tables α run post _ (.start tables) triple
  rw [withWrite]
  cases ran : run (.start tables) with
  | error error txn => exact (fails error txn ran).elim
  | ok result txn =>
    simp only [bind, EStateM.bind, ran]
    exact ⟨_, rfl⟩

/-- Whatever is kept and whatever comes of success holds of the outcome. -/
theorem orKeep_cases {motive : α → Prop} {old : α} {result : Except Error α} (kept : motive old)
    (made : ∀ new, result = .ok new → motive new) : motive (orKeep old result) := by
  cases result with
  | ok new => exact made new rfl
  | error error => exact kept

/-! ### What the calls leave -/

/-- What a declaration leaves: it is there already, or its row is written. -/
def Declares {σ : Type} (rows : Tables → ExtTreeMap IndexRowKey σ compare)
    (write : IndexRowKey → Option σ → Write) (key : IndexRowKey) (setting : σ)
    (before after : Tables) : Prop :=
  (rows before)[key]? = some setting ∧ after = before ∨
    (rows before)[key]? = none ∧ after = before.apply (write key (some setting))

theorem Declares.sameGraph {σ : Type} {rows : Tables → ExtTreeMap IndexRowKey σ compare}
    {write : IndexRowKey → Option σ → Write} {key : IndexRowKey} {setting : σ}
    (declares : Declares rows write key setting tables after)
    (each : ∀ key value (tables : Tables), tables.SameGraph (tables.apply (write key value))) :
    tables.SameGraph after := by
  rcases declares with ⟨-, rfl⟩ | ⟨-, rfl⟩
  · exact .refl
  · exact each _ _ _

theorem declareIndex_runs {σ : Type} [DecidableEq σ]
    {rows : Tables → ExtTreeMap IndexRowKey σ compare} {write : IndexRowKey → Option σ → Write}
    {refusal label property : String} {setting : σ} :
    Runs tables (declareIndex rows write refusal plane label property setting : TxnM base Bool)
      (fun _ after => Declares rows write (indexRowKey plane label property) setting tables after)
      (fun _ => True) := by
  mvcgen [declareIndex, stage] <;> subst_vars
  next found => exact .inl ⟨found, rfl⟩
  next absent => exact .inr ⟨absent, rfl⟩

theorem planeMetaDeletes_sameGraph :
    tables.SameGraph (tables.applyAll (planeMetaDeletes after plane)) := by
  refine .applyAll fun write member => ?_
  simp only [planeMetaDeletes, List.cons_append, List.mem_cons, List.mem_append, List.mem_map]
    at member
  rcases member with rfl | ⟨row, -, rfl⟩ | ⟨row, -, rfl⟩ <;> exact fun _ => rfl

/-- The tables without a plane: its rows gone if it has a record. -/
def Tables.withoutPlane (tables : Tables) (plane : PlaneId) : Tables :=
  match tables.planes[plane]? with
  | some row => tables.dropPlane plane row.name
  | none => tables

theorem dropPlaneRows_runs :
    Runs tables (dropPlaneRows plane : TxnM base Unit)
      (fun _ after => after = (tables.withoutPlane plane).applyAll
        (planeMetaDeletes (tables.withoutPlane plane) plane)) (fun _ => True) := by
  have drops := @dropPlane_runs base
  mvcgen [dropPlaneRows, drops]
  subst_vars
  next started _ after dropped =>
    have same : after.tables = started.tables.withoutPlane plane := by
      rw [Tables.withoutPlane]
      rcases dropped with ⟨absent, same⟩ | ⟨row, found, same⟩
      · rw [absent, same]
      · rw [found, same]
    rw [Txn.stageAll_tables, same]

/-- Tables that differ in stamps and counters, these of the planes in `filled` only. -/
structure Tables.Backfilled (filled : List PlaneId) (before after : Tables) : Prop where
  same : before.SameGraph after
  vectorIndexes : after.vectorIndexes = before.vectorIndexes
  keywordIndexes : after.keywordIndexes = before.keywordIndexes
  counters : ∀ plane ∈ after.counters, plane ∈ before.counters ∨ plane ∈ filled

theorem Tables.Backfilled.refl : tables.Backfilled filled tables :=
  ⟨.refl, rfl, rfl, fun _ member => .inl member⟩

theorem Tables.Backfilled.stamped (backfilled : tables.Backfilled filled after) :
    tables.Backfilled filled (after.stamped millis) :=
  ⟨backfilled.same.trans Tables.sameGraph_stamped, backfilled.vectorIndexes,
    backfilled.keywordIndexes, backfilled.counters⟩

theorem Tables.Backfilled.count {filled : List PlaneId} {counted : PlaneCounters}
    (backfilled : tables.Backfilled filled after) (member : plane ∈ filled) :
    tables.Backfilled filled (after.apply (.counters plane (some counted))) where
  same := backfilled.same.trans rfl
  vectorIndexes := backfilled.vectorIndexes
  keywordIndexes := backfilled.keywordIndexes
  counters other inside := by
    rw [Tables.apply, mem_write] at inside
    split at inside
    · rename_i same
      exact .inr (same ▸ member)
    · exact backfilled.counters other inside

theorem backfill_runs {planes : List (PlaneId × String)} (listed : ∀ row ∈ planes, row.1 ∈ filled) :
    ⦃fun txn => ⌜tables.Backfilled filled txn.tables⌝⦄ (backfill planes : TxnM base Unit)
    ⦃post⟨fun _ txn => ⌜tables.Backfilled filled txn.tables⌝, fun _ _ => ⌜True⌝⟩⦄ := by
  induction planes with
  | nil => mvcgen [backfill]
  | cons plane planes ih =>
    obtain ⟨id, name⟩ := plane
    have rest := ih fun row member => listed row (List.mem_cons_of_mem _ member)
    mvcgen [backfill, stage, rest]
    next txn backfilled _ _ _ => exact backfilled.count (listed (id, name) List.mem_cons_self)

/-- The planes a store lists. -/
def planeIds (tables : Tables) : List PlaneId := (listPlanes tables).map Prod.fst

/-- The rows of a first open. -/
def firstWrites : List Write :=
  [.magic magicBytes, .formatVersion formatVersion, .next .node 1, .next .edge 1, .next .plane 1,
    .next .label 1, .next .edgeType 1, .commitSeq 0] ++
    planeWrites PlaneId.startup ⟨defaultPlaneName, ∅⟩

theorem init_runs :
    Runs tables (init : TxnM base Unit)
      (fun _ after => (tables.magic = none ∧ after = tables.applyAll firstWrites) ∨
        (tables.magic = some magicBytes ∧ after = tables)) (fun _ => tables.magic ≠ none) := by
  mvcgen [init, migrate, migrateStep, writePlane, stage] <;> subst_vars
  case vc1.h_1.isTrue | vc2.h_1.isFalse.h_1.isTrue | vc3.h_1.isFalse.h_1.isFalse.isTrue
      | vc5.h_1.isFalse.h_2 => simp_all
  next txn magic found _ same version _ _ new _ old =>
    obtain rfl : version = formatVersion := by
      simp only [formatVersion, minSupportedVersion] at *
      omega
    simp only [Nat.sub_self, List.range'_zero, migrate]
    mvcgen
    exact .inr (by rw [found, not_not.mp same])
  next txn blank _ => exact .inl ⟨blank, rfl⟩

/-- The counters of a transaction folded into its plane's row, if any of them changed. -/
def WriteTxn.folded (write : WriteTxn base) : Txn base :=
  if write.counters.isEmpty then write.txn
  else write.txn.stageAll [.counters write.plane (some (write.counters.apply
    ((write.txn.tables.counters[write.plane]?).getD .zero)))]

/-- What a transaction commits. -/
def WriteTxn.sealed (write : WriteTxn base) (millis : ℤ) : Tables :=
  write.folded.tables.stamped millis

theorem WriteTxn.sealed_sameGraph (write : WriteTxn base) (millis : ℤ) :
    write.txn.tables.SameGraph (write.sealed millis) := by
  rw [WriteTxn.sealed, WriteTxn.folded]
  split <;> rfl

theorem bind_get {write : WriteTxn base} {rest : WriteTxn base → WriteM base α} :
    (get >>= rest : WriteM base α) write = rest write write := rfl

/-- A commit does not fail, and returns the sequence it stamps. -/
theorem sealCommit_run (write : WriteTxn base) (millis : ℤ) :
    (sealCommit millis : WriteM base ℕ) write = .ok (readCommitSeq write.folded.tables + 1)
      { write with
        txn := (write.folded.stageAll [.commitSeq (readCommitSeq write.folded.tables + 1)]).stageAll
          [.commitTime millis] } := by
  rw [sealCommit, bind_get]
  by_cases empty : write.counters.isEmpty
  · simp only [WriteTxn.folded, empty]
    rfl
  · simp only [WriteTxn.folded, empty]
    rfl

theorem sealCommit_eq (write : WriteTxn base) (millis : ℤ) :
    ∃ seq txn, (sealCommit millis : WriteM base ℕ) write = .ok seq { write with txn := txn } ∧
      txn.tables = write.sealed millis :=
  ⟨_, _, sealCommit_run write millis, rfl⟩

/-! ### What a call does -/

/-- One call: it is refused and nothing changes, or it commits what it says. -/
inductive Database.Step (host : Host) (millis : ℤ) (db : Database) : Command → Database → Prop where
  | refused {command : Command} : Step host millis db command db
  | createPlane {name : String} {props : Properties} {id : PlaneId}
      (free : db.tables.planeNames[name]? = none) (found : db.tables.next .plane = some id) :
      Step host millis db (.createPlane name props) { db with
        tables := ((db.tables.apply (.next .plane (id + 1))).applyAll
          (planeWrites id ⟨name, props⟩)).stamped millis }
  | setPlaneProperties {plane : PlaneId} {props : Properties} {row : PlaneRecord}
      (found : db.tables.planes[plane]? = some row) :
      Step host millis db (.setPlaneProperties plane props) { db with
        tables := (db.tables.applyAll (planeWrites plane { row with props := props })).stamped
          millis }
  | keepName {plane : PlaneId} {name : String} {row : PlaneRecord}
      (found : db.tables.planes[plane]? = some row) (same : row.name = name) :
      Step host millis db (.renamePlane plane name) { db with tables := db.tables.stamped millis }
  | renamePlane {plane : PlaneId} {name : String} {row : PlaneRecord}
      (found : db.tables.planes[plane]? = some row) (free : db.tables.planeNames[name]? = none) :
      Step host millis db (.renamePlane plane name) { db with
        tables := (db.tables.applyAll (renameWrites plane row name)).stamped millis }
  | dropPlane {plane : PlaneId} :
      Step host millis db (.dropPlane plane)
        { db with
          tables := ((db.tables.withoutPlane plane).applyAll
            (planeMetaDeletes (db.tables.withoutPlane plane) plane)).stamped millis
          vectors := dropIndexes db.vectors plane
          keywords := dropIndexes db.keywords plane }
  | ensureVectorIndex {plane : PlaneId} {label property : String} {metric : Metric}
      {declared : Tables} (declares : Declares Tables.vectorIndexes Write.vectorIndex
        (indexRowKey plane label property) metric db.tables declared) :
      Step host millis db (.ensureVectorIndex plane label property metric)
        { db with
          tables := declared.stamped millis
          vectors := orKeep db.vectors (buildEntry (vectorKind host) (declared.stamped millis)
            db.vectors plane label property metric) }
  | ensureKeywordIndex {plane : PlaneId} {label property : String} {language : Language}
      {declared : Tables} (declares : Declares Tables.keywordIndexes Write.keywordIndex
        (indexRowKey plane label property) language db.tables declared) :
      Step host millis db (.ensureKeywordIndex plane label property language)
        { db with
          tables := declared.stamped millis
          keywords := orKeep db.keywords (buildEntry (keywordKind host) (declared.stamped millis)
            db.keywords plane label property language) }
  | write {plane : PlaneId} {ops : List WriteOp} :
      Step host millis db (.write plane ops true)
        { tables := (db.writeTxn host plane ops).sealed millis
          vectors := applyEvents (vectorKind host) (db.writeTxn host plane ops).plane db.vectors
            (db.writeTxn host plane ops).events
          keywords := applyEvents (keywordKind host) (db.writeTxn host plane ops).plane db.keywords
            (db.writeTxn host plane ops).kwEvents
          madeNodes := (db.writeTxn host plane ops).madeNodes
          madeEdges := (db.writeTxn host plane ops).madeEdges }
  | reopen {tables : Tables} {vectors : Registry VectorEntry} {keywords : Registry KeywordEntry}
      (opened : openTables db.tables millis = .ok tables) :
      Step host millis db .reopen
        { db with tables := tables, vectors := vectors, keywords := keywords }

variable {db : Database} {host : Host} {keywords : Registry KeywordEntry}
  {vectors : Registry VectorEntry} {motive : Database → Prop} {madeNodes : List NodeId}
  {madeEdges : List EdgeId} {props : Properties}

/-- A write of graph code that commits only if it succeeds. -/
theorem Database.written_cases {run : TxnM db.tables α} (triple : Runs db.tables run post failed)
    (refused : motive db) (made : ∀ result middle, post result middle →
      motive { db with tables := middle.stamped millis }) : motive (db.written millis run) := by
  refine orKeep_cases refused fun new ran => ?_
  cases committed : withWrite db.tables millis run with
  | error error => simp [committed, Except.map] at ran
  | ok out =>
    obtain ⟨middle, held, same⟩ := withWrite_ok triple committed
    simp only [committed, Except.map, Except.ok.injEq] at ran
    subst ran
    rw [same]
    exact made out.1 middle held

/-- A write of graph code with something done once it is committed. -/
theorem Database.committed_cases {run : TxnM db.tables α} (next : Tables → Database)
    (triple : Runs db.tables run post failed) (refused : motive db)
    (made : ∀ result middle, post result middle → motive (next (middle.stamped millis))) :
    motive (orKeep db do
      let (_, tables) ← withWrite db.tables millis run
      return next tables) := by
  refine orKeep_cases refused fun new ran => ?_
  cases committed : withWrite db.tables millis run with
  | error error => simp [committed, bind, Except.bind] at ran
  | ok out =>
    obtain ⟨middle, held, same⟩ := withWrite_ok triple committed
    simp only [committed, bind, Except.bind, pure, Except.pure, Except.ok.injEq] at ran
    subst ran
    rw [same]
    exact made out.1 middle held

theorem Database.after_write {ops : List WriteOp} :
    db.after host millis (.write plane ops true) =
      { tables := (db.writeTxn host plane ops).sealed millis
        vectors := applyEvents (vectorKind host) (db.writeTxn host plane ops).plane db.vectors
          (db.writeTxn host plane ops).events
        keywords := applyEvents (keywordKind host) (db.writeTxn host plane ops).plane db.keywords
          (db.writeTxn host plane ops).kwEvents
        madeNodes := (db.writeTxn host plane ops).madeNodes
        madeEdges := (db.writeTxn host plane ops).madeEdges } := by
  obtain ⟨seq, txn, sealed, tables⟩ := sealCommit_eq (db.writeTxn host plane ops) millis
  rw [Database.after, if_pos rfl, Database.commit, sealed, ← tables]
  rfl

/-- Both registries rebuilt, or the opening failed: the tables are the ones that were opened. -/
theorem Database.openFrom_ok {new : Database}
    (opened : Database.openFrom host tables madeNodes madeEdges = .ok new) :
    ∃ vectors keywords, new = ⟨tables, vectors, keywords, madeNodes, madeEdges⟩ := by
  rw [Database.openFrom] at opened
  cases vectors : rebuildFrom (vectorKind host) tables with
  | error error => simp [vectors, bind, Except.bind] at opened
  | ok vectors' =>
    cases keywords : rebuildFrom (keywordKind host) tables with
    | error error => simp [vectors, keywords, bind, Except.bind] at opened
    | ok keywords' =>
      simp only [vectors, keywords, bind, Except.bind, pure, Except.pure, Except.ok.injEq] at opened
      exact ⟨vectors', keywords', opened.symm⟩

/-- A reopen that opens the store leaves its tables and some registries over them. -/
theorem Database.reopen_opened (host : Host) (opened : openTables db.tables millis = .ok tables) :
    ∃ vectors keywords, db.after host millis .reopen =
      { db with tables := tables, vectors := vectors, keywords := keywords } := by
  simp only [Database.after, opened, bind, Except.bind, pure, Except.pure]
  cases made : Database.openFrom host tables db.madeNodes db.madeEdges with
  | error error => exact ⟨db.vectors, db.keywords, rfl⟩
  | ok new =>
    obtain ⟨vectors, keywords, rfl⟩ := Database.openFrom_ok made
    exact ⟨vectors, keywords, rfl⟩

/-- Every call is a step. -/
theorem Database.after_steps (host : Host) (millis : ℤ) (db : Database) (command : Command) :
    Database.Step host millis db command (db.after host millis command) := by
  cases command with
  | createPlane name props =>
    refine Database.written_cases createPlane_runs .refused ?_
    rintro id _ ⟨free, found, rfl⟩
    exact .createPlane free found
  | setPlaneProperties plane props =>
    refine Database.written_cases setPlaneProperties_runs .refused ?_
    rintro _ _ ⟨row, found, rfl⟩
    exact .setPlaneProperties found
  | renamePlane plane name =>
    refine Database.written_cases renamePlane_runs .refused ?_
    rintro _ _ ⟨row, found, ⟨same, rfl⟩ | ⟨free, rfl⟩⟩
    · exact .keepName found same
    · exact .renamePlane found free
  | dropPlane plane =>
    refine Database.committed_cases (motive := Database.Step host millis db (.dropPlane plane))
      (fun tables => { db with
        tables := tables
        vectors := dropIndexes db.vectors plane
        keywords := dropIndexes db.keywords plane }) dropPlaneRows_runs .refused ?_
    rintro _ _ rfl
    exact .dropPlane
  | ensureVectorIndex plane label property metric =>
    exact Database.committed_cases
      (motive := Database.Step host millis db (.ensureVectorIndex plane label property metric))
      (fun tables => { db with
        tables := tables
        vectors := orKeep db.vectors
          (buildEntry (vectorKind host) tables db.vectors plane label property metric) })
      declareIndex_runs .refused fun _ _ declares => .ensureVectorIndex declares
  | ensureKeywordIndex plane label property language =>
    exact Database.committed_cases
      (motive := Database.Step host millis db (.ensureKeywordIndex plane label property language))
      (fun tables => { db with
        tables := tables
        keywords := orKeep db.keywords
          (buildEntry (keywordKind host) tables db.keywords plane label property language) })
      declareIndex_runs .refused fun _ _ declares => .ensureKeywordIndex declares
  | write plane ops committed =>
    cases committed with
    | true =>
      rw [Database.after_write]
      exact .write
    | false => exact .refused
  | reopen =>
    cases opened : openTables db.tables millis with
    | error error =>
      rw [Database.after, opened]
      exact .refused
    | ok tables =>
      obtain ⟨vectors, keywords, same⟩ := Database.reopen_opened host opened
      rw [same]
      exact .reopen opened

/-! ### Opening -/

/-- What opening a store leaves: a first open's rows, or the tables as they were, and what filling
the counters does to either. -/
theorem openTables_fills {fills : Tables → Tables → Prop} (none : ∀ started, fills started started)
    (stamped : ∀ started filled, fills started filled → fills started (filled.stamped millis))
    (filled : ∀ started : Tables, ⦃fun txn => ⌜fills started txn.tables⌝⦄
      (backfill (listPlanes started) : TxnM tables Unit)
      ⦃post⟨fun _ txn => ⌜fills started txn.tables⌝, fun _ _ => ⌜True⌝⟩⦄)
    (opened : openTables tables millis = .ok after) :
    (tables.magic = .none ∧ fills (tables.applyAll firstWrites) after) ∨
      (tables.magic = some magicBytes ∧ fills tables after) := by
  rw [openTables] at opened
  split at opened
  · have triple : Runs tables (bootstrap : TxnM tables Unit)
        (fun _ after => (tables.magic = .none ∧ fills (tables.applyAll firstWrites) after) ∨
          (tables.magic = some magicBytes ∧ fills tables after))
        (fun _ => True) := by
      have starts := @init_runs tables
      mvcgen [bootstrap, starts, filled]
      next => exact none _
      next same _ _ started _ _ =>
        intro filled
        rw [same] at started
        rcases started with ⟨blank, started⟩ | ⟨magic, started⟩
        · rw [started] at filled
          exact .inl ⟨blank, filled⟩
        · rw [started] at filled
          exact .inr ⟨magic, filled⟩
    cases committed : withWrite tables millis (bootstrap : TxnM tables Unit) with
    | error error => simp [committed, Except.map] at opened
    | ok out =>
      obtain ⟨middle, booted, same⟩ := withWrite_ok triple committed
      simp only [committed, Except.map, Except.ok.injEq] at opened
      rw [← opened, same]
      rcases booted with ⟨blank, booted⟩ | ⟨magic, booted⟩
      · exact .inl ⟨blank, stamped _ _ booted⟩
      · exact .inr ⟨magic, stamped _ _ booted⟩
  · rename_i ready
    obtain rfl := Except.ok.inj opened
    simp only [needsBootstrap, Bool.or_eq_true, decide_eq_true_eq, not_or, not_not] at ready
    exact .inr ⟨ready.1.1, none _⟩

/-- Opening a store fills in counters for the planes listed. -/
theorem openTables_ok (opened : openTables tables millis = .ok after) :
    (tables.magic = none ∧
      (tables.applyAll firstWrites).Backfilled (planeIds (tables.applyAll firstWrites)) after) ∨
      (tables.magic = some magicBytes ∧ tables.Backfilled (planeIds tables) after) :=
  @openTables_fills _ _ _ (fun started after => started.Backfilled (planeIds started) after)
    (fun _ => .refl) (fun _ _ filled => filled.stamped)
    (fun _ => backfill_runs fun _ member => List.mem_map_of_mem member) opened

/-- A plane of a graph that holds nothing can be counted. -/
theorem count_empty (nodes : tables.nodes = ∅) (edges : tables.edges = ∅) :
    count tables plane = .ok .zero := by
  have noNodes : scanAll tables plane = [] := by
    rw [scanAll, nodes]
    rfl
  have noEdges : scanEdges tables plane = [] := by
    rw [scanEdges, edges]
    rfl
  rw [count, noNodes, noEdges]
  rfl

theorem backfill_empty {planes : List (PlaneId × String)} :
    ⦃fun txn => ⌜txn.tables.nodes = ∅ ∧ txn.tables.edges = ∅⌝⦄ (backfill planes : TxnM base Unit)
    ⦃post⟨fun _ _ => ⌜True⌝, fun _ _ => ⌜False⌝⟩⦄ := by
  induction planes with
  | nil => mvcgen [backfill]
  | cons plane planes ih =>
    obtain ⟨id, name⟩ := plane
    mvcgen [backfill, stage, ih]
    next blank _ _ failed =>
      rw [count_empty blank.1 blank.2] at failed
      cases failed

/-- A first open succeeds. -/
theorem bootstrap_first :
    Runs .empty (bootstrap : TxnM base Unit) (fun _ _ => True) (fun _ => False) := by
  have starts := @init_runs base
  have counts := @backfill_empty base
  mvcgen [bootstrap, starts, counts]
  next blank _ _ started =>
    rw [blank] at started
    rcases started with ⟨-, started⟩ | ⟨-, started⟩ <;> rw [started] <;> exact ⟨rfl, rfl⟩
  next blank _ _ =>
    intro formatted
    exact formatted (congrArg Tables.magic blank)

/-- Nothing is wrong with a store that holds nothing. -/
theorem sound_empty : Sound ∅ ∅ (Tables.empty.applyAll (firstWrites.take 8)) := by
  refine ⟨⟨?_, ?_, ?_, ?_, ?_, ?_, ?_⟩, ?_, ?_, ?_, ?_, ?_, ?_, ?_, ?_⟩ <;>
    simp [firstWrites, Tables.apply, Tables.empty, Inverse]

/-- A first open leaves a sound store. -/
theorem sound_first : Sound ∅ ∅ (Tables.empty.applyAll firstWrites) := by
  refine @Sound.writePlane _ _ _ PlaneId.startup _ _ sound_empty ?_ ?_ ?_
  · exact ⟨1, rfl, Nat.one_pos⟩
  · exact fun other found => nomatch found
  · exact fun row found => nomatch found

theorem openTables_first : ∃ tables, openTables .empty millis = .ok tables := by
  obtain ⟨out, committed⟩ := withWrite_returns bootstrap_first millis
  refine ⟨out.2, ?_⟩
  have needed : needsBootstrap .empty = true := rfl
  rw [openTables, if_pos needed, committed]
  rfl

theorem Handed.nil {counter : Counter} {free : Set ℕ} : Handed tables counter free [] :=
  ⟨List.nodup_nil, fun _ member => (nomatch member), fun _ member => nomatch member⟩

/-! ### Soundness -/

/-- A database as a world: nothing is in reserve between calls. -/
def Database.world (db : Database) : World :=
  ⟨db.tables, ∅, ∅, db.madeNodes, db.madeEdges⟩

/-- The store is initialised and sound. -/
structure Database.Sound (db : Database) : Prop where
  world : db.world.Sound
  recorded : db.world.Recorded
  magic : db.tables.magic = some magicBytes

/-- A transaction begins where the database is. -/
theorem WriteTxn.begin_world {decls : List (String × String × Metric)}
    {kwDecls : List (String × String × Language)} :
    (WriteTxn.begin base plane decls kwDecls madeNodes madeEdges).world =
      ⟨base, ∅, ∅, madeNodes, madeEdges⟩ := by
  simp [WriteTxn.begin, WriteTxn.world, IdAllocator.new, IdBatch.default, IdBatch.range, Txn.start]

theorem Database.beginTxn_world (db : Database) : (db.beginTxn host plane).world = db.world :=
  WriteTxn.begin_world

/-- The changes of a transaction's methods, all of them. -/
theorem Database.Sound.writeTxn_changes (sound : db.Sound) (host : Host) (plane : PlaneId)
    (ops : List WriteOp) :
    Changes plane db.world (db.writeTxn host plane ops).world := by
  have follows : (db.beginTxn host plane).Follows (db.writeTxn host plane ops) :=
    WriteTxn.afterAll_follows
  have changes := follows.changes (db.beginTxn_world ▸ sound.world)
  rwa [Database.beginTxn_world] at changes

/-- Rows of planes keep what was recorded. -/
theorem Database.Sound.planes (sound : db.Sound)
    (world : World.Sound { db.world with tables := after }) (nodes : after.nodes = db.tables.nodes)
    (edges : after.edges = db.tables.edges) (magic : after.magic = db.tables.magic) :
    Database.Sound { db with tables := after } where
  world := world
  recorded := ⟨fun plane id member => sound.recorded.nodes plane id (nodes ▸ member),
    fun plane id member => sound.recorded.edges plane id (edges ▸ member)⟩
  magic := magic.trans sound.magic

theorem Database.Sound.sameGraph (sound : db.Sound) (same : db.tables.SameGraph after) :
    Database.Sound { db with tables := after, vectors := vectors, keywords := keywords } where
  world := sound.world.sameGraph same
  recorded := sound.recorded.sameGraph same
  magic := by
    rw [same]
    exact sound.magic

theorem Database.Sound.numbered {name : String} {id : PlaneId} (sound : db.Sound)
    (free : db.tables.planeNames[name]? = none) (found : db.tables.next .plane = some id) :
    Database.Sound { db with
      tables := (db.tables.apply (.next .plane (id + 1))).applyAll
        (planeWrites id ⟨name, props⟩) } := by
  have numbered : World.Sound { db.world with tables := db.tables.apply (.next .plane (id + 1)) } :=
    sound.world.change (Change.grow (.spent 1 found) : Change 0 _ _)
  refine sound.planes (numbered.write (numbered.tables.writePlane ?_ ?_ ?_) rfl) rfl rfl rfl
  · exact Tables.below_of_reserved ⟨le_rfl, Nat.lt_succ_self id⟩
  · intro other held
    exact nomatch free.symm.trans held
  · intro row held
    exact nomatch (sound.world.tables.unnumbered found).symm.trans held

theorem Database.Sound.described {row : PlaneRecord} (sound : db.Sound)
    (found : db.tables.planes[plane]? = some row) :
    Database.Sound { db with
      tables := db.tables.applyAll (planeWrites plane { row with props := props }) } := by
  have exact := sound.world.tables.exact
  refine sound.planes (sound.world.write (sound.world.tables.writePlane ?_ ?_ ?_) rfl) rfl rfl rfl
  · exact sound.world.tables.planeIds plane (mem_of_getElem? found)
  · intro other held
    exact Option.some.inj (held.symm.trans (exact.ownName found))
  · intro other held
    rw [← Option.some.inj (found.symm.trans held)]

theorem Database.Sound.withoutPlane (sound : db.Sound) :
    Database.Sound { db with tables := db.tables.withoutPlane plane } := by
  rw [Tables.withoutPlane]
  split
  · rename_i row found
    exact ⟨sound.world.write (sound.world.tables.dropPlane found) rfl,
      sound.recorded.of_subset (fun _ member => (mem_withoutPlane.mp member).2)
        (fun _ member => (mem_withoutPlane.mp member).2), sound.magic⟩
  · exact sound

/-- A transaction that commits leaves a sound store, whatever registries stand over it. -/
theorem Database.Sound.sealed {write : WriteTxn db.tables} (sound : db.Sound)
    (changes : Changes plane db.world write.world) :
    Database.Sound ⟨write.sealed millis, vectors, keywords, write.madeNodes, write.madeEdges⟩ := by
  have forgot := changes.tail (Change.forget (Set.empty_subset _) (Set.empty_subset _))
  have sealed := write.sealed_sameGraph millis
  refine ⟨(sound.world.changes forgot).sameGraph sealed,
    (sound.recorded.changes forgot).sameGraph sealed, ?_⟩
  calc (write.sealed millis).magic = write.txn.tables.magic := by rw [sealed]
    _ = db.tables.magic := changes.sameMeta.magic
    _ = some magicBytes := sound.magic

theorem Database.Sound.write {ops : List WriteOp} (sound : db.Sound) :
    (db.after host millis (.write plane ops true)).Sound := by
  rw [Database.after_write]
  exact sound.sealed (sound.writeTxn_changes host plane ops)

/-- Every call keeps the store sound. -/
theorem Database.Sound.step {command : Command} {next : Database} (sound : db.Sound)
    (step : Database.Step host millis db command next) : next.Sound := by
  cases step with
  | refused => exact sound
  | createPlane free found => exact (sound.numbered free found).sameGraph Tables.sameGraph_stamped
  | setPlaneProperties found => exact (sound.described found).sameGraph Tables.sameGraph_stamped
  | keepName => exact sound.sameGraph Tables.sameGraph_stamped
  | renamePlane found free =>
    exact (sound.planes (sound.world.write (sound.world.tables.renamePlane found free) rfl)
      rfl rfl rfl).sameGraph Tables.sameGraph_stamped
  | dropPlane =>
    exact sound.withoutPlane.sameGraph (planeMetaDeletes_sameGraph.trans Tables.sameGraph_stamped)
  | ensureVectorIndex declares | ensureKeywordIndex declares =>
    exact sound.sameGraph ((declares.sameGraph fun _ _ _ => rfl).trans Tables.sameGraph_stamped)
  | write =>
    rw [← Database.after_write]
    exact sound.write
  | reopen opened =>
    rcases openTables_ok opened with ⟨blank, -⟩ | ⟨-, kept⟩
    · exact nomatch blank.symm.trans sound.magic
    · exact sound.sameGraph kept.same

theorem Database.new_sound : (Database.new host millis).Sound := by
  obtain ⟨tables, opened⟩ := @openTables_first millis
  obtain ⟨vectors, keywords, same⟩ :=
    @Database.reopen_opened millis tables .blank host opened
  rw [Database.new, same]
  rcases openTables_ok opened with ⟨-, first⟩ | ⟨formatted, -⟩
  · have started : Database.Sound { Database.blank with
        tables := Tables.empty.applyAll firstWrites } :=
      ⟨⟨sound_first, .nil, .nil⟩, ⟨fun _ _ member => (not_mem_empty member).elim,
        fun _ _ member => (not_mem_empty member).elim⟩, rfl⟩
    exact started.sameGraph first.same
  · cases formatted

/-! ### Runs -/

theorem Database.Sound.run (sound : db.Sound) (steps : List (ℤ × Command)) :
    (db.run host steps).Sound := by
  induction steps generalizing db with
  | nil => exact sound
  | cons step steps ih => exact ih (sound.step (Database.after_steps host step.1 db step.2))

/-- **The tables of the graph stay mutually exact**: in every state reached from an empty store. -/
theorem tables_exact (host : Host) (millis : ℤ) (steps : List (ℤ × Command)) :
    Exact ((Database.new host millis).run host steps).tables :=
  (Database.new_sound.run steps).world.tables.exact

end DrStrange.Graph
