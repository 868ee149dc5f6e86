/-
**Replicas stay coherent.**

Between two batches a replica's registries are what a rebuild makes of its store, and its record
cache serves nothing that the store does not hold. In every run that begins at such a replica this
holds again after each batch, if every batch fits the store it lands in, no insert into the cache
lands after the flush it was checked before, and no reader opens a past snapshot under the present
commit sequence (`replicas_stay_coherent`).

A replica that was restored has interned the labels anew. Where that gave a label another id, a batch
of its master does not fit.
-/

import DrStrange.Api.Delivery
import DrStrange.Api.Mirrored
import DrStrange.Api.Snapshot

namespace DrStrange.Graph

open Std Lib ExtTreeMap

variable {host : Host} {tables : Tables} {replica : Replica} {registries : Registries} {seq : ℕ}
  {batch : Landed}

/-- A store as its writers leave it: sound, and every declaration ends its label. -/
structure Tables.WellFormed (tables : Tables) : Prop where
  sound : ∃ nodes edges, Sound nodes edges tables
  vectorRows : Parsed tables.vectorIndexes
  keywordRows : Parsed tables.keywordIndexes

/-- Both registries are what a rebuild makes of the store, and the cache serves what it holds. -/
structure Replica.Coherent (host : Host) (replica : Replica) : Prop where
  registries : replica.registries.Fresh host replica.tables
  cache : replica.cache.Exact snapshots

/-- The condition on a step: a batch that lands fits, and a reader's step is timely. -/
def Replica.Fitting (replica : Replica) : ReplicaStep → Prop
  | .read step => replica.cache.Timely snapshots step
  | .land batch => replica.work = none → replica.committedSeq < batch.seq →
      Fits replica.tables batch.writes
  | _ => True

/-- What every run of fitting steps keeps. -/
structure Replica.Inv (host : Host) (replica : Replica) : Prop where
  cache : replica.cache.Inv snapshots
  store : replica.tables.WellFormed
  settled : replica.work = none → replica.cache.turnover = .settled
  fresh : replica.work = none → replica.registries.Fresh host replica.tables
  /-- The batch that is to be mirrored has landed over a store the registries are fresh for. -/
  owed : ∀ work ∈ replica.work, ∃ before ops, before.WellFormed ∧ Fits before ops ∧
    replica.tables = before.applyAll ops ∧ work = .fromOps ops ∧
      replica.registries.Fresh host before

theorem Fits.wellFormed {ops : List Write} (fits : Fits tables ops) :
    (tables.applyAll ops).WellFormed :=
  ⟨fits.sound, fits.vectorRows, fits.keywordRows⟩

/-- No rows fit any store. -/
theorem Tables.WellFormed.fits_nil (store : tables.WellFormed) : Fits tables [] :=
  ⟨store.sound, store.vectorRows, store.keywordRows, fun _ _ known => known, nofun, nofun⟩

theorem Replica.opened_inv (store : tables.WellFormed) (fresh : registries.Fresh host tables) :
    (Replica.opened tables seq registries).Inv host :=
  ⟨Guarded.empty_inv, store, fun _ => rfl, fun _ => fresh, nofun⟩

/-- A step of a reader leaves the store and how far the writer has come. -/
theorem Guarded.after_current {cache : GraphCache} {step : CacheStep CacheKey} :
    (cache.after snapshots step).current = cache.current ∧
      (cache.after snapshots step).turnover = cache.turnover := by
  cases step with
  | openPast reader version =>
    simp only [Guarded.after]
    split <;> exact ⟨rfl, rfl⟩
  | load reader key =>
    simp only [Guarded.after]
    split <;> exact ⟨rfl, rfl⟩
  | land insert =>
    simp only [Guarded.after]
    split <;> exact ⟨rfl, rfl⟩
  | _ => exact ⟨rfl, rfl⟩

/-- A batch that is accepted is owed to the registries. -/
theorem Replica.Inv.land {landed : Replica} (inv : replica.Inv host) (idle : replica.work = none)
    (fitting : replica.Fitting (.land batch)) (accepted : replica.land batch = .ok landed) :
    landed.Inv host := by
  have owes : ∀ seq, Fits replica.tables batch.writes →
      Replica.Inv host { replica with
        cache := replica.cache.publish (replica.tables.applyAll batch.writes)
        committedSeq := seq
        work := some (.fromOps batch.writes) } := fun seq fits =>
    ⟨inv.cache.publish, fits.wellFormed, nofun, nofun, fun work owed =>
      ⟨replica.tables, batch.writes, inv.store, fits, rfl, (Option.some.inj owed).symm,
        inv.fresh idle⟩⟩
  unfold Replica.land at accepted
  simp only at accepted
  split_ifs at accepted with staged old
  · obtain rfl := Except.ok.inj accepted
    have none : batch.writes = [] := List.isEmpty_iff.mp staged
    have fits := inv.store.fits_nil
    rw [← none] at fits
    have same := owes replica.committedSeq fits
    rw [none] at same ⊢
    exact same
  · obtain rfl := Except.ok.inj accepted
    exact owes _ (fitting idle (Nat.lt_of_not_le old))

/-- **A fitting step keeps the invariant.** -/
theorem Replica.Inv.after {step : ReplicaStep} (inv : replica.Inv host)
    (fitting : replica.Fitting step) : (replica.after host step).Inv host := by
  cases step with
  | read step =>
    obtain ⟨current, turnover⟩ := @Guarded.after_current replica.cache step
    have tables : (replica.after host (.read step)).tables = replica.tables := current
    refine ⟨inv.cache.after fitting, ?_, ?_, ?_, ?_⟩
    · rw [tables]
      exact inv.store
    · exact fun idle => turnover.trans (inv.settled idle)
    · rw [tables]
      exact inv.fresh
    · rw [tables]
      exact inv.owed
  | land batch =>
    simp only [Replica.after]
    cases idle : replica.work with
    | some work => exact inv
    | none =>
      cases accepted : replica.land batch with
      | error error => exact inv
      | ok landed => exact inv.land idle fitting accepted
  | advance =>
    simp only [Replica.after]
    split
    · rename_i published
      refine ⟨inv.cache.advance, inv.store, fun idle => ?_, inv.fresh, inv.owed⟩
      exact nomatch (inv.settled idle).symm.trans published
    · exact inv
  | clear =>
    simp only [Replica.after]
    split
    · rename_i advanced
      refine ⟨inv.cache.clear ?_, inv.store, fun _ => rfl, inv.fresh, inv.owed⟩
      rw [advanced]
      nofun
    · exact inv
  | mirror =>
    simp only [Replica.after]
    cases pending : replica.work with
    | none => exact inv
    | some work =>
      simp only
      split
      · rename_i settled
        obtain ⟨before, ops, store, fits, landed, rfl, fresh⟩ := inv.owed work pending
        obtain ⟨nodes, edges, sound⟩ := store.sound
        obtain ⟨mirrored, ran, fresh'⟩ := mirrorReplicated_fresh sound fresh fits
        refine ⟨inv.cache, inv.store, fun _ => settled, fun _ => ?_, nofun⟩
        show (mirrorReplicated host replica.tables _ replica.registries).1.Fresh host replica.tables
        rw [landed, ran]
        exact fresh'
      · exact inv

theorem Replica.run_concat {steps : List ReplicaStep} {step : ReplicaStep} :
    replica.run host (steps ++ [step]) = (replica.run host steps).after host step :=
  List.foldl_concat _ _ _ _

/-- **Replicas stay coherent**: in every run from an opened replica with fresh registries, whose
batches fit and whose readers are timely, both registries equal a rebuild from the store whenever no
batch is under way, and a reader of the latest snapshot is served only what that snapshot holds. -/
theorem replicas_stay_coherent (host : Host) {seq : ℕ} (store : tables.WellFormed)
    (fresh : registries.Fresh host tables) {steps : List ReplicaStep}
    (fitting : ∀ past step, past ++ [step] <+: steps →
      ((Replica.opened tables seq registries).run host past).Fitting step) :
    ((Replica.opened tables seq registries).run host steps).work = none →
      ((Replica.opened tables seq registries).run host steps).Coherent host := by
  have kept : ((Replica.opened tables seq registries).run host steps).Inv host := by
    induction steps using List.reverseRecOn with
    | nil => exact Replica.opened_inv store fresh
    | append_singleton steps step ih =>
      rw [Replica.run_concat]
      refine (ih fun past earlier started => ?_).after (fitting steps step (List.prefix_refl _))
      exact fitting past earlier (started.trans (List.prefix_append _ _))
  exact fun idle => ⟨kept.fresh idle, kept.cache.exact_ (kept.settled idle)⟩

/-! ### A replica of its master -/

/-- A replica opened over a store, its registries rebuilt. -/
def Replica.reopened (host : Host) (tables : Tables) (seq : ℕ) : Except Error Replica := do
  let vectors ← rebuildFrom (vectorKind host) tables
  let keywords ← rebuildFrom (keywordKind host) tables
  return .opened tables seq ⟨vectors, keywords⟩

theorem Replica.reopened_fresh (opened : Replica.reopened host tables seq = .ok replica) :
    ∃ registries, replica = .opened tables seq registries ∧ registries.Fresh host tables := by
  unfold Replica.reopened at opened
  cases vectors : rebuildFrom (vectorKind host) tables with
  | error error =>
    rw [vectors] at opened
    cases opened
  | ok rebuilt =>
    cases keywords : rebuildFrom (keywordKind host) tables with
    | error error =>
      rw [vectors, keywords] at opened
      cases opened
    | ok rebuilt' =>
      rw [vectors, keywords] at opened
      obtain rfl := Except.ok.inj opened
      exact ⟨_, rfl, ⟨rebuilt, vectors, fun _ => rfl⟩, rebuilt', keywords, fun _ => rfl⟩

/-- The rows a committed transaction hands to the observer of the log. -/
def Database.committedRows (host : Host) (db : Database) (millis : ℤ) (plane : PlaneId)
    (ops : List WriteOp) : List Write :=
  match (sealCommit millis : WriteM db.tables ℕ) (db.writeTxn host plane ops) with
  | .ok _ sealed => sealed.txn.staged
  | .error _ _ => []

/-- They are what the transaction leaves. -/
theorem Database.applyAll_committedRows {db : Database} {millis : ℤ} {plane : PlaneId}
    {ops : List WriteOp} : db.tables.applyAll (db.committedRows host millis plane ops) =
      (db.after host millis (.write plane ops true)).tables := by
  obtain ⟨seq, txn, ran, same⟩ := sealCommit_eq (db.writeTxn host plane ops) millis
  rw [Database.committedRows, ran, Database.after_write, ← same, txn.shows]

/-- A store that calls have left is well formed. -/
theorem Database.wellFormed {db : Database} (sound : db.Sound) (parsed : db.Parsed) :
    db.tables.WellFormed :=
  ⟨⟨_, _, sound.world.tables⟩, parsed.vectors, parsed.keywords⟩

/-- A transaction's rows fit a store that holds what its master held, if they drop no plane and write
nodes of no other. -/
theorem Database.fits_committedRows {db : Database} {millis : ℤ} {plane : PlaneId}
    {ops : List WriteOp} (sound : db.Sound) (parsed : db.Parsed)
    (dropped : ∀ other, .plane other none ∉ db.committedRows host millis plane ops)
    (apart : ∀ key row, .node key row ∈ db.committedRows host millis plane ops → ∀ other,
      (other, key.2) ∈ (db.after host millis (.write plane ops true)).tables.nodes → other = key.1) :
    Fits db.tables (db.committedRows host millis plane ops) := by
  have step := Database.after_steps host millis db (.write plane ops true)
  have store := Database.wellFormed (sound.step step) (parsed.step sound step)
  rw [← Database.applyAll_committedRows] at store apart
  refine ⟨store.sound, store.vectorRows, store.keywordRows, ?_, fun other gone =>
    absurd gone (dropped other),
    apart⟩
  rw [Database.applyAll_committedRows]
  exact (@Database.after_advances host millis db (.write plane ops true) sound nofun).stay .label

/-- A property that an index over `at` reads. -/
def atOne : Properties := (∅ : Properties).insert "at" (.mk none (.vector [1]))

/-- A master with a node of each of two labels, and a third label given to an older node last. -/
def labelledMaster : Database := (Database.new plainHost 0).run plainHost
  [(1, .ensureVectorIndex 0 "Doc" "at" .l2),
    (2, .write 0 [.createNode [] ∅, .createNode ["Doc"] atOne, .createNode ["Old"] ∅,
      .setLabels 1 ["Note"]] true)]

/-- Its next transaction gives the indexed node another label. -/
def relabelling : Landed :=
  ⟨4, labelledMaster.committedRows plainHost 3 0 [.setLabels 2 ["Note"]]⟩

/-- One batch applied and mirrored. -/
def applying (batch : Landed) : List ReplicaStep := [.land batch, .advance, .clear, .mirror]

/-- Whether the node is live in an index of a registry. -/
def liveIn (registry : Registry VectorEntry) (label : String) (node : NodeId) : Option Bool :=
  (registry[((0 : PlaneId), label, "at")]?).map fun entry => (entry.index.live node).isSome

/-- One call ends with nothing under way. -/
theorem Replica.applied_idle :
    ((Replica.opened tables seq registries).run host (applying batch)).work = none := by
  unfold applying Replica.run
  simp only [List.foldl_cons, List.foldl_nil, Replica.after, Replica.opened]
  cases landed : Replica.land ⟨.empty tables, seq, registries, none, false⟩ batch with
  | error error => rfl
  | ok replica =>
    unfold Replica.land at landed
    simp only at landed
    split_ifs at landed <;> obtain rfl := Except.ok.inj landed <;> rfl

/-- What is seen of two indexes being the same, the node is live in both or in neither. -/
theorem liveIn_congr {one two : Registry VectorEntry} {label : String} {node : NodeId}
    (same : (one[((0 : PlaneId), label, "at")]?).map (vectorContents host).view =
      (two[((0 : PlaneId), label, "at")]?).map (vectorContents host).view) :
    liveIn one label node = liveIn two label node := by
  have seen := congrArg (Option.map fun view => (view.2 node).isSome) same
  rw [Option.map_map, Option.map_map] at seen
  exact seen

theorem relabelling_fits : Fits labelledMaster.tables relabelling.writes := by
  have sound : labelledMaster.Sound := Database.new_sound.run _
  have parsed : labelledMaster.Parsed := Database.new_parsed.run Database.new_sound _
  have kept : (relabelling.writes.all fun write => match write with
      | .plane _ row => row.isSome
      | .node key _ => (labelledMaster.after plainHost 3
          (.write 0 [.setLabels 2 ["Note"]] true)).tables.nodes.keys.all fun other =>
            other.2 ≠ key.2 || other.1 = key.1
      | .magic _ | .formatVersion _ | .next .. | .commitSeq _ | .commitTime _ | .dictId .. |
        .dictName .. | .counters .. | .vectorIndex .. | .keywordIndex .. | .planeName .. |
        .nodePlane .. | .labelIdx .. | .extKey .. | .edge .. | .adj .. => true) =
          true := by decide +kernel
  refine Database.fits_committedRows sound parsed (fun other gone => ?_) fun key row written => ?_
  · simpa using List.all_eq_true.mp kept _ gone
  · intro other held
    have inside := List.all_eq_true.mp (List.all_eq_true.mp kept _ written) (other, key.2)
      (ExtTreeMap.mem_keys.mpr held)
    simpa using inside

/-- The batch applied to a replica that holds what its master held. -/
theorem replicas_stay_coherent_of_relabelling : ∃ registries,
    Replica.reopened plainHost labelledMaster.tables 3 =
        .ok (.opened labelledMaster.tables 3 registries) ∧
      ((Replica.opened labelledMaster.tables 3 registries).run plainHost
        (applying relabelling)).Coherent plainHost := by
  have store : labelledMaster.tables.WellFormed :=
    Database.wellFormed (Database.new_sound.run _) (Database.new_parsed.run Database.new_sound _)
  have opens : (Replica.reopened plainHost labelledMaster.tables 3).isOk = true := by decide +kernel
  cases made : Replica.reopened plainHost labelledMaster.tables 3 with
  | error error =>
    rw [made] at opens
    cases opens
  | ok replica =>
    obtain ⟨registries, rfl, fresh⟩ := Replica.reopened_fresh made
    refine ⟨registries, rfl, ?_⟩
    refine replicas_stay_coherent plainHost store fresh (fun past step started => ?_)
      Replica.applied_idle
    cases past with
    | nil =>
      obtain ⟨rest, same⟩ := started
      obtain ⟨rfl, -⟩ := List.cons.inj same
      exact fun _ _ => relabelling_fits
    | cons first past =>
      have later : step ∈ [ReplicaStep.advance, .clear, .mirror] := by
        obtain ⟨rest, same⟩ := started
        obtain ⟨-, same⟩ := List.cons.inj same
        rw [← same]
        simp
      simp only [List.mem_cons, List.not_mem_nil, or_false] at later
      rcases later with rfl | rfl | rfl <;> exact trivial

/-- A new database into which the master's dump is restored, and the replica opened over it. -/
def relabelledReplica : Except Error Replica := do
  let db ← (Database.new plainHost 3).restore (← labelledMaster.snapshot)
  Replica.reopened plainHost db.tables 3

/-- The restore has numbered the labels anew, so the batch leaves the old entry of the label index: a
rebuild finds the node under its old label, and the mirrored registry does not. -/
theorem renumbered_label_misleads : ∃ replica, relabelledReplica = .ok replica ∧
    replica.registries.Fresh plainHost replica.tables ∧
      (replica.run plainHost (applying relabelling)).work = none ∧
      ¬ (replica.run plainHost (applying relabelling)).Coherent plainHost := by
  have seen : relabelledReplica.toOption.map (fun replica =>
      (liveIn (replica.run plainHost (applying relabelling)).registries.vectors "Doc" 2,
        (rebuildFrom (vectorKind plainHost)
          (replica.run plainHost (applying relabelling)).tables).toOption.map fun rebuilt =>
            liveIn rebuilt "Doc" 2)) = some (some false, some (some true)) := by decide +kernel
  cases made : relabelledReplica with
  | error error =>
    rw [made] at seen
    cases seen
  | ok replica =>
    obtain ⟨db, reopened⟩ : ∃ db : Database,
        Replica.reopened plainHost db.tables 3 = .ok replica := by
      unfold relabelledReplica at made
      cases dumped : labelledMaster.snapshot with
      | error error =>
        rw [dumped] at made
        cases made
      | ok dump =>
        rw [dumped] at made
        cases restored : (Database.new plainHost 3).restore dump with
        | error error =>
          simp only [bind, Except.bind, restored] at made
          cases made
        | ok db =>
          simp only [bind, Except.bind, restored] at made
          exact ⟨db, made⟩
    obtain ⟨registries, rfl, fresh⟩ := Replica.reopened_fresh reopened
    refine ⟨_, rfl, fresh, Replica.applied_idle, fun coherent => ?_⟩
    obtain ⟨⟨rebuilt, rebuilds, same⟩, -⟩ := coherent.registries
    rw [made, Except.toOption, Option.map_some, rebuilds, Option.some.injEq, Prod.mk.injEq] at seen
    have alive : liveIn rebuilt "Doc" 2 = some true := Option.some.inj seen.2
    rw [← liveIn_congr (same (0, "Doc", "at")), seen.1] at alive
    cases alive

end DrStrange.Graph
