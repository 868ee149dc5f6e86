/-
**The pass, step by step.**

A batch that is committed rewrites the nodes of its jobs and nothing else, and one that is not
changes nothing. While a pass goes through a plane, each node it has visited is settled or has a job
(`Going`); so a pass that returns has gone through the plane, and one that stops, wherever it stops,
has left the plane on the way (`vectorizePlane_ends`). The rest follows for any number of passes: a
second one embeds nothing, and one that is run again ends where it would have ended
(`vectorize_exact`).
-/

import DrStrange.Api.Tracks
import DrStrange.Graph.Labels
import DrStrange.Llm.Loadable
import DrStrange.Llm.Vectorized

namespace DrStrange.Llm

open Std (ExtTreeMap ExtTreeSet)
open DrStrange.Graph (PropDesc PropValue Properties Tables Database NodeId PlaneId NodeRow Metric
  Does WriteTxn)
open Lib

variable {recipe : Recipe} {before middle after : Tables} {plane : PlaneId} {metric : Metric}
  {row : NodeRow}
  {labels : List String} {v : List UInt32} {hash : String}

/-! ### A batch -/

section Transactions

variable {base : Tables} {write next : WriteTxn base} {id : NodeId} {name : String}
  {desc : PropDesc} {update' update : NodeId → Option (Properties → Properties)}

/-- A transaction further on, in which the properties of some nodes have been written over. -/
structure Rewrites (update : NodeId → Option (Properties → Properties))
    (write next : WriteTxn base) : Prop where
  plane : next.plane = write.plane
  counters : next.counters = write.counters
  tables : next.txn.tables = { write.txn.tables with nodes := next.txn.tables.nodes }
  same : ∀ key : Graph.NodeKey, (key.1 = write.plane → update key.2 = none) →
    next.txn.tables.nodes[key]? = write.txn.tables.nodes[key]?
  rows : ∀ id change, update id = some change →
    ∃ row, write.txn.tables.nodes[(write.plane, id)]? = some row ∧
    next.txn.tables.nodes[(write.plane, id)]? = some { row with props := change row.props }

theorem Rewrites.refl : Rewrites (fun _ => none) write write := ⟨rfl, rfl, rfl, fun _ _ => rfl, nofun⟩

theorem Rewrites.trans {middle : WriteTxn base} (first : Rewrites update write middle)
    (second : Rewrites update' middle next) :
    Rewrites (fun id => (update id).merge (fun change further => further ∘ change) (update' id))
      write next where
  plane := second.plane.trans first.plane
  counters := second.counters.trans first.counters
  tables := by rw [second.tables, first.tables]
  same := by
    intro key other
    have none' : key.1 = write.plane → update key.2 = none ∧ update' key.2 = none := fun own =>
      Option.merge_eq_none_iff.mp (other own)
    rw [second.same key fun own => (none' (own.trans first.plane)).2, first.same key fun own =>
      (none' own).1]
  rows := by
    intro id change own
    cases one : update id with
    | none =>
      rw [one, Option.merge_none_left] at own
      obtain ⟨row, found, new⟩ := second.rows id change own
      rw [first.plane] at found new
      rw [first.same (write.plane, id) fun _ => one] at found
      exact ⟨row, found, new⟩
    | some change' =>
      obtain ⟨row, found, new⟩ := first.rows id change' one
      cases two : update' id with
      | none =>
        rw [one, two, Option.merge_none_right] at own
        obtain rfl := Option.some.inj own
        refine ⟨row, found, ?_⟩
        rw [second.same (write.plane, id) fun _ => two, new]
      | some further =>
        rw [one, two] at own
        obtain rfl := Option.some.inj own
        obtain ⟨row', found', new'⟩ := second.rows id further two
        rw [first.plane] at found' new'
        obtain rfl := Option.some.inj (new.symm.trans found')
        exact ⟨row, found, new'⟩

theorem Rewrites.congr (rewrites : Rewrites update write next) (same : ∀ id, update id = update' id) :
    Rewrites update' write next := by
  rwa [← funext same]

theorem setProp_rewrites : Does write (Graph.setProp id name desc)
    (fun _ => Rewrites (fun other => if other = id then some fun props =>
      props.insert name desc else none) write)
    fun _ => True := by
  have put := @Graph.onTxn_does base _ write (fun plane => Graph.setNodeProp plane id name desc) _ _
    Graph.updateNodeProps_runs
  refine (put.mono (fun _ _ held => held) fun _ _ => trivial).bind ?_
  rintro _ _ ⟨txn, rfl, row, found, made⟩
  refine (Graph.recordPropEvent_does.mono (fun _ _ held => held) fun _ _ => trivial).bind ?_
  rintro _ _ ⟨verdict, rfl, -⟩
  refine Graph.recordKwPropEvent_does.mono ?_ fun _ _ => trivial
  rintro _ _ ⟨verdict', rfl, -⟩
  refine ⟨rfl, rfl, by rw [made]; rfl, fun key other => ?_, fun other change own => ?_⟩
  · dsimp only
    rw [made]
    refine (ExtTreeMap.getElem?_write).trans (if_neg ?_)
    rintro rfl
    exact absurd (other rfl) (by simp)
  · split_ifs at own with same
    subst same
    obtain rfl := Option.some.inj own
    refine ⟨row, found, ?_⟩
    dsimp only
    rw [made]
    exact (ExtTreeMap.getElem?_write).trans (if_pos rfl)

/-- What a batch gives a node. -/
def givenTo (rows : List (Job × List UInt32)) (id : NodeId) : Option (Properties → Properties) :=
  (rows.find? fun row => row.1.id = id).map fun row => given row.2 row.1.hash

theorem setCarried_rewrites : Does write (Graph.setProps id (carried v hash))
    (fun _ => Rewrites (fun other => if other = id then some (given v hash) else none) write)
      fun _ => True := by
  refine setProp_rewrites.bind fun _ middle first => ?_
  refine setProp_rewrites.bind fun _ next second => ?_
  refine (first.trans second).congr fun other => ?_
  split_ifs
  · rfl
  · rfl

theorem setVectors_rewrites {rows : List (Job × List UInt32)}
    (once : (rows.map fun row => row.1.id).Nodup) :
    Does write (setVectors rows) (fun _ => Rewrites (givenTo rows) write) fun _ => True := by
  induction rows generalizing write with
  | nil => exact .refl
  | cons row rows ih =>
    obtain ⟨fresh, once⟩ := List.nodup_cons.mp once
    refine setCarried_rewrites.bind fun _ middle first => ?_
    refine (ih once).mono (fun _ next second => ?_) fun _ _ => trivial
    refine (first.trans second).congr fun id => ?_
    unfold givenTo
    rw [List.find?_cons]
    split_ifs with own
    · subst own
      have absent : rows.find? (fun other => other.1.id = row.1.id) = none := by
        rw [List.find?_eq_none]
        intro other among same
        exact fresh (List.mem_map.mpr ⟨other, among, of_decide_eq_true same⟩)
      rw [decide_eq_true rfl, absent]
      rfl
    · rw [decide_eq_false fun same => own same.symm, Option.merge_none_left]

end Transactions

variable {host : Graph.Host} {out : Outside} {db db' : Database} {millis : ℤ} {pass : Pass}
  {work : List Job} {job : Job} {id : NodeId} {rows : List (Job × List UInt32)}
  {texts : List String} {error : Error}

/-- A batch that is committed has rewritten what it was to rewrite. -/
theorem writeBatch_ok (once : (rows.map fun row => row.1.id).Nodup)
    (ran : writeBatch host plane rows db millis = (.ok (), db')) :
    ∃ write, Rewrites (givenTo rows) (db.writeTxn host plane []) write ∧
    db'.tables = write.txn.tables.stamped millis := by
  have does := @setVectors_rewrites _ (db.writeTxn host plane []) rows once
  unfold writeBatch at ran
  rw [Does] at does
  cases set : setVectors rows (db.writeTxn host plane []) with
  | error error write =>
    rw [set] at ran
    cases ran
  | ok result write =>
    rw [set] at ran does
    refine ⟨write, does, ?_⟩
    obtain ⟨seq, txn, sealed, tables⟩ := Graph.sealCommit_eq write millis
    unfold Database.commit at ran
    simp only [sealed] at ran
    obtain ⟨-, rfl⟩ := Prod.mk.inj ran
    have still : write.counters.isEmpty = true := by
      rw [does.counters]
      rfl
    rw [WriteTxn.sealed, WriteTxn.folded, if_pos still] at tables
    exact tables

theorem writeBatch_error (ran : writeBatch host plane rows db millis = (.error error, db')) :
    db' = db := by
  unfold writeBatch at ran
  split at ran
  · exact (Prod.mk.inj ran).2.symm
  · split at ran
    · exact (Prod.mk.inj ran).2.symm
    · cases ran

/-- What is still to be done for a job: its node has the text, and is not up to date with it. -/
structure Recipe.Open (recipe : Recipe) (before now : Tables) (job : Job) : Prop where
  hash : job.hash = textHash recipe.sha256 job.text
  stale : ∃ row, now.nodes[(recipe.plane, job.id)]? = some row ∧
    rowText recipe.machine before row = some job.text ∧
    upToDate row.props job.hash = false

/-- The vectors of jobs. -/
def Recipe.results (recipe : Recipe) (work : List Job) : List (Job × List UInt32) :=
  work.map fun job => (job, recipe.vector job.text)

/-- A node that is still to be embedded is as it was, and becomes what it is to become. -/
theorem Recipe.Partway.open_row (part : recipe.Partway before middle) (quiet : recipe.Quiet before)
    (open_ : recipe.Open before middle job) :
    ∃ row, middle.nodes[(recipe.plane, job.id)]? = some row ∧
      before.nodes[(recipe.plane, job.id)]? = some row ∧
      recipe.embedded before row =
      { row with props := given (recipe.vector job.text) job.hash row.props } := by
  obtain ⟨row, found, content, stale⟩ := open_.stale
  rw [open_.hash] at stale ⊢
  have unsettled : ¬ recipe.Settled before row := fun settled =>
    absurd (settled _ content) (by rw [stale]; exact Bool.false_ne_true)
  obtain ⟨old, here, rfl | rfl⟩ := part.stored found
  · refine ⟨row, found, here, ?_⟩
    obtain ⟨settled, -⟩ | ⟨text, content', -, same⟩ := recipe.embedded_cases before row
    · exact absurd settled unsettled
    · obtain rfl := Option.some.inj (content.symm.trans content')
      exact same
  · exact absurd (Recipe.settled_embedded (quiet _ old here)) unsettled

theorem givenTo_results (once : (work.map Job.id).Nodup) (among : job ∈ work) :
    givenTo (recipe.results work) job.id = some (given (recipe.vector job.text) job.hash) := by
  unfold givenTo Recipe.results
  rw [List.find?_map, Option.map_map]
  have own : work.find? (fun other => other.id = job.id) = some job := by
    cases found : work.find? (fun other => other.id = job.id) with
    | none => exact absurd (List.find?_eq_none.mp found job among) (by simp)
    | some other =>
      have same := List.find?_some found
      rw [List.inj_on_of_nodup_map once (List.mem_of_find?_eq_some found) among
        (of_decide_eq_true same)]
  exact congrArg (Option.map _) own

theorem givenTo_results_none (other : id ∉ work.map Job.id) :
    givenTo (recipe.results work) id = none := by
  unfold givenTo Recipe.results
  rw [Option.map_eq_none_iff, List.find?_eq_none]
  intro row among same
  obtain ⟨job, inside, rfl⟩ := List.mem_map.mp among
  exact other (List.mem_map.mpr ⟨job, inside, of_decide_eq_true same⟩)

/-- **A batch** embeds the nodes of its jobs and leaves the others. -/
theorem Recipe.Partway.batch (part : recipe.Partway before db.tables) (quiet : recipe.Quiet before)
    (once : (work.map Job.id).Nodup) (opens : ∀ job ∈ work, recipe.Open before db.tables job)
    (ran : writeBatch host recipe.plane (recipe.results work) db millis = (.ok (), db')) :
    recipe.Partway before db'.tables ∧
      (∀ id ∉ work.map Job.id, db'.tables.nodes[(recipe.plane, id)]? =
        db.tables.nodes[(recipe.plane, id)]?) ∧
      ∀ id ∈ work.map Job.id, ∀ row, db'.tables.nodes[(recipe.plane, id)]? = some row →
      recipe.Settled before row := by
  have once' : ((recipe.results work).map fun row => row.1.id).Nodup := by
    rwa [Recipe.results, List.map_map]
  obtain ⟨write, rewrites, tables⟩ := writeBatch_ok once' ran
  have nodes : db'.tables.nodes = write.txn.tables.nodes := by rw [tables]; rfl
  have others : ∀ key : Graph.NodeKey, (key.1 = recipe.plane → key.2 ∉ work.map Job.id) →
      db'.tables.nodes[key]? = db.tables.nodes[key]? := by
    intro key other
    rw [nodes]
    exact rewrites.same key fun own => givenTo_results_none (other own)
  have done : ∀ job ∈ work, ∃ row, before.nodes[(recipe.plane, job.id)]? = some row ∧
      db'.tables.nodes[(recipe.plane, job.id)]? = some (recipe.embedded before row) := by
    intro job among
    obtain ⟨row, found, here, same⟩ := part.open_row quiet (opens job among)
    obtain ⟨row', found', new⟩ := rewrites.rows job.id _ (givenTo_results once among)
    obtain rfl := Option.some.inj (found.symm.trans found')
    exact ⟨row, here, by rw [nodes, same]; exact new⟩
  refine ⟨⟨part.beside.trans ?_, ?_, ?_⟩, fun id other => others _ fun _ => other, ?_⟩
  · unfold Beside
    rw [tables, Tables.stamped, rewrites.tables]
    rfl
  · rintro ⟨at_, id⟩
    by_cases worked : at_ = recipe.plane ∧ id ∈ work.map Job.id
    · obtain ⟨rfl, inside⟩ := worked
      obtain ⟨job, among, rfl⟩ := List.mem_map.mp inside
      obtain ⟨row, here, new⟩ := done job among
      exact .inr ⟨row, rfl, here, new⟩
    · rw [others (at_, id) fun own inside => worked ⟨own, inside⟩]
      exact part.rows (at_, id)
  · have same : db'.tables.vectorIndexes = db.tables.vectorIndexes := by
      rw [tables, Tables.stamped, rewrites.tables]
      rfl
    rw [same]
    exact part.indexes
  · intro id inside row found
    obtain ⟨job, among, rfl⟩ := List.mem_map.mp inside
    obtain ⟨old, here, new⟩ := done job among
    obtain rfl := Option.some.inj (new.symm.trans found)
    exact Recipe.settled_embedded (quiet _ old here)

/-! ### A pass -/

/-- The embedder maps each text to one vector: a reply that is not short has the vectors of the
texts. -/
def Outside.Maps (out : Outside) (vector : String → List UInt32) : Prop :=
  ∀ turn texts reply, out.embed turn texts = .ok reply → reply.vectors.length = texts.length →
    reply.vectors = texts.map vector

/-- No node of the plane is to be embedded. -/
def Recipe.Resting (recipe : Recipe) (tables : Tables) : Prop :=
  ∀ (id : NodeId) (row : NodeRow), tables.nodes[(recipe.plane, id)]? = some row →
    recipe.Settled tables row

/-- A pass that has ended, wherever. -/
structure Recipe.Ended (recipe : Recipe) (before : Tables) (pass : Pass) : Prop where
  partway : recipe.Partway before pass.db.tables
  idle : recipe.Resting before → pass.asked = 0 ∧ pass.stats.embedded = 0

/-- A pass that has visited some nodes: each of them is settled or has a job. -/
structure Recipe.Going (recipe : Recipe) (before : Tables) (done : List NodeId) (pass : Pass) :
    Prop where
  ended : recipe.Ended before pass
  rests : recipe.Resting before → pass.work = []
  once : (pass.work.map Job.id).Nodup
  opens : ∀ job ∈ pass.work, recipe.Open before pass.db.tables job
  among : ∀ id ∈ pass.work.map Job.id, id ∈ done
  settled : ∀ id ∈ done, id ∈ pass.work.map Job.id ∨
    ∀ row, pass.db.tables.nodes[(recipe.plane, id)]? = some row → recipe.Settled before row
  labels : ∀ label, label ∈ pass.labels ↔
    ∃ id ∈ done, ∃ row, before.nodes[(recipe.plane, id)]? = some row ∧
    primary recipe.machine before row = some label

theorem storeCall_ends {α : Type} {run : Database → ℤ → Except Error α × Database}
    {returned : α → Pass → Prop}
    {failed : Pass → Prop} (refused : ∀ calls, failed { pass with calls := calls })
    (returns : ∀ result db millis calls, run pass.db millis = (.ok result, db) →
      returned result { pass with calls := calls, db := db })
    (fails : ∀ error db millis calls, run pass.db millis = (.error error, db) →
      failed { pass with calls := calls, db := db }) : EndsIn pass (storeCall out run) returned
        failed := by
  unfold EndsIn storeCall
  cases out.refused pass.calls with
  | some error => exact refused _
  | none =>
    dsimp only
    cases ran : run pass.db (out.clock pass.calls) with
    | mk result db =>
      cases result with
      | ok result => exact returns result db _ _ ran
      | error error => exact fails error db _ _ ran

theorem readCall_ends {α : Type} {read : Database → Except Error α} {returned : α → Pass → Prop}
    {failed : Pass → Prop} (fails : ∀ calls, failed { pass with calls := calls })
    (returns : ∀ result calls, read pass.db = .ok result →
      returned result { pass with calls := calls }) :
    EndsIn pass (readCall out read) returned failed := by
  refine storeCall_ends fails (fun result db _ calls ran => ?_) fun error db _ calls ran => ?_
  · obtain ⟨read, rfl⟩ := Prod.mk.inj ran
    exact returns result calls read
  · obtain ⟨-, rfl⟩ := Prod.mk.inj ran
    exact fails calls

theorem embedCall_ends : EndsIn pass (embedCall out texts)
    (fun reply next => next = { pass with asked := pass.asked + 1 } ∧
      out.embed pass.asked texts = .ok reply)
    (fun next => next = { pass with asked := pass.asked + 1 }) := by
  unfold EndsIn embedCall
  cases answer : out.embed pass.asked texts with
  | ok reply => exact ⟨rfl, rfl⟩
  | error text => rfl

/-- Each job gets the vector of its text. -/
theorem placeVectors_eq {index : List ℕ}
    (stands : List.Forall₂ (fun text i => texts[i]? = some text) (work.map Job.text) index) :
    placeVectors (texts.map recipe.vector) (work.zip index) = .ok (recipe.results work) := by
  rw [List.forall₂_map_left_iff] at stands
  unfold placeVectors Recipe.results
  rw [mapM_eq_ok]
  induction stands with
  | nil => exact .nil
  | @cons job i work index first rest ih =>
    refine .cons ?_ ih
    dsimp only
    rw [List.getElem?_map, first]
    rfl

variable {done : List NodeId} {name : String} {stats : VectorizeStats}

theorem Recipe.Ended.still (ended : recipe.Ended before pass) (calls : ℕ) :
    recipe.Ended before { pass with calls := calls } := ⟨ended.partway, ended.idle⟩

/-- A pass with jobs is not over a plane at rest. -/
theorem Recipe.Going.ended_of_work (going : recipe.Going before done pass) (some_ : pass.work ≠ [])
    {next : Pass} (part : recipe.Partway before next.db.tables) : recipe.Ended before next :=
  ⟨part, fun resting => absurd (going.rests resting) some_⟩

/-- A pass with jobs, after a call of the embedder and with other counts. -/
theorem Recipe.Going.counted (going : recipe.Going before done pass) (some_ : pass.work ≠ [])
    {asked : ℕ} : recipe.Going before done { pass with asked := asked, stats := stats } where
  ended := going.ended_of_work some_ going.ended.partway
  rests := going.rests
  once := going.once
  opens := going.opens
  among := going.among
  settled := going.settled
  labels := going.labels

theorem storeBatch_ends (quiet : recipe.Quiet before) (going : recipe.Going before done pass)
    (some_ : pass.work ≠ []) :
    EndsIn pass (storeBatch host out recipe.plane (recipe.results pass.work))
      (fun _ next => recipe.Going before done next ∧ next.work = []) (recipe.Ended before) := by
  have part := going.ended.partway
  have stored : EndsIn pass (storeCall out (writeBatch host recipe.plane (recipe.results pass.work)))
      (fun _ next => recipe.Going before done { next with work := [] }) (recipe.Ended before) := by
    refine storeCall_ends (fun calls => going.ended.still calls) (fun _ db _ calls ran => ?_)
      fun error db _ calls ran => ?_
    · obtain ⟨part', others, embedded⟩ := part.batch quiet going.once going.opens ran
      refine ⟨going.ended_of_work some_ part', fun _ => rfl, List.nodup_nil, nofun, nofun, ?_,
        going.labels⟩
      intro id inside
      refine .inr fun row found => ?_
      by_cases worked : id ∈ pass.work.map Job.id
      · exact embedded id worked row found
      · exact (going.settled id inside).resolve_left worked row ((others id worked).symm.trans found)
    · rw [writeBatch_error ran]
      exact going.ended.still calls
  refine stored.bind fun _ next held => EndsIn.modify.mono ?_ fun _ ended => ended
  rintro _ _ rfl
  exact ⟨held, rfl⟩

/-- The batch is embedded, and nothing is left to do for the nodes that were visited. -/
theorem embedBatch_ends (maps : out.Maps recipe.vector) (quiet : recipe.Quiet before)
    (going : recipe.Going before done pass) : EndsIn pass (embedBatch host out recipe.plane)
      (fun _ next => recipe.Going before done next ∧ next.work = []) (recipe.Ended before) := by
  unfold embedBatch
  refine EndsIn.get.bind ?_
  rintro _ _ ⟨rfl, rfl⟩
  rename_i pass
  by_cases none' : pass.work = []
  · rw [none']
    exact .pure ⟨going, none'⟩
  rw [if_neg (by simpa using none')]
  have stands := dedup_stands (pass.work.map Job.text)
  generalize dedup (pass.work.map Job.text) = places at stands
  obtain ⟨unique, index⟩ := places
  refine (embedCall_ends.mono (fun _ _ held => held) ?_).bind ?_
  · rintro _ rfl
    exact going.ended_of_work none' going.ended.partway
  rintro reply _ ⟨rfl, answered⟩
  split_ifs with short
  · exact .throw (going.ended_of_work none' going.ended.partway)
  · refine EndsIn.modify.bind ?_
    rintro _ _ rfl
    rw [maps _ _ _ answered (not_not.mp short), placeVectors_eq stands]
    exact storeBatch_ends quiet (going.counted none') none'

variable {id : NodeId} {label : String} {calls : ℕ}

/-- The labels that are noted once a node has been visited. -/
def Recipe.Noted (recipe : Recipe) (before : Tables) (id : NodeId)
    (old new : ExtTreeSet String compare) : Prop :=
  ∀ label, label ∈ new ↔ label ∈ old ∨ ∃ row, before.nodes[(recipe.plane, id)]? = some row ∧
    primary recipe.machine before row = some label

theorem Recipe.Going.noted (going : recipe.Going before done pass)
    {labels : ExtTreeSet String compare}
    (noted : recipe.Noted before id pass.labels labels) (label : String) :
    label ∈ labels ↔ ∃ id' ∈ done ++ [id], ∃ row, before.nodes[(recipe.plane, id')]? = some row ∧
      primary recipe.machine before row = some label := by
  rw [noted, going.labels]
  simp only [List.mem_append, List.mem_singleton, or_and_right, exists_or, exists_eq_left]

/-- A node was visited that is settled, or is not there. -/
theorem Recipe.Going.passed (going : recipe.Going before done pass)
    {labels : ExtTreeSet String compare} (noted : recipe.Noted before id pass.labels labels)
    (settled : ∀ row, pass.db.tables.nodes[(recipe.plane, id)]? = some row → recipe.Settled
      before row)
    (embedded : stats.embedded = pass.stats.embedded) :
    recipe.Going before (done ++ [id])
    { pass with calls := calls, labels := labels, stats := stats } where
  ended := ⟨going.ended.partway, fun resting => by rw [embedded]; exact going.ended.idle resting⟩
  rests := going.rests
  once := going.once
  opens := going.opens
  among := fun id' inside => List.mem_append_left _ (going.among id' inside)
  settled := by
    intro id' inside
    obtain earlier | here := List.mem_append.mp inside
    · exact going.settled id' earlier
    · rw [List.mem_singleton.mp here]
      exact .inr settled
  labels := going.noted noted

/-- A node was visited that is to be embedded. -/
theorem Recipe.Going.queued (going : recipe.Going before done pass)
    {labels : ExtTreeSet String compare} (noted : recipe.Noted before job.id pass.labels labels)
    (fresh : job.id ∉ done) (open_ : recipe.Open before pass.db.tables job)
    (busy : ¬ recipe.Resting before) :
    recipe.Going before (done ++ [job.id])
      { pass with calls := calls, labels := labels, work := pass.work ++ [job] } where
  ended := ⟨going.ended.partway, going.ended.idle⟩
  rests resting := absurd resting busy
  once := by
    rw [List.map_append, List.map_singleton]
    refine List.nodup_append.mpr ⟨going.once, List.nodup_singleton _, ?_⟩
    rintro id inside _ here rfl
    exact fresh (List.mem_singleton.mp here ▸ going.among id inside)
  opens := by
    intro job' inside
    obtain earlier | here := List.mem_append.mp inside
    · exact going.opens job' earlier
    · rw [List.mem_singleton.mp here]
      exact open_
  among := by
    intro id inside
    rw [List.map_append, List.map_singleton] at inside
    exact (List.mem_append.mp inside).elim
      (fun earlier => List.mem_append_left _ (going.among id earlier))
      (List.mem_append_right _)
  settled := by
    intro id inside
    dsimp only
    rw [List.map_append, List.map_singleton]
    obtain earlier | here := List.mem_append.mp inside
    · exact (going.settled id earlier).imp_left (List.mem_append_left _)
    · exact .inl (List.mem_append_right _ here)
  labels := going.noted noted

theorem noteLabel_ends {names : List String} {failed : Pass → Prop} : EndsIn pass (noteLabel names)
    (fun _ next => ∃ labels, next = { pass with labels := labels } ∧
      ∀ label, label ∈ labels ↔ label ∈ pass.labels ∨ names.head? = some label) failed := by
  cases names with
  | nil => exact .pure ⟨pass.labels, rfl, by simp⟩
  | cons primary names =>
    refine EndsIn.modify.mono ?_ fun _ ended => ended
    rintro _ _ rfl
    refine ⟨pass.labels.insert primary, rfl, fun label => ?_⟩
    rw [ExtTreeSet.mem_insert, Std.LawfulEqCmp.compare_eq_iff_eq, List.head?_cons,
      Option.some.injEq, or_comm]

theorem queue_ends (maps : out.Maps recipe.vector) (quiet : recipe.Quiet before)
    (going : recipe.Going before done { pass with work := pass.work ++ [job] }) :
    EndsIn pass (queue host out recipe.plane job) (fun _ => recipe.Going before done)
    (recipe.Ended before) := by
  unfold queue
  refine EndsIn.modify.bind ?_
  rintro _ _ rfl
  refine EndsIn.get.bind ?_
  rintro _ _ ⟨rfl, rfl⟩
  split_ifs
  · exact (embedBatch_ends maps quiet going).mono (fun _ _ held => held.1) fun _ ended => ended
  · exact .pure going

/-- A stored node that is visited: it is settled, or it gets a job. -/
theorem consider_ends (maps : out.Maps recipe.vector) (quiet : recipe.Quiet before)
    (going : recipe.Going before done pass) (fresh : id ∉ done)
    (found : pass.db.tables.nodes[(recipe.plane, id)]? = some row)
    (named : row.labels.mapM (Graph.resolveLabel pass.db.tables) = .ok labels) :
    EndsIn { pass with calls := calls }
      (consider recipe.machine recipe.sha256 host out recipe.plane
        ⟨id, recipe.plane, row.externalKey, labels, row.props⟩)
      (fun _ => recipe.Going before (done ++ [id])) (recipe.Ended before) := by
  have part := going.ended.partway
  obtain ⟨old, here, -, carries, becomes⟩ := part.row_same quiet found
  have content : rowText recipe.machine before row =
      contentText recipe.machine (row.externalKey.getD "") labels row.props := by
    rw [← part.beside.rowText, rowText, named]
  have first : primary recipe.machine before old =
      (contentText recipe.machine (row.externalKey.getD "") labels
        row.props).bind fun _ => labels.head? := by
    rw [← carries, primary, named]
  have noted : ∀ labels' : ExtTreeSet String compare, (∀ label,
      label ∈ labels' ↔ label ∈ pass.labels ∨
      primary recipe.machine before old = some label) → recipe.Noted before id
        pass.labels labels' := by
    intro labels' same label
    rw [same, here]
    simp
  have settled : recipe.Settled before row → ∀ other,
      pass.db.tables.nodes[(recipe.plane, id)]? = some other →
      recipe.Settled before other := by
    intro settled other there
    rwa [← Option.some.inj (found.symm.trans there)]
  unfold consider
  dsimp only
  unfold contentText at content first
  dsimp only at content first
  generalize embeddableText recipe.machine (row.externalKey.getD "") labels row.props = text at *
  by_cases blank : (trim text.toList).isEmpty = true
  · rw [if_pos blank] at content first ⊢
    refine EndsIn.modify.mono ?_ fun _ ended => ended
    rintro _ _ rfl
    refine going.passed (noted pass.labels fun label => ?_) (settled fun text' some_ => ?_) rfl
    · rw [first]
      simp
    · rw [content] at some_
      cases some_
  · rw [if_neg blank] at content first ⊢
    refine noteLabel_ends.bind ?_
    rintro _ _ ⟨labels', rfl, added⟩
    have noted' := noted labels' (by rw [first]; exact added)
    split_ifs with current
    · refine EndsIn.modify.mono ?_ fun _ ended => ended
      rintro _ _ rfl
      refine going.passed noted' (settled fun text' some_ => ?_) rfl
      rw [content] at some_
      obtain rfl := Option.some.inj some_
      exact current
    · rw [Bool.not_eq_true] at current
      have open_ : recipe.Open before pass.db.tables
          ⟨id, capText text, textHash recipe.sha256 (capText text)⟩ :=
        ⟨rfl, row, found, content, current⟩
      have busy : ¬ recipe.Resting before := by
        intro resting
        obtain ⟨row', found', here', -⟩ := part.open_row quiet open_
        obtain rfl := Option.some.inj (found.symm.trans found')
        have stays := resting id row here' _ content
        rw [current] at stays
        cases stays
      exact queue_ends maps quiet (going.queued noted' fresh open_ busy)

theorem visit_ends (maps : out.Maps recipe.vector) (quiet : recipe.Quiet before)
    (going : recipe.Going before done pass) (fresh : id ∉ done) :
    EndsIn pass (visit recipe.machine recipe.sha256 host out recipe.plane id)
      (fun _ => recipe.Going before (done ++ [id])) (recipe.Ended before) := by
  have part := going.ended.partway
  have read : EndsIn pass (readCall out fun db => Graph.getNode db.tables recipe.plane id)
      (fun found next => ∃ calls, next = { pass with calls := calls } ∧
        Graph.getNode pass.db.tables recipe.plane id = .ok found) (recipe.Ended before) :=
    readCall_ends going.ended.still fun found calls got => ⟨calls, rfl, got⟩
  refine read.bind ?_
  rintro found _ ⟨calls, rfl, got⟩
  cases found with
  | none =>
    have absent : pass.db.tables.nodes[(recipe.plane, id)]? = none := by
      cases stored : pass.db.tables.nodes[(recipe.plane, id)]? with
      | none => rfl
      | some row =>
        rw [Graph.getNode, stored] at got
        obtain ⟨labels, -, same⟩ := bind_eq_ok.mp got
        cases same
    have noted : recipe.Noted before id pass.labels pass.labels := by
      refine fun label => ⟨.inl, fun either => either.resolve_right ?_⟩
      rintro ⟨old, here, -⟩
      obtain ⟨row, there⟩ := part.present here
      cases absent.symm.trans there
    exact .pure (going.passed noted (fun row found => by cases absent.symm.trans found) rfl)
  | some node =>
    obtain ⟨row, labels, found, named, rfl⟩ := Graph.getNode_found got
    exact consider_ends maps quiet going fresh found named

/-- Every node of a plane is visited, one after the other. -/
theorem visitAll_ends (maps : out.Maps recipe.vector) (quiet : recipe.Quiet before)
    {ids : List NodeId} (once : ids.Nodup) (going : recipe.Going before [] pass) :
    EndsIn pass (ids.forM (visit recipe.machine recipe.sha256 host out recipe.plane))
      (fun _ => recipe.Going before ids) (recipe.Ended before) := by
  refine EndsIn.forM (recipe.Going before) going fun done id todo now split going => ?_
  refine visit_ends maps quiet going fun earlier => ?_
  rw [split] at once
  exact (List.nodup_append.mp once).2.2 id earlier id List.mem_cons_self rfl

/-! ### The whole pass -/

/-- A declaration that is committed: the index is there, and all else is as it was. -/
structure Ensures (key : Graph.IndexRowKey) (metric : Metric) (before after : Tables) : Prop where
  beside : Beside before after
  nodes : after.nodes = before.nodes
  declared : after.vectorIndexes[key]? = some metric
  same : ∀ other ≠ key, after.vectorIndexes[other]? = before.vectorIndexes[other]?

theorem declared_ensures {key : Graph.IndexRowKey} {declared : Tables}
    (declares : Graph.Declares Tables.vectorIndexes Graph.Write.vectorIndex key metric before
      declared) :
    Ensures key metric before (declared.stamped millis) := by
  obtain ⟨found, rfl⟩ | ⟨-, rfl⟩ := declares
  · exact ⟨rfl, rfl, found, fun _ _ => rfl⟩
  · refine ⟨rfl, rfl, ?_, fun other apart => ?_⟩
    · exact ExtTreeMap.getElem?_insert_self
    · refine ExtTreeMap.getElem?_write.trans (if_neg fun same => apart same.symm)

theorem ensureVectorIndex_ok
    (ran : ensureVectorIndex host plane label "embedding" metric db millis = (.ok (), db')) :
    Ensures (Graph.indexRowKey plane label "embedding") metric db.tables db'.tables := by
  unfold ensureVectorIndex at ran
  split at ran
  · cases ran
  · rename_i declared committed
    obtain ⟨middle, declares, rfl⟩ := Graph.withWrite_ok Graph.declareIndex_runs committed
    split at ran
    · cases ran
    · obtain ⟨-, rfl⟩ := Prod.mk.inj ran
      exact declared_ensures declares

theorem ensureVectorIndex_error
    (ran : ensureVectorIndex host plane label "embedding" metric db millis = (.error error, db')) :
    db' = db ∨ Ensures (Graph.indexRowKey plane label "embedding") metric db.tables db'.tables := by
  unfold ensureVectorIndex at ran
  split at ran
  · exact .inl (Prod.mk.inj ran).2.symm
  · rename_i declared committed
    obtain ⟨middle, declares, rfl⟩ := Graph.withWrite_ok Graph.declareIndex_runs committed
    split at ran
    · obtain ⟨-, rfl⟩ := Prod.mk.inj ran
      exact .inr (declared_ensures declares)
    · cases ran

theorem Recipe.Partway.ensure (part : recipe.Partway before middle) (due : recipe.Due before label)
    (ensures : Ensures (recipe.indexKey label) recipe.metric middle after) :
    recipe.Partway before after where
  beside := part.beside.trans ensures.beside
  rows key := by
    rw [ensures.nodes]
    exact part.rows key
  indexes key := by
    by_cases own : key = recipe.indexKey label
    · exact .inr ⟨label, due, own, own ▸ ensures.declared⟩
    · rw [ensures.same key own]
      exact part.indexes key

/-- A plane on the way is through once every row is settled and every due index declared. -/
theorem Recipe.Partway.complete (part : recipe.Partway before after)
    (settled : ∀ (id : NodeId) row, after.nodes[(recipe.plane, id)]? = some row →
      recipe.Settled before row)
    (declared : ∀ label, recipe.Due before label →
      after.vectorIndexes[recipe.indexKey label]? = some recipe.metric) :
    recipe.Through before after where
  beside := part.beside
  rows := by
    rintro ⟨at_, id⟩
    obtain same | ⟨row, own, here, new⟩ := part.rows (at_, id)
    · rw [same]
      cases here : before.nodes[(at_, id)]? with
      | none => rfl
      | some row =>
        rw [Option.map_some]
        split_ifs with own
        · obtain rfl : at_ = recipe.plane := own
          rw [(settled id row (same.trans here)).embedded]
        · rfl
    · rw [new, here, Option.map_some, if_pos own]
  declared := declared
  undeclared key other := by
    obtain same | ⟨label, due, own, -⟩ := part.indexes key
    · exact same
    · exact absurd own (other label due)

/-- The indexes are ensured, one after the other. -/
theorem ensureAll_ends {names : List String} (due : ∀ label ∈ names, recipe.Due before label)
    (ended : recipe.Ended before pass)
    (settled : ∀ (id : NodeId) row, pass.db.tables.nodes[(recipe.plane, id)]? = some row →
      recipe.Settled before row) :
    EndsIn pass (names.forM fun label =>
        storeCall out (ensureVectorIndex host recipe.plane label "embedding" recipe.metric))
      (fun _ next => recipe.Ended before next ∧
        (∀ (id : NodeId) row, next.db.tables.nodes[(recipe.plane, id)]? = some row →
          recipe.Settled before row) ∧
        ∀ label ∈ names, next.db.tables.vectorIndexes[recipe.indexKey label]? = some recipe.metric)
      (recipe.Ended before) := by
  refine EndsIn.forM (fun done next => recipe.Ended before next ∧
      (∀ (id : NodeId) row, next.db.tables.nodes[(recipe.plane, id)]? = some row →
        recipe.Settled before row) ∧
      ∀ label ∈ done, next.db.tables.vectorIndexes[recipe.indexKey label]? = some recipe.metric)
    ⟨ended, settled, nofun⟩ ?_
  rintro done label todo now split ⟨ended, settled, declared⟩
  have due' : recipe.Due before label :=
    due label (split ▸ List.mem_append_right _ List.mem_cons_self)
  refine storeCall_ends ended.still (fun _ db _ calls ran => ?_) fun error db _ calls ran => ?_
  · have ensures : Ensures (recipe.indexKey label) recipe.metric now.db.tables db.tables :=
      ensureVectorIndex_ok ran
    refine ⟨⟨ended.partway.ensure due' ensures, ended.idle⟩, fun id row found =>
      ?_, fun other inside => ?_⟩
    · dsimp only at found
      rw [ensures.nodes] at found
      exact settled id row found
    · by_cases own : recipe.indexKey other = recipe.indexKey label
      · rw [own]
        exact ensures.declared
      · refine (ensures.same _ own).trans (declared other ((List.mem_append.mp inside).resolve_right
          fun here => ?_))
        exact own (by rw [List.mem_singleton.mp here])
  · obtain rfl | ensures := ensureVectorIndex_error ran
    · exact ended.still calls
    · exact ⟨ended.partway.ensure due' ensures, ended.idle⟩

/-- A pass from a plane that is found under its name: it goes through the plane, or it stops on the
way. -/
theorem vectorizePlane_ends (maps : out.Maps recipe.vector) (quiet : recipe.Quiet db.tables)
    (named : Graph.planeIdByName db.tables name = some recipe.plane) :
    EndsIn (Pass.start db) (vectorizePlane recipe.machine recipe.sha256 host out name recipe.metric)
      (fun stats next => recipe.Ended db.tables next ∧ recipe.Through db.tables next.db.tables ∧
        stats = next.stats)
      (recipe.Ended db.tables) := by
  have start : ∀ calls, recipe.Going db.tables [] { Pass.start db with calls := calls } :=
    fun calls =>
    ⟨⟨.refl, fun _ => ⟨rfl, rfl⟩⟩, fun _ => rfl, List.nodup_nil, nofun, nofun, nofun,
      fun label => by simp [Pass.start]⟩
  have find : EndsIn (Pass.start db) (readCall out (findPlane name))
      (fun plane next => ∃ calls, next = { Pass.start db with calls := calls } ∧ plane = recipe.plane)
      (recipe.Ended db.tables) := by
    refine readCall_ends (fun calls => (start calls).ended) fun plane calls found => ⟨calls, rfl, ?_⟩
    unfold findPlane at found
    rw [show Graph.planeIdByName (Pass.start db).db.tables name =
      some recipe.plane from named] at found
    exact (Except.ok.inj found).symm
  unfold vectorizePlane
  refine find.bind ?_
  rintro plane _ ⟨calls, rfl, rfl⟩
  have scan : EndsIn { Pass.start db with calls := calls }
      (readCall out fun db => .ok (Graph.scanAll db.tables recipe.plane))
      (fun ids next => ∃ calls, next = { Pass.start db with calls := calls } ∧
        ids = Graph.scanAll db.tables recipe.plane) (recipe.Ended db.tables) :=
    readCall_ends (fun calls => (start calls).ended) fun ids calls found =>
      ⟨calls, rfl, (Except.ok.inj found).symm⟩
  refine scan.bind ?_
  rintro ids _ ⟨calls', rfl, rfl⟩
  refine (visitAll_ends maps quiet Graph.nodup_scanAll (start calls')).bind fun _ visited going => ?_
  refine (embedBatch_ends maps quiet going).bind ?_
  rintro _ embedded ⟨going, none'⟩
  refine EndsIn.get.bind ?_
  rintro _ _ ⟨rfl, rfl⟩
  rename_i embedded
  have settled : ∀ (id : NodeId) row, embedded.db.tables.nodes[(recipe.plane, id)]? = some row →
      recipe.Settled db.tables row := by
    intro id row found
    obtain ⟨old, here, -⟩ := going.ended.partway.stored found
    have inside : id ∈ Graph.scanAll db.tables recipe.plane :=
      Graph.mem_scanAll.mpr (ExtTreeMap.mem_iff_isSome_getElem?.mpr (by rw [here]; rfl))
    refine (going.settled id inside).resolve_left ?_ row found
    rw [none']
    exact List.not_mem_nil
  have due : ∀ label ∈ embedded.labels.toList, recipe.Due db.tables label := by
    intro label inside
    obtain ⟨id, -, row, here, carries⟩ := (going.labels label).mp (ExtTreeSet.mem_toList.mp inside)
    exact ⟨id, row, here, carries⟩
  refine (ensureAll_ends due going.ended settled).bind ?_
  rintro _ ensured ⟨ended, settled, declared⟩
  refine EndsIn.modify.bind ?_
  rintro _ _ rfl
  refine EndsIn.get.bind ?_
  rintro _ _ ⟨rfl, rfl⟩
  refine .pure ⟨⟨ended.partway, ended.idle⟩, ended.partway.complete settled
    fun label carried => ?_, rfl⟩
  obtain ⟨id, row, here, carries⟩ := carried
  have inside : id ∈ Graph.scanAll db.tables recipe.plane :=
    Graph.mem_scanAll.mpr (ExtTreeMap.mem_iff_isSome_getElem?.mpr (by rw [here]; rfl))
  exact declared label (ExtTreeSet.mem_toList.mpr ((going.labels label).mpr ⟨id, inside, row,
    here, carries⟩))

/-! ### Exact, resumable, idempotent -/

/-- Every pair of a hash and a vector that the plane holds was made by the embedder from a text, and
the hash tells these texts and those of the nodes apart. -/
structure Recipe.Trusted (recipe : Recipe) (tables : Tables) (texts : Set String) : Prop where
  own : ∀ (id : NodeId) (row : NodeRow) text, tables.nodes[(recipe.plane, id)]? = some row →
    rowText recipe.machine tables row = some text → text ∈ texts
  made : ∀ (id : NodeId) (row : NodeRow) hash v, tables.nodes[(recipe.plane, id)]? = some row →
    valueOf row.props "_embedded_from" = some (.str hash) →
    valueOf row.props "embedding" = some (.vector v) →
      ∃ text ∈ texts, hash = textHash recipe.sha256 text ∧ v = recipe.vector text
  apart : Set.InjOn (textHash recipe.sha256) texts

/-- What a pass does to the nodes of a plane, and that it does nothing else. -/
structure Recipe.Exact (recipe : Recipe) (before after : Tables) : Prop where
  carries : ∀ (id : NodeId) (row : NodeRow) text, after.nodes[(recipe.plane, id)]? = some row →
    rowText recipe.machine after row = some text →
      valueOf row.props "_embedded_from" = some (.str (textHash recipe.sha256 text)) ∧
      ∃ v, valueOf row.props "embedding" = some (.vector v) ∧ (v = recipe.vector text ∨
        before.nodes[(recipe.plane, id)]? = some row)
  trusted : ∀ texts, recipe.Trusted before texts → ∀ (id : NodeId) (row : NodeRow) text,
    after.nodes[(recipe.plane, id)]? = some row → rowText recipe.machine after row = some text →
      valueOf row.props "embedding" = some (.vector (recipe.vector text))
  kept : ∀ (key : Graph.NodeKey) (row : NodeRow), before.nodes[key]? = some row →
    ∃ row', after.nodes[key]? = some row' ∧
    row'.externalKey = row.externalKey ∧ row'.labels = row.labels ∧
    ∀ name, name ≠ "embedding" → name ≠ "_embedded_from" → row'.props[name]? = row.props[name]?
  untouched : ∀ key : Graph.NodeKey, (key.1 = recipe.plane → ∀ row, before.nodes[key]? = some row →
    rowText recipe.machine before row = none) → after.nodes[key]? = before.nodes[key]?
  beside : Beside before after

theorem Recipe.Through.stored (through : recipe.Through before after)
    (found : after.nodes[(recipe.plane, id)]? = some row) :
    ∃ old, before.nodes[(recipe.plane, id)]? = some old ∧ recipe.embedded before old = row := by
  rw [through.rows] at found
  obtain ⟨old, here, same⟩ := Option.map_eq_some_iff.mp found
  rw [if_pos rfl] at same
  exact ⟨old, here, same⟩

/-- The text of a node of a plane that was gone through is the one that the node had. -/
theorem Recipe.Through.text (through : recipe.Through before after) (quiet : recipe.Quiet before)
    {text : String} (found : after.nodes[(recipe.plane, id)]? = some row)
    (content : rowText recipe.machine after row = some text) :
    ∃ old, before.nodes[(recipe.plane, id)]? = some old ∧
      rowText recipe.machine before old = some text ∧
      (upToDate old.props (textHash recipe.sha256 text) = true ∧ row = old ∨
        row = { old with props := given (recipe.vector text) (textHash
          recipe.sha256 text) old.props }) := by
  obtain ⟨old, here, rfl⟩ := through.stored found
  rw [through.beside.rowText, Recipe.rowText_embedded (quiet id old here)] at content
  refine ⟨old, here, content, ?_⟩
  obtain ⟨settled, same⟩ | ⟨text', content', -, same⟩ := recipe.embedded_cases before old
  · exact .inl ⟨settled text content, same⟩
  · obtain rfl := Option.some.inj (content.symm.trans content')
    exact .inr same

theorem valueOf_given : valueOf (given v hash props) "embedding" = some (.vector v) ∧
    valueOf (given v hash props) "_embedded_from" = some (.str hash) := by
  unfold valueOf
  rw [getElem?_given_embedding, getElem?_given_hash]
  exact ⟨rfl, rfl⟩

theorem Recipe.Through.exact (through : recipe.Through before after) (quiet : recipe.Quiet before) :
    recipe.Exact before after where
  carries := by
    intro id row text found content
    obtain ⟨old, here, -, ⟨current, rfl⟩ | rfl⟩ := through.text quiet found content
    · obtain ⟨stored, v, carried⟩ := upToDate_iff.mp current
      exact ⟨stored, v, carried, .inr here⟩
    · exact ⟨valueOf_given.2, _, valueOf_given.1, .inl rfl⟩
  trusted := by
    intro texts trust id row text found content
    obtain ⟨old, here, content', ⟨current, rfl⟩ | rfl⟩ := through.text quiet found content
    · obtain ⟨stored, v, carried⟩ := upToDate_iff.mp current
      obtain ⟨source, among, same, rfl⟩ := trust.made id row _ v here stored carried
      rw [trust.apart (trust.own id row text here content') among same]
      exact carried
    · exact valueOf_given.1
  kept := by
    intro key row here
    refine ⟨_, by rw [through.rows, here]; rfl, ?_⟩
    dsimp only
    split_ifs
    · obtain ⟨-, same⟩ | ⟨text, -, -, same⟩ := recipe.embedded_cases before row
      · rw [same]
        exact ⟨rfl, rfl, fun _ _ _ => rfl⟩
      · rw [same]
        refine ⟨rfl, rfl, fun name other other' => ?_⟩
        dsimp only
        rw [given_eq, ExtTreeMap.getElem?_insert, if_neg, ExtTreeMap.getElem?_insert, if_neg]
        · exact fun same => other (Std.LawfulEqCmp.eq_of_compare same).symm
        · exact fun same => other' (Std.LawfulEqCmp.eq_of_compare same).symm
    · exact ⟨rfl, rfl, fun _ _ _ => rfl⟩
  untouched := by
    intro key blank
    rw [through.rows]
    cases here : before.nodes[key]? with
    | none => rfl
    | some row =>
      rw [Option.map_some]
      split_ifs with own
      · have settled : recipe.Settled before row := fun text content => by
          rw [blank own row here] at content
          cases content
        rw [settled.embedded]
      · rfl
  beside := through.beside

/-- A pass over a database. -/
def Recipe.run (recipe : Recipe) (host : Graph.Host) (name : String) (out : Outside) (db : Database) :
    EStateM.Result Stop Pass VectorizeStats :=
  vectorizePlane recipe.machine recipe.sha256 host out name recipe.metric (Pass.start db)

/-- A database over which passes have failed, at any of their batches or elsewhere. -/
inductive Recipe.Failures (recipe : Recipe) (host : Graph.Host) (name : String) (db : Database) :
    Database → Prop where
  | none : Failures recipe host name db db
  | again {earlier : Database} {out : Outside} {stop : Stop} {pass : Pass}
      (failures : Failures recipe host name db earlier) (maps : out.Maps recipe.vector)
      (failed : recipe.run host name out earlier = .error stop pass) : Failures recipe host
        name db pass.db

theorem Recipe.run_ok (maps : out.Maps recipe.vector) (quiet : recipe.Quiet db.tables)
    (named : Graph.planeIdByName db.tables name = some recipe.plane)
    (ran : recipe.run host name out db = .ok stats pass) :
    recipe.Ended db.tables pass ∧ recipe.Through db.tables pass.db.tables ∧ stats = pass.stats := by
  have ends := @vectorizePlane_ends recipe host out db name maps quiet named
  unfold EndsIn at ends
  rwa [show vectorizePlane _ _ _ _ _ _ _ = _ from ran] at ends

theorem Recipe.run_error {stop : Stop} (maps : out.Maps recipe.vector)
    (quiet : recipe.Quiet db.tables)
    (named : Graph.planeIdByName db.tables name = some recipe.plane)
    (ran : recipe.run host name out db = .error stop pass) : recipe.Ended db.tables pass := by
  have ends := @vectorizePlane_ends recipe host out db name maps quiet named
  unfold EndsIn at ends
  rwa [show vectorizePlane _ _ _ _ _ _ _ = _ from ran] at ends

theorem Recipe.Partway.named (part : recipe.Partway before after)
    (named : Graph.planeIdByName before name = some recipe.plane) :
    Graph.planeIdByName after name = some recipe.plane := by
  rw [part.beside]
  exact named

/-- Failed passes leave the plane on the way. -/
theorem Recipe.Failures.partway (failures : recipe.Failures host name db db')
    (quiet : recipe.Quiet db.tables)
    (named : Graph.planeIdByName db.tables name = some recipe.plane) :
    recipe.Partway db.tables db'.tables := by
  induction failures with
  | none => exact .refl
  | again failures maps failed ih =>
    exact ih.trans quiet (Recipe.run_error maps (ih.quiet quiet) (ih.named named) failed).partway

/-- **Vectorizing is exact, resumable and idempotent**, on a plane that keeps no text under the name
of the vector: a pass that returns, after any passes that failed, leaves exactly what is due and
what a pass without failures leaves, and another one embeds nothing. -/
theorem vectorize_exact (recipe : Recipe) (host : Graph.Host) (name : String) {db db' : Database}
    (named : Graph.planeIdByName db.tables name = some recipe.plane) (quiet : recipe.Quiet db.tables)
    (failures : recipe.Failures host name db db') {out : Outside} {stats : VectorizeStats}
    {pass : Pass}
    (maps : out.Maps recipe.vector) (ran : recipe.run host name out db' = .ok stats pass) :
    recipe.Exact db.tables pass.db.tables ∧
      (∀ out' stats' pass', out'.Maps recipe.vector →
        recipe.run host name out' db = .ok stats' pass' →
        unstamped pass.db.tables = unstamped pass'.db.tables) ∧
      (∀ out' stats' pass', out'.Maps recipe.vector →
        recipe.run host name out' pass.db = .ok stats' pass' →
        stats'.embedded = 0 ∧ pass'.asked = 0 ∧
        unstamped pass'.db.tables = unstamped pass.db.tables) ∧
      ∀ out' stop pass', out'.Maps recipe.vector →
      recipe.run host name out' pass.db = .error stop pass' →
        pass'.asked = 0 ∧ pass'.stats.embedded = 0 := by
  have part := failures.partway quiet named
  obtain ⟨ended, through, -⟩ := Recipe.run_ok maps (part.quiet quiet) (part.named named) ran
  have whole : recipe.Through db.tables pass.db.tables := part.through quiet through
  have part' : recipe.Partway db.tables pass.db.tables := part.trans quiet ended.partway
  have resting : recipe.Resting pass.db.tables := fun id row found => whole.settled quiet found
  refine ⟨whole.exact quiet, fun out' stats' pass' maps' ran' =>
    ?_, fun out' stats' pass' maps' ran' => ?_,
    fun out' stop pass' maps' ran' => ?_⟩
  · obtain ⟨-, through', -⟩ := Recipe.run_ok maps' quiet named ran'
    exact whole.unique through'
  · obtain ⟨ended', through', rfl⟩ := Recipe.run_ok maps' (part'.quiet quiet) (part'.named named) ran'
    obtain ⟨asked, embedded⟩ := ended'.idle resting
    exact ⟨embedded, asked, (part'.through quiet through').unique whole⟩
  · exact (Recipe.run_error maps' (part'.quiet quiet) (part'.named named) ran').idle resting

/-! ### A plane of one node -/

/-- A plane called `p` with one node that has a key and these properties. -/
def noteDb (props : Properties) : Database where
  tables := { Tables.empty with
    planeNames := (∅ : ExtTreeMap String PlaneId compare).insert "p" 1
    nodes := (∅ : ExtTreeMap Graph.NodeKey NodeRow compare).insert (1, 4) ⟨some "k", [], props⟩ }
  vectors := ∅
  keywords := ∅
  madeNodes := []
  madeEdges := []

/-- A recipe for planes without numbers: the vector of a text has its characters. -/
def noteRecipe : Recipe where
  machine := {
    toTies := .steady
    add := fun a _ => a
    sub := fun a _ => a
    mul := fun a _ => a
    div := fun a _ => a
    max := fun a _ => a
    neg := fun a => a
    sqrt := fun a => a
    dot := fun _ _ => 0
    level := fun _ _ => 0
    l2sq := fun _ _ => 0
    add64 := fun a _ => a
    sub64 := fun a _ => a
    mul64 := fun a _ => a
    div64 := fun a _ => a
    widen := fun _ => 0
    text64 := fun _ => "" }
  sha256 text := text
  vector text := text.toList.map Char.val
  plane := 1
  metric := .cosine

/-- Everything goes well. -/
def fine : Outside :=
  ⟨fun _ => none, fun turn => turn, fun _ texts => .ok ⟨texts.map noteRecipe.vector, 0⟩⟩

/-- The embedder does not answer. -/
def unreachable : Outside := { fine with embed := fun _ _ => .error "timeout" }

def noteRun (out : Outside) (db : Database) : EStateM.Result Stop Pass VectorizeStats :=
  noteRecipe.run ⟨1, fun _ _ => []⟩ "p" out db

def embeddedBy : EStateM.Result Stop Pass VectorizeStats → Option ℕ
  | .ok stats _ => some stats.embedded
  | .error _ _ => none

def leftBy : EStateM.Result Stop Pass VectorizeStats → Database
  | .ok _ pass => pass.db
  | .error _ pass => pass.db

def vectorIn (db : Database) : Option (List UInt32) :=
  (db.tables.nodes[((1, 4) : Graph.NodeKey)]?).bind fun row =>
    (valueOf row.props "embedding").bind PropValue.asVector

theorem fine_maps : fine.Maps noteRecipe.vector := by
  intro turn texts reply answered _
  obtain rfl := Except.ok.inj answered
  rfl

theorem vectorize_exact_note :
    ∃ stop failed stats pass, noteRun unreachable (noteDb ∅) = .error stop failed ∧
    noteRun fine failed.db = .ok stats pass ∧ noteRecipe.Exact (noteDb ∅).tables pass.db.tables := by
  have fails : embeddedBy (noteRun unreachable (noteDb ∅)) = none := by decide
  have returns : embeddedBy (noteRun fine (leftBy (noteRun unreachable (noteDb ∅)))) = some 1 := by
    decide +kernel
  cases first : noteRun unreachable (noteDb ∅) with
  | ok stats pass =>
    rw [first] at fails
    cases fails
  | error stop failed =>
    rw [first] at returns
    cases second : noteRun fine failed.db with
    | error stop' failed' =>
      rw [leftBy, second] at returns
      cases returns
    | ok stats pass =>
      have quiet : noteRecipe.Quiet (noteDb ∅).tables := by
        intro id row found desc text
        rw [show (noteDb ∅).tables.nodes = (∅ : ExtTreeMap Graph.NodeKey NodeRow compare).insert (1,
          4)
          ⟨some "k", [], ∅⟩ from rfl, ExtTreeMap.getElem?_insert] at found
        split_ifs at found
        · obtain rfl := Option.some.inj found
          cases text
        · cases found
      have silence : unreachable.Maps noteRecipe.vector := fun _ _ _ answered => nomatch answered
      exact ⟨stop, failed, stats, pass, rfl, second,
        (vectorize_exact noteRecipe _ "p" rfl quiet (.again .none silence first) fine_maps second).1⟩

/-- The node keeps text under the name of the vector. -/
def textDb : Database := noteDb ((∅ : Properties).insert "embedding" (.mk none (.str "x")))

/-- The node has a vector that is not the embedder's beside the hash of its text. -/
def foreignDb : Database :=
  noteDb (((∅ : Properties).insert "embedding" (.mk none (.vector [7]))).insert
  "_embedded_from" (.mk none (.str (textHash noteRecipe.sha256 "k"))))

/-- Text under the name of the vector is embedded with the node and then lost, so that a second pass
embeds the node again; and a vector beside the right hash is kept, whoever put it there. -/
theorem vectorize_repeats : fine.Maps noteRecipe.vector ∧
    embeddedBy (noteRun fine textDb) = some 1 ∧
    embeddedBy (noteRun fine (leftBy (noteRun fine textDb))) = some 1 ∧
    embeddedBy (noteRun fine foreignDb) = some 0 ∧
    vectorIn (leftBy (noteRun fine foreignDb)) = some [7] ∧
    ((foreignDb.tables.nodes[((1, 4) : Graph.NodeKey)]?).bind fun row =>
      rowText noteRecipe.machine foreignDb.tables row) = some "k" ∧ noteRecipe.vector "k" ≠ [7] := by
  refine ⟨fine_maps, ?_, ?_, ?_, ?_, ?_, ?_⟩
  · decide +kernel
  · decide +kernel
  · with_unfolding_all decide
  · with_unfolding_all decide
  · with_unfolding_all decide
  · with_unfolding_all decide

end DrStrange.Llm
