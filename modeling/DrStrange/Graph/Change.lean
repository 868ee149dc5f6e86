/-
**The changes a write transaction is made of.**

A transaction works on a `World`: the tables it sees, the ids it has set aside for records still to
be written, and the ids of the records it has made. Every graph function is a chain of a few kinds
of change, each with what the code has checked when it makes it (`Change`). An invariant of the
store is kept by every transaction if each kind of change keeps it.
-/

import DrStrange.Graph.Runs

namespace DrStrange.Graph

open Std Lib ExtTreeMap

/-- What a write transaction sees, has set aside, and has made. -/
structure World where
  tables : Tables
  freeNodes : Set ℕ
  freeEdges : Set ℕ
  madeNodes : List NodeId
  madeEdges : List EdgeId

variable {plane : PlaneId} {world : World} {after : Tables} {start count : ℕ}

/-- One change to the rows of `plane`, or to counters and dictionaries. -/
inductive Change (plane : PlaneId) : World → World → Prop where
  | grow {world : World} {after : Tables} (growth : Growth world.tables after) :
      Change plane world { world with tables := after }
  | reserveNodes {world : World} {start count : ℕ}
      (found : world.tables.next .node = some start) :
      Change plane world { world with
        tables := world.tables.apply (.next .node (start + count))
        freeNodes := world.freeNodes ∪ Set.Ico start (start + count) }
  | reserveEdges {world : World} {start count : ℕ}
      (found : world.tables.next .edge = some start) :
      Change plane world { world with
        tables := world.tables.apply (.next .edge (start + count))
        freeEdges := world.freeEdges ∪ Set.Ico start (start + count) }
  | forget {world : World} {fewer less : Set ℕ} (subset : fewer ⊆ world.freeNodes)
      (subset' : less ⊆ world.freeEdges) :
      Change plane world { world with freeNodes := fewer, freeEdges := less }
  | insertNode {world : World} {id : NodeId} {row : NodeRow} (free : id ∈ world.freeNodes)
      (unclaimed : takenKey world.tables plane row.externalKey = none)
      (named : ∀ label ∈ row.labels, label ∈ world.tables.dictNames .label) :
      Change plane world { world with
        tables := world.tables.applyAll (nodeWrites plane id row)
        freeNodes := world.freeNodes \ {id}
        madeNodes := world.madeNodes ++ [id] }
  | rewriteNode {world : World} {id : NodeId} {row : NodeRow} (props : Properties)
      (found : world.tables.nodes[(plane, id)]? = some row) :
      Change plane world { world with
        tables := world.tables.apply (.node (plane, id) (some { row with props := props })) }
  | relabel {world : World} {id : NodeId} {row : NodeRow} {labels : List ℕ}
      (found : world.tables.nodes[(plane, id)]? = some row)
      (named : ∀ label ∈ labels, label ∈ world.tables.dictNames .label) :
      Change plane world { world with
        tables := world.tables.applyAll (relabelWrites plane id row labels) }
  | removeNode {world : World} {id : NodeId} {row : NodeRow}
      (found : world.tables.nodes[(plane, id)]? = some row)
      (apart : ∀ (edge : EdgeId) (other : EdgeRow),
        world.tables.edges[(plane, edge)]? = some other → other.src ≠ id ∧ other.dst ≠ id) :
      Change plane world { world with tables := world.tables.withoutNode plane id row }
  | insertEdge {world : World} {id : EdgeId} {row : EdgeRow} (free : id ∈ world.freeEdges)
      (src : (plane, row.src) ∈ world.tables.nodes) (dst : (plane, row.dst) ∈ world.tables.nodes)
      (named : row.ty ∈ world.tables.dictNames .edgeType) :
      Change plane world { world with
        tables := world.tables.applyAll (edgeWrites plane id row)
        freeEdges := world.freeEdges \ {id}
        madeEdges := world.madeEdges ++ [id] }
  | rewriteEdge {world : World} {id : EdgeId} {row : EdgeRow} (props : Properties)
      (found : world.tables.edges[(plane, id)]? = some row) :
      Change plane world { world with
        tables := world.tables.apply (.edge (plane, id) (some { row with props := props })) }
  | retype {world : World} {id : EdgeId} {row : EdgeRow} {ty : ℕ}
      (found : world.tables.edges[(plane, id)]? = some row)
      (named : ty ∈ world.tables.dictNames .edgeType) :
      Change plane world { world with
        tables := world.tables.applyAll (retypeWrites plane id row ty) }
  | removeEdge {world : World} (id : EdgeId) :
      Change plane world { world with
        tables := world.tables.applyAll (edgeDeletes world.tables plane id) }

/-- Changes one after the other. -/
abbrev Changes (plane : PlaneId) : World → World → Prop := Relation.ReflTransGen (Change plane)

/-- Growth is a chain of changes. -/
theorem Grows.changes (grows : Grows world.tables after) :
    Changes plane world { world with tables := after } := by
  induction grows with
  | refl => exact .refl
  | @tail middle after _ growth ih =>
    exact ih.tail (@Change.grow plane { world with tables := middle } after growth)

/-- Node ids set aside, then names. -/
theorem reservedNodes_changes (found : world.tables.next .node = some start)
    (grows : Grows (world.tables.apply (.next .node (start + count))) after) :
    Changes plane world { world with
      tables := after
      freeNodes := world.freeNodes ∪ Set.Ico start (start + count) } :=
  .head (Change.reserveNodes found) (Grows.changes grows)

/-- Edge ids set aside, then names. -/
theorem reservedEdges_changes (found : world.tables.next .edge = some start)
    (grows : Grows (world.tables.apply (.next .edge (start + count))) after) :
    Changes plane world { world with
      tables := after
      freeEdges := world.freeEdges ∪ Set.Ico start (start + count) } :=
  .head (Change.reserveEdges found) (Grows.changes grows)

/-! ### Soundness -/

/-- The ids of the records made are handed out, not in reserve, and no two of them are the same. -/
structure Handed (tables : Tables) (counter : Counter) (free : Set ℕ) (made : List ℕ) : Prop where
  nodup : made.Nodup
  below : ∀ id ∈ made, tables.Below counter id
  used : ∀ id ∈ made, id ∉ free

/-- The tables are sound for the ids set aside, and what was made has ids of its own. -/
structure World.Sound (world : World) : Prop where
  tables : Graph.Sound world.freeNodes world.freeEdges world.tables
  nodes : Handed world.tables .node world.freeNodes world.madeNodes
  edges : Handed world.tables .edge world.freeEdges world.madeEdges

variable {tables after : Tables} {counter : Counter} {free fewer less : Set ℕ} {made nodes : List ℕ}
  {id : ℕ} {next : World} {row : NodeRow} {dict : Dict} {name : String}

theorem Handed.mono (handed : Handed tables counter free made)
    (below : ∀ id, tables.Below counter id → after.Below counter id) (subset : fewer ⊆ free) :
    Handed after counter fewer made where
  nodup := handed.nodup
  below id member := below id (handed.below id member)
  used id member inside := handed.used id member (subset inside)

/-- A reservation sets aside ids that nothing has been given. -/
theorem Handed.reserve (handed : Handed tables counter free made)
    (found : tables.next counter = some start) :
    Handed (tables.apply (.next counter (start + count))) counter
      (free ∪ Set.Ico start (start + count)) made where
  nodup := handed.nodup
  below id member := (handed.below id member).next found
  used id member := by
    rintro (inside | inside)
    · exact handed.used id member inside
    · have below := (handed.below id member).lt found
      exact absurd inside.1 (by omega)

/-- Records made under ids that were set aside and no longer are. -/
theorem Handed.make {ids : List ℕ} (handed : Handed tables counter free made) (nodup : ids.Nodup)
    (inside : ∀ id ∈ ids, id ∈ free) (below : ∀ id ∈ free, tables.Below counter id)
    (kept : ∀ id, tables.Below counter id → after.Below counter id) (subset : fewer ⊆ free)
    (gone : ∀ id ∈ ids, id ∉ fewer) : Handed after counter fewer (made ++ ids) where
  nodup := by
    rw [List.nodup_append]
    refine ⟨handed.nodup, nodup, ?_⟩
    rintro id member _ new rfl
    exact handed.used id member (inside id new)
  below id member := by
    rcases List.mem_append.mp member with old | new
    · exact kept id (handed.below id old)
    · exact kept id (below id (inside id new))
  used id member := by
    rcases List.mem_append.mp member with old | new
    · exact fun still => handed.used id old (subset still)
    · exact gone id new

/-- Growth keeps tables sound. -/
theorem Growth.sound {nodes edges : Set ℕ} (growth : Growth tables after)
    (sound : Graph.Sound nodes edges tables) : Graph.Sound nodes edges after := by
  cases growth with
  | name unknown found narrow => exact sound.newName found narrow unknown
  | spent count found => exact sound.next found count

/-- Growth takes no id back. -/
theorem Growth.below (growth : Growth tables after) (below : tables.Below counter id) :
    after.Below counter id := by
  cases growth with
  | name _ found _ => exact Tables.Below.next found below
  | spent _ found => exact Tables.Below.next found below

/-- Counters that stay take no id back. -/
theorem Tables.Below.same (below : tables.Below counter id) (counters : after.next = tables.next) :
    after.Below counter id := by
  rwa [Tables.Below, counters]

/-- What was made has ids of its own, and no id is handed out or in reserve that the counters have
not passed. -/
structure World.Issued (world : World) : Prop where
  nodes : Handed world.tables .node world.freeNodes world.madeNodes
  edges : Handed world.tables .edge world.freeEdges world.madeEdges
  freeNodes : ∀ id ∈ world.freeNodes, world.tables.Below .node id
  freeEdges : ∀ id ∈ world.freeEdges, world.tables.Below .edge id

theorem World.Sound.issued (sound : world.Sound) : world.Issued :=
  ⟨sound.nodes, sound.edges, sound.tables.freeNodes, sound.tables.freeEdges⟩

theorem World.Issued.mono (issued : world.Issued)
    (below : ∀ counter id, world.tables.Below counter id → after.Below counter id)
    (subset : fewer ⊆ world.freeNodes) (subset' : less ⊆ world.freeEdges) :
    World.Issued { world with tables := after, freeNodes := fewer, freeEdges := less } where
  nodes := issued.nodes.mono (below .node) subset
  edges := issued.edges.mono (below .edge) subset'
  freeNodes id inside := below .node id (issued.freeNodes id (subset inside))
  freeEdges id inside := below .edge id (issued.freeEdges id (subset' inside))

/-- Records made under ids set aside, by writes that touch no counter. -/
theorem World.Issued.make {world : World} {nodes edges : List ℕ} {fewer less : Set ℕ}
    (issued : world.Issued) (counters : after.next = world.tables.next)
    (nodup : nodes.Nodup) (inside : ∀ id ∈ nodes, id ∈ world.freeNodes ∧ id ∉ fewer)
    (nodup' : edges.Nodup) (inside' : ∀ id ∈ edges, id ∈ world.freeEdges ∧ id ∉ less)
    (subset : fewer ⊆ world.freeNodes) (subset' : less ⊆ world.freeEdges) :
    World.Issued
      ⟨after, fewer, less, world.madeNodes ++ nodes, world.madeEdges ++ edges⟩ where
  nodes := issued.nodes.make nodup (fun id member => (inside id member).1) issued.freeNodes
    (fun _ below => below.same counters) subset fun id member => (inside id member).2
  edges := issued.edges.make nodup' (fun id member => (inside' id member).1) issued.freeEdges
    (fun _ below => below.same counters) subset' fun id member => (inside' id member).2
  freeNodes id member := (issued.freeNodes id (subset member)).same counters
  freeEdges id member := (issued.freeEdges id (subset' member)).same counters

theorem World.Issued.write {world : World} (issued : world.Issued)
    (counters : after.next = world.tables.next) : World.Issued { world with tables := after } :=
  issued.mono (fun _ _ below => below.same counters) subset_rfl subset_rfl

theorem World.Issued.change (issued : world.Issued) (change : Change plane world next) :
    next.Issued := by
  cases change with
  | grow growth => exact issued.mono (fun _ _ => growth.below) subset_rfl subset_rfl
  | reserveNodes found =>
    refine ⟨issued.nodes.reserve found, issued.edges.mono
      (fun _ below => below.next found) subset_rfl,
      ?_, fun id inside => (issued.freeEdges id inside).next found⟩
    rintro id (inside | inside)
    · exact (issued.freeNodes id inside).next found
    · exact Tables.below_of_reserved inside
  | reserveEdges found =>
    refine ⟨issued.nodes.mono (fun _ below => below.next found) subset_rfl,
      issued.edges.reserve found,
      fun id inside => (issued.freeNodes id inside).next found, ?_⟩
    rintro id (inside | inside)
    · exact (issued.freeEdges id inside).next found
    · exact Tables.below_of_reserved inside
  | forget subset subset' => exact issued.mono (fun _ _ below => below) subset subset'
  | @insertNode id row free =>
    have single : ∀ made ∈ [id], made ∈ world.freeNodes ∧ made ∉ world.freeNodes \ {id} := by
      simpa using free
    have counters : (world.tables.applyAll (nodeWrites plane id row)).next = world.tables.next := by
      rw [applyAll_nodeWrites]
    simpa using issued.make counters (List.nodup_singleton id) single List.nodup_nil
      (List.forall_mem_nil _) Set.sdiff_subset subset_rfl
  | @insertEdge id row free =>
    have single : ∀ made ∈ [id], made ∈ world.freeEdges ∧ made ∉ world.freeEdges \ {id} := by
      simpa using free
    have counters : (world.tables.applyAll (edgeWrites plane id row)).next = world.tables.next := by
      rw [applyAll_edgeWrites]
    simpa using issued.make counters List.nodup_nil (List.forall_mem_nil _) (List.nodup_singleton id)
      single subset_rfl Set.sdiff_subset
  | rewriteNode | removeNode | rewriteEdge => exact issued.write rfl
  | relabel => exact issued.write (by rw [applyAll_relabelWrites])
  | retype => exact issued.write (by rw [applyAll_retypeWrites])
  | removeEdge id =>
    refine issued.write ?_
    rw [applyAll_edgeDeletes]
    cases world.tables.edges[(plane, id)]? <;> rfl

/-- Rows written that touch no counter. -/
theorem World.Sound.write {world : World} (sound : world.Sound)
    (written : Graph.Sound world.freeNodes world.freeEdges after)
    (counters : after.next = world.tables.next) :
    World.Sound { world with tables := after } :=
  ⟨written, (sound.issued.write counters).nodes, (sound.issued.write counters).edges⟩

theorem World.Sound.change (sound : world.Sound) (change : Change plane world next) :
    next.Sound := by
  have issued := sound.issued.change change
  refine ⟨?_, issued.nodes, issued.edges⟩
  cases change with
  | grow growth => exact growth.sound sound.tables
  | reserveNodes found => exact sound.tables.reserveNodes found
  | reserveEdges found => exact sound.tables.reserveEdges found
  | forget subset subset' => exact sound.tables.mono subset subset'
  | insertNode free unclaimed named => exact sound.tables.insertNode free unclaimed named
  | rewriteNode props found => exact sound.tables.rewriteNode found props
  | relabel found named => exact sound.tables.relabel found named
  | removeNode found apart => exact sound.tables.removeNode found apart
  | insertEdge free src dst named => exact sound.tables.insertEdge free src dst named
  | rewriteEdge props found => exact sound.tables.rewriteEdge found props
  | retype found named => exact sound.tables.retype found named
  | removeEdge id => exact sound.tables.removeEdge plane id

theorem World.Sound.changes (sound : world.Sound) (changes : Changes plane world next) :
    next.Sound := by
  induction changes with
  | refl => exact sound
  | tail _ change ih => exact ih.change change

/-! ### What is stored was made -/

/-- Every record in the tables is one of those made. -/
structure World.Recorded (world : World) : Prop where
  nodes : ∀ (plane : PlaneId) (id : NodeId), (plane, id) ∈ world.tables.nodes → id ∈ world.madeNodes
  edges : ∀ (plane : PlaneId) (id : EdgeId), (plane, id) ∈ world.tables.edges → id ∈ world.madeEdges

/-- Rows that only go keep what is stored among what was made. -/
theorem World.Recorded.of_subset (recorded : world.Recorded)
    (nodes : ∀ key ∈ after.nodes, key ∈ world.tables.nodes)
    (edges : ∀ key ∈ after.edges, key ∈ world.tables.edges) :
    World.Recorded { world with tables := after } :=
  ⟨fun plane id member => recorded.nodes plane id (nodes _ member),
    fun plane id member => recorded.edges plane id (edges _ member)⟩

theorem World.Recorded.change (recorded : world.Recorded) (change : Change plane world next) :
    next.Recorded := by
  cases change with
  | grow growth =>
    have grows : Grows world.tables _ := .single growth
    exact recorded.of_subset (by simp [grows.nodes_eq]) (by simp [grows.edges_eq])
  | reserveNodes | reserveEdges | forget => exact ⟨recorded.nodes, recorded.edges⟩
  | @insertNode id row =>
    simp only [applyAll_nodeWrites]
    refine ⟨fun p node member => ?_, recorded.edges⟩
    rw [mem_write] at member
    have old := recorded.nodes p node
    grind
  | rewriteNode props found =>
    exact recorded.of_subset (fun _ => mem_of_mem_write found) (fun _ member => member)
  | relabel found =>
    refine recorded.of_subset ?_ ?_ <;> rw [applyAll_relabelWrites]
    · exact fun _ => mem_of_mem_write found
    · exact fun _ member => member
  | removeNode found =>
    exact recorded.of_subset (fun _ => mem_of_mem_write found) (fun _ member => member)
  | @insertEdge id row =>
    simp only [applyAll_edgeWrites]
    refine ⟨recorded.nodes, fun p edge member => ?_⟩
    rw [mem_write] at member
    have old := recorded.edges p edge
    grind
  | rewriteEdge props found =>
    exact recorded.of_subset (fun _ member => member) (fun _ => mem_of_mem_write found)
  | retype found =>
    refine recorded.of_subset ?_ ?_ <;> rw [applyAll_retypeWrites]
    · exact fun _ member => member
    · exact fun _ => mem_of_mem_write found
  | removeEdge id =>
    refine recorded.of_subset ?_ ?_ <;> rw [applyAll_edgeDeletes] <;>
      cases found : world.tables.edges[(plane, id)]?
    · exact fun _ member => member
    · exact fun _ member => member
    · exact fun _ member => member
    · exact fun _ => mem_of_mem_write found

theorem World.Recorded.changes (recorded : world.Recorded) (changes : Changes plane world next) :
    next.Recorded := by
  induction changes with
  | refl => exact recorded
  | tail _ change ih => exact ih.change change

/-! ### What no change touches -/

/-- Tables that differ in rows of the graph, dictionaries and counters of ids only. -/
def Tables.SameMeta (before after : Tables) : Prop :=
  after = { before with
    next := after.next, dictIds := after.dictIds, dictNames := after.dictNames,
    nodes := after.nodes, nodePlane := after.nodePlane, labelIdx := after.labelIdx,
    extKeys := after.extKeys, edges := after.edges, adj := after.adj }

theorem Tables.SameMeta.trans {first second third : Tables} (one : first.SameMeta second)
    (two : second.SameMeta third) : first.SameMeta third := by
  rw [Tables.SameMeta] at *
  rw [two, one]

theorem Tables.SameMeta.magic {before : Tables} (same : before.SameMeta after) :
    after.magic = before.magic := by
  rw [same]

theorem Tables.SameMeta.grows {before after : Tables} (grows : Grows before after) :
    before.SameMeta after := by
  rw [grows.records]
  rfl

theorem Change.sameMeta (change : Change plane world next) : world.tables.SameMeta next.tables := by
  cases change with
  | grow growth =>
    exact Tables.SameMeta.grows (.single growth)
  | reserveNodes | reserveEdges | forget | rewriteNode | removeNode | rewriteEdge => rfl
  | insertNode =>
    rw [applyAll_nodeWrites]
    rfl
  | relabel =>
    rw [applyAll_relabelWrites]
    rfl
  | insertEdge =>
    rw [applyAll_edgeWrites]
    rfl
  | retype =>
    rw [applyAll_retypeWrites]
    rfl
  | removeEdge id =>
    rw [applyAll_edgeDeletes]
    cases world.tables.edges[(plane, id)]? <;> rfl

theorem Changes.sameMeta (changes : Changes plane world next) :
    world.tables.SameMeta next.tables := by
  induction changes with
  | refl => rfl
  | tail _ change ih => exact ih.trans change.sameMeta

/-! ### Ids alone -/

/-- What was made has ids of its own and what is stored was made, in a store of this format. Nothing
is said of what the rows hold. -/
structure World.Numbered (world : World) : Prop where
  issued : world.Issued
  recorded : world.Recorded
  magic : world.tables.magic = some magicBytes

theorem World.Numbered.changes (numbered : world.Numbered) (changes : Changes plane world next) :
    next.Numbered where
  issued := by
    induction changes with
    | refl => exact numbered.issued
    | tail _ change ih => exact ih.change change
  recorded := numbered.recorded.changes changes
  magic := changes.sameMeta.magic.trans numbered.magic

theorem World.Numbered.grows {world : World} (numbered : world.Numbered)
    (grows : Grows world.tables after) : World.Numbered { world with tables := after } :=
  numbered.changes (grows.changes : Changes 0 world _)

/-- Rows written under no other new ids than these, and no counter touched. -/
structure Tables.Adds (nodes edges : List ℕ) (before after : Tables) : Prop where
  next : after.next = before.next
  magic : after.magic = before.magic
  nodes : ∀ key ∈ after.nodes, key ∈ before.nodes ∨ key.2 ∈ nodes
  edges : ∀ key ∈ after.edges, key ∈ before.edges ∨ key.2 ∈ edges

theorem Tables.Adds.refl : tables.Adds [] [] tables :=
  ⟨rfl, rfl, fun _ member => .inl member, fun _ member => .inl member⟩

theorem Tables.Adds.trans {middle : Tables} {nodes' edges edges' : List ℕ}
    (one : tables.Adds nodes edges middle) (two : middle.Adds nodes' edges' after) :
    tables.Adds (nodes ++ nodes') (edges ++ edges') after where
  next := two.next.trans one.next
  magic := two.magic.trans one.magic
  nodes key member := by
    rw [List.mem_append, ← or_assoc]
    exact (two.nodes key member).imp_left (one.nodes key)
  edges key member := by
    rw [List.mem_append, ← or_assoc]
    exact (two.edges key member).imp_left (one.edges key)

/-- New rows under ids that were set aside. -/
theorem World.Numbered.adds {edges : List ℕ} (numbered : world.Numbered)
    (adds : world.tables.Adds nodes edges after) (nodup : nodes.Nodup)
    (inside : ∀ id ∈ nodes, id ∈ world.freeNodes ∧ id ∉ fewer) (nodup' : edges.Nodup)
    (inside' : ∀ id ∈ edges, id ∈ world.freeEdges ∧ id ∉ less) (subset : fewer ⊆ world.freeNodes)
    (subset' : less ⊆ world.freeEdges) :
    World.Numbered
      ⟨after, fewer, less, world.madeNodes ++ nodes, world.madeEdges ++ edges⟩ where
  issued := numbered.issued.make adds.next nodup inside nodup' inside' subset subset'
  recorded.nodes p id member :=
    List.mem_append.mpr ((adds.nodes (p, id) member).imp_left (numbered.recorded.nodes p id))
  recorded.edges p id member :=
    List.mem_append.mpr ((adds.edges (p, id) member).imp_left (numbered.recorded.edges p id))
  magic := adds.magic.trans numbered.magic

/-- Rows written over others, or taken out. -/
theorem World.Numbered.rows (numbered : world.Numbered) (adds : world.tables.Adds [] [] after) :
    World.Numbered { world with tables := after } := by
  simpa using numbered.adds adds List.nodup_nil (List.forall_mem_nil _) List.nodup_nil
    (List.forall_mem_nil _) subset_rfl subset_rfl

theorem Tables.Adds.insertNode {row : NodeRow} :
    tables.Adds [id] [] (tables.applyAll (nodeWrites plane id row)) := by
  rw [applyAll_nodeWrites]
  refine ⟨rfl, rfl, fun key member => ?_, fun _ member => .inl member⟩
  rw [mem_write] at member
  grind

theorem Tables.Adds.insertEdge {row : EdgeRow} :
    tables.Adds [] [id] (tables.applyAll (edgeWrites plane id row)) := by
  rw [applyAll_edgeWrites]
  refine ⟨rfl, rfl, fun _ member => .inl member, fun key member => ?_⟩
  rw [mem_write] at member
  grind

/-- A node written under an id that was set aside. -/
theorem World.Numbered.makeNode (numbered : world.Numbered) (inside : id ∈ world.freeNodes)
    (gone : id ∉ fewer) (subset : fewer ⊆ world.freeNodes)
    (written : after = world.tables.applyAll (nodeWrites plane id row)) :
    World.Numbered { world with
      tables := after
      freeNodes := fewer
      madeNodes := world.madeNodes ++ [id] } := by
  subst written
  simpa using numbered.adds .insertNode (List.nodup_singleton id)
    (List.forall_mem_singleton.mpr ⟨inside, gone⟩) List.nodup_nil (List.forall_mem_nil _) subset
    subset_rfl

/-- An edge written under an id that was set aside. -/
theorem World.Numbered.makeEdge {row : EdgeRow} (numbered : world.Numbered)
    (inside : id ∈ world.freeEdges) (gone : id ∉ less) (subset : less ⊆ world.freeEdges)
    (written : after = world.tables.applyAll (edgeWrites plane id row)) :
    World.Numbered { world with
      tables := after
      freeEdges := less
      madeEdges := world.madeEdges ++ [id] } := by
  subst written
  simpa using numbered.adds .insertEdge List.nodup_nil (List.forall_mem_nil _)
    (List.nodup_singleton id)
    (List.forall_mem_singleton.mpr ⟨inside, gone⟩) subset_rfl subset

theorem Tables.Adds.relabel {row : NodeRow} {labels : List ℕ}
    (found : tables.nodes[(plane, id)]? = some row) :
    tables.Adds [] [] (tables.applyAll (relabelWrites plane id row labels)) := by
  rw [applyAll_relabelWrites]
  exact ⟨rfl, rfl, fun _ member => .inl (mem_of_mem_write found member), fun _ member => .inl member⟩

theorem Tables.Adds.retype {row : EdgeRow} {ty : ℕ} (found : tables.edges[(plane, id)]? = some row) :
    tables.Adds [] [] (tables.applyAll (retypeWrites plane id row ty)) := by
  rw [applyAll_retypeWrites]
  exact ⟨rfl, rfl, fun _ member => .inl member, fun _ member => .inl (mem_of_mem_write found member)⟩

theorem Tables.Adds.withoutNode (found : tables.nodes[(plane, id)]? = some row) :
    tables.Adds [] [] (tables.withoutNode plane id row) :=
  ⟨rfl, rfl, fun _ member => .inl (mem_of_mem_write found member), fun _ member => .inl member⟩

/-- A change leaves the nodes of other planes alone. -/
theorem Change.nodes_off {world next : World} (change : Change plane world next) {key : NodeKey}
    (off : key.1 ≠ plane) : next.tables.nodes[key]? = world.tables.nodes[key]? := by
  have apart : ∀ id, (plane, id) ≠ key := by
    rintro id rfl
    exact off rfl
  cases change with
  | grow growth =>
    have grows : Grows world.tables _ := .single growth
    rw [grows.nodes_eq]
  | reserveNodes | reserveEdges | forget | rewriteEdge => rfl
  | insertNode => rw [applyAll_nodeWrites, getElem?_write, if_neg (apart _)]
  | rewriteNode => rw [Tables.apply, getElem?_write, if_neg (apart _)]
  | relabel => rw [applyAll_relabelWrites, getElem?_write, if_neg (apart _)]
  | removeNode => rw [Tables.withoutNode, getElem?_write, if_neg (apart _)]
  | insertEdge => rw [applyAll_edgeWrites]
  | retype => rw [applyAll_retypeWrites]
  | removeEdge id =>
    rw [applyAll_edgeDeletes]
    cases world.tables.edges[(plane, id)]? <;> rfl

theorem Changes.nodes_off {world next : World} (changes : Changes plane world next) {key : NodeKey}
    (off : key.1 ≠ plane) : next.tables.nodes[key]? = world.tables.nodes[key]? := by
  induction changes with
  | refl => rfl
  | tail _ change ih => exact (change.nodes_off off).trans ih

/-- A change leaves the edges of other planes alone. -/
theorem Change.edges_off {world next : World} (change : Change plane world next) {key : EdgeKey}
    (off : key.1 ≠ plane) : next.tables.edges[key]? = world.tables.edges[key]? := by
  have apart : ∀ id, (plane, id) ≠ key := by
    rintro id rfl
    exact off rfl
  cases change with
  | grow growth =>
    have grows : Grows world.tables _ := .single growth
    rw [grows.edges_eq]
  | reserveNodes | reserveEdges | forget | rewriteNode | removeNode => rfl
  | insertNode => rw [applyAll_nodeWrites]
  | relabel => rw [applyAll_relabelWrites]
  | insertEdge => rw [applyAll_edgeWrites, getElem?_write, if_neg (apart _)]
  | rewriteEdge => rw [Tables.apply, getElem?_write, if_neg (apart _)]
  | retype => rw [applyAll_retypeWrites, getElem?_write, if_neg (apart _)]
  | removeEdge id =>
    rw [applyAll_edgeDeletes]
    cases world.tables.edges[(plane, id)]? with
    | none => rfl
    | some row => exact getElem?_write.trans (if_neg (apart _))

theorem Changes.edges_off {world next : World} (changes : Changes plane world next) {key : EdgeKey}
    (off : key.1 ≠ plane) : next.tables.edges[key]? = world.tables.edges[key]? := by
  induction changes with
  | refl => rfl
  | tail _ change ih => exact (change.edges_off off).trans ih

/-- A name once given to an id stays its name. -/
theorem Growth.named {nodes edges : Set ℕ} (growth : Growth tables after)
    (sound : Graph.Sound nodes edges tables) (known : (tables.dictNames dict)[id]? = some name) :
    (after.dictNames dict)[id]? = some name := by
  cases growth with
  | @name other fresh number unknown found =>
    by_cases same : dict = other
    · subst same
      have apart : number ≠ id := by
        rintro rfl
        exact nomatch (sound.unnamed found).symm.trans known
      simpa [internWrites, Tables.apply, getElem?_insert, apart] using known
    · simpa [internWrites, Tables.apply, Function.update_of_ne same] using known
  | spent => exact known

theorem World.Sound.named (sound : world.Sound) (changes : Changes plane world next)
    (known : (world.tables.dictNames dict)[id]? = some name) :
    (next.tables.dictNames dict)[id]? = some name := by
  induction changes with
  | refl => exact known
  | @tail middle _ before change ih =>
    have sound' := sound.changes before
    cases change with
    | grow growth => exact growth.named sound'.tables ih
    | reserveNodes | reserveEdges | forget | rewriteNode | removeNode | rewriteEdge => exact ih
    | insertNode => rwa [applyAll_nodeWrites]
    | relabel => rwa [applyAll_relabelWrites]
    | insertEdge => rwa [applyAll_edgeWrites]
    | retype => rwa [applyAll_retypeWrites]
    | removeEdge edge =>
      rw [applyAll_edgeDeletes]
      cases middle.tables.edges[(plane, edge)]? <;> exact ih

/-! ### Graph functions as chains of changes -/

section Chains

variable {world : World} {named : Tables} {key : Option String} {labels : List String}
  {ids : List ℕ} {props : Properties} {edges : List EdgeId} {edge : EdgeId} {ty : String}

/-- A sound world stays sound while names are interned. -/
theorem World.Sound.grows (sound : world.Sound) (grows : Grows world.tables named) :
    World.Sound { world with tables := named } :=
  sound.changes (grows.changes : Changes 0 world _)

/-- The ids a dictionary has for names are named. -/
theorem Tables.Names.mem {names : List String} (known : tables.Names dict names ids)
    (inverse : Inverse (tables.dictIds dict) (tables.dictNames dict)) :
    ∀ id ∈ ids, id ∈ tables.dictNames dict := by
  induction known with
  | nil => exact fun id member => nomatch member
  | @cons name id _ _ found _ ih =>
    rintro other (_ | ⟨_, member⟩)
    · exact mem_of_getElem? ((inverse name id).mp found)
    · exact ih other member

theorem insertNode_changes (sound : world.Sound) (free : id ∈ world.freeNodes)
    (unclaimed : takenKey world.tables plane key = none) (grows : Grows world.tables named)
    (known : named.Names .label labels ids)
    (written : after = named.applyAll (nodeWrites plane id ⟨key, ids, props⟩)) :
    Changes plane world { world with
      tables := after
      freeNodes := world.freeNodes \ {id}
      madeNodes := world.madeNodes ++ [id] } := by
  subst written
  have inverse := (sound.grows grows).tables.exact.dict .label
  refine grows.changes.tail ?_
  exact @Change.insertNode plane { world with tables := named } id ⟨key, ids, props⟩ free
    (by rwa [grows.takenKey]) (known.mem inverse)

theorem relabel_changes (sound : world.Sound) (found : world.tables.nodes[(plane, id)]? = some row)
    (grows : Grows world.tables named) (known : named.Names .label labels ids) :
    Changes plane world { world with
      tables := named.applyAll (relabelWrites plane id row ids) } := by
  have inverse := (sound.grows grows).tables.exact.dict .label
  refine grows.changes.tail ?_
  exact @Change.relabel plane { world with tables := named } id row ids
    (by rwa [grows.nodes_eq]) (known.mem inverse)

theorem insertEdge_changes {row : EdgeRow} (sound : world.Sound)
    (written : after = named.applyAll (edgeWrites plane id row)) (free : id ∈ world.freeEdges)
    (src : (plane, row.src) ∈ world.tables.nodes) (dst : (plane, row.dst) ∈ world.tables.nodes)
    (grows : Grows world.tables named) (known : (named.dictIds .edgeType)[ty]? = some row.ty) :
    Changes plane world { world with
      tables := after
      freeEdges := world.freeEdges \ {id}
      madeEdges := world.madeEdges ++ [id] } := by
  subst written
  have inverse := (sound.grows grows).tables.exact.dict .edgeType
  refine grows.changes.tail ?_
  exact @Change.insertEdge plane { world with tables := named } id row free
    (by rwa [grows.nodes_eq]) (by rwa [grows.nodes_eq])
    (mem_of_getElem? ((inverse ty row.ty).mp known))

theorem retype_changes {row : EdgeRow} {number : ℕ} (sound : world.Sound)
    (found : world.tables.edges[(plane, id)]? = some row) (grows : Grows world.tables named)
    (known : (named.dictIds .edgeType)[ty]? = some number) :
    Changes plane world { world with
      tables := named.applyAll (retypeWrites plane id row number) } := by
  have inverse := (sound.grows grows).tables.exact.dict .edgeType
  refine grows.changes.tail ?_
  exact @Change.retype plane { world with tables := named } id row number
    (by rwa [grows.edges_eq]) (mem_of_getElem? ((inverse ty number).mp known))

/-- The edges of a list taken out, one after the other. -/
theorem withoutEdges_changes :
    Changes plane world { world with tables := world.tables.withoutEdges plane edges } := by
  induction edges generalizing world with
  | nil => exact .refl
  | cons edge edges ih =>
    exact .head (Change.removeEdge edge)
      (@ih { world with tables := world.tables.applyAll (edgeDeletes world.tables plane edge) })

/-- What taking edges out leaves alone: everything but edges and adjacency. -/
theorem withoutEdges_records {edges : List EdgeId} :
    tables.withoutEdges plane edges = { tables with
      edges := (tables.withoutEdges plane edges).edges
      adj := (tables.withoutEdges plane edges).adj } := by
  induction edges generalizing tables with
  | nil => rfl
  | cons edge edges ih =>
    rw [Tables.withoutEdges, List.foldl_cons, ← Tables.withoutEdges, ih, applyAll_edgeDeletes]
    cases tables.edges[(plane, edge)]? <;> rfl

theorem withoutEdges_edges {p : PlaneId} :
    (tables.withoutEdges plane edges).edges[(p, edge)]? =
      if p = plane ∧ edge ∈ edges then none else tables.edges[(p, edge)]? := by
  induction edges generalizing tables with
  | nil => simp [Tables.withoutEdges]
  | cons first edges ih =>
    rw [Tables.withoutEdges, List.foldl_cons, ← Tables.withoutEdges, ih, applyAll_edgeDeletes]
    cases found : tables.edges[(plane, first)]? with
    | none => grind
    | some row =>
      simp only [Option.elim_some, getElem?_write]
      grind

/-- Every edge that touches a node is found from the node. -/
theorem Exact.incident (exact : Exact tables) {row : EdgeRow}
    (found : tables.edges[(plane, edge)]? = some row) (side : Side) (touches : row.near side = id) :
    edge ∈ incidentEdges tables plane id := by
  have entry := (exact.adj side plane id row.ty (row.far side) edge).mpr
    ⟨row, found, touches, rfl, rfl⟩
  rw [incidentEdges, List.mem_dedup, List.mem_mergeSort, List.mem_flatMap]
  refine ⟨side, by cases side <;> simp,
    List.mem_map.mpr ⟨(plane, id, row.ty, row.far side, edge), ?_, rfl⟩⟩
  simpa [adjEntries] using entry

/-- A node deleted is its edges taken out, then the node. -/
theorem deleteNode_changes (sound : world.Sound)
    (found : world.tables.nodes[(plane, id)]? = some row) :
    Changes plane world { world with tables := world.tables.deleteNode plane id row } := by
  have cleared : Changes plane world { world with
      tables := world.tables.withoutEdges plane (incidentEdges world.tables plane id) } :=
    withoutEdges_changes
  refine cleared.tail ?_
  refine @Change.removeNode plane { world with
    tables := world.tables.withoutEdges plane (incidentEdges world.tables plane id) } id row
    (by rw [withoutEdges_records, found]) ?_
  intro edge other present
  rw [withoutEdges_edges] at present
  split at present
  · cases present
  · rename_i clear
    refine ⟨fun src => clear ⟨rfl, ?_⟩, fun dst => clear ⟨rfl, ?_⟩⟩
    · exact sound.tables.exact.incident present .fwd src
    · exact sound.tables.exact.incident present .rev dst

/-- A node and the edges found at it deleted, whatever else touches it. -/
theorem World.Numbered.deleteNode (numbered : world.Numbered)
    (found : world.tables.nodes[(plane, id)]? = some row) :
    World.Numbered { world with tables := world.tables.deleteNode plane id row } := by
  have cleared : World.Numbered { world with
      tables := world.tables.withoutEdges plane (incidentEdges world.tables plane id) } :=
    numbered.changes (withoutEdges_changes : Changes plane world _)
  exact cleared.rows (.withoutNode (by rw [withoutEdges_records, found]))

end Chains

end DrStrange.Graph
