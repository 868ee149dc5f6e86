/-
**What mirroring leaves in the registries.**

A registry shows values if every declared index holds the images of its own (`Shows`); a fresh one
shows what is due. Mirroring replays over these values, for each node whose row the batch wrote, what
is due for it after the batch. A node whose row was not written has nothing else due than before,
as long as the batch leaves the store sound and keeps the names of the labels. So a batch that fits
its replica leaves both registries as a rebuild would make them (`mirrorReplicated_fresh`).
-/

import DrStrange.Api.Isolation
import DrStrange.Api.Replica

namespace DrStrange.Graph

open Std Lib ExtTreeMap

variable {tables after : Tables} {plane : PlaneId} {label property : String} {nodes edges : Set ℕ}
  {α σ ε γ : Type} {id node : NodeId} {setting : σ} {kind : IndexKind α σ ε}
  {contents : kind.Contents γ} {registry : Registry ε} {host : Host} {ops : List Write}
  {rows : ExtTreeMap IndexRowKey σ compare} {work : ReplicatedIndexWork} {record : NodeRecord}
  {key : NodeKey}

/-! ### What a batch names -/

theorem ReplicatedIndexWork.mem_nodes_foldl :
    key ∈ (ops.foldl ReplicatedIndexWork.add work).nodes ↔
      key ∈ work.nodes ∨ ∃ row, .node key row ∈ ops := by
  induction ops generalizing work with
  | nil => simp
  | cons op ops ih =>
    rw [List.foldl_cons, ih]
    cases op with
    | node other row =>
      simp only [add]
      split
      · rename_i known
        simp only [List.mem_cons, Write.node.injEq]
        grind
      · simp only [List.mem_append, List.mem_cons, Write.node.injEq]
        grind
    | plane other row => cases row <;> simp [add]
    | _ => simp [add]

theorem ReplicatedIndexWork.declarations_foldl :
    (ops.foldl ReplicatedIndexWork.add work).declarationsChanged = false ↔
      work.declarationsChanged = false ∧ (∀ key metric, .vectorIndex key metric ∉ ops) ∧
        ∀ key language, .keywordIndex key language ∉ ops := by
  induction ops generalizing work with
  | nil => simp
  | cons op ops ih =>
    rw [List.foldl_cons, ih]
    cases op with
    | node other row =>
      simp only [add]
      split <;> simp
    | plane other row => cases row <;> simp [add]
    | vectorIndex key metric =>
      simp only [add, Bool.true_eq_false, false_and, false_iff]
      exact fun ⟨_, clean, _⟩ => clean key metric List.mem_cons_self
    | keywordIndex key language =>
      simp only [add, Bool.true_eq_false, false_and, false_iff]
      exact fun ⟨_, _, clean⟩ => clean key language List.mem_cons_self
    | _ => simp [add]

theorem ReplicatedIndexWork.mem_dropped_foldl :
    plane ∈ (ops.foldl ReplicatedIndexWork.add work).droppedPlanes ↔
      plane ∈ work.droppedPlanes ∨ .plane plane none ∈ ops := by
  induction ops generalizing work with
  | nil => simp
  | cons op ops ih =>
    rw [List.foldl_cons, ih]
    cases op with
    | node other row =>
      simp only [add]
      split <;> simp
    | plane other row => cases row <;> simp [add, or_assoc]
    | _ => simp [add]

/-- A node whose row is not written keeps it. -/
theorem nodes_untouched (untouched : ∀ row, .node key row ∉ ops) :
    (tables.applyAll ops).nodes[key]? = tables.nodes[key]? := by
  induction ops generalizing tables with
  | nil => rfl
  | cons op ops ih =>
    rw [Tables.applyAll_cons, ih fun row member => untouched row (List.mem_cons_of_mem _ member)]
    cases op with
    | node other row =>
      have apart : other ≠ key := fun same => untouched row (same ▸ List.mem_cons_self)
      show (tables.nodes.write other row)[key]? = _
      rw [getElem?_write, if_neg apart]
    | _ => rfl

theorem vectorIndexes_untouched (untouched : ∀ key metric, .vectorIndex key metric ∉ ops) :
    (tables.applyAll ops).vectorIndexes = tables.vectorIndexes := by
  induction ops generalizing tables with
  | nil => rfl
  | cons op ops ih =>
    rw [Tables.applyAll_cons,
      ih fun key metric member => untouched key metric (List.mem_cons_of_mem _ member)]
    cases op with
    | vectorIndex key metric => exact absurd List.mem_cons_self (untouched key metric)
    | _ => rfl

theorem keywordIndexes_untouched (untouched : ∀ key language, .keywordIndex key language ∉ ops) :
    (tables.applyAll ops).keywordIndexes = tables.keywordIndexes := by
  induction ops generalizing tables with
  | nil => rfl
  | cons op ops ih =>
    rw [Tables.applyAll_cons,
      ih fun key language member => untouched key language (List.mem_cons_of_mem _ member)]
    cases op with
    | keywordIndex key language => exact absurd List.mem_cons_self (untouched key language)
    | _ => rfl

/-! ### Registries that show values -/

/-- What is seen of an index that holds the images of values. -/
def IndexKind.Contents.showing (contents : kind.Contents γ) (setting : σ)
    (values : NodeId → Option α) :
    σ × (NodeId → Option γ) :=
  (setting, fun id => (values id).bind (contents.image setting))

/-- Values of every index there could be. -/
abbrev IndexValues (α : Type) := PlaneId → String → String → NodeId → Option α

/-- Each declared index is there and holds the images of its values, and no other index is. -/
def Shows (contents : kind.Contents γ) (rows : ExtTreeMap IndexRowKey σ compare)
    (registry : Registry ε) (values : IndexValues α) : Prop :=
  ∀ (plane : PlaneId) (label property : String),
    (registry[(plane, label, property)]?).map contents.view =
      (declaredSetting rows plane label property).map fun setting =>
        contents.showing setting (values plane label property)

theorem Shows.congr {values other : IndexValues α} (shows : Shows contents rows registry values)
    (same : ∀ plane label property, values plane label property = other plane label property) :
    Shows contents rows registry other := by
  intro plane label property
  rw [← same]
  exact shows plane label property

/-- A registry is fresh just in case it shows what is due. -/
theorem shows_due_iff (sound : Sound nodes edges tables) (parsed : Parsed (kind.rows tables)) :
    Shows contents (kind.rows tables) registry (tables.due kind.read) ↔
      Fresh contents tables registry := by
  obtain ⟨rebuilt, made, seen⟩ := rebuildFrom_sound contents sound parsed
  constructor
  · intro shows
    refine ⟨rebuilt, made, fun ⟨plane, label, property⟩ => ?_⟩
    rw [seen]
    exact shows plane label property
  · rintro ⟨other, made', same⟩ plane label property
    obtain rfl := Except.ok.inj (made.symm.trans made')
    rw [same, seen]
    rfl

theorem IndexKind.Contents.moved_showing {values : NodeId → Option α}
    {updates : List (NodeId × Option α)} :
    contents.moved (contents.showing setting values) updates =
      contents.showing setting (replay values updates) :=
  Prod.ext rfl (@replay_map _ _ _ values updates _ fun value : Option α =>
    value.bind (contents.image setting))

/-- Events are replayed over the values. -/
theorem Shows.applyEvents {values : IndexValues α} (shows : Shows contents rows registry values)
    (plane : PlaneId) (events : List (IndexEvent α)) :
    Shows contents rows (applyEvents kind plane registry events) fun p label property =>
      replay (values p label property) (updatesAt plane (p, label, property) events) := by
  intro p label property
  rw [view_applyEvents, shows p label property, Option.map_map]
  refine congrArg (Option.map · _) (funext fun setting => ?_)
  exact contents.moved_showing

theorem Shows.mem_declared {values : IndexValues α} (shows : Shows contents rows registry values)
    (known : declaredSetting rows plane label property = some setting) :
    (label, property, setting) ∈ declared kind registry plane := by
  have seen := shows plane label property
  rw [known, Option.map_some, Option.map_eq_some_iff] at seen
  obtain ⟨entry, installed, view⟩ := seen
  exact Graph.mem_declared.mpr ⟨entry, installed, congrArg Prod.fst view⟩

/-! ### One node -/

theorem removeNode_eq :
    removeNode kind registry node = Graph.applyEvents kind plane registry [.removeNode node] := rfl

theorem Shows.removeNode {values : IndexValues α} (shows : Shows contents rows registry values)
    (node : NodeId) :
    Shows contents rows (removeNode kind registry node) fun plane label property =>
      Function.update (values plane label property) node none := by
  rw [@removeNode_eq 0]
  exact shows.applyEvents 0 _

/-- The loop over the declared indexes is the upserts of the record as events. -/
theorem insertRecord_eq :
    insertRecord kind registry plane record = Graph.applyEvents kind plane registry
      (declEvents (declared kind registry plane) record.id fun label property =>
        if label ∈ record.labels then (indexed kind.read record.properties property).map some
        else none) := by
  unfold insertRecord Graph.applyEvents declEvents
  rw [List.foldl_filterMap]
  refine congrArg (List.foldl · registry _) (funext fun registry => funext fun decl => ?_)
  obtain ⟨label, property, setting⟩ := decl
  by_cases carried : label ∈ record.labels
  · simp only [if_pos carried]
    cases indexed kind.read record.properties property <;> rfl
  · simp only [if_neg carried]
    rfl

/-- Upserts of a plane tell the indexes of no other plane anything. -/
theorem updatesAt_declEvents_off {key : IndexKey} {decls : List (String × String × σ)}
    {verdict : String → String → Option (Option α)} (off : key.1 ≠ plane) :
    updatesAt plane key (declEvents decls node verdict) = [] := by
  refine List.eq_nil_iff_forall_not_mem.mpr fun update member => ?_
  obtain ⟨-, removed⟩ := mem_updatesAt_off off member
  exact (node_of_declEvents removed).2 _ rfl

/-- A node taken out everywhere and put back as it reads leaves what is due for it. -/
theorem Shows.rederive {values : IndexValues α} (shows : Shows contents rows registry values)
    (sound : Sound nodes edges after) (read : getNode after plane node = .ok (some record))
    (apart : ∀ other, (other, node) ∈ after.nodes → other = plane) :
    Shows contents rows (insertRecord kind (Graph.removeNode kind registry node) plane record)
      fun p label property =>
        Function.update (values p label property) node
          (after.due kind.read p label property node) := by
  obtain ⟨row, stored⟩ : ∃ row, after.nodes[(plane, node)]? = some row := by
    cases stored : after.nodes[(plane, node)]? with
    | none =>
      rw [getNode_absent stored] at read
      cases read
    | some row => exact ⟨row, rfl⟩
  rw [sound.getNode stored] at read
  obtain rfl := Option.some.inj (Except.ok.inj read)
  have removed := shows.removeNode node
  rw [insertRecord_eq]
  have moved := removed.applyEvents plane
    (declEvents (declared kind (Graph.removeNode kind registry node) plane) node
      fun label property => if label ∈ after.labelsOf row then
        (indexed kind.read row.props property).map some else none)
  intro p label property
  refine (moved p label property).trans ?_
  cases known : declaredSetting rows p label property with
  | none => rfl
  | some setting =>
    refine congrArg (fun values => some (contents.showing setting values)) ?_
    by_cases own : p = plane
    · subst own
      beta_reduce
      rw [updatesAt_own, replay_declEvents (removed.mem_declared known)]
      simp only [Tables.due, stored, Option.bind_some]
      split
      · cases indexed kind.read row.props property <;> simp
      · rfl
    · have absent : after.nodes[(p, node)]? = none := by
        rw [getElem?_eq_none_iff]
        exact fun member => own (apart p member)
      beta_reduce
      rw [updatesAt_declEvents_off own, replay_nil, due_absent absent]

/-- A node that reads back as absent has nothing due. -/
theorem Shows.forget {values : IndexValues α} (shows : Shows contents rows registry values)
    (absent : after.nodes[(plane, node)]? = none)
    (apart : ∀ other, (other, node) ∈ after.nodes → other = plane) :
    Shows contents rows (Graph.removeNode kind registry node) fun p label property =>
      Function.update (values p label property) node (after.due kind.read p label property node) := by
  refine (shows.removeNode node).congr fun p label property => ?_
  rw [due_absent]
  refine getElem?_eq_none fun member => ?_
  rw [apart p member] at member
  exact nomatch absent.symm.trans (getElem?_eq_some_getElem member)

/-! ### The whole batch -/

/-- No node of the list has a row on another plane. -/
def OnePlane (tables : Tables) (keys : List NodeKey) : Prop :=
  ∀ key ∈ keys, ∀ other, (other, key.2) ∈ tables.nodes → other = key.1

/-- What is due after the batch, for each node of a list. -/
def rederived (after : Tables) (read : PropValue → Option α) (plane : PlaneId)
    (label property : String) (keys : List NodeKey) : List (NodeId × Option α) :=
  keys.map fun key => (key.2, after.due read plane label property key.2)

variable {registries : Registries} {vectorRows : ExtTreeMap IndexRowKey Metric compare}
  {keywordRows : ExtTreeMap IndexRowKey Language compare} {vectors : IndexValues (List UInt32)}
  {keywords : IndexValues String} {keys : List NodeKey} {before : Tables}

/-- Both registries show values. -/
structure Registries.Shows (host : Host) (vectorRows : ExtTreeMap IndexRowKey Metric compare)
    (keywordRows : ExtTreeMap IndexRowKey Language compare) (registries : Registries)
    (vectors : IndexValues (List UInt32)) (keywords : IndexValues String) : Prop where
  vectors : Graph.Shows (vectorContents host) vectorRows registries.vectors vectors
  keywords : Graph.Shows (keywordContents host) keywordRows registries.keywords keywords

/-- **Mirroring nodes replays what is due for them.** -/
theorem mirrorNodes_shows (sound : Sound nodes edges after) (apart : OnePlane after keys)
    (shows : registries.Shows host vectorRows keywordRows vectors keywords) :
    ∃ mirrored, mirrorNodes host after keys registries = (mirrored, .ok ()) ∧
      mirrored.Shows host vectorRows keywordRows
        (fun plane label property => replay (vectors plane label property)
          (rederived after PropValue.asVector plane label property keys))
        (fun plane label property => replay (keywords plane label property)
          (rederived after PropValue.asText plane label property keys)) := by
  induction keys generalizing registries vectors keywords with
  | nil => exact ⟨registries, rfl, shows⟩
  | cons key keys ih =>
    obtain ⟨plane, node⟩ := key
    have here := apart _ List.mem_cons_self
    have rest : OnePlane after keys := fun other member => apart other (List.mem_cons_of_mem _ member)
    cases stored : after.nodes[(plane, node)]? with
    | none =>
      have start : (registries.removeNode host node).Shows host vectorRows keywordRows _ _ :=
        ⟨shows.vectors.forget stored here, shows.keywords.forget stored here⟩
      obtain ⟨mirrored, ran, shown⟩ := ih rest start
      refine ⟨mirrored, ?_, shown⟩
      rw [mirrorNodes, getNode_absent stored]
      exact ran
    | some row =>
      have read := sound.getNode stored
      have start : ((registries.removeNode host node).insertRecord host plane _).Shows host
          vectorRows keywordRows _ _ :=
        ⟨shows.vectors.rederive sound read here, shows.keywords.rederive sound read here⟩
      obtain ⟨mirrored, ran, shown⟩ := ih rest start
      refine ⟨mirrored, ?_, shown⟩
      rw [mirrorNodes, read]
      exact ran

/-- Nothing else is due for a node whose row is not written. -/
theorem replay_rederived {read : PropValue → Option α} (sound : Sound nodes edges before)
    (names : ∀ (number : ℕ) (name : String), (before.dictNames .label)[number]? = some name →
      (after.dictNames .label)[number]? = some name)
    (kept : ∀ key ∉ keys, after.nodes[key]? = before.nodes[key]?) :
    replay (before.due read plane label property) (rederived after read plane label property keys) =
      after.due read plane label property := by
  funext id
  by_cases named : id ∈ (rederived after read plane label property keys).map Prod.fst
  · refine replay_of_forall named fun update member same => ?_
    obtain ⟨key, -, rfl⟩ := List.mem_map.mp member
    rw [← same]
  · rw [replay_of_notMem named]
    have untouched : (plane, id) ∉ keys := by
      intro member
      refine named ?_
      rw [rederived, List.map_map]
      exact List.mem_map.mpr ⟨(plane, id), member, rfl⟩
    rw [Tables.due, Tables.due, kept _ untouched]
    cases found : before.nodes[(plane, id)]? with
    | none => rfl
    | some row => simp only [Option.bind_some, labelsOf_named (sound.labels _ row found) names]

/-- A plane without declarations has no index to drop. -/
theorem Shows.dropIndexes {values : IndexValues α} (shows : Shows contents rows registry values)
    (undeclared : ∀ label property, declaredSetting rows plane label property = none) :
    Shows contents rows (Graph.dropIndexes registry plane) values := by
  intro p label property
  rw [← shows p label property, Graph.dropIndexes, getElem?_filter']
  by_cases own : p = plane
  · subst own
    have absent := shows p label property
    rw [undeclared, Option.map_none, Option.map_eq_none_iff] at absent
    rw [absent]
    rfl
  · cases registry[(p, label, property)]? <;> simp [Option.filter, own]

theorem Registries.Shows.dropPlanes {planes : List PlaneId}
    (shows : registries.Shows host vectorRows keywordRows vectors keywords)
    (undeclared : ∀ plane ∈ planes, ∀ label property,
      declaredSetting vectorRows plane label property = none ∧
        declaredSetting keywordRows plane label property = none) :
    (planes.foldl Registries.dropPlane registries).Shows host vectorRows keywordRows vectors
      keywords := by
  induction planes generalizing registries with
  | nil => exact shows
  | cons plane planes ih =>
    have here := undeclared plane List.mem_cons_self
    refine ih ⟨?_, ?_⟩ fun other member => undeclared other (List.mem_cons_of_mem _ member)
    · exact shows.vectors.dropIndexes fun label property => (here label property).1
    · exact shows.keywords.dropIndexes fun label property => (here label property).2

/-! ### Batches that fit -/

/-- A batch that fits the store it lands in: the store is sound after it, its labels keep their
names, a plane it drops is left without declarations, and the nodes whose rows it writes have none on
another plane. -/
structure Fits (before : Tables) (ops : List Write) : Prop where
  sound : ∃ nodes edges, Sound nodes edges (before.applyAll ops)
  vectorRows : Parsed (before.applyAll ops).vectorIndexes
  keywordRows : Parsed (before.applyAll ops).keywordIndexes
  names : ∀ (number : ℕ) (name : String), (before.dictNames .label)[number]? = some name →
    ((before.applyAll ops).dictNames .label)[number]? = some name
  dropped : ∀ plane, .plane plane none ∈ ops → ∀ label property,
    declaredSetting (before.applyAll ops).vectorIndexes plane label property = none ∧
      declaredSetting (before.applyAll ops).keywordIndexes plane label property = none
  apart : ∀ key row, .node key row ∈ ops → ∀ other,
    (other, key.2) ∈ (before.applyAll ops).nodes → other = key.1

/-- Both registries hold what a rebuild from the store computes. -/
def Registries.Fresh (host : Host) (tables : Tables) (registries : Registries) : Prop :=
  Graph.Fresh (vectorContents host) tables registries.vectors ∧
    Graph.Fresh (keywordContents host) tables registries.keywords

/-- Without a change of declarations, planes are dropped and nodes mirrored. -/
theorem mirrorReplicated_kept (kept : work.declarationsChanged = false) :
    mirrorReplicated host tables work registries = mirrorNodes host tables work.nodes
      (work.droppedPlanes.foldl Registries.dropPlane registries) := by
  obtain ⟨keys, changed, dropped⟩ := work
  obtain rfl : changed = false := kept
  unfold mirrorReplicated ReplicatedIndexWork.isEmpty
  cases keys with
  | cons key keys => rfl
  | nil =>
    cases dropped with
    | nil => rfl
    | cons plane planes => rfl

theorem rebuildBoth_fresh (sound : Sound nodes edges tables)
    (vectorRows : Parsed tables.vectorIndexes) (keywordRows : Parsed tables.keywordIndexes) :
    ∃ rebuilt, rebuildBoth host tables registries = (rebuilt, .ok ()) ∧
    rebuilt.Fresh host tables := by
  obtain ⟨vectors, made, -⟩ := rebuildFrom_sound (vectorContents host) sound vectorRows
  obtain ⟨keywords, made', -⟩ := rebuildFrom_sound (keywordContents host) sound keywordRows
  refine ⟨⟨vectors, keywords⟩, ?_, ⟨vectors, made, fun _ => rfl⟩, keywords, made', fun _ => rfl⟩
  rw [rebuildBoth, made, made']

/-- **A batch that fits is mirrored exactly.** -/
theorem mirrorReplicated_fresh (sound : Sound nodes edges before)
    (fresh : registries.Fresh host before) (fits : Fits before ops) :
    ∃ mirrored, mirrorReplicated host (before.applyAll ops) (.fromOps ops) registries =
        (mirrored, .ok ()) ∧ mirrored.Fresh host (before.applyAll ops) := by
  obtain ⟨nodes', edges', sound'⟩ := fits.sound
  cases changed : (ReplicatedIndexWork.fromOps ops).declarationsChanged with
  | true =>
    obtain ⟨rebuilt, made, rest⟩ := @rebuildBoth_fresh (before.applyAll ops) nodes' edges' host
      registries sound' fits.vectorRows fits.keywordRows
    refine ⟨rebuilt, ?_, rest⟩
    have busy : (ReplicatedIndexWork.fromOps ops).isEmpty = false := by
      simp [ReplicatedIndexWork.isEmpty, changed]
    rw [mirrorReplicated, busy, changed]
    exact made
  | false =>
    obtain ⟨-, noVectors, noKeywords⟩ := ReplicatedIndexWork.declarations_foldl.mp changed
    have vectorRows := @vectorIndexes_untouched before ops noVectors
    have keywordRows := @keywordIndexes_untouched before ops noKeywords
    have named : ∀ key, key ∈ (ReplicatedIndexWork.fromOps ops).nodes ↔
        ∃ row, .node key row ∈ ops := by
      intro key
      refine ReplicatedIndexWork.mem_nodes_foldl.trans (or_iff_right ?_)
      simp [ReplicatedIndexWork.empty]
    have parsed : Parsed before.vectorIndexes := vectorRows ▸ fits.vectorRows
    have parsed' : Parsed before.keywordIndexes := keywordRows ▸ fits.keywordRows
    have started : registries.Shows host before.vectorIndexes before.keywordIndexes
        (before.due PropValue.asVector) (before.due PropValue.asText) :=
      ⟨(shows_due_iff sound parsed).mpr fresh.1, (shows_due_iff sound parsed').mpr fresh.2⟩
    have undeclared : ∀ plane ∈ (ReplicatedIndexWork.fromOps ops).droppedPlanes,
        ∀ label property, declaredSetting before.vectorIndexes plane label property = none ∧
          declaredSetting before.keywordIndexes plane label property = none := by
      intro plane member
      have gone := ReplicatedIndexWork.mem_dropped_foldl.mp member
      rw [← vectorRows, ← keywordRows]
      exact fits.dropped plane (gone.resolve_left (by simp [ReplicatedIndexWork.empty]))
    have dropped := started.dropPlanes undeclared
    have apart : OnePlane (before.applyAll ops) (ReplicatedIndexWork.fromOps ops).nodes := by
      intro key member
      obtain ⟨row, written⟩ := (named key).mp member
      exact fits.apart key row written
    obtain ⟨mirrored, ran, shown⟩ := mirrorNodes_shows sound' apart dropped
    have kept : ∀ key ∉ (ReplicatedIndexWork.fromOps ops).nodes,
        (before.applyAll ops).nodes[key]? = before.nodes[key]? := fun key absent =>
      nodes_untouched fun row member => absent ((named key).mpr ⟨row, member⟩)
    rw [mirrorReplicated_kept changed]
    refine ⟨mirrored, ran, ?_, ?_⟩
    · refine (shows_due_iff sound' fits.vectorRows).mp ?_
      show Shows _ (before.applyAll ops).vectorIndexes _ _
      rw [vectorRows]
      exact shown.vectors.congr fun _ _ _ => replay_rederived sound fits.names kept
    · refine (shows_due_iff sound' fits.keywordRows).mp ?_
      show Shows _ (before.applyAll ops).keywordIndexes _ _
      rw [keywordRows]
      exact shown.keywords.congr fun _ _ _ => replay_rederived sound fits.names kept

end DrStrange.Graph
