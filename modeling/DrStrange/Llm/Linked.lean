/-
**What stays linked.**

A key that the graph holds is looked up before and after the identities are resolved, but the
folding in between knows neither the graph nor how often a key was extracted: every key counts once,
so the first spelling in order survives. An extracted key stays linked exactly where it is that
spelling and no line of the reply moves it (`linked_iff`).
-/

import DrStrange.Llm.Loadable

namespace DrStrange.Llm

open Std (ExtTreeMap ExtTreeSet)
open DrStrange.Graph (PropDesc PropValue Properties)
open Identity Lib

variable {ε : Type} {found : List ExistingEntity} {keys : List String}

/-! ### The sources of candidates -/

/-- A node of a plane, as it is read. -/
structure PlaneNode where
  externalKey : Option String
  labels : List String
  properties : Properties

/-- The reads of a plane: the nodes most like a vector, and the node under a key. -/
structure PlaneHandle (ε : Type) where
  vectorTopK : List UInt32 → ℕ → Except ε (List PlaneNode)
  nodeByKey : String → Except ε (Option PlaneNode)

/-- What a node is shown as to a model, under a key. -/
def PlaneNode.existing (node : PlaneNode) (key : String) : ExistingEntity where
  key := key
  label := node.labels.headD ""
  description := match node.properties["description"]?.map PropDesc.value with
    | some (.str text) => text
    | _ => ""

/-- A source that finds a key wherever the graph holds it, whichever other keys are asked for. -/
structure ExactSource (ε : Type) extends CandidateSource ε where
  holds : String → Prop
  finds : ∀ keys found, existingKeys keys = .ok found →
    ∀ key, key ∈ found.map ExistingEntity.key ↔ key ∈ keys ∧ holds key

/-- `PlaneCandidates::existing_keys`. -/
def PlaneHandle.existingKeys (plane : PlaneHandle ε) (keys : List String) :
    Except ε (List ExistingEntity) := do
  let found ← keys.mapM fun key => do return (← plane.nodeByKey key).map fun node => node.existing key
  return found.reduceOption

theorem PlaneHandle.mem_existingKeys {plane : PlaneHandle ε}
    (ran : plane.existingKeys keys = .ok found) (key : String) :
    key ∈ found.map ExistingEntity.key ↔
      key ∈ keys ∧ ∃ node, plane.nodeByKey key = .ok (some node) := by
  obtain ⟨read, each, same⟩ := bind_eq_ok.mp ran
  obtain rfl := Except.ok.inj same
  rw [mapM_eq_ok] at each
  clear ran same
  induction each with
  | nil => simp
  | @cons first out keys read here _ ih =>
    obtain ⟨node, looked, same⟩ := bind_eq_ok.mp here
    obtain rfl := Except.ok.inj same
    cases node with
    | none =>
      rw [Option.map_none, List.reduceOption_cons_of_none, ih, List.mem_cons]
      refine ⟨fun ⟨among, node, found⟩ => ⟨.inr among, node, found⟩, fun ⟨among, node, found⟩ =>
        ⟨?_, node, found⟩⟩
      refine among.resolve_left ?_
      rintro rfl
      cases looked.symm.trans found
    | some node =>
      rw [Option.map_some, List.reduceOption_cons_of_some, List.map_cons, List.mem_cons, ih,
        List.mem_cons]
      constructor
      · rintro (rfl | ⟨among, found⟩)
        · exact ⟨.inl rfl, node, looked⟩
        · exact ⟨.inr among, found⟩
      · rintro ⟨rfl | among, found⟩
        · exact .inl rfl
        · exact .inr ⟨among, found⟩

/-- `PlaneCandidates`: the keyed nodes of a plane. -/
def PlaneHandle.candidates (plane : PlaneHandle ε) : ExactSource ε where
  similar query k := do
    return (← plane.vectorTopK query k).filterMap fun node => node.externalKey.map fun key =>
      node.existing key
  wantsSimilar := true
  existingKeys := plane.existingKeys
  holds key := ∃ node, plane.nodeByKey key = .ok (some node)
  finds _ _ ran := PlaneHandle.mem_existingKeys ran

/-- The facts of a run, by key: a label and a description. -/
abbrev Facts := ExtTreeMap String (String × String) compare

/-- `FactsAndPlane::existing_keys`: what the source behind the facts finds, and the facts among the
other keys. -/
def factsAmong (facts : Facts) (inner : Except ε (List ExistingEntity)) (keys : List String) :
    Except ε (List ExistingEntity) := do
  let found ← inner
  let fresh := (keys.filter fun key => key ∉ found.map ExistingEntity.key).filterMap fun key =>
    facts[key]?.map fun fact => ⟨key, fact.1, fact.2⟩
  return found ++ fresh

theorem mem_factsAmong {facts : Facts} {inner : Except ε (List ExistingEntity)}
    {holds : String → Prop} (ran : factsAmong facts inner keys = .ok found)
    (finds : ∀ found, inner = .ok found → ∀ key, key ∈ found.map ExistingEntity.key ↔
      key ∈ keys ∧ holds key)
    (key : String) :
    key ∈ found.map ExistingEntity.key ↔ key ∈ keys ∧ (key ∈ facts ∨ holds key) := by
  obtain ⟨behind, answered, same⟩ := bind_eq_ok.mp ran
  obtain rfl := Except.ok.inj same
  have found := finds behind answered key
  have fresh : key ∈ (((keys.filter fun key => key ∉ behind.map ExistingEntity.key).filterMap
      fun key =>
      facts[key]?.map fun fact => (⟨key, fact.1, fact.2⟩ : ExistingEntity)).map ExistingEntity.key) ↔
      (key ∈ keys ∧ key ∉ behind.map ExistingEntity.key) ∧ key ∈ facts := by
    simp only [List.mem_map, List.mem_filterMap, Option.map_eq_some_iff, List.mem_filter,
      decide_eq_true_eq]
    constructor
    · rintro ⟨_, ⟨other, asked, fact, known, rfl⟩, rfl⟩
      exact ⟨asked, ExtTreeMap.mem_iff_isSome_getElem?.mpr (Option.isSome_of_eq_some known)⟩
    · rintro ⟨asked, known⟩
      obtain ⟨fact, known⟩ :=
        Option.isSome_iff_exists.mp (ExtTreeMap.mem_iff_isSome_getElem?.mp known)
      exact ⟨⟨key, fact.1, fact.2⟩, ⟨key, asked, fact, known, rfl⟩, rfl⟩
  rw [List.map_append, List.mem_append, fresh, found]
  tauto

/-- `FactsAndPlane`: the facts of a run, before another source. -/
def ExactSource.withFacts (facts : Facts) (inner : Option (ExactSource ε)) : ExactSource ε where
  similar query k := inner.elim (pure []) fun inner => inner.similar query k
  wantsSimilar := inner.any fun inner => inner.wantsSimilar
  existingKeys keys := factsAmong facts (inner.elim (pure []) fun inner =>
    inner.existingKeys keys) keys
  holds key := key ∈ facts ∨ inner.elim False fun inner => inner.holds key
  finds keys found ran := by
    refine mem_factsAmong ran fun found answered key => ?_
    cases inner with
    | none =>
      obtain rfl := Except.ok.inj answered
      simp
    | some inner => exact inner.finds keys found answered key

/-! ### What merging keeps -/

/-- A fit name of an entity of a chunk. -/
def names (extract : ChunkExtract) (key : String) : Prop :=
  ∃ e ∈ extract.entities, modelName e.key = some key

/-- The fit names of a relation. -/
def relates (r : ExRelation) (triple : String × String × String) : Prop :=
  modelName r.src = some triple.1 ∧ modelName r.dst = some triple.2.1 ∧
    modelName r.ty = some triple.2.2

/-- A relation that was given, by its ends and its type. -/
def GivenRelation (extracts : List ChunkExtract) (triple : String × String × String) : Prop :=
  ∃ extract ∈ extracts, ∃ r ∈ extract.relations, relates r triple

/-- The number of chunks that produced a key. -/
def chunksOf (extracts : List ChunkExtract) (key : String) : ℕ :=
  extracts.countP fun extract => extract.entities.any fun e => modelName e.key = some key

/-- What a loop adds to, element by element. -/
theorem foldl_adds {σ α : Type} {step : σ → α → σ} (has : σ → Prop) {adds : α → Prop} {xs : List α}
    {start : σ} (each : ∀ state, ∀ x ∈ xs, has (step state x) ↔ has state ∨ adds x) :
    has (xs.foldl step start) ↔ has start ∨ ∃ x ∈ xs, adds x := by
  induction xs generalizing start with
  | nil => simp
  | cons x xs ih =>
    rw [List.foldl_cons, ih fun state y among => each state y (List.mem_cons_of_mem _ among),
      each start x List.mem_cons_self, List.exists_mem_cons_iff, or_assoc]

variable {extracts : List ChunkExtract} {key s d t : String} {triple : String × String × String}
  {report : RunReport} {state : MergedExtractions × RunReport} {indexed : ChunkExtract × ℕ}
  {edge : DigestEdge} {r : ExRelation} {e : ExEntity} {i : ℕ}

theorem mem_mergeEntity :
    key ∈ (mergeEntity i state e).1.entities ↔
    key ∈ state.1.entities ∨ modelName e.key = some key := by
  unfold mergeEntity
  cases modelName e.key with
  | none => simp
  | some name =>
    dsimp only
    rw [ExtTreeMap.mem_insert, Std.LawfulEqCmp.compare_eq_iff_eq, or_comm, Option.some.injEq]

theorem mem_mergeRelation : triple ∈ (mergeRelation state r).1.edges.map DigestEdge.triple ↔
    triple ∈ state.1.edges.map DigestEdge.triple ∨ relates r triple := by
  obtain ⟨s, d, t⟩ := triple
  unfold relates
  unfold mergeRelation
  split
  · rename_i src dst ty named named' typed
    rw [named, named', typed, Option.some.injEq, Option.some.injEq, Option.some.injEq]
    split_ifs with seen
    · refine ⟨.inl, fun either => either.elim id ?_⟩
      rintro ⟨rfl, rfl, rfl⟩
      exact seen
    · rw [List.map_append, List.mem_append, List.map_singleton, List.mem_singleton]
      refine or_congr_right ?_
      constructor
      · rintro ⟨⟩
        exact ⟨rfl, rfl, rfl⟩
      · rintro ⟨rfl, rfl, rfl⟩
        rfl
  · rename_i unfit
    refine ⟨.inl, fun either => either.elim id ?_⟩
    rintro ⟨src, dst, ty⟩
    exact absurd ty (unfit s d t src dst)

theorem entities_mergeRelation : (mergeRelation state r).1.entities = state.1.entities := by
  unfold mergeRelation
  split
  · split_ifs <;> rfl
  · rfl

theorem edges_mergeEntity : (mergeEntity i state e).1.edges = state.1.edges := by
  unfold mergeEntity
  split <;> rfl

theorem entities_foldl_mergeRelation {relations : List ExRelation} :
    (relations.foldl mergeRelation state).1.entities = state.1.entities := by
  induction relations generalizing state with
  | nil => rfl
  | cons r relations ih => rw [List.foldl_cons, ih, entities_mergeRelation]

theorem edges_foldl_mergeEntity {i : ℕ} {entities : List ExEntity} :
    (entities.foldl (mergeEntity i) state).1.edges = state.1.edges := by
  induction entities generalizing state with
  | nil => rfl
  | cons e entities ih => rw [List.foldl_cons, ih, edges_mergeEntity]

/-- One chunk's extraction adds its keys. -/
theorem mem_mergeExtract : key ∈ (mergeExtract state indexed).1.entities ↔
    key ∈ state.1.entities ∨ names indexed.1 key := by
  unfold mergeExtract
  dsimp only
  rw [entities_foldl_mergeRelation]
  generalize state.2.spend _ _ _ = report
  exact @foldl_adds _ _ (mergeEntity indexed.2) (fun now => key ∈ now.1.entities)
    (fun e => modelName e.key = some key)
    indexed.1.entities (state.1, report) fun now e _ => mem_mergeEntity

/-- One chunk's extraction adds its relations. -/
theorem triple_mem_mergeExtract :
    triple ∈ (mergeExtract state indexed).1.edges.map DigestEdge.triple ↔
      triple ∈ state.1.edges.map DigestEdge.triple ∨ ∃ r ∈ indexed.1.relations, relates r triple := by
  unfold mergeExtract
  dsimp only
  generalize state.2.spend _ _ _ = report
  have same := @edges_foldl_mergeEntity (state.1, report) indexed.2 indexed.1.entities
  generalize indexed.1.entities.foldl (mergeEntity indexed.2) (state.1, report) = now at same
  have added := @foldl_adds _ _ mergeRelation (fun now => triple ∈ now.1.edges.map DigestEdge.triple)
    (fun r => relates r triple) indexed.1.relations now fun now r _ => mem_mergeRelation
  rwa [same] at added

theorem exists_zipIdx {adds : ChunkExtract → Prop} :
    (∃ indexed ∈ extracts.zipIdx, adds indexed.1) ↔ ∃ extract ∈ extracts, adds extract := by
  conv_rhs => rw [← List.zipIdx_map_fst 0 extracts]
  simp only [List.mem_map, exists_exists_and_eq_and]

/-- **The keys after merging** are those given. -/
theorem mem_mergeExtractions :
    key ∈ (mergeExtractions extracts report).1.entities ↔ GivenKey extracts key := by
  have added := @foldl_adds _ _ mergeExtract (fun now => key ∈ now.1.entities)
    (fun indexed => names indexed.1 key)
    extracts.zipIdx (⟨∅, [], ∅⟩, report) fun now indexed _ => mem_mergeExtract
  refine added.trans ((or_iff_right ExtTreeMap.not_mem_empty).trans ?_)
  exact @exists_zipIdx extracts fun extract => names extract key

/-- **The edges after merging** are of the relations given. -/
theorem triple_mem_mergeExtractions :
    triple ∈ (mergeExtractions extracts report).1.edges.map DigestEdge.triple ↔
    GivenRelation extracts triple := by
  have added := @foldl_adds _ _ mergeExtract (fun now => triple ∈ now.1.edges.map DigestEdge.triple)
    (fun indexed => ∃ r ∈ indexed.1.relations, relates r triple) extracts.zipIdx (⟨∅, [], ∅⟩, report)
    fun now indexed _ => triple_mem_mergeExtract
  refine added.trans ((or_iff_right List.not_mem_nil).trans ?_)
  exact @exists_zipIdx extracts fun extract => ∃ r ∈ extract.relations, relates r triple

/-! ### Where keys and relations go -/

section

variable {host : Host} {models : Models ε} {opts : DigestOptions} {was now : Reconciled}

/-- What reconciling the types renames. -/
def typeRenames (host : Host) (models : Models ε) (edges : List DigestEdge) : Renames :=
  match reconcile host.unicode models.edgeTypes host.parseGroups
    (tally (edges.map DigestEdge.ty)) with
  | .ok (renames, _) => renames
  | .error _ => ∅

theorem triple_retype {renames : Renames} :
    (edge.retype renames).triple = (edge.src, edge.dst, canonical renames edge.ty) := by
  unfold DigestEdge.retype canonical
  cases renames[edge.ty]? <;> rfl

/-- **Reconciling keeps the ends** of the relations. -/
theorem triple_mem_reconciled (ran : reconciled host models opts extracts report = .ok was) :
    (s, d, t) ∈ was.edges.map DigestEdge.triple ↔ ∃ ty, GivenRelation extracts (s, d, ty) ∧
      t = canonical (typeRenames host models (mergeExtractions extracts report).1.edges) ty := by
  simp only [← @triple_mem_mergeExtractions extracts (s, d, _) report]
  unfold reconciled at ran
  generalize mergeExtractions extracts report = out at ran ⊢
  obtain ⟨⟨entities, edges, origins⟩, report⟩ := out
  rw [DigestMode.reconciles] at ran
  obtain ⟨⟨entities', edges', report'⟩, vocabulary, same⟩ := bind_eq_ok.mp ran
  obtain rfl := Except.ok.inj same
  obtain ⟨⟨labelRenames, labelReport⟩, -, vocabulary⟩ := bind_eq_ok.mp vocabulary
  obtain ⟨⟨renames, typeReport⟩, types, vocabulary⟩ := bind_eq_ok.mp vocabulary
  obtain ⟨-, rfl, -⟩ := Prod.mk.inj (Except.ok.inj vocabulary)
  dsimp only
  rw [typeRenames, types, retainOnce_triples.2, and_iff_left List.not_mem_nil, List.map_map,
    List.mem_map]
  simp only [Function.comp, triple_retype, Prod.mk.injEq, List.mem_map]
  constructor
  · rintro ⟨edge, among, rfl, rfl, rfl⟩
    exact ⟨edge.ty, ⟨edge, among, rfl⟩, rfl⟩
  · rintro ⟨ty, ⟨edge, among, same⟩, rfl⟩
    obtain ⟨rfl, rfl, rfl⟩ := same
    exact ⟨edge, among, rfl, rfl, rfl⟩

/-- **The relations after resolving the identities** lead between what their ends go by. -/
theorem triple_mem_identified (ran : identified host models opts was = .ok now) :
    (∀ s d t, (s, d, t) ∈ was.edges.map DigestEdge.triple →
      canonical (identityRenames host models opts was) s ≠
        canonical (identityRenames host models opts was) d →
      (canonical (identityRenames host models opts was) s,
        canonical (identityRenames host models opts was) d, t) ∈
        now.edges.map DigestEdge.triple) ∧
    ∀ edge ∈ now.edges, (∃ s, edge.src = canonical (identityRenames host models opts was) s) ∧
      ∃ d, edge.dst = canonical (identityRenames host models opts was) d := by
  obtain ⟨identity, -, edges⟩ := identified_eq ran
  generalize identityRenames host models opts was = renames at edges ⊢
  unfold applyRenames at edges
  split_ifs at edges with empty
  · obtain rfl := ExtTreeMap.isEmpty_iff.mp empty
    have still : ∀ key, canonical ∅ key = key := fun key => by simp [canonical]
    simp only [edges, still]
    exact ⟨fun s d t inside _ => inside, fun edge _ => ⟨⟨edge.src, rfl⟩, edge.dst, rfl⟩⟩
  · have moved : now.edges = retainOnce [] ((was.edges.map (DigestEdge.move renames)).filter
        fun edge => edge.src ≠ edge.dst) :=
      edges.trans retainFirst_eq
    rw [moved]
    constructor
    · intro s d t inside apart
      obtain ⟨edge, among, same⟩ := List.mem_map.mp inside
      obtain ⟨rfl, rfl, rfl⟩ := same
      rw [retainOnce_triples.2, and_iff_left List.not_mem_nil]
      exact List.mem_map.mpr ⟨edge.move renames,
        List.mem_filter.mpr ⟨List.mem_map_of_mem among, decide_eq_true apart⟩, rfl⟩
    · intro edge inside
      obtain ⟨before, -, rfl⟩ := List.mem_map.mp (List.mem_of_mem_filter (mem_retainOnce inside))
      exact ⟨⟨before.src, rfl⟩, before.dst, rfl⟩

end

/-! ### Runs with a source -/

section

variable {host : Host} {models : Models ε} {source : ExactSource ε} {opts : DigestOptions}
  {document : List Char}
  (run : Run host models (some source.toCandidateSource) opts document)

namespace Run

/-- Where an entity or an endpoint ends. -/
def place (key : String) : String := canonical (identityRenames host models opts run.was) key

/-- The plane holds a key: it came up before a chunk, or is found when it is looked up. -/
def Held (key : String) : Prop := key ∈ run.linked.existing ∨ source.holds key

/-- A key that the model reused. -/
def Reused (key : String) : Prop := GivenKey run.extracts key ∧ run.Held key

/-- An end that can be written: an entity, or a key that the plane holds. -/
def Known (key : String) : Prop := key ∈ run.now.entities ∨ key ∈ run.existing

/-- What a type is written as. -/
def typeName (ty : String) : String :=
  canonical (typeRenames host models (mergeExtractions run.extracts
    { RunReport.start (chunk document opts.chunkChars).length
      with embedTokens := run.linked.embedTokens }).1.edges) ty

theorem mem_was : key ∈ run.was.entities ↔ GivenKey run.extracts key := by
  obtain ⟨-, same⟩ := soundReconciled run.reconciles
  rw [same, mem_mergeExtractions]

/-- What an entity is folded into is an entity, and goes by itself. -/
theorem place_mem (given : GivenKey run.extracts key) : run.place key ∈ run.now.entities := by
  rw [mem_identified run.identifies]
  unfold place canonical
  cases renamed : (identityRenames host models opts run.was)[key]? with
  | none => exact .inl ⟨run.mem_was.mpr given, renamed⟩
  | some into => exact .inr ⟨key, run.mem_was.mpr given, renamed⟩

theorem place_place (key : String) : run.place (run.place key) = run.place key := by
  unfold place
  have last : (identityRenames host models opts run.was)[canonical
      (identityRenames host models opts run.was) key]? = none := by
    cases renamed : (identityRenames host models opts run.was)[key]? with
    | none => rw [canonical, renamed]; exact renamed
    | some into => rw [canonical, renamed]; exact identityRenames_settled renamed
  rw [canonical, last]
  rfl

theorem mem_admit {existing : Existing} :
    key ∈ existing.absorb found ↔ key ∈ existing ∨ key ∈ found.map ExistingEntity.key := by
  unfold Existing.absorb
  rw [List.mem_map, foldl_adds (key ∈ ·) fun now e _ => by
    rw [ExtTreeMap.mem_insertIfNew, Std.LawfulEqCmp.compare_eq_iff_eq, or_comm]]

/-- **The existing map at the end**: what came up before the chunks, and the entities that the plane
holds. -/
theorem mem_existing : key ∈ run.existing ↔
    key ∈ run.linked.existing ∨ (key ∈ run.now.entities ∧ source.holds key) := by
  obtain ⟨found, looked, same⟩ := bind_eq_ok.mp run.looks
  rw [← Except.ok.inj same, mem_admit, source.finds _ _ looked, ExtTreeMap.mem_keys]
  have sound := soundIdentified (soundReconciled run.reconciles).1
    (fun key => run.given) run.identifies
  rw [(@soundRefined _ host models opts _ _ (chunk document opts.chunkChars) sound.nodes).2]

theorem held_iff (entity : key ∈ run.now.entities) : key ∈ run.existing ↔ run.Held key := by
  rw [mem_existing, Held, and_iff_right entity]

/-- **The relations of the result** are those after resolving whose ends are known. -/
theorem triple_mem_result : (s, d, t) ∈ run.result.edges.map DigestEdge.triple ↔
    (s, d, t) ∈ run.now.edges.map DigestEdge.triple ∧ run.Known s ∧ run.Known d := by
  have sound := soundIdentified (soundReconciled run.reconciles).1
    (fun key => run.given) run.identifies
  obtain ⟨nodes, same⟩ :=
    @soundRefined _ host models opts _ _ (chunk document opts.chunkChars) sound.nodes
  obtain ⟨-, -, edges⟩ := finish_loads nodes sound.edges run.finishes
  have fresh : (Prepared.mk _ run.now.edges run.existing
      (refinedEntities host models opts (chunk document opts.chunkChars) run.now).2).fresh.map
        DigestNode.key = _ := keys_fresh nodes
  have known : ∀ key, (key ∈
      (Prepared.mk (refinedEntities host models opts (chunk document opts.chunkChars) run.now).1
      run.now.edges run.existing (refinedEntities host models opts (chunk document opts.chunkChars)
        run.now).2).fresh.map
        DigestNode.key ∨ key ∈ run.existing) ↔ run.Known key := by
    intro key
    rw [fresh, List.mem_filter, ExtTreeMap.mem_keys, same, decide_eq_true_eq, Known]
    tauto
  rw [edges, List.map_map, List.mem_map, List.mem_map]
  simp only [Prepared.kept, List.mem_filter, decide_eq_true_eq, known]
  constructor
  · rintro ⟨edge, ⟨among, ends⟩, same⟩
    obtain ⟨rfl, rfl, rfl⟩ := same
    exact ⟨⟨edge, among, rfl⟩, ends⟩
  · rintro ⟨⟨edge, among, same⟩, ends⟩
    obtain ⟨rfl, rfl, rfl⟩ := same
    exact ⟨edge, ⟨among, ends⟩, rfl⟩

/-- A relation that can be written: its ends go by two names, and both are known. -/
def Writable (s d : String) : Prop :=
  run.place s ≠ run.place d ∧ run.Known (run.place s) ∧ run.Known (run.place d)

/-- **A reused key stays linked**: its entity becomes no new node, its relations are written on it,
and a folding leaves a spelling that as many chunks produced as any other. -/
structure StaysLinked : Prop where
  entities : ∀ key, run.Reused key → run.place key ∉ run.result.nodes.map DigestNode.key
  relations : ∀ s d ty, GivenRelation run.extracts (s, d, ty) → run.Reused s ∨ run.Reused d →
    run.Writable s d →
    ∃ edge ∈ run.result.edges, edge.ty = run.typeName ty ∧
      (edge.src = run.place s ∧ (run.Reused s → edge.src = s)) ∧
      (edge.dst = run.place d ∧ (run.Reused d → edge.dst = d))
  survivors : ∀ key survivor : String, (foldKeys host.unicode (tally run.was.entities.keys))[key]? =
    some survivor →
    ∀ other, GivenKey run.extracts other →
    foldKey host.unicode other = foldKey host.unicode survivor →
      chunksOf run.extracts other ≤ chunksOf run.extracts survivor

/-- The first, in order, of the extracted keys that are spelled like it. -/
def First (key : String) : Prop :=
  ∀ other, GivenKey run.extracts other → foldKey host.unicode other = foldKey host.unicode key →
    key ≤ other

/-- No fold and no line of the reply moves a key. -/
def Unmoved (key : String) : Prop := run.First key ∧ ∀ target, ¬ Standing run.readings key target

/-- Every reused key is unmoved, or moved to one that the plane holds with no relation that can be
written; and the first spelling of a key is one that as many chunks produced as any other. -/
structure KeepsFirst : Prop where
  reused : ∀ key, run.Reused key → run.Unmoved key ∨ (run.Held (run.place key) ∧
    ∀ s d ty, GivenRelation run.extracts (s, d, ty) → s = key ∨ d = key → ¬ run.Writable s d)
  spellings : ∀ key, GivenKey run.extracts key → run.First key →
    ∀ other, GivenKey run.extracts other →
    foldKey host.unicode other = foldKey host.unicode key →
    chunksOf run.extracts other ≤ chunksOf run.extracts key

end Run

theorem getElem?_tally {names : List String} {name : String} :
    (tally names)[name]?.getD 0 = names.count name := by
  suffices ∀ counts : Counts, (names.foldl
      (fun counts name => counts.insert name (counts[name]?.getD 0 + 1))
      counts)[name]?.getD 0 = counts[name]?.getD 0 + names.count name by
    exact (this ∅).trans (by simp)
  induction names with
  | nil => simp
  | cons first names ih =>
    intro counts
    rw [List.foldl_cons, ih, ExtTreeMap.getElem?_insert, List.count_cons]
    by_cases same : first = name
    · subst same
      simp
      omega
    · simp [same]

/-- Every key counts once. -/
theorem preferred_tally {entities : Entities} {a b : String} (left : a ∈ entities)
    (right : b ∈ entities) :
    preferred (tally entities.keys) a b = true ↔ a ≤ b := by
  have once : ∀ key ∈ entities, (tally entities.keys)[key]?.getD 0 = 1 := fun key inside =>
    getElem?_tally.trans (List.count_eq_one_of_mem ExtTreeMap.nodup_keys
      (ExtTreeMap.mem_keys.mpr inside))
  simp [preferred, once a left, once b right]

namespace Run

variable {run}

/-- The keys of the entities have the places that resolving gives them. -/
theorem place_eq_self_iff (resolves : opts.mode.resolvesIdentity = true)
    (given : GivenKey run.extracts key) :
    run.place key = key ↔ run.Unmoved key := by
  have inside := run.mem_was.mpr given
  have first : (∀ other ∈ tally run.was.entities.keys, foldKey host.unicode other =
      foldKey host.unicode key →
      preferred (tally run.was.entities.keys) key other = true) ↔ run.First key := by
    refine forall_congr' fun other => ?_
    rw [mem_keys_tally, run.mem_was]
    refine forall_congr' fun given' => forall_congr' fun _ => ?_
    rw [preferred_tally inside (run.mem_was.mpr given')]
  unfold place identityRenames Unmoved readings
  rw [if_pos resolves, if_pos resolves, ← first]
  exact canonical_eq_self_iff (mem_keys_tally.mpr inside)

/-- A relation that can be written is written between the places of its ends. -/
theorem written {ty : String} (given : GivenRelation run.extracts (s, d, ty))
    (writable : run.Writable s d) :
    (run.place s, run.place d, run.typeName ty) ∈ run.result.edges.map DigestEdge.triple := by
  obtain ⟨apart, left, right⟩ := writable
  have before := (triple_mem_reconciled run.reconciles).mpr ⟨ty, given, rfl⟩
  exact run.triple_mem_result.mpr ⟨(triple_mem_identified run.identifies).1 s d _ before apart,
    left, right⟩

/-- Both ends of a written relation are places. -/
theorem edge_placed (inside : edge ∈ run.result.edges) :
    run.place edge.src = edge.src ∧ run.place edge.dst = edge.dst := by
  obtain ⟨among, -, -⟩ := run.triple_mem_result.mp (List.mem_map_of_mem inside)
  obtain ⟨before, listed, same⟩ := List.mem_map.mp among
  obtain ⟨⟨s, left⟩, d, right⟩ := (triple_mem_identified run.identifies).2 before listed
  have left : edge.src = run.place s := (congrArg Prod.fst same).symm.trans left
  have right : edge.dst = run.place d := (congrArg (fun triple => triple.2.1) same).symm.trans right
  rw [left, right]
  exact ⟨run.place_place s, run.place_place d⟩

/-- **An entity becomes a new node** exactly if the plane does not hold where it ends. -/
theorem place_new (given : GivenKey run.extracts key) :
    run.place key ∉ run.result.nodes.map DigestNode.key ↔ run.Held (run.place key) := by
  have entity := run.place_mem given
  rw [run.loads.2, ← run.held_iff entity]
  tauto

/-- What folding leaves of a class. -/
theorem folded_iff {survivor : String} :
    (foldKeys host.unicode (tally run.was.entities.keys))[key]? = some survivor ↔
    GivenKey run.extracts key ∧
      key ≠ survivor ∧ GivenKey run.extracts survivor ∧
      foldKey host.unicode survivor = foldKey host.unicode key ∧
        run.First survivor := by
  refine getElem?_foldBy.trans ?_
  rw [mem_keys_tally, run.mem_was]
  refine and_congr_right fun given => and_congr_right fun _ => ?_
  constructor
  · intro survives
    have inside := mem_keys_tally.mp survives.given
    refine ⟨run.mem_was.mp inside, survives.same, fun other given' same => ?_⟩
    have there := run.mem_was.mpr given'
    exact (preferred_tally inside there).mp
      (survives.first other (mem_keys_tally.mpr there) (same.trans survives.same))
  · rintro ⟨given', same, first⟩
    have inside := run.mem_was.mpr given'
    refine ⟨mem_keys_tally.mpr inside, same, fun other there same' => ?_⟩
    have there := mem_keys_tally.mp there
    exact (preferred_tally inside there).mpr
      (first other (run.mem_was.mp there) (same'.trans same.symm))

/-- **When every reused key stays linked.** -/
theorem staysLinked_iff (resolves : opts.mode.resolvesIdentity = true) :
    run.StaysLinked ↔ run.KeepsFirst := by
  constructor
  · intro stays
    refine ⟨fun key reused => or_iff_not_imp_left.mpr fun moved =>
      ?_, fun key given first other given' same => ?_⟩
    · have away : run.place key ≠ key :=
        fun same => moved ((place_eq_self_iff resolves reused.1).mp same)
      refine ⟨(place_new reused.1).mp (stays.entities key reused),
        fun s d ty relation touches writable => ?_⟩
      -- No written relation has an end that is moved.
      obtain rfl | rfl := touches
      · obtain ⟨edge, inside, -, ⟨-, kept⟩, -⟩ :=
          stays.relations s d ty relation (.inl reused) writable
        exact away (kept reused ▸ (edge_placed inside).1)
      · obtain ⟨edge, inside, -, -, -, kept⟩ := stays.relations s d ty relation (.inr reused) writable
        exact away (kept reused ▸ (edge_placed inside).2)
    · by_cases alone : other = key
      · rw [alone]
      · exact stays.survivors other key (folded_iff.mpr ⟨given', alone, given, same.symm, first⟩)
          other given' same
  · intro keeps
    have kept : ∀ key s d ty, run.Reused key → GivenRelation run.extracts (s, d, ty) →
        s = key ∨ d = key →
        run.Writable s d → run.place key = key := by
      intro key s d ty reused relation touches writable
      refine (place_eq_self_iff resolves reused.1).mpr ((keeps.reused key reused).resolve_right
        fun other => ?_)
      exact other.2 s d ty relation touches writable
    refine ⟨fun key reused => (place_new reused.1).mpr ?_, fun s d ty relation _ writable =>
      ?_, fun key survivor folded => ?_⟩
    · obtain unmoved | ⟨held, -⟩ := keeps.reused key reused
      · rw [(place_eq_self_iff resolves reused.1).mpr unmoved]
        exact reused.2
      · exact held
    · obtain ⟨edge, inside, same⟩ := List.mem_map.mp (written relation writable)
      obtain ⟨left, rest⟩ := Prod.mk.inj same
      obtain ⟨right, typed⟩ := Prod.mk.inj rest
      exact ⟨edge, inside, typed, ⟨left, fun reused =>
        left.trans (kept s s d ty reused relation (.inl rfl) writable)⟩,
        right, fun reused => right.trans (kept d s d ty reused relation (.inr rfl) writable)⟩
    · obtain ⟨-, -, given, -, first⟩ := folded_iff.mp folded
      exact keeps.spellings survivor given first

end Run

/-- **When every reused key stays linked.** In every run that resolves identities, whatever the
plane holds and whatever the models reply: exactly where every reused key is the first of its
spellings in order and no line of the reply moves it (or it is moved to one that the plane holds
too, and has no relation that can be written), and the first spelling of a key is one that as many
chunks produced as any other. -/
theorem linked_iff {result : DigestResult} (resolves : opts.mode.resolvesIdentity = true)
    (ran : digest host models (some source.toCandidateSource) opts document = .ok result) :
    ∃ run : Run host models (some source.toCandidateSource) opts document, run.result = result ∧
      (run.StaysLinked ↔ run.KeepsFirst) := by
  obtain ⟨run, same⟩ := run_of_digest ran
  exact ⟨run, same, run.staysLinked_iff resolves⟩

end

/-- A plane with a node under each of some keys. -/
def PlaneHandle.holding (keys : List String) : PlaneHandle Empty where
  vectorTopK := fun _ _ => .ok []
  nodeByKey := fun key => .ok (if key ∈ keys then some ⟨some key, ["Entity"], ∅⟩ else none)

/-- The source over a plane with a node under each of some keys. -/
def sourceHolding (keys : List String) : ExactSource Empty := (PlaneHandle.holding keys).candidates

/-- Nothing fails that has no error to fail with. -/
theorem answers_of_empty (models : Models Empty) (candidates : Option (CandidateSource Empty)) :
    Answers models candidates := by
  have returns : ∀ {α : Type} (x : Except Empty α), ∃ a, x = .ok a := by
    intro α x
    cases x with
    | error none => exact none.elim
    | ok a => exact ⟨a, rfl⟩
  exact ⟨fun _ => returns _, fun _ => returns _, returns _, returns _, returns _,
    fun _ _ _ _ => returns _,
    fun _ _ _ => returns _⟩

theorem digest_plain (extracts : List ChunkExtract) (keys : List String) (document : List Char) :
    ∃ result,
    digest (.plain []) (.finding extracts)
      (some (sourceHolding keys).toCandidateSource) .plain document = .ok result :=
  digest_returns (answers_of_empty _ _) rfl

theorem linked_plain :
    ∃ result, digest (.plain []) (.finding [extractOf ["softmax", "Loss"] [("Loss", "softmax")]])
    (some (sourceHolding ["softmax"]).toCandidateSource) .plain "the softmax of a loss".toList =
      .ok result ∧
      ∃ run : Run (.plain []) (.finding [extractOf ["softmax", "Loss"] [("Loss", "softmax")]])
        (some (sourceHolding ["softmax"]).toCandidateSource) .plain "the softmax of a loss".toList,
        run.result = result ∧ (run.StaysLinked ↔ run.KeepsFirst) := by
  obtain ⟨result, ran⟩ :=
    digest_plain [extractOf ["softmax", "Loss"] [("Loss", "softmax")]] ["softmax"]
    "the softmax of a loss".toList
  exact ⟨result, ran, linked_iff rfl ran⟩

/-- Three chunks, of which two say `softmax` and one says `Softmax`. -/
def spellings : List ChunkExtract :=
  [extractOf ["softmax", "Loss"] [("Loss", "softmax")], extractOf ["softmax"] [],
    extractOf ["Softmax"] []]

theorem givenKey_spellings :
    GivenKey spellings key ↔ key = "softmax" ∨ key = "Loss" ∨ key = "Softmax" := by
  have lower : modelName "softmax" = some "softmax" := by decide
  have loss : modelName "Loss" = some "Loss" := by decide
  have upper : modelName "Softmax" = some "Softmax" := by decide
  simp only [GivenKey, spellings, extractOf, List.map_cons, List.map_nil, List.mem_cons,
    List.not_mem_nil, or_false,
    exists_eq_or_imp, exists_eq_left, lower, loss, upper, Option.some.injEq]
  grind

/-- The plane holds `softmax`, and two chunks of three say so: the entity becomes the new node
`Softmax`, with the relation that was given with `softmax`. -/
theorem softmax_moved : ∃ result, digest (.plain []) (.finding spellings)
    (some (sourceHolding ["softmax"]).toCandidateSource) .plain "the softmax of a loss".toList =
      .ok result ∧
      ∃ run : Run (.plain []) (.finding spellings)
          (some (sourceHolding ["softmax"]).toCandidateSource) .plain
          "the softmax of a loss".toList, run.result = result ∧ run.Reused "softmax" ∧
          "Softmax" ∈ result.nodes.map DigestNode.key ∧
          (∃ edge ∈ result.edges, edge.src = "Loss" ∧ edge.dst = "Softmax") ∧
          chunksOf run.extracts "Softmax" < chunksOf run.extracts "softmax" ∧ ¬ run.StaysLinked := by
  obtain ⟨result, ran⟩ := digest_plain spellings ["softmax"] "the softmax of a loss".toList
  obtain ⟨run, rfl⟩ := run_of_digest ran
  have extracts : run.extracts = spellings := (Except.ok.inj run.extracted).symm
  have given : ∀ key, GivenKey run.extracts key ↔
      key = "softmax" ∨ key = "Loss" ∨ key = "Softmax" := by
    intro key
    rw [extracts, givenKey_spellings]
  have unlinked : run.linked.existing = ∅ := by
    have links : linkChunks (Models.finding spellings).embed
        (some (sourceHolding ["softmax"]).toCandidateSource)
        (chunk "the softmax of a loss".toList 200) = .ok ⟨[none], ∅, 0⟩ := rfl
    rw [← Except.ok.inj (links.symm.trans run.links)]
  have folded : ∀ key, run.place key = canonical
      (foldKeys Unicode.ascii (tally run.was.entities.keys)) key := by
    intro key
    unfold Run.place identityRenames
    have resolves : DigestOptions.plain.mode.resolvesIdentity = true := rfl
    rw [if_pos resolves, renamesFrom_silent rfl]
    rfl
  have first : run.First "Softmax" := by
    intro other inside same
    obtain rfl | rfl | rfl := (given other).mp inside
    · decide
    · exact absurd same (by decide)
    · exact le_rfl
  have moved : run.place "softmax" = "Softmax" := by
    have renamed : (foldKeys Unicode.ascii (tally run.was.entities.keys))["softmax"]? =
        some "Softmax" :=
      run.folded_iff.mpr ⟨(given _).mpr (.inl rfl), by decide, (given _).mpr (.inr (.inr rfl)), by
        decide, first⟩
    rw [folded, canonical, renamed]
    rfl
  have stays : run.place "Loss" = "Loss" := by
    refine (run.place_eq_self_iff rfl ((given _).mpr (.inr (.inl rfl)))).mpr
      ⟨fun other inside same => ?_, ?_⟩
    · obtain rfl | rfl | rfl := (given other).mp inside
      · exact absurd same (by decide)
      · exact le_rfl
      · exact absurd same (by decide)
    · rintro target ⟨earlier, later, none, -⟩
      have silent : run.readings = [] := rfl
      rw [silent] at none
      simp at none
  have unheld : ¬ run.Held "Softmax" := by
    rintro (came | ⟨node, looked⟩)
    · rw [unlinked] at came
      exact absurd came ExtTreeMap.not_mem_empty
    · cases looked
  have reused : run.Reused "softmax" := ⟨(given _).mpr (.inl rfl), .inr ⟨_, rfl⟩⟩
  have new : "Softmax" ∈ run.result.nodes.map DigestNode.key := by
    by_contra absent
    rw [← moved, run.place_new reused.1, moved] at absent
    exact unheld absent
  refine ⟨run.result, ran, run, rfl, reused, new, ?_, ?_, fun linked =>
    linked.entities _ reused (moved ▸ new)⟩
  · have relation : GivenRelation run.extracts ("Loss", "softmax", "USES") := by
      rw [extracts]
      exact ⟨_, List.mem_cons_self, _, List.mem_cons_self, by decide +kernel, by decide +kernel, by
        decide +kernel⟩
    have known : ∀ key, GivenKey run.extracts key → run.Known (run.place key) :=
      fun key inside => .inl (run.place_mem inside)
    have written :=
      run.written relation ⟨by rw [stays, moved]; decide, known _ ((given _).mpr (.inr (.inl rfl))),
      known _ ((given _).mpr (.inl rfl))⟩
    obtain ⟨edge, inside, same⟩ := List.mem_map.mp written
    obtain ⟨left, rest⟩ := Prod.mk.inj same
    exact ⟨edge, inside, left.trans stays, (Prod.mk.inj rest).1.trans moved⟩
  · rw [extracts]
    decide +kernel

end DrStrange.Llm
