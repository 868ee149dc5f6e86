/-
**What a digest produces can be loaded.**

Its nodes have distinct keys that the graph does not hold, its edges lead from keys to keys and none
occurs twice, and what is reserved was written by the pipeline, whatever the models reply and
whichever passes run. The keys are fit names exactly where no line of the identity reply is read as
an extracted key and a rest that is none (`digest_loads_iff`): such a rest becomes a key that no
pass has checked.
-/

import DrStrange.Compute.Groups
import DrStrange.Llm.Pipeline
import DrStrange.Llm.Renamed

namespace DrStrange.Llm

open Std (ExtTreeMap ExtTreeSet)
open DrStrange.Compute (Machine)
open DrStrange.Graph (PropDesc PropValue Properties)
open Identity Lib

variable {ε : Type} {host : Host} {models : Models ε} {candidates : Option (CandidateSource ε)}
  {opts : DigestOptions}
  {document : List Char} {result : DigestResult}

/-! ### Runs -/

/-- A run that returns: what its passes come to. -/
structure Run (host : Host) (models : Models ε) (candidates : Option (CandidateSource ε))
    (opts : DigestOptions) (document : List Char) where
  linked : Linked
  extracts : List ChunkExtract
  was : Reconciled
  now : Reconciled
  existing : Existing
  result : DigestResult
  links : linkChunks models.embed candidates (chunk document opts.chunkChars) = .ok linked
  extracted : models.extract (linked.blocks.zip (chunk document opts.chunkChars)) = .ok extracts
  reconciles : reconciled host models opts extracts
    { RunReport.start (chunk document opts.chunkChars).length
      with embedTokens := linked.embedTokens } = .ok was
  identifies : identified host models opts was = .ok now
  looks : lookUp candidates (refinedEntities host models opts (chunk document opts.chunkChars)
    now).1.keys
    linked.existing = .ok existing
  finishes : finish host.machine models.embed opts
    ⟨(refinedEntities host models opts (chunk document opts.chunkChars) now).1, now.edges, existing,
      (refinedEntities host models opts (chunk document opts.chunkChars) now).2⟩ = .ok result

/-- What a digest returns, it returns by a run. -/
theorem run_of_digest (ran : digest host models candidates opts document = .ok result) :
    ∃ run : Run host models candidates opts document, run.result = result := by
  obtain ⟨prepared, before, finishes⟩ := bind_eq_ok.mp ran
  obtain ⟨linked, links, rest⟩ := bind_eq_ok.mp (mapError_eq_ok.mp before)
  obtain ⟨extracts, extracted, rest⟩ := bind_eq_ok.mp rest
  obtain ⟨was, reconciles, rest⟩ := bind_eq_ok.mp rest
  obtain ⟨now, identifies, rest⟩ := bind_eq_ok.mp rest
  obtain ⟨existing, looks, same⟩ := bind_eq_ok.mp rest
  obtain rfl := Except.ok.inj same
  exact ⟨⟨linked, extracts, was, now, existing, result, links, extracted, reconciles, identifies,
    looks, finishes⟩, rfl⟩

/-- Every call that a run makes returns. -/
structure Answers (models : Models ε) (candidates : Option (CandidateSource ε)) : Prop where
  embed : ∀ texts, ∃ reply, models.embed texts = .ok reply
  extract : ∀ chunks, ∃ extracts, models.extract chunks = .ok extracts
  labels : ∃ reply, models.labels = .ok reply
  edgeTypes : ∃ reply, models.edgeTypes = .ok reply
  identity : ∃ reply, models.identity = .ok reply
  similar : ∀ src ∈ candidates, ∀ query k, ∃ found, src.similar query k = .ok found
  existingKeys : ∀ src ∈ candidates, ∀ keys, ∃ found, src.existingKeys keys = .ok found

theorem linkChunks_returns (answers : Answers models candidates) (chunks : List (List Char)) :
    ∃ linked, linkChunks models.embed candidates chunks = .ok linked := by
  unfold linkChunks
  generalize Linked.mk [] ∅ 0 = start
  induction chunks generalizing start with
  | nil => exact ⟨start, rfl⟩
  | cons chunk chunks ih =>
    suffices first : ∃ linked, linkChunk models.embed candidates start chunk = .ok linked by
      obtain ⟨linked, first⟩ := first
      obtain ⟨last, rest⟩ := ih linked
      exact ⟨last, bind_eq_ok.mpr ⟨linked, first, rest⟩⟩
    unfold linkChunk
    split
    · rename_i src
      split_ifs
      · obtain ⟨emb, embedded⟩ := answers.embed [String.ofList chunk]
        rw [embedded]
        dsimp only [bind, Except.bind]
        cases emb.vectors.head? with
        | none => exact ⟨_, rfl⟩
        | some query =>
          obtain ⟨found, hits⟩ := answers.similar src rfl query linkK
          dsimp only
          rw [hits]
          exact ⟨_, rfl⟩
      · exact ⟨_, rfl⟩
    · exact ⟨_, rfl⟩

/-- **A digest that embeds nothing returns** where every call does. -/
theorem digest_returns (answers : Answers models candidates) (plain : opts.embed = false) :
    ∃ result, digest host models candidates opts document = .ok result := by
  obtain ⟨linked, links⟩ := linkChunks_returns answers (chunk document opts.chunkChars)
  obtain ⟨extracts, extracted⟩ := answers.extract (linked.blocks.zip (chunk document opts.chunkChars))
  obtain ⟨labels, labelled⟩ := answers.labels
  obtain ⟨types, typed⟩ := answers.edgeTypes
  obtain ⟨reply, replied⟩ := answers.identity
  have reconciles : ∀ report, ∃ was, reconciled host models opts extracts report = .ok was := by
    intro report
    unfold reconciled reconcileVocabulary
    rw [labelled, typed, DigestMode.reconciles]
    obtain ⟨renames, report₁, first⟩ := reconcile_returns (ε := ε)
    obtain ⟨renames', report₂, second⟩ := reconcile_returns (ε := ε)
    exact ⟨_, bind_eq_ok.mpr ⟨_, bind_eq_ok.mpr ⟨_, first, bind_eq_ok.mpr ⟨_, second, rfl⟩⟩, rfl⟩⟩
  have identifies : ∀ was, ∃ now, identified host models opts was = .ok now := by
    intro was
    unfold identified resolveIdentity
    rw [replied]
    split_ifs
    · obtain ⟨renames, identity, ran, -⟩ := resolve_keeps_iff (ε := ε)
      exact ⟨_, bind_eq_ok.mpr ⟨_, bind_eq_ok.mpr ⟨_, ran, rfl⟩, rfl⟩⟩
    · exact ⟨_, rfl⟩
  have looks : ∀ keys existing, ∃ found, lookUp candidates keys existing = .ok found := by
    intro keys existing
    unfold lookUp
    split
    · rename_i src
      obtain ⟨found, looked⟩ := answers.existingKeys src rfl keys
      exact ⟨_, bind_eq_ok.mpr ⟨found, looked, rfl⟩⟩
    · exact ⟨_, rfl⟩
  obtain ⟨was, reconciles⟩ := reconciles
    { RunReport.start (chunk document opts.chunkChars).length with embedTokens := linked.embedTokens }
  obtain ⟨now, identifies⟩ := identifies was
  obtain ⟨existing, looks⟩ := looks
    (refinedEntities host models opts (chunk document opts.chunkChars) now).1.keys linked.existing
  obtain ⟨prepared, prepares⟩ : ∃ prepared, prepare host models candidates opts document =
    .ok prepared :=
    ⟨_, bind_eq_ok.mpr ⟨linked, links, bind_eq_ok.mpr ⟨extracts, extracted,
      bind_eq_ok.mpr ⟨was, reconciles,
      bind_eq_ok.mpr ⟨now, identifies, bind_eq_ok.mpr ⟨existing, looks, rfl⟩⟩⟩⟩⟩⟩
  obtain ⟨result, finishes⟩ : ∃ result, finish host.machine models.embed opts prepared =
    .ok result := by
    unfold finish embedAll
    rw [plain]
    exact ⟨_, rfl⟩
  exact ⟨result, bind_eq_ok.mpr ⟨prepared, mapError_eq_ok.mpr prepares, finishes⟩⟩

/-! ### What the models gave -/

/-- A name that was given for a key. -/
def GivenKey (extracts : List ChunkExtract) (key : String) : Prop :=
  ∃ extract ∈ extracts, ∃ e ∈ extract.entities, modelName e.key = some key

def GivenLabel (extracts : List ChunkExtract) (label : String) : Prop :=
  ∃ extract ∈ extracts, ∃ e ∈ extract.entities, modelName e.label = some label

def GivenType (extracts : List ChunkExtract) (ty : String) : Prop :=
  ∃ extract ∈ extracts, ∃ r ∈ extract.relations, modelName r.ty = some ty

/-- The other names of an entity, as they were given. -/
inductive NodeAlias (extracts : List ChunkExtract) : String → PropDesc → Prop where
  | label {label : String} (given : GivenLabel extracts label) : NodeAlias extracts
      "_label_as_written"
      (stamp "label as the document wrote it, before reconciliation" label)
  | key {key : String} (given : GivenKey extracts key) : NodeAlias extracts "_key_as_written"
      (stamp "another name this entity was written under, before identity resolution" key)

/-- The other name of a type, as it was given. -/
inductive EdgeAlias (extracts : List ChunkExtract) : String → PropDesc → Prop where
  | ty {ty : String} (given : GivenType extracts ty) : EdgeAlias extracts "_type_as_written"
      (stamp "edge type as the document wrote it, before reconciliation" ty)

/-- An entity under its key: its label was given, and what is reserved of it are other names. -/
structure SoundNode (extracts : List ChunkExtract) (key : String) (node : DigestNode) : Prop where
  keyed : node.key = key
  label : node.label = "" ∨ GivenLabel extracts node.label
  only : Only (NodeAlias extracts) node.props

def SoundNodes (extracts : List ChunkExtract) (entities : Entities) : Prop :=
  ∀ key node, entities[key]? = some node → SoundNode extracts key node

/-- Edges of given types, none twice. -/
structure SoundEdges (extracts : List ChunkExtract) (edges : List DigestEdge) : Prop where
  once : (edges.map DigestEdge.triple).Nodup
  only : ∀ edge ∈ edges, Only (EdgeAlias extracts) edge.props

/-! ### Merging -/

section

variable {extracts : List ChunkExtract} {entities : Entities} {edges : List DigestEdge}
  {node : DigestNode} {key source target : String} {state : MergedExtractions × RunReport}
  {seen : List (String × String × String)} {renames : Renames} {pairs : List (String × String)}
  {extract : ChunkExtract} {edge : DigestEdge}

theorem SoundNodes.insert (sound : SoundNodes extracts entities) (one : SoundNode extracts key node) :
    SoundNodes extracts (entities.insert key node) := by
  intro other given found
  rw [ExtTreeMap.getElem?_insert] at found
  split_ifs at found with same
  · obtain rfl := Std.LawfulEqCmp.eq_of_compare same
    exact Option.some.inj found ▸ one
  · exact sound other given found

/-- What extractions merge into: entities under the given keys, each with the chunks it was read in,
and edges of given types. -/
structure SoundMerge (extracts : List ChunkExtract) (merged : MergedExtractions) : Prop where
  nodes : SoundNodes extracts merged.entities
  keys : ∀ key ∈ merged.entities, GivenKey extracts key
  edges : SoundEdges extracts merged.edges
  types : ∀ edge ∈ merged.edges, GivenType extracts edge.ty

theorem not_reserved_description {text : String} :
    ¬ reserved "description" (descProp text).value = true := by
  change ¬ (decide ("description".toList.head? = some '_') ||
    decide ("description" = "embedding") || false) = true
  decide

theorem SoundMerge.entity {i : ℕ} {e : ExEntity} (sound : SoundMerge extracts state.1)
    (given : extract ∈ extracts) (among : e ∈ extract.entities) :
    SoundMerge extracts (mergeEntity i state e).1 := by
  unfold mergeEntity
  cases named : modelName e.key with
  | none => exact sound
  | some key =>
    dsimp only
    have start : SoundNode extracts key (state.1.entities[key]?.getD ⟨key, "", [], ∅⟩) := by
      cases found : state.1.entities[key]? with
      | none => exact ⟨rfl, .inl rfl, only_empty⟩
      | some node => exact sound.nodes key node found
    generalize state.1.entities[key]?.getD ⟨key, "", [], ∅⟩ = node at start
    refine { sound with nodes := sound.nodes.insert ⟨start.keyed, ?_, ?_⟩, keys :=
      fun other inside => ?_ }
    · dsimp only
      split_ifs
      · cases label : modelName e.label with
        | none => exact start.label
        | some label' => exact .inr ⟨extract, given, e, among, label⟩
      · exact start.label
    · dsimp only
      cases e.description with
      | none => exact start.only.mergeProps
      | some text =>
        intro name desc found own
        rw [Option.elim_some, ExtTreeMap.getElem?_insertIfNew] at found
        split_ifs at found with fresh
        · obtain ⟨same, -⟩ := fresh
          obtain rfl := Std.LawfulEqCmp.eq_of_compare same
          obtain rfl := Option.some.inj found
          exact absurd own not_reserved_description
        · exact start.only.mergeProps name desc found own
    · obtain same | inside := ExtTreeMap.mem_insert.mp inside
      · obtain rfl := Std.LawfulEqCmp.eq_of_compare same
        exact ⟨extract, given, e, among, named⟩
      · exact sound.keys other inside

theorem SoundMerge.relation {r : ExRelation} (sound : SoundMerge extracts state.1)
    (given : extract ∈ extracts) (among : r ∈ extract.relations) :
    SoundMerge extracts (mergeRelation state r).1 := by
  unfold mergeRelation
  split
  · rename_i src dst ty _ _ typed
    split_ifs with seen
    · exact sound
    · refine { sound with edges := ⟨?_, ?_⟩, types := ?_ }
      · rw [List.map_append, List.nodup_append]
        refine ⟨sound.edges.once, List.nodup_singleton _, ?_⟩
        rintro triple inside _ (same : _ ∈ [_]) rfl
        rw [List.mem_singleton.mp same] at inside
        exact seen inside
      · refine List.forall_mem_append.mpr ⟨sound.edges.only, List.forall_mem_singleton.mpr ?_⟩
        dsimp only
        cases r.description with
        | none => exact only_empty.mergeProps
        | some text =>
          exact only_empty.mergeProps.insert fun own => absurd own not_reserved_description
      · exact List.forall_mem_append.mpr ⟨sound.types,
          List.forall_mem_singleton.mpr ⟨extract, given, r, among, typed⟩⟩
  · exact sound

/-- **Merging extractions.** -/
theorem soundMerge (extracts : List ChunkExtract) (report : RunReport) :
    SoundMerge extracts (mergeExtractions extracts report).1 := by
  have start : SoundMerge extracts ⟨∅, [], ∅⟩ := by
    refine ⟨fun key node found => ?_, fun key inside => ?_, ⟨List.nodup_nil, nofun⟩, nofun⟩
    · rw [ExtTreeMap.getElem?_empty] at found
      cases found
    · exact absurd inside ExtTreeMap.not_mem_empty
  unfold mergeExtractions
  refine List.foldlRecOn (motive := fun s : MergedExtractions × RunReport =>
    SoundMerge extracts s.1) _ _ start
    fun state sound indexed among => ?_
  obtain ⟨extract, i⟩ := indexed
  have given : extract ∈ extracts := List.fst_mem_of_mem_zipIdx among
  unfold mergeExtract
  have merged : SoundMerge extracts (extract.entities.foldl (mergeEntity i) (state.1,
      state.2.spend extract.chatRequests extract.inputTokens extract.outputTokens)).1 :=
    List.foldlRecOn (motive := fun s : MergedExtractions × RunReport =>
      SoundMerge extracts s.1) _ _ sound
      fun state sound e among => sound.entity given among
  exact List.foldlRecOn (motive := fun s : MergedExtractions × RunReport =>
    SoundMerge extracts s.1) _ _ merged
    fun state sound r among => sound.relation given among

/-! ### One vocabulary -/

theorem mem_retainOnce (kept : edge ∈ retainOnce seen edges) : edge ∈ edges := by
  induction edges generalizing seen with
  | nil => cases kept
  | cons first edges ih =>
    unfold retainOnce at kept
    split_ifs at kept
    · exact List.mem_cons_of_mem _ (ih kept)
    · obtain rfl | kept := List.mem_cons.mp kept
      · exact List.mem_cons_self
      · exact List.mem_cons_of_mem _ (ih kept)

/-- **What is retained** of the kinds of edges: those not seen, each once. -/
theorem retainOnce_triples :
    ((retainOnce seen edges).map DigestEdge.triple).Nodup ∧
      ∀ triple, triple ∈ (retainOnce seen edges).map DigestEdge.triple ↔
        triple ∈ edges.map DigestEdge.triple ∧ triple ∉ seen := by
  induction edges generalizing seen with
  | nil => simp [retainOnce]
  | cons edge edges ih =>
    unfold retainOnce
    split_ifs with old
    · obtain ⟨once, same⟩ := @ih seen
      refine ⟨once, fun triple => ?_⟩
      rw [same, List.map_cons, List.mem_cons]
      refine ⟨fun ⟨later, fresh⟩ => ⟨.inr later, fresh⟩, fun ⟨among, fresh⟩ =>
        ⟨among.resolve_left ?_, fresh⟩⟩
      rintro rfl
      exact fresh old
    · obtain ⟨once, same⟩ := @ih (edge.triple :: seen)
      refine ⟨?_, fun triple => ?_⟩
      · rw [List.map_cons, List.nodup_cons]
        refine ⟨fun again => ?_, once⟩
        exact ((same _).mp again).2 List.mem_cons_self
      · rw [List.map_cons, List.mem_cons, same, List.map_cons, List.mem_cons, List.mem_cons, not_or]
        by_cases here : triple = edge.triple
        · exact iff_of_true (.inl here) ⟨.inl here, here ▸ old⟩
        · simp [here]

/-- The first edge of each kind, but those from an endpoint to itself. -/
theorem retainFirst_eq :
    retainFirst seen edges = retainOnce seen (edges.filter fun edge => edge.src ≠ edge.dst) := by
  induction edges generalizing seen with
  | nil => rfl
  | cons edge edges ih =>
    change (if edge.src ≠ edge.dst && !seen.contains edge.triple then
      edge :: retainFirst (edge.triple :: seen) edges
      else retainFirst seen edges) = _
    rw [ih, ih, List.filter_cons]
    by_cases loop : edge.src = edge.dst
    · simp [loop]
    · by_cases old : edge.triple ∈ seen <;> simp [loop, old, retainOnce]

theorem SoundNodes.relabel {renames : Renames} (sound : SoundNodes extracts entities)
    (given : ∀ a b : String, renames[a]? = some b → GivenLabel extracts a ∧ GivenLabel extracts b) :
    SoundNodes extracts (entities.map fun _ node => node.relabel renames) := by
  intro key node found
  rw [ExtTreeMap.getElem?_map, Option.map_eq_some_iff] at found
  obtain ⟨before, found, rfl⟩ := found
  have one := sound key before found
  unfold DigestNode.relabel
  cases renamed : renames[before.label]? with
  | none => exact one
  | some canonical =>
    obtain ⟨left, right⟩ := given _ _ renamed
    exact ⟨one.keyed, .inr right, one.only.noteOriginal (.label left)⟩

theorem only_retype (given : GivenType extracts edge.ty)
    (only : Only (EdgeAlias extracts) edge.props) :
    Only (EdgeAlias extracts) (edge.retype renames).props := by
  unfold DigestEdge.retype
  cases renames[edge.ty]? with
  | none => exact only
  | some canonical => exact only.noteOriginal (.ty given)

/-- The labels that are put up to be reconciled were given. -/
theorem given_of_tally (sound : SoundNodes extracts entities) {label : String} (counted : label ∈
      tally ((entities.toList.map fun entry => entry.2.label).filter fun label => !label.isEmpty)) :
    GivenLabel extracts label := by
  obtain ⟨among, some_⟩ := List.mem_filter.mp (mem_tally.mp counted)
  obtain ⟨⟨key, node⟩, inside, rfl⟩ := List.mem_map.mp among
  have one := sound key node (ExtTreeMap.mem_toList_iff_getElem?_eq_some.mp inside)
  refine one.label.resolve_left fun none => ?_
  rw [none] at some_
  exact absurd some_ (by decide)

/-- What a run holds between its passes: sound entities and edges. -/
structure SoundStage (extracts : List ChunkExtract) (stage : Reconciled) : Prop where
  nodes : SoundNodes extracts stage.entities
  edges : SoundEdges extracts stage.edges

/-- **Reconciling keeps the keys** and what is sound. -/
theorem soundReconciled {report : RunReport} {was : Reconciled}
    (ran : reconciled host models opts extracts report = .ok was) :
    SoundStage extracts was ∧ ∀ key, key ∈ was.entities ↔
    key ∈ (mergeExtractions extracts report).1.entities := by
  have merged := soundMerge extracts report
  unfold reconciled at ran
  generalize mergeExtractions extracts report = out at ran merged
  obtain ⟨⟨entities, edges, origins⟩, report⟩ := out
  rw [DigestMode.reconciles] at ran
  obtain ⟨⟨entities', edges', report'⟩, vocabulary, same⟩ := bind_eq_ok.mp ran
  obtain rfl := Except.ok.inj same
  obtain ⟨⟨labelRenames, labelReport⟩, labels, vocabulary⟩ := bind_eq_ok.mp vocabulary
  obtain ⟨⟨typeRenames, typeReport⟩, types, vocabulary⟩ := bind_eq_ok.mp vocabulary
  obtain ⟨rfl, rfl, -⟩ := Prod.mk.inj (Except.ok.inj vocabulary)
  have lossless := reconcile_lossless labels
  refine ⟨⟨merged.nodes.relabel fun a b renamed =>
    ⟨?_, ?_⟩, ⟨retainOnce_triples.1, fun edge inside => ?_⟩⟩,
    fun key => ExtTreeMap.mem_map⟩
  · exact given_of_tally merged.nodes (lossless.sources a b renamed)
  · exact given_of_tally merged.nodes (lossless.targets a b renamed)
  · obtain ⟨before, among, rfl⟩ := List.mem_map.mp (mem_retainOnce inside)
    exact only_retype (merged.types before among) (merged.edges.only before among)

/-! ### One identity -/

/-- The entities after one absorption: not the absorbed, and its survivor. -/
theorem mem_absorbInto_iff {state : Entities × Origins} :
    key ∈ (absorbInto state source target).1 ↔
      (key ∈ state.1 ∧ key ≠ source) ∨ (source ∈ state.1 ∧ key = target) := by
  unfold absorbInto
  cases found : state.1[source]? with
  | none =>
    have absent : source ∉ state.1 := by simp [ExtTreeMap.mem_iff_isSome_getElem?, found]
    simp only [absent, false_and, or_false]
    exact ⟨fun inside => ⟨inside, fun same => absent (same ▸ inside)⟩, And.left⟩
  | some absorbed =>
    have present : source ∈ state.1 := by simp [ExtTreeMap.mem_iff_isSome_getElem?, found]
    simp only [ExtTreeMap.mem_insert, ExtTreeMap.mem_erase, Std.LawfulEqCmp.compare_eq_iff_eq,
      present, true_and, ne_eq]
    rw [or_comm, and_comm, eq_comm, @eq_comm _ target]

/-- The entities after absorptions, none of which leads on. -/
theorem mem_absorbed {state : Entities × Origins} (once : (pairs.map Prod.fst).Nodup)
    (settled : ∀ pair ∈ pairs, pair.2 ∉ pairs.map Prod.fst) :
    key ∈ (pairs.foldl (fun state pair => absorbInto state pair.1 pair.2) state).1 ↔
      (key ∈ state.1 ∧ key ∉ pairs.map Prod.fst) ∨
      ∃ pair ∈ pairs, pair.1 ∈ state.1 ∧ pair.2 = key := by
  induction pairs generalizing state with
  | nil => simp
  | cons pair pairs ih =>
    obtain ⟨source, target⟩ := pair
    obtain ⟨new, once⟩ := List.nodup_cons.mp once
    obtain ⟨here, after⟩ := List.forall_mem_cons.mp settled
    have later : ∀ pair ∈ pairs, pair.2 ∉ pairs.map Prod.fst :=
      fun pair among inside => after pair among (List.mem_cons_of_mem _ inside)
    have untouched : ∀ pair ∈ pairs, pair.1 ∈ (absorbInto state source target).1 ↔
        pair.1 ∈ state.1 := by
      intro pair among
      have inside : pair.1 ∈ pairs.map Prod.fst := List.mem_map_of_mem among
      rw [mem_absorbInto_iff]
      refine ⟨fun out => out.elim And.left fun ⟨_, same⟩ => ?_, fun kept =>
        .inl ⟨kept, fun same => new (same ▸ inside)⟩⟩
      exact absurd (List.mem_cons_of_mem _ (same ▸ inside)) here
    rw [List.foldl_cons, ih once later, mem_absorbInto_iff, List.map_cons, List.mem_cons,
      List.exists_mem_cons_iff]
    have rest : (∃ pair ∈ pairs, pair.1 ∈ (absorbInto state source target).1 ∧ pair.2 = key) ↔
        ∃ pair ∈ pairs, pair.1 ∈ state.1 ∧ pair.2 = key :=
      exists_congr fun pair => and_congr_right fun among => and_congr_left fun _ =>
        untouched pair among
    rw [rest]
    constructor
    · rintro (⟨⟨kept, apart⟩ | ⟨present, rfl⟩, out⟩ | more)
      · exact .inl ⟨kept, by simp only [not_or]; exact ⟨apart, out⟩⟩
      · exact .inr (.inl ⟨present, rfl⟩)
      · exact .inr (.inr more)
    · rintro (⟨kept, out⟩ | ⟨present, rfl⟩ | more)
      · exact .inl ⟨.inl ⟨kept, fun same => out (.inl same)⟩, fun inside => out (.inr inside)⟩
      · exact .inl ⟨.inr ⟨present, rfl⟩, fun inside => here (List.mem_cons_of_mem _ inside)⟩
      · exact .inr more

theorem foldl_renames {state : Entities × Origins} : renames.foldl absorbInto state =
    renames.toList.foldl (fun state pair => absorbInto state pair.1 pair.2) state :=
  ExtTreeMap.foldl_eq_foldl_toList

/-- Renamings none of which leads on, as pairs. -/
theorem settled_toList (settled : ∀ a b : String, renames[a]? = some b → renames[b]? = none) :
    (renames.toList.map Prod.fst).Nodup ∧ ∀ pair ∈ renames.toList,
    pair.2 ∉ renames.toList.map Prod.fst := by
  rw [ExtTreeMap.map_fst_toList_eq_keys]
  refine ⟨ExtTreeMap.nodup_keys, fun pair among inside => ?_⟩
  have found := settled pair.1 pair.2 (ExtTreeMap.mem_toList_iff_getElem?_eq_some.mp among)
  rw [ExtTreeMap.mem_keys, ExtTreeMap.mem_iff_isSome_getElem?, found] at inside
  cases inside

/-- **The keys after a renaming**: those that are not renamed, and what keys are renamed to. -/
theorem mem_applyRenames {stage : Merged}
    (settled : ∀ a b : String, renames[a]? = some b → renames[b]? = none) :
    key ∈ (applyRenames renames stage).entities ↔
      (key ∈ stage.entities ∧ renames[key]? = none) ∨
      ∃ a ∈ stage.entities, renames[a]? = some key := by
  unfold applyRenames
  split_ifs with empty
  · obtain rfl := ExtTreeMap.isEmpty_iff.mp empty
    simp
  · obtain ⟨once, apart⟩ := settled_toList settled
    change key ∈ (renames.foldl absorbInto (stage.entities, stage.origins)).1 ↔ _
    rw [foldl_renames, mem_absorbed once apart, ExtTreeMap.map_fst_toList_eq_keys,
      ExtTreeMap.mem_keys,
      ExtTreeMap.mem_iff_isSome_getElem? (t := renames), Option.not_isSome_iff_eq_none]
    refine or_congr_right ⟨?_, ?_⟩
    · rintro ⟨⟨source, target⟩, among, present, rfl⟩
      exact ⟨source, present, ExtTreeMap.mem_toList_iff_getElem?_eq_some.mp among⟩
    · rintro ⟨source, present, found⟩
      exact ⟨(source, key), ExtTreeMap.mem_toList_iff_getElem?_eq_some.mpr found, present, rfl⟩

theorem SoundNode.absorb {survivor absorbed : DigestNode}
    (sound : SoundNode extracts target survivor) (other : SoundNode extracts source absorbed)
    (given : GivenKey extracts source) :
    SoundNode extracts target (survivor.absorb absorbed source) where
  keyed := sound.keyed
  label := by
    unfold DigestNode.absorb
    dsimp only
    split_ifs
    · exact other.label
    · exact sound.label
  only := (other.only.union sound.only).noteOriginal (.key given)

theorem soundNodes_absorbed {state : Entities × Origins}
    (settled : ∀ pair ∈ pairs, pair.2 ∉ pairs.map Prod.fst) (sound : SoundNodes extracts state.1)
    (given : ∀ key ∈ state.1, GivenKey extracts key) :
    SoundNodes extracts (pairs.foldl (fun state pair => absorbInto state pair.1 pair.2) state).1 := by
  -- A source is no target, so it is an entity that was given.
  refine (List.foldlRecOn (motive := fun now : Entities × Origins => SoundNodes extracts now.1 ∧
    ∀ key ∈ now.1, GivenKey extracts key ∨ ∃ pair ∈ pairs, pair.2 = key) pairs _
    ⟨sound, fun key inside => .inl (given key inside)⟩ ?_).1
  rintro now ⟨sound, known⟩ ⟨source, target⟩ among
  refine ⟨?_, fun key inside => ?_⟩
  · unfold absorbInto
    cases found : now.1[source]? with
    | none => exact sound
    | some absorbed =>
      have present : source ∈ now.1 := by simp [ExtTreeMap.mem_iff_isSome_getElem?, found]
      have written : GivenKey extracts source := by
        refine (known source present).resolve_right ?_
        rintro ⟨pair, inside, same⟩
        exact settled pair inside (same ▸ List.mem_map_of_mem (f := Prod.fst) among)
      have one := sound source absorbed found
      have rest : SoundNodes extracts (now.1.erase source) := by
        intro key node kept
        rw [ExtTreeMap.getElem?_erase] at kept
        split_ifs at kept
        exact sound key node kept
      refine rest.insert (SoundNode.absorb ?_ one written)
      cases survives : (now.1.erase source)[target]? with
      | none => exact ⟨rfl, one.label, only_empty⟩
      | some survivor => exact rest target survivor survives
  · obtain ⟨kept, -⟩ | ⟨-, rfl⟩ := mem_absorbInto_iff.mp inside
    · exact known key kept
    · exact .inr ⟨_, among, rfl⟩

end

/-- What resolving the identities renames in a run; nothing in a mode that does not. -/
def identityRenames (host : Host) (models : Models ε) (opts : DigestOptions) (was : Reconciled) :
    Renames :=
  if opts.mode.resolvesIdentity then
    renamesFrom host.unicode (tally was.entities.keys) (labelsOf was.entities) host.parseSame
      models.identity
  else ∅

variable {extracts : List ChunkExtract} {was now : Reconciled} {key : String}

theorem identityRenames_settled {a b : String}
    (renamed : (identityRenames host models opts was)[a]? = some b) :
    (identityRenames host models opts was)[b]? = none := by
  unfold identityRenames at renamed ⊢
  split_ifs with resolves
  · rw [if_pos resolves] at renamed
    exact resolveChains_settled raises_layersFrom renamed
  · exact ExtTreeMap.getElem?_empty

/-- **What resolving the identities leaves.** -/
theorem identified_eq (ran : identified host models opts was = .ok now) : ∃ identity,
    now.entities = (applyRenames (identityRenames host models opts was) ⟨was.entities, was.edges,
      was.origins, identity⟩).entities ∧
    now.edges = (applyRenames (identityRenames host models opts was) ⟨was.entities, was.edges,
      was.origins, identity⟩).edges := by
  unfold identified at ran
  unfold identityRenames
  split_ifs at ran ⊢ with resolves
  · obtain ⟨out, resolved, same⟩ := bind_eq_ok.mp ran
    obtain ⟨⟨renames, identity⟩, found, rfl⟩ :=
      bind_eq_ok.mp resolved |>.imp fun r => And.imp_right Except.ok.inj
    obtain rfl := Except.ok.inj same
    obtain rfl := resolve_renames found
    exact ⟨identity, rfl, rfl⟩
  · obtain rfl := Except.ok.inj ran
    exact ⟨was.report.identity, rfl, rfl⟩

theorem soundIdentified (sound : SoundStage extracts was)
    (given : ∀ key ∈ was.entities, GivenKey extracts key)
    (ran : identified host models opts was = .ok now) : SoundStage extracts now := by
  obtain ⟨identity, entities, edges⟩ := identified_eq ran
  have settled := @identityRenames_settled _ host models opts was
  generalize identityRenames host models opts was = renames at entities edges settled
  unfold applyRenames at entities edges
  split_ifs at entities edges
  · exact ⟨entities ▸ sound.nodes, edges ▸ sound.edges⟩
  · refine ⟨?_, ?_⟩
    · rw [entities]
      change SoundNodes extracts (renames.foldl absorbInto (was.entities, was.origins)).1
      rw [foldl_renames]
      exact soundNodes_absorbed (settled_toList fun a b => settled).2 sound.nodes given
    · rw [edges]
      change SoundEdges extracts (retainFirst [] (was.edges.map (DigestEdge.move renames)))
      rw [retainFirst_eq]
      refine ⟨retainOnce_triples.1, fun edge inside => ?_⟩
      obtain ⟨before, among, rfl⟩ := List.mem_map.mp (List.mem_of_mem_filter (mem_retainOnce inside))
      exact sound.edges.only before among

/-- **The keys after resolving the identities.** -/
theorem mem_identified (ran : identified host models opts was = .ok now) : key ∈ now.entities ↔
    (key ∈ was.entities ∧ (identityRenames host models opts was)[key]? = none) ∨
      ∃ a ∈ was.entities, (identityRenames host models opts was)[a]? = some key := by
  obtain ⟨identity, entities, -⟩ := identified_eq ran
  rw [entities]
  exact mem_applyRenames fun a b => identityRenames_settled

/-! ### Refined -/

/-- **Refining keeps the keys** and what is sound. -/
theorem soundRefined (chunks : List (List Char)) (sound : SoundNodes extracts now.entities) :
    SoundNodes extracts (refinedEntities host models opts chunks now).1 ∧
      ∀ key, key ∈ (refinedEntities host models opts chunks now).1 ↔ key ∈ now.entities := by
  unfold refinedEntities
  split_ifs
  · unfold refineEntities
    dsimp only
    refine List.foldlRecOn (motive := fun state : Entities × RefineReport =>
      SoundNodes extracts state.1 ∧
      ∀ key, key ∈ state.1 ↔ key ∈ now.entities) _ _ ⟨sound, fun _ => .rfl⟩
        fun state ⟨sound, same⟩ ask _ => ?_
    unfold refineOne
    split
    · exact ⟨sound, same⟩
    · dsimp only
      split
      · rename_i refined node _ found
        have one := sound _ _ found
        refine ⟨sound.insert ⟨one.keyed, one.label, one.only.refine⟩, fun key => ?_⟩
        have present : ask.candidate.key ∈ state.1 := by
          simp [ExtTreeMap.mem_iff_isSome_getElem?, found]
        rw [ExtTreeMap.mem_insert, ← same]
        refine ⟨fun inside => inside.elim (fun equal => ?_) id, .inr⟩
        exact Std.LawfulEqCmp.eq_of_compare equal ▸ present
      · exact ⟨sound, same⟩
  · exact ⟨sound, fun _ => .rfl⟩

/-! ### Finished -/

/-- Every text stands where it is said to. -/
theorem dedup_stands (texts : List String) :
    List.Forall₂ (fun text i => (dedup texts).1[i]? = some text) texts (dedup texts).2 := by
  induction texts using List.reverseRecOn with
  | nil => exact .nil
  | append_singleton texts text ih =>
    unfold dedup at ih ⊢
    rw [List.foldl_append, List.foldl_cons, List.foldl_nil]
    generalize List.foldl _ ([], []) texts = out at ih
    obtain ⟨unique, index⟩ := out
    dsimp only at ih ⊢
    cases found : unique.idxOf? text with
    | some i =>
      refine List.rel_append ih (.cons ?_ .nil)
      obtain ⟨inside, same, -⟩ := List.idxOf?_eq_some_iff.mp found
      rw [List.getElem?_eq_getElem inside, same]
    | none =>
      refine List.rel_append (ih.imp fun text i here => ?_) (.cons ?_ .nil)
      · rw [List.getElem?_append_left (List.getElem?_eq_some_iff.mp here).1, here]
      · rw [List.getElem?_append_right le_rfl, Nat.sub_self]
        rfl

variable {machine : Machine} {embed : List String → Except ε EmbedReply} {prepared : Prepared}
  {wanted : Bool} {tokens : ℕ} {node : DigestNode} {nodes nodes' : List DigestNode} {name : String}
  {desc : PropDesc}

/-- A vector that was computed from the text of a node. -/
def Computed (machine : Machine) (embed : List String → Except ε EmbedReply) (wanted : Bool)
    (node : DigestNode) (v : List UInt32) : Prop :=
  wanted = true ∧ ∃ texts reply, embed texts = .ok reply ∧
    ∃ i : ℕ, texts[i]? = some (embedText machine node) ∧ reply.vectors[i]? = some v

/-- A node and what embedding makes of it: itself, or with its vector. -/
def Embeds (machine : Machine) (embed : List String → Except ε EmbedReply) (wanted : Bool)
    (node node' : DigestNode) : Prop :=
  node' = node ∨ ∃ v, Computed machine embed wanted node v ∧
    node' = { node with props := node.props.insert "embedding" (prop (.vector v)) }

/-- Nodes embedded by vectors of texts, where each node's text stands at its index. -/
theorem embedNodes_embeds {texts : List String} {reply : EmbedReply} {index : List ℕ}
    (asked : wanted = true) (replied : embed texts = .ok reply)
    (stands : List.Forall₂ (fun node i => texts[i]? = some (embedText machine node)) nodes index)
    (ran : (embedNodes reply.vectors (nodes.zip index) : Except (Halt ε) _) = .ok nodes') :
    List.Forall₂ (Embeds machine embed wanted) nodes nodes' := by
  unfold embedNodes at ran
  rw [mapM_eq_ok] at ran
  induction stands generalizing nodes' with
  | nil =>
    cases ran
    exact .nil
  | @cons node i nodes index first _ ih =>
    obtain _ | ⟨here, rest⟩ := ran
    refine .cons ?_ (ih rest)
    dsimp only at here
    split at here
    · rename_i v found
      obtain rfl := Except.ok.inj here
      exact .inr ⟨v, ⟨asked, texts, reply, replied, i, first, found⟩, rfl⟩
    · cases here

theorem embedAll_embeds (ran : embedAll machine embed wanted nodes = .ok (nodes', tokens)) :
    List.Forall₂ (Embeds machine embed wanted) nodes nodes' := by
  unfold embedAll at ran
  split_ifs at ran with some_
  · have stands := dedup_stands (nodes.map (embedText machine))
    obtain ⟨reply, embedded, rest⟩ := bind_eq_ok.mp ran
    obtain ⟨nodes'', given, same⟩ := bind_eq_ok.mp rest
    obtain ⟨rfl, -⟩ := Prod.mk.inj (Except.ok.inj same)
    rw [List.forall₂_map_left_iff] at stands
    exact embedNodes_embeds (Bool.and_eq_true_iff.mp some_).1 (mapError_eq_ok.mp embedded)
      stands given
  · obtain ⟨rfl, -⟩ := Prod.mk.inj (Except.ok.inj ran)
    exact List.forall₂_same.mpr fun node _ => .inl rfl

/-- A property without text leaves the text of an entity as it is. -/
theorem filterMap_propLine {props : Properties} (silent : propLine machine name desc = none)
    (before : ∀ old, props[name]? = some old → propLine machine name old = none) :
    (props.insert name desc).filterMap (propLine machine) = props.filterMap (propLine machine) :=
  ExtTreeMap.filterMap_insert silent before

theorem propLine_hidden (hidden : name.toList.head? = some '_') (desc : PropDesc) :
    propLine machine name desc = none := if_pos hidden

/-- **The text of a node** is the same with its vector and its provenance. -/
theorem embedText_stamped : embedText machine (node.stamped opts) = embedText machine node := by
  have hidden : ∀ name : String, name.toList.head? = some '_' →
      ∀ (props : Properties) (desc : PropDesc),
      (props.insert name desc).filterMap (propLine machine) = props.filterMap (propLine machine) :=
    fun name own props desc => filterMap_propLine (propLine_hidden own desc) fun old _ =>
      propLine_hidden own old
  unfold embedText entityText DigestNode.stamped addProvenance
  dsimp only
  rw [hidden "_run" (by decide), hidden "_model" (by decide), hidden "_source" (by decide)]

theorem NodeAlias.hidden (other : NodeAlias extracts name desc) : name.toList.head? = some '_' := by
  cases other <;> decide

theorem embedText_embedded {v : List UInt32} (only : Only (NodeAlias extracts) node.props) :
    embedText machine { node with props := node.props.insert "embedding" (prop (.vector v)) } =
    embedText machine node := by
  unfold embedText entityText
  dsimp only
  rw [filterMap_propLine rfl fun old found => ?_]
  exact absurd (only "embedding" old found (by simp [reserved])).hidden (by decide)

/-- The keys of the fresh entities. -/
theorem keys_fresh (sound : SoundNodes extracts prepared.entities) :
    prepared.fresh.map DigestNode.key = prepared.entities.keys.filter (· ∉ prepared.existing) := by
  have own : ∀ entry ∈ prepared.entities.toList, entry.2.key = entry.1 := fun entry among =>
    (sound entry.1 entry.2 (ExtTreeMap.mem_toList_iff_getElem?_eq_some.mp among)).keyed
  have labelled : DigestNode.key ∘ DigestNode.labelled = DigestNode.key := by
    funext node
    dsimp only [Function.comp, DigestNode.labelled]
    split_ifs <;> rfl
  rw [Prepared.fresh, List.map_map, labelled, ← ExtTreeMap.map_fst_toList_eq_keys]
  generalize prepared.entities.toList = entries at own
  induction entries with
  | nil => rfl
  | cons entry entries ih =>
    obtain ⟨here, rest⟩ := List.forall_mem_cons.mp own
    rw [List.map_cons, List.map_cons, List.filter_cons, List.filter_cons, here]
    split_ifs
    · rw [List.map_cons, ih rest, here]
    · exact ih rest

theorem only_fresh (sound : SoundNodes extracts prepared.entities) :
    ∀ node ∈ prepared.fresh, Only (NodeAlias extracts) node.props := by
  intro node among
  obtain ⟨before, inside, rfl⟩ := List.mem_map.mp among
  obtain ⟨entry, listed, rfl⟩ := List.mem_map.mp (List.mem_of_mem_filter inside)
  have one := (sound entry.1 entry.2 (ExtTreeMap.mem_toList_iff_getElem?_eq_some.mp listed)).only
  unfold DigestNode.labelled
  split_ifs
  · exact one
  · exact one

/-- A computed vector, over what a pipeline wrote before. -/
inductive Embedded (vector : List UInt32 → Prop) (written : String → PropDesc → Prop) :
    String → PropDesc → Prop where
  | vector {v : List UInt32} (computed : vector v) : Embedded vector written "embedding"
    (prop (.vector v))
  | before {name : String} {desc : PropDesc} (wrote : written name desc) : Embedded vector
    written name desc

/-- What a digest makes of what it has prepared: nodes and edges that can be loaded, but for the
names of the keys. -/
structure Loads (machine : Machine) (embed : List String → Except ε EmbedReply) (opts : DigestOptions)
    (extracts : List ChunkExtract) (existing : Existing) (result : DigestResult) : Prop where
  distinct : (result.nodes.map DigestNode.key).Nodup
  new : ∀ node ∈ result.nodes, node.key ∉ existing
  ends : ∀ edge ∈ result.edges, (edge.src ∈ result.nodes.map DigestNode.key ∨ edge.src ∈ existing) ∧
    (edge.dst ∈ result.nodes.map DigestNode.key ∨ edge.dst ∈ existing)
  once : (result.edges.map DigestEdge.triple).Nodup
  nodes : ∀ node ∈ result.nodes, Only (Stamped opts.toProvenance
    (Embedded (Computed machine embed opts.embed node) (NodeAlias extracts))) node.props
  edges : ∀ edge ∈ result.edges, Only (Stamped opts.toProvenance (EdgeAlias extracts)) edge.props

theorem keys_embeds (embeds : List.Forall₂ (Embeds machine embed wanted) nodes nodes') :
    nodes'.map DigestNode.key = nodes.map DigestNode.key := by
  induction embeds with
  | nil => rfl
  | cons first _ ih => obtain rfl | ⟨v, -, rfl⟩ := first <;> exact congrArg (_ :: ·) ih

/-- **Finishing** what is sound. -/
theorem finish_loads (sound : SoundNodes extracts prepared.entities)
    (edges : SoundEdges extracts prepared.edges)
    (ran : finish machine embed opts prepared = .ok result) :
    Loads machine embed opts extracts prepared.existing result ∧
      result.nodes.map DigestNode.key = prepared.entities.keys.filter (· ∉ prepared.existing) ∧
      result.edges = prepared.kept.map (DigestEdge.stamped opts) := by
  obtain ⟨⟨nodes, tokens⟩, embedded, same⟩ := bind_eq_ok.mp ran
  obtain rfl := Except.ok.inj same
  have embeds := embedAll_embeds embedded
  have keys : (nodes.map (DigestNode.stamped opts)).map DigestNode.key =
      prepared.fresh.map DigestNode.key := by
    rw [List.map_map]
    exact keys_embeds embeds
  have fresh := keys_fresh sound
  dsimp only
  refine ⟨⟨?_, fun node inside => ?_, ?_, ?_, ?_, ?_⟩, keys.trans fresh, rfl⟩
  · rw [keys, fresh]
    exact ExtTreeMap.nodup_keys.filter _
  · have among := List.mem_map_of_mem (f := DigestNode.key) inside
    rw [keys, fresh] at among
    exact of_decide_eq_true (List.mem_filter.mp among).2
  · intro edge inside
    obtain ⟨before, among, rfl⟩ := List.mem_map.mp inside
    rw [keys]
    exact of_decide_eq_true (List.mem_filter.mp among).2
  · rw [List.map_map]
    exact edges.once.sublist (List.filter_sublist.map _)
  · intro node inside
    obtain ⟨before, among, rfl⟩ := List.mem_map.mp inside
    obtain ⟨i, bound, rfl⟩ := List.getElem_of_mem among
    have paired := List.forall₂_iff_get.mp embeds
    have one : Embeds machine embed opts.embed _ _ := paired.2 i (paired.1 ▸ bound) bound
    have only := only_fresh sound _ (List.getElem_mem (paired.1 ▸ bound : i < prepared.fresh.length))
    simp only [List.get_eq_getElem] at one
    generalize getElem prepared.fresh i (paired.1 ▸ bound) = node at one only
    obtain same | ⟨v, computed, same⟩ := one
    · rw [same]
      exact (only.mono fun _ _ => .before).addProvenance
    · have text := @embedText_embedded extracts machine node v only
      rw [same]
      refine Only.addProvenance ((only.mono fun _ _ => .before).insert fun _ => .vector ?_)
      unfold Computed at computed ⊢
      rw [embedText_stamped, text]
      exact computed
  · intro edge inside
    obtain ⟨before, among, rfl⟩ := List.mem_map.mp inside
    exact (edges.only before (List.mem_of_mem_filter among)).addProvenance

/-! ### The whole -/

/-- What can be loaded: the keys are fit names. -/
structure Loadable (machine : Machine) (embed : List String → Except ε EmbedReply)
    (opts : DigestOptions)
    (extracts : List ChunkExtract) (existing : Existing) (result : DigestResult) : Prop
    extends Loads machine embed opts extracts existing result where
  named : ∀ node ∈ result.nodes, modelName node.key = some node.key

namespace Run

variable (run : Run host models candidates opts document)

/-- The readings of the identity reply. -/
def readings : List (String × String) :=
  if opts.mode.resolvesIdentity then
    readingsFrom host.unicode (tally run.was.entities.keys) (labelsOf run.was.entities)
      host.parseSame models.identity
  else []

/-- Every reading that stands, if it starts at an extracted key, ends at a fit name or a key that
the graph holds. -/
def ReadsNames : Prop := ∀ source ∈ run.was.entities, ∀ target, Standing run.readings source target →
  modelName target = some target ∨ target ∈ run.existing

/-- The keys that are extracted were given. -/
theorem given (inside : key ∈ run.was.entities) : GivenKey run.extracts key := by
  obtain ⟨-, same⟩ := soundReconciled run.reconciles
  exact (soundMerge _ _).keys key ((same key).mp inside)

theorem fit (inside : key ∈ run.was.entities) : modelName key = some key := by
  obtain ⟨extract, -, e, -, named⟩ := run.given inside
  exact modelName_fit named

theorem loads : Loads host.machine models.embed opts run.extracts run.existing run.result ∧
    (∀ key, key ∈ run.result.nodes.map DigestNode.key ↔
      key ∈ run.now.entities ∧ key ∉ run.existing) := by
  have sound := soundIdentified (soundReconciled run.reconciles).1
    (fun key => run.given) run.identifies
  obtain ⟨nodes, same⟩ :=
    @soundRefined _ host models opts _ _ (chunk document opts.chunkChars) sound.nodes
  obtain ⟨loads, keys, -⟩ := finish_loads nodes sound.edges run.finishes
  refine ⟨loads, fun key => ?_⟩
  rw [keys, List.mem_filter, ExtTreeMap.mem_keys, same, decide_eq_true_eq]

/-- **When the keys are fit names.** -/
theorem named_iff : (∀ node ∈ run.result.nodes, modelName node.key = some node.key) ↔
    run.ReadsNames := by
  obtain ⟨-, keys⟩ := run.loads
  have named : (∀ node ∈ run.result.nodes, modelName node.key = some node.key) ↔
      ∀ key ∈ run.now.entities, key ∉ run.existing → modelName key = some key := by
    rw [← List.forall_mem_map (P := fun key => modelName key = some key)]
    exact forall_congr' fun key => by rw [keys, and_imp]
  rw [named]
  constructor
  · intro fits source inside target standing
    by_cases old : target ∈ run.was.entities
    · exact .inl (run.fit old)
    · refine or_iff_not_imp_right.mpr fun unheld =>
        fits target ((mem_identified run.identifies).mpr (.inr ?_)) unheld
      refine ⟨source, inside, ?_⟩
      unfold readings at standing
      unfold identityRenames
      split_ifs at standing ⊢ with resolves
      · exact renamed_of_reading standing fun counted => old (mem_keys_tally.mp counted)
      · obtain ⟨earlier, later, none, -⟩ := standing
        simp at none
  · intro reads key inside unheld
    by_cases old : key ∈ run.was.entities
    · exact run.fit old
    · obtain ⟨kept, -⟩ | ⟨a, present, renamed⟩ := (mem_identified run.identifies).mp inside
      · exact absurd kept old
      · unfold ReadsNames readings at reads
        unfold identityRenames at renamed
        split_ifs at reads renamed with resolves
        · obtain ⟨source, counted, standing⟩ := reading_of_minted (mem_keys_tally.mpr present) renamed
            fun counted => old (mem_keys_tally.mp counted)
          exact (reads source (mem_keys_tally.mp counted) key standing).resolve_right unheld
        · rw [ExtTreeMap.getElem?_empty] at renamed
          cases renamed

end Run

/-- **When what a digest produces can be loaded.** Whatever document, mode and graph it is given and
whatever the models reply, all but the names of the keys is as it should be, and those are fit
exactly where every line of the identity reply that stands and is read from an extracted key ends at
a fit name, or at a key that the graph holds. -/
theorem digest_loads_iff (ran : digest host models candidates opts document = .ok result) :
    ∃ run : Run host models candidates opts document, run.result = result ∧
      Loads host.machine models.embed opts run.extracts run.existing result ∧
      (Loadable host.machine models.embed opts run.extracts run.existing result ↔
        run.ReadsNames) := by
  obtain ⟨run, rfl⟩ := run_of_digest ran
  refine ⟨run, rfl, run.loads.1, fun loadable => run.named_iff.mp loadable.named, fun reads => ?_⟩
  exact ⟨run.loads.1, run.named_iff.mpr reads⟩

/-- ASCII, no stemming, and an identity reply that names the given lines. -/
def Host.plain (same : List String) : Host where
  unicode := .ascii
  analyze := fun text => [text]
  machine := .scalar
  parseGroups := fun _ => none
  parseSame := fun _ => some same
  parseRefined := fun _ => none

/-- Models that find what they are said to. -/
def Models.finding (extracts : List ChunkExtract) : Models Empty where
  embed := fun texts => .ok ⟨texts.map fun _ => [], 0⟩
  extract := fun _ => .ok extracts
  labels := .ok ⟨"", 0, 0⟩
  edgeTypes := .ok ⟨"", 0, 0⟩
  identity := .ok ⟨"", 0, 0⟩
  refine := fun _ => .ok ⟨"", 0, 0⟩

/-- A chunk with entities of some keys, and relations between them. -/
def extractOf (keys : List String) (relations : List (String × String)) : ChunkExtract where
  entities := keys.map fun key => ⟨key, "", [], none⟩
  relations := relations.map fun ends => ⟨ends.1, ends.2, "USES", [], none⟩
  inputTokens := 0
  outputTokens := 0
  chatRequests := 1

def DigestOptions.plain : DigestOptions where
  source := "doc"
  model := "m"
  runId := "r"
  chunkChars := 200
  embed := false
  mode := .fine
  refineMaxEntities := none
  refineMaxContext := none

/-- The keys that a digest makes nodes of. -/
def madeKeys (out : Except (Halt Empty) DigestResult) : Option (List String) :=
  out.toOption.map fun result => result.nodes.map DigestNode.key

theorem returns_of_made {out : Except (Halt Empty) DigestResult} {keys : List String}
    (made : madeKeys out = some keys) :
    ∃ result, out = .ok result ∧ result.nodes.map DigestNode.key = keys := by
  cases out with
  | error _ => cases made
  | ok result => exact ⟨result, rfl, Option.some.inj made⟩

theorem digest_loads_pair :
    ∃ result, digest (.plain ["a|abc"]) (.finding [extractOf ["a", "abc"] [("a", "abc")]]) none
      .plain "a and abc".toList = .ok result ∧ result.nodes.map DigestNode.key = ["abc"] ∧
      ∃ run : Run (.plain ["a|abc"]) (.finding [extractOf ["a", "abc"] [("a", "abc")]]) none .plain
          "a and abc".toList, run.result = result ∧
        (Loadable .scalar (Models.finding []).embed .plain run.extracts run.existing result ↔
          run.ReadsNames) := by
  have made : madeKeys (digest (.plain ["a|abc"]) (.finding [extractOf ["a", "abc"] [("a", "abc")]])
      none .plain "a and abc".toList) = some ["abc"] := by decide +kernel
  obtain ⟨result, ran, keys⟩ := returns_of_made made
  obtain ⟨run, same, -, loads⟩ := digest_loads_iff ran
  exact ⟨result, ran, keys, run, same, loads⟩

/-- The line `a| b|abc` is read as `a` and ` b|abc`: the entity of the one is moved to the other,
which is no fit name. -/
theorem digest_unfit : ∃ result, digest (.plain ["a| b|abc"])
    (.finding [extractOf ["a", "a| b", "abc"] []]) none .plain
    "a, a| b and abc".toList = .ok result ∧
    result.nodes.map DigestNode.key = [" b|abc", "abc", "a| b"] ∧
      ¬ ∀ node ∈ result.nodes, modelName node.key = some node.key := by
  have made : madeKeys (digest (.plain ["a| b|abc"]) (.finding [extractOf ["a", "a| b", "abc"] []])
      none .plain
      "a, a| b and abc".toList) = some [" b|abc", "abc", "a| b"] := by decide +kernel
  obtain ⟨result, ran, keys⟩ := returns_of_made made
  refine ⟨result, ran, keys, fun named => ?_⟩
  have first : " b|abc" ∈ result.nodes.map DigestNode.key := by rw [keys]; exact List.mem_cons_self
  obtain ⟨node, among, same⟩ := List.mem_map.mp first
  have fit := named node among
  rw [same] at fit
  exact absurd fit (by decide)

end DrStrange.Llm
