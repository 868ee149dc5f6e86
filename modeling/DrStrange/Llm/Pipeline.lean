/-
**The digest.**

A document's chunks are linked to what the graph holds, extracted, merged by key, reconciled in
their vocabulary, resolved in their identities, refined, and finished into nodes and edges that can
be loaded. What the models answer, what the graph holds and what their replies parse to are taken as
they come: a run is a function of them.
-/

import DrStrange.Compute.Expr
import DrStrange.Llm.ExtractAll
import DrStrange.Llm.Settable

namespace DrStrange.Llm

open Std (ExtTreeMap ExtTreeSet)
open DrStrange.Compute (Machine asText)
open DrStrange.Graph (PropDesc PropValue Properties)
open Lib

/-! ### What a run is given -/

/-- An entity of the graph that a model may reuse the key of. -/
structure ExistingEntity where
  key : String
  label : String
  description : String
  deriving DecidableEq, Repr

/-- The entities of the graph that are most like a vector, and those that have given keys. -/
structure CandidateSource (ε : Type) where
  similar : List UInt32 → ℕ → Except ε (List ExistingEntity)
  wantsSimilar : Bool
  existingKeys : List String → Except ε (List ExistingEntity)

structure EmbedReply where
  vectors : List (List UInt32)
  tokens : ℕ
  deriving DecidableEq, Repr

/-- An entity that is mentioned beyond the chunks that produced it. -/
structure Candidate where
  key : String
  fresh : List ℕ
  context : List ℕ
  degree : ℕ
  props : ℕ
  deriving DecidableEq, Repr

/-- What is asked about a candidate. -/
structure Ask where
  candidate : Candidate
  label : String
  props : Properties
  relations : List String

/-- What the models answer in a run. -/
structure Models (ε : Type) where
  embed : List String → Except ε EmbedReply
  extract : List LinkedChunk → Except ε (List ChunkExtract)
  labels : Except ε Reply
  edgeTypes : Except ε Reply
  identity : Except ε Reply
  refine : Ask → Except ε Reply

/-- The tables of the characters, the analyzer of the keyword index, the floats, and the readers of
JSON. -/
structure Host where
  unicode : Unicode
  analyze : String → List String
  machine : Machine
  parseGroups : String → Option (List (List String))
  parseSame : String → Option (List String)
  parseRefined : String → Option Refined

inductive DigestMode where
  | coarse
  | fine
  | super
  deriving DecidableEq, Repr

def DigestMode.reconciles : DigestMode → Bool
  | _ => true

def DigestMode.resolvesIdentity : DigestMode → Bool
  | .coarse => false
  | .fine | .super => true

def DigestMode.refines (mode : DigestMode) : Bool := mode = .super

structure DigestOptions extends Provenance where
  chunkChars : ℕ
  embed : Bool
  mode : DigestMode
  refineMaxEntities : Option ℕ
  refineMaxContext : Option ℕ

/-- All that a report says. -/
structure RunReport extends DigestReport where
  chunks : ℕ
  entities : ℕ
  relations : ℕ
  linked : ℕ
  droppedRelations : ℕ
  rejected : ℕ
  reservedProps : ℕ
  mergedRelations : ℕ
  labels : ReconcileReport
  edgeTypes : ReconcileReport
  refined : RefineReport
  embedTokens : ℕ

def RunReport.start (chunks : ℕ) : RunReport where
  identity := ⟨0, 0, 0, 0, 0, 0, 0, 0, 0⟩
  chatRequests := 0
  inputTokens := 0
  outputTokens := 0
  chunks := chunks
  entities := 0
  relations := 0
  linked := 0
  droppedRelations := 0
  rejected := 0
  reservedProps := 0
  mergedRelations := 0
  labels := ⟨0, 0, 0, 0, 0, 0, 0⟩
  edgeTypes := ⟨0, 0, 0, 0, 0, 0, 0⟩
  refined := ⟨0, 0, 0, 0, 0, 0, 0, 0, 0⟩
  embedTokens := 0

def RunReport.spend (report : RunReport) (requests input output : ℕ) : RunReport :=
  { report with
    chatRequests := report.chatRequests + requests
    inputTokens := report.inputTokens + input
    outputTokens := report.outputTokens + output }

structure DigestResult where
  nodes : List DigestNode
  edges : List DigestEdge
  report : RunReport

/-- Why a run stops: something it calls fails, or it panics. -/
inductive Halt (ε : Type) where
  | failed (error : ε)
  | panic (message : String)

/-! ### Linking -/

/-- The entities of the graph that have come up, by key. -/
abbrev Existing := ExtTreeMap String ExistingEntity compare

def linkK : ℕ := 8

/-- The entities to reuse, as they are shown before a chunk. -/
def existingBlock (cands : List ExistingEntity) : Option String :=
  if cands.isEmpty then none
  else some
    ("EXISTING ENTITIES (already in the graph — reuse a key if the text refers to it; do NOT " ++
    "re-extract these):\n" ++
    String.join (cands.map fun e => "- " ++ e.key ++ " (" ++ e.label ++ "): " ++
      String.ofList (trim (e.description.toList.take 160)) ++ "\n"))

/-- The first entity to come up under a key. -/
def Existing.absorb (existing : Existing) (found : List ExistingEntity) : Existing :=
  found.foldl (fun existing e => existing.insertIfNew e.key e) existing

structure Linked where
  blocks : List (Option String)
  existing : Existing
  embedTokens : ℕ

variable {ε : Type}

/-- One chunk's block of entities to reuse. -/
def linkChunk (embed : List String → Except ε EmbedReply) (candidates : Option (CandidateSource ε))
    (linked : Linked) (chunk : List Char) : Except ε Linked :=
  match candidates with
  | some src =>
    if src.wantsSimilar then do
      let emb ← embed [String.ofList chunk]
      let cands ← match emb.vectors.head? with
        | some qv => src.similar qv linkK
        | none => pure []
      return ⟨linked.blocks ++ [existingBlock cands], linked.existing.absorb cands,
        linked.embedTokens + emb.tokens⟩
    else return { linked with blocks := linked.blocks ++ [none] }
  | none => return { linked with blocks := linked.blocks ++ [none] }

def linkChunks (embed : List String → Except ε EmbedReply) (candidates : Option (CandidateSource ε))
    (chunks : List (List Char)) : Except ε Linked :=
  chunks.foldlM (linkChunk embed candidates) ⟨[], ∅, 0⟩

/-! ### Merging the extractions -/

def DigestEdge.triple (edge : DigestEdge) : String × String × String := (edge.src, edge.dst, edge.ty)

structure MergedExtractions where
  entities : Entities
  edges : List DigestEdge
  origins : Origins

/-- An entity that a chunk produced: the first label and the first value of each property stay. -/
def mergeEntity (chunkIndex : ℕ) (state : MergedExtractions × RunReport) (e : ExEntity) :
    MergedExtractions × RunReport :=
  match modelName e.key with
  | none => (state.1, { state.2 with rejected := state.2.rejected + 1 })
  | some key =>
    let node := state.1.entities[key]?.getD ⟨key, "", [], ∅⟩
    let label := if node.label.isEmpty then (modelName e.label).getD node.label else node.label
    let (props, reserved) := mergeProps node.props e.properties
    let props := e.description.elim props fun text => props.insertIfNew "description" (descProp text)
    ({ state.1 with
        entities := state.1.entities.insert key { node with label := label, props := props }
        origins := state.1.origins.insert key ((state.1.origins[key]?.getD ∅).insert chunkIndex) },
      { state.2 with reservedProps := state.2.reservedProps + reserved })

/-- A relation, if it is the first of its kind between its ends. -/
def mergeRelation (state : MergedExtractions × RunReport) (r : ExRelation) :
    MergedExtractions × RunReport :=
  match modelName r.src, modelName r.dst, modelName r.ty with
  | some src, some dst, some ty =>
    -- The triples that were seen are those of the edges.
    if (src, dst, ty) ∈ state.1.edges.map DigestEdge.triple then state
    else
      let (props, reserved) := mergeProps ∅ r.properties
      let props := r.description.elim props fun text => props.insert "description" (descProp text)
      ({ state.1 with edges := state.1.edges ++ [⟨src, dst, ty, props⟩] },
        { state.2 with reservedProps := state.2.reservedProps + reserved })
  | _, _, _ => (state.1, { state.2 with rejected := state.2.rejected + 1 })

def mergeExtract (state : MergedExtractions × RunReport) (indexed : ChunkExtract × ℕ) :
    MergedExtractions × RunReport :=
  let extraction := indexed.1
  let report := state.2.spend extraction.chatRequests extraction.inputTokens extraction.outputTokens
  extraction.relations.foldl mergeRelation
    (extraction.entities.foldl (mergeEntity indexed.2) (state.1, report))

/-- Merges the extractions in the order of the chunks. -/
def mergeExtractions (extracts : List ChunkExtract) (report : RunReport) :
    MergedExtractions × RunReport :=
  extracts.zipIdx.foldl mergeExtract (⟨∅, [], ∅⟩, report)

/-! ### Reconciling the vocabulary -/

def DigestNode.relabel (renames : Renames) (node : DigestNode) : DigestNode :=
  match renames[node.label]? with
  | some canonical =>
    { node with
      label := canonical
      props := noteOriginal node.props "_label_as_written"
        "label as the document wrote it, before reconciliation" node.label }
  | none => node

def DigestEdge.retype (renames : Renames) (edge : DigestEdge) : DigestEdge :=
  match renames[edge.ty]? with
  | some canonical =>
    { edge with
      ty := canonical
      props := noteOriginal edge.props "_type_as_written"
        "edge type as the document wrote it, before reconciliation" edge.ty }
  | none => edge

/-- The first edge of each kind between two endpoints. -/
def retainOnce (seen : List (String × String × String)) : List DigestEdge → List DigestEdge
  | [] => []
  | edge :: edges =>
    if edge.triple ∈ seen then retainOnce seen edges
    else edge :: retainOnce (edge.triple :: seen) edges

/-- Renames the labels and the types of edges to canonical ones. -/
def reconcileVocabulary (host : Host) (labels edgeTypes : Except ε Reply) (entities : Entities)
    (edges : List DigestEdge) (report : RunReport) :
    Except ε (Entities × List DigestEdge × RunReport) := do
  let labelCounts := tally ((entities.toList.map fun entry => entry.2.label).filter fun label =>
    !label.isEmpty)
  let (labelRenames, labelReport) ← reconcile host.unicode labels host.parseGroups labelCounts
  let entities := entities.map fun _ node => node.relabel labelRenames
  let typeCounts := tally (edges.map DigestEdge.ty)
  let (typeRenames, typeReport) ← reconcile host.unicode edgeTypes host.parseGroups typeCounts
  let retyped := edges.map (DigestEdge.retype typeRenames)
  let kept := retainOnce [] retyped
  let report := { report with
    labels := labelReport
    edgeTypes := typeReport
    mergedRelations := retyped.length - kept.length }
  return (entities, kept, report.spend (labelReport.chatRequests + typeReport.chatRequests)
    (labelReport.inputTokens + typeReport.inputTokens) (labelReport.outputTokens +
      typeReport.outputTokens))

/-! ### Refining -/

/-- The chunks that have all of some words. -/
def mentions (tokens : List (List String)) (wanted : List String) : List ℕ :=
  (List.range tokens.length).filter fun i => wanted.all fun word => (tokens[i]?.getD []).contains word

/-- The first candidate is asked about first: the most connected, then the thinnest, then by key. -/
def Candidate.before (a b : Candidate) : Bool :=
  b.degree < a.degree || a.degree = b.degree &&
    (a.props < b.props || a.props = b.props && a.key ≤ b.key)

/-- The entities that are mentioned in chunks that did not produce them. -/
def candidates (analyze : String → List String) (chunks : List (List Char)) (origins : Origins)
    (degrees propCounts : Counts) (maxContext : Option ℕ) : List Candidate :=
  let tokens := chunks.map fun chunk => analyze (String.ofList chunk)
  let found := origins.toList.filterMap fun (key, producedIn) =>
    let wanted := analyze key
    if wanted.isEmpty then none
    else
      let fresh := (mentions tokens wanted).filter (· ∉ producedIn)
      if fresh.isEmpty then none
      else
        let context := ((producedIn.toList ++ fresh).mergeSort fun a b => a ≤ b).dedup
        some ⟨key, fresh, maxContext.elim context fun cap =>
          context.take (max cap 1), degrees[key]?.getD 0,
          propCounts[key]?.getD 0⟩
  found.mergeSort Candidate.before

/-- What is asked about the candidates that are entities. -/
def asks (entities : Entities) (edges : List DigestEdge) (candidates : List Candidate) : List Ask :=
  candidates.filterMap fun candidate =>
    entities[candidate.key]?.map fun node =>
      ⟨candidate, node.label, node.props, (edges.filter fun e =>
        e.src = candidate.key || e.dst = candidate.key).map
        fun e => e.src ++ " --" ++ e.ty ++ "--> " ++ e.dst⟩

/-- What one answer makes of the entities; a failed ask leaves its entity as it is. -/
def refineOne (host : Host) (answer : Ask → Except ε Reply) (state : Entities × RefineReport)
    (ask : Ask) :
    Entities × RefineReport :=
  match answer ask with
  | .error _ => (state.1, { state.2 with failed := state.2.failed + 1 })
  | .ok reply =>
    let report := { state.2 with
      chatRequests := state.2.chatRequests + 1
      inputTokens := state.2.inputTokens + reply.inputTokens
      outputTokens := state.2.outputTokens + reply.outputTokens }
    match host.parseRefined (extractJson reply.text), state.1[ask.candidate.key]? with
    | some refined, some node =>
      let (props, report) := refine node.props refined report
      (state.1.insert ask.candidate.key { node with props := props },
        { report with refined := report.refined + 1 })
    | _, _ => (state.1, report)

/-- Asks about the candidates, so many at most. -/
def refineEntities (host : Host) (answer : Ask → Except ε Reply) (opts : DigestOptions)
    (chunks : List (List Char))
    (entities : Entities) (edges : List DigestEdge) (origins : Origins) (report : RunReport) :
    Entities × RunReport :=
  let degrees := tally (edges.flatMap fun e => [e.src, e.dst])
  let propCounts : Counts := entities.map fun _ node =>
    (node.props.toList.filter fun entry => entry.1.toList.head? ≠ some '_').length
  let eligible := candidates host.analyze chunks origins degrees propCounts opts.refineMaxContext
  let start := { report.refined with
    eligible := eligible.length
    skippedNothingNew := entities.size - eligible.length }
  let chosen := opts.refineMaxEntities.elim eligible fun cap => eligible.take cap
  let (entities, refined) :=
    (asks entities edges chosen).foldl (refineOne host answer) (entities, start)
  (entities, { report with refined := refined }.spend refined.chatRequests refined.inputTokens
    refined.outputTokens)

/-! ### Finishing -/

/-- The text of a property, if it has one. -/
def propText (machine : Machine) (value : PropValue) : Option String :=
  let texts := match value with
    | .list items => items.filterMap (asText machine)
    | other => (asText machine other).toList
  let shown := (texts.map fun (text : String) => String.ofList (trim text.toList)).filter
    fun text => !text.isEmpty
  if shown.isEmpty then none else some (", ".intercalate shown)

/-- The line of a property in the text of an entity. -/
def propLine (machine : Machine) (key : String) (desc : PropDesc) : Option String :=
  if key.toList.head? = some '_' then none
  else (propText machine desc.value).map fun text => "\n" ++ key ++ ": " ++ text

/-- The text that an entity is embedded by. -/
def entityText (machine : Machine) (key : String) (labels : List String) (props : Properties) :
    String :=
  let head := if labels.isEmpty then key else key ++ " (" ++ ", ".intercalate labels ++ ")"
  head ++ String.join ((props.filterMap (propLine machine)).toList.map Prod.snd)

def embedText (machine : Machine) (node : DigestNode) : String :=
  entityText machine node.key [node.label] node.props

/-- Every text once, and where each stands. -/
def dedup (texts : List String) : List String × List ℕ :=
  texts.foldl (fun (unique, index) text =>
    match unique.idxOf? text with
    | some i => (unique, index ++ [i])
    | none => (unique ++ [text], index ++ [unique.length])) ([], [])

/-- The vectors of nodes by the texts they stand for; a reply that is short of one panics. -/
def embedNodes (vectors : List (List UInt32)) (nodes : List (DigestNode × ℕ)) :
    Except (Halt ε) (List DigestNode) :=
  nodes.mapM fun (node, i) =>
    match vectors[i]? with
    | some v => .ok { node with props := node.props.insert "embedding" (prop (.vector v)) }
    | none => .error (.panic "index out of bounds")

/-- The nodes with their vectors, and what they cost. -/
def embedAll (machine : Machine) (embed : List String → Except ε EmbedReply) (wanted : Bool)
    (nodes : List DigestNode) :
    Except (Halt ε) (List DigestNode × ℕ) :=
  if wanted && !nodes.isEmpty then do
    let (unique, index) := dedup (nodes.map (embedText machine))
    let reply ← (embed unique).mapError .failed
    return (← embedNodes reply.vectors (nodes.zip index), reply.tokens)
  else return (nodes, 0)

/-- What is to be finished. -/
structure Prepared where
  entities : Entities
  edges : List DigestEdge
  existing : Existing
  report : RunReport

/-- An entity without a label is called one. -/
def DigestNode.labelled (node : DigestNode) : DigestNode :=
  if node.label.isEmpty then { node with label := "Entity" } else node

/-- The entities that the graph does not hold. -/
def Prepared.fresh (prepared : Prepared) : List DigestNode :=
  ((prepared.entities.toList.map Prod.snd).filter fun node => node.key ∉ prepared.existing).map
    DigestNode.labelled

/-- The edges whose ends are fresh or held. -/
def Prepared.kept (prepared : Prepared) : List DigestEdge :=
  let valid := fun key : String => key ∈ prepared.fresh.map DigestNode.key ∨ key ∈ prepared.existing
  prepared.edges.filter fun edge => valid edge.src ∧ valid edge.dst

def DigestNode.stamped (opts : DigestOptions) (node : DigestNode) : DigestNode :=
  { node with props := addProvenance node.props opts.toProvenance }

def DigestEdge.stamped (opts : DigestOptions) (edge : DigestEdge) : DigestEdge :=
  { edge with props := addProvenance edge.props opts.toProvenance }

/-- The nodes that the graph does not hold and the edges that lead somewhere, embedded and stamped. -/
def finish (machine : Machine) (embed : List String → Except ε EmbedReply) (opts : DigestOptions)
    (prepared : Prepared) : Except (Halt ε) DigestResult := do
  let linked := (prepared.entities.keys.filter (· ∈ prepared.existing)).length
  let (nodes, tokens) ← embedAll machine embed opts.embed prepared.fresh
  return ⟨nodes.map (DigestNode.stamped opts), prepared.kept.map (DigestEdge.stamped opts),
    { prepared.report with
    linked := linked
    droppedRelations := prepared.edges.length - prepared.kept.length
    embedTokens := prepared.report.embedTokens + tokens
    entities := nodes.length
    relations := prepared.kept.length }⟩

/-! ### The whole -/

/-- The entities and edges after reconciling, and the chunks of the entities. -/
structure Reconciled where
  entities : Entities
  edges : List DigestEdge
  origins : Origins
  report : RunReport

/-- The extractions, merged and in one vocabulary. -/
def reconciled (host : Host) (models : Models ε) (opts : DigestOptions) (extracts : List ChunkExtract)
    (report : RunReport) : Except ε Reconciled := do
  let (merged, report) := mergeExtractions extracts report
  if opts.mode.reconciles then do
    let (entities, edges, report) ←
      reconcileVocabulary host models.labels models.edgeTypes merged.entities merged.edges report
    return ⟨entities, edges, merged.origins, report⟩
  else return ⟨merged.entities, merged.edges, merged.origins, report⟩

/-- The entities with their identities resolved. -/
def identified (host : Host) (models : Models ε) (opts : DigestOptions) (was : Reconciled) :
    Except ε Reconciled :=
  if opts.mode.resolvesIdentity then do
    let (entities, edges, origins, report) ← resolveIdentity host.unicode models.identity
      host.parseSame was.entities
      was.edges was.origins was.report.toDigestReport
    return ⟨entities, edges, origins, { was.report with toDigestReport := report }⟩
  else return was

/-- The entities refined. -/
def refinedEntities (host : Host) (models : Models ε) (opts : DigestOptions)
    (chunks : List (List Char)) (was : Reconciled) : Entities × RunReport :=
  if opts.mode.refines then refineEntities host models.refine opts chunks was.entities was.edges
    was.origins was.report
  else (was.entities, was.report)

/-- What the graph holds of some keys, beside what has come up before. -/
def lookUp (candidates : Option (CandidateSource ε)) (keys : List String) (existing : Existing) :
    Except ε Existing :=
  match candidates with
  | some src => do return existing.absorb (← src.existingKeys keys)
  | none => return existing

/-- All that comes before finishing. -/
def prepare (host : Host) (models : Models ε) (candidates : Option (CandidateSource ε))
    (opts : DigestOptions) (document : List Char) : Except ε Prepared := do
  let chunks := chunk document opts.chunkChars
  let linked ← linkChunks models.embed candidates chunks
  let report := { RunReport.start chunks.length with embedTokens := linked.embedTokens }
  let extracts ← models.extract (linked.blocks.zip chunks)
  let was ← reconciled host models opts extracts report
  let now ← identified host models opts was
  let (entities, report) := refinedEntities host models opts chunks now
  let existing ← lookUp candidates entities.keys linked.existing
  return ⟨entities, now.edges, existing, report⟩

/-- A document digested. -/
def digest (host : Host) (models : Models ε) (candidates : Option (CandidateSource ε))
    (opts : DigestOptions) (document : List Char) : Except (Halt ε) DigestResult := do
  let prepared ← (prepare host models candidates opts document).mapError .failed
  finish host.machine models.embed opts prepared

end DrStrange.Llm
