/-
**Vectorizing a plane.**

A pass walks a plane by the ids of its nodes. A node that has a text is embedded unless it already
carries the hash of that text beside a vector; what is to be embedded is gathered into batches, and
each batch is one call of the embedder and one transaction. At the end an index is ensured for each
label that carries embeddings. What the embedder answers, what the store refuses and the time of
each commit are taken as they come.
-/

import DrStrange.Api.Database
import DrStrange.Llm.Pipeline

namespace DrStrange.Llm

open Std (ExtTreeMap ExtTreeSet)
open DrStrange.Compute (Machine)
open DrStrange.Graph (PropDesc PropValue Properties Tables Database NodeId PlaneId NodeRecord Metric)
open Lib

/-! ### Texts -/

/-- The text of a property of a parser's fact: only strings are content. -/
def factPropText (value : PropValue) : Option String :=
  let texts := match value with
    | .list items => items.filterMap PropValue.asText
    | other => other.asText.toList
  let shown := (texts.map fun (text : String) => String.ofList (trim text.toList)).filter
    fun text => !text.isEmpty
  if shown.isEmpty then none else some (", ".intercalate shown)

def factLine (key : String) (desc : PropDesc) : Option String :=
  if key.toList.head? = some '_' then none
  else (factPropText desc.value).map fun text => "\n" ++ key ++ ": " ++ text

/-- The text that a parser's fact is embedded by. -/
def factText (key : String) (labels : List String) (props : Properties) : String :=
  let head := if labels.isEmpty then key else key ++ " (" ++ ", ".intercalate labels ++ ")"
  head ++ String.join ((props.filterMap factLine).toList.map Prod.snd)

/-- The most bytes that are embedded of a text. -/
def textCap : ℕ := 6000

/-- A text up to a byte position, or to the last one before it that is not inside of a character. -/
def truncateAt (text : List Char) : ℕ → List Char
  | 0 => []
  | stop + 1 =>
    match cutAt (stop + 1) text with
    | some (before, _) => before
    | none => truncateAt text stop

def capText (text : String) : String :=
  if text.utf8ByteSize > textCap then String.ofList (truncateAt text.toList textCap) else text

/-- A byte in two digits of hex. -/
def hexByte (byte : UInt8) : String :=
  String.ofList [Nat.digitChar (byte.toNat / 16), Nat.digitChar (byte.toNat % 16)]

section

variable (machine : Machine) (sha256 : List UInt8 → List UInt8)

/-- The text to embed for any node, by where it comes from. -/
def embeddableText (key : String) (labels : List String) (props : Properties) : String :=
  if "_generated_by" ∈ props then factText key labels props else entityText machine key labels props

/-- The fingerprint of a text: 16 digits of hex. -/
def textHash (text : String) : String :=
  String.join (((sha256 (bytes text.toList)).take 8).map hexByte)

/-- Whether a node carries a vector beside the hash of its text. -/
def upToDate (props : Properties) (hash : String) : Bool :=
  (match (props["_embedded_from"]?).map PropDesc.value with
    | some (.str h) => h = hash
    | _ => false) &&
  (match (props["embedding"]?).map PropDesc.value with
    | some (.vector _) => true
    | _ => false)

/-! ### The pass -/

structure VectorizeStats where
  embedded : ℕ
  unique : ℕ
  tokens : ℕ
  current : ℕ
  empty : ℕ
  labels : List String
  deriving DecidableEq, Repr

/-- Nodes for each call of the embedder and each transaction. -/
def embedBatchSize : ℕ := 512

/-- A node that is to be embedded, with its text and the hash of it. -/
structure Job where
  id : NodeId
  text : String
  hash : String
  deriving DecidableEq, Repr

/-- What comes from outside: whether the store refuses a call, when it is made, and the embedder's
replies. -/
structure Outside where
  refused : ℕ → Option Error
  clock : ℕ → ℤ
  embed : ℕ → List String → Except String EmbedReply

/-- Why a pass ends before it is through. -/
inductive Stop where
  | store (error : Error)
  | provider (context text : String)
  | bail (text : String)
  | panic (text : String)

/-- A pass on its way. -/
structure Pass where
  db : Database
  calls : ℕ
  asked : ℕ
  work : List Job
  labels : ExtTreeSet String compare
  stats : VectorizeStats

abbrev PassM := EStateM Stop Pass

def Pass.start (db : Database) : Pass := ⟨db, 0, 0, [], ∅, ⟨0, 0, 0, 0, 0, []⟩⟩

variable (host : Graph.Host) (out : Outside)

/-- A call of the store, which may refuse it. -/
def storeCall {α : Type} (run : Database → ℤ → Except Error α × Database) : PassM α := fun pass =>
  let next := { pass with calls := pass.calls + 1 }
  match out.refused pass.calls with
  | some error => .error (.store error) next
  | none =>
    match run pass.db (out.clock pass.calls) with
    | (.ok result, db) => .ok result { next with db := db }
    | (.error error, db) => .error (.store error) { next with db := db }

def readCall {α : Type} (read : Database → Except Error α) : PassM α :=
  storeCall out fun db _ => (read db, db)

/-- A call of the embedder. -/
def embedCall (texts : List String) : PassM EmbedReply := fun pass =>
  let next := { pass with asked := pass.asked + 1 }
  match out.embed pass.asked texts with
  | .ok reply => .ok reply next
  | .error text => .error (.provider "embedding the plane" text) next

/-- What a node is given: its vector and the hash of the text that the vector was made from. -/
def carried (vector : List UInt32) (hash : String) : List (String × PropDesc) :=
  [("embedding", .mk (some "embedding of this node's text") (.vector vector)),
    ("_embedded_from", .mk (some "hash of the text the embedding was built from") (.str hash))]

/-- The vectors of jobs, by where their texts stand; a reply that is short of one panics. -/
def placeVectors (vectors : List (List UInt32)) (jobs : List (Job × ℕ)) :
    Except Stop (List (Job × List UInt32)) :=
  jobs.mapM fun (job, i) =>
    match vectors[i]? with
    | some vector => .ok (job, vector)
    | none => .error (.panic "index out of bounds")

def setVectors {base : Tables} : List (Job × List UInt32) → Graph.WriteM base Unit
  | [] => return
  | (job, vector) :: rows => do
    Graph.setProps job.id (carried vector job.hash)
    setVectors rows

/-- The transaction of a batch: all of it, or none. -/
def writeBatch (plane : PlaneId) (rows : List (Job × List UInt32)) (db : Database) (millis : ℤ) :
    Except Error Unit × Database :=
  match setVectors rows (db.writeTxn host plane []) with
  | .error error _ => (.error error, db)
  | .ok _ write =>
    match db.commit host write millis with
    | .error error => (.error error, db)
    | .ok db => (.ok (), db)

/-- A batch is written and is not to be done any more. -/
def storeBatch (plane : PlaneId) (rows : List (Job × List UInt32)) : PassM Unit := do
  storeCall out (writeBatch host plane rows)
  modify fun pass => { pass with work := [] }

/-- Embeds what has been gathered and writes the vectors. -/
def embedBatch (plane : PlaneId) : PassM Unit := do
  let work := (← get).work
  if work.isEmpty then return
  else
    let (unique, index) := dedup (work.map Job.text)
    let reply ← embedCall out unique
    if reply.vectors.length ≠ unique.length then
      throw (.bail
        s!"the embedding provider answered {reply.vectors.length} vectors for {unique.length} texts")
    else
      modify fun pass => { pass with stats := { pass.stats with
        embedded := pass.stats.embedded + work.length
        unique := pass.stats.unique + unique.length
        tokens := pass.stats.tokens + reply.tokens } }
      let rows ← MonadExcept.ofExcept (placeVectors reply.vectors (work.zip index))
      storeBatch host out plane rows

/-- The first label of a node with a text is one that carries embeddings. -/
def noteLabel : List String → PassM Unit
  | primary :: _ => modify fun pass => { pass with labels := pass.labels.insert primary }
  | [] => return

/-- A node that is to be embedded; a full batch is embedded at once. -/
def queue (plane : PlaneId) (job : Job) : PassM Unit := do
  modify fun pass => { pass with work := pass.work ++ [job] }
  if (← get).work.length ≥ embedBatchSize then embedBatch host out plane else return

/-- What a pass makes of a node: nothing without a text, and nothing where the text has not changed.
-/
def consider (plane : PlaneId) (node : NodeRecord) : PassM Unit := do
  let text := embeddableText machine (node.externalKey.getD "") node.labels node.properties
  if (trim text.toList).isEmpty then
    modify fun pass => { pass with stats := { pass.stats with empty := pass.stats.empty + 1 } }
  else
    noteLabel node.labels
    let text := capText text
    let hash := textHash sha256 text
    if upToDate node.properties hash then
      modify fun pass => { pass with stats := { pass.stats with current := pass.stats.current + 1 } }
    else queue host out plane ⟨node.id, text, hash⟩

def visit (plane : PlaneId) (id : NodeId) : PassM Unit := do
  match ← readCall out fun db => Graph.getNode db.tables plane id with
  | none => return
  | some node => consider machine sha256 host out plane node

/-- `ensure_vector_index`: the declaration is committed before the index is built. -/
def ensureVectorIndex (plane : PlaneId) (label property : String) (metric : Metric) (db : Database)
    (millis : ℤ) :
    Except Error Unit × Database :=
  match Graph.withWrite db.tables millis (Graph.declareVectorIndex plane label property metric) with
  | .error error => (.error error, db)
  | .ok (_, tables) =>
    match Graph.buildEntry (Graph.vectorKind host) tables db.vectors plane label property metric with
    | .error error => (.error error, { db with tables := tables })
    | .ok vectors => (.ok (), { db with tables := tables, vectors := vectors })

def findPlane (name : String) (db : Database) : Except Error PlaneId :=
  match Graph.planeIdByName db.tables name with
  | some plane => .ok plane
  | none => .error (.notFound s!"plane '{name}'")

def vectorizePlane (name : String) (metric : Metric) : PassM VectorizeStats := do
  let plane ← readCall out (findPlane name)
  let ids ← readCall out fun db => .ok (Graph.scanAll db.tables plane)
  ids.forM (visit machine sha256 host out plane)
  embedBatch host out plane
  let labels := (← get).labels.toList
  labels.forM fun label => storeCall out (ensureVectorIndex host plane label "embedding" metric)
  modify fun pass => { pass with stats := { pass.stats with labels := labels } }
  return (← get).stats

end

end DrStrange.Llm
