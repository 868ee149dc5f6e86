/-
**Write statements, compiled and applied.**

A statement with a `MATCH` finds its nodes first and then does each of its operations to every one of
them; one without creates and merges. It runs in one transaction, and reads of the plane show what
was committed before it: what the statement itself has made it looks up in `Staged`. No other write
falls between its reads and its transaction.
-/

import DrStrange.Api.Difference
import DrStrange.Compute.Exec
import DrStrange.Parser.Compile

namespace DrStrange.Parser

open Std DrStrange.Graph DrStrange.Compute

/-- The text of an error. -/
def display : Error → String
  | .notFound message => s!"not found: {message}"
  | .planeMismatch message => s!"plane mismatch: {message}"
  | .planeExists message => s!"plane already exists: {message}"
  | .conflict message => s!"conflict: {message}"
  | .invalidArgument message => s!"invalid argument: {message}"
  | .timeout message => s!"timed out: {message}"
  | .corrupt message => s!"database is corrupt: {message}"
  | .readOnly message => s!"database is read-only: {message}"
  | .unsupported message => s!"not supported by this storage backend: {message}"
  | .backend message => s!"storage backend error: {message}"
  | .io message => message

/-- What a statement changed, by its own count. -/
structure WriteSummary where
  nodesCreated : ℕ := 0
  edgesCreated : ℕ := 0
  propsSet : ℕ := 0
  labelsSet : ℕ := 0
  nodesDeleted : ℕ := 0
  edgesDeleted : ℕ := 0
  deriving DecidableEq, Repr

/-- A statement that can be applied: the variable its match binds with the plan that finds it, and
what is done. -/
structure WriteStatement where
  binding : Option (String × LogicalPlan)
  ops : List WriteOp
  hasLabelOps : Bool
  params : Params

/-! ### Compilation -/

/-- The variable of the pattern's last node. -/
def terminalVar (pattern : Pattern) : Option String :=
  ((pattern.rest.getLast?).elim pattern.first Prod.snd).var

def setItemVar : SetItem → String
  | .prop var .. | .label var _ | .merge var _ => var

def removeItemVar : RemoveItem → String
  | .prop var _ | .label var _ => var

def isLabelOp : WriteOp → Bool
  | .set items => items.any fun item => match item with | .label .. => true | _ => false
  | .remove items => items.any fun item => match item with | .label .. => true | _ => false
  | .create _ | .merge _ | .delete .. => false

section Resolve

variable (params : Params) (debug : PropValue → String)

/-- A key that is a parameter, resolved to the string it must be. -/
def resolveNode (node : CreateNode) : Except String CreateNode :=
  match node.key with
  | some (.param name) => do
    match ← resolveParam params name with
    | .str key => return { node with key := some (.lit (.str key)) }
    | other => throw ("`key:` must be a string to serve as the external key; " ++
        s!"`${name}` is {debug other}")
  | _ => .ok node

def resolvePath (path : CreatePath) : Except String CreatePath := do
  let first ← resolveNode params debug path.first
  let rest ← path.rest.mapM fun hop => return (hop.1, ← resolveNode params debug hop.2)
  return ⟨first, rest⟩

def resolveOp : WriteOp → Except String WriteOp
  | .create paths => return .create (← paths.mapM (resolvePath params debug))
  | .merge clause => return .merge { clause with path := ← resolvePath params debug clause.path }
  | op => .ok op

def resolveKeys (ops : List WriteOp) : Except String (List WriteOp) :=
  ops.mapM (resolveOp params debug)

end Resolve

/-- The nodes of a path, in order. -/
def CreatePath.nodes (path : CreatePath) : List CreateNode := path.first :: path.rest.map Prod.snd

/-- Every node needs a key unless it names one before it. -/
def checkKeys : List String → List CreateNode → Except String Unit
  | _, [] => .ok ()
  | bound, node :: rest =>
    if node.key.isNone ∧ ¬ node.var.any (· ∈ bound) then
      .error ("MERGE needs a `key:` on every node to upsert on, " ++
        "e.g. MERGE (n:Label \x7bkey:\"…\"\x7d)")
    else checkKeys (node.var.toList ++ bound) rest

def validateMerge (clause : MergeClause) : Except String Unit := do
  checkKeys [] clause.path.nodes
  if clause.path.rest ≠ [] ∧ (clause.onCreate ≠ [] ∨ clause.onMatch ≠ []) then
    throw "ON CREATE / ON MATCH SET is only supported for a single-node MERGE"
  if (clause.onCreate ++ clause.onMatch).any fun item =>
      some (setItemVar item) ≠ clause.path.first.var then
    throw "ON CREATE / ON MATCH SET must reference the MERGE variable"

def validateMergeAfterMatch (clause : MergeClause) (terminal : String) : Except String Unit :=
  if clause.path.first.var ≠ some terminal then
    .error (s!"MERGE after MATCH must start from the matched variable `{terminal}`, " ++
      s!"e.g. MATCH ({terminal}) MERGE ({terminal})-[:R]->(b \x7bkey:\"…\"\x7d)")
  else if clause.path.rest = [] then
    .error "MERGE after MATCH must extend the matched node with a relationship"
  else if clause.path.rest.any fun hop => hop.2.key.isNone then
    .error "MERGE needs a `key:` on every non-anchor node"
  else if clause.onCreate ≠ [] ∨ clause.onMatch ≠ [] then
    .error "ON CREATE / ON MATCH SET isn't supported for a MERGE after MATCH"
  else .ok ()

def checkVar (vars : List String) (bound : String) : Except String Unit :=
  match vars.find? (· ≠ bound) with
  | some var =>
    .error (s!"`{var}` is not the matched variable `{bound}`; a mutation may reference " ++
      "only the pattern's terminal variable")
  | none => .ok ()

/-- What may stand without a match. -/
def validateStandalone : WriteOp → Except String Unit
  | .create _ => .ok ()
  | .merge clause => validateMerge clause
  | .set _ | .remove _ | .delete .. =>
    .error "SET / REMOVE / DELETE require a MATCH to select nodes"

/-- What may follow a match that binds `var`. -/
def validateAfterMatch (var : String) : WriteOp → Except String Unit
  | .create _ => .ok ()
  | .merge clause => validateMergeAfterMatch clause var
  | .set items => checkVar (items.map setItemVar) var
  | .remove items => checkVar (items.map removeItemVar) var
  | .delete _ vars => checkVar vars var

/-- The match as a query: a row for each node, not for each path to it. -/
def matchQuery (clause : MatchClause) : Query where
  source := ⟨.match, clause.pattern.first, clause.pattern.rest⟩
  beams := []
  whereClause := clause.whereClause
  ret := ⟨true, [.star]⟩
  orderBy := []
  skip := none
  limit := none

/-- The variable that a match binds, and the plan that finds it. -/
def compileBinding (params : Params) (debug : PropValue → String) (ops : List WriteOp) :
    Option MatchClause → Except String (Option (String × LogicalPlan))
  | none => do
    ops.forM validateStandalone
    return none
  | some clause =>
    match terminalVar clause.pattern with
    | none => .error "MATCH … SET/REMOVE/DELETE needs the last node to have a variable"
    | some var => do
      ops.forM (validateAfterMatch var)
      return some (var, ← compile none params debug (matchQuery clause))

/-- Checks and resolves a write. -/
def compileWrite (params : Params) (debug : PropValue → String) (ast : WriteAst) :
    Except String WriteStatement := do
  let ops ← resolveKeys params debug ast.ops
  let binding ← compileBinding params debug ops ast.matchClause
  return ⟨binding, ops, ast.ops.any isLabelOp, params⟩

/-! ### A statement in flight -/

/-- What a statement has written so far. -/
structure Staged where
  /-- The keyed nodes upserted or created, so that one key names one node. -/
  keyed : ExtTreeMap String NodeId compare := ∅
  /-- The edges created, by source, target and type. -/
  edges : List (NodeId × NodeId × String) := []
  labels : ExtTreeMap NodeId (List String) compare := ∅
  summary : WriteSummary := {}

/-- A running statement: its transaction, what it has staged, and the variables of the clause. -/
structure Running (base : Tables) where
  write : WriteTxn base
  staged : Staged
  vars : ExtTreeMap String NodeId compare

/-- Code of a statement over the committed tables `base`. -/
abbrev RunM (base : Tables) := EStateM String (Running base)

variable {base : Tables} {α : Type}

/-- A call of the transaction. -/
def onWrite (run : WriteM base α) : RunM base α := fun running =>
  match run running.write with
  | .ok result write => .ok result { running with write := write }
  | .error error write => .error (display error) { running with write := write }

/-- A read of the committed plane. -/
def committed (read : Except Error α) : RunM base α :=
  match read with
  | .ok result => return result
  | .error error => throw (display error)

def stagedNow : RunM base Staged := return (← get).staged

def changeStaged (change : Staged → Staged) : RunM base Unit :=
  modify fun running => { running with staged := change running.staged }

def changeSummary (change : WriteSummary → WriteSummary) : RunM base Unit :=
  changeStaged fun staged => { staged with summary := change staged.summary }

/-- The variable of a node bound to an id, if it has one. -/
def bindVar (var : Option String) (id : NodeId) : RunM base Unit :=
  modify fun running =>
    { running with vars := var.elim running.vars fun var => running.vars.insert var id }

/-- The id that a node's variable is bound to. -/
def boundVar (var : Option String) : RunM base (Option NodeId) :=
  return var.bind ((← get).vars[·]?)

/-- `entry(id).or_insert`. -/
def orInsert (labels : ExtTreeMap NodeId (List String) compare) (id : NodeId) (own : List String) :
    ExtTreeMap NodeId (List String) compare :=
  if id ∈ labels then labels else labels.insert id own

section Apply

variable (plane : PlaneId) (params : Params)

/-! ### Values -/

def resolveVal : Val → Except String PropValue
  | .lit value => .ok value
  | .param name => resolveParam params name

/-- The properties of a map of values; a later entry of a name wins. -/
def propsOf (entries : List (String × Val)) : Except String Properties :=
  entries.foldlM (fun (props : Properties) entry => do
    return props.insert entry.1 (.mk none (← resolveVal params entry.2))) ∅

def resolved (value : Except String α) : RunM base α :=
  match value with
  | .ok result => return result
  | .error message => throw message

/-! ### `SET` and `REMOVE` -/

def setOne (id : NodeId) (key : String) (value : Val) : RunM base Unit := do
  let value ← resolved (resolveVal params value)
  onWrite (setProp id key (.mk none value))
  changeSummary fun summary => { summary with propsSet := summary.propsSet + 1 }

/-- The labels of a node replaced, here and in the store. -/
def writeLabels (id : NodeId) (labels : List String) : RunM base Unit := do
  changeStaged fun staged => { staged with labels := staged.labels.insert id labels }
  onWrite (setLabels id labels)
  changeSummary fun summary => { summary with labelsSet := summary.labelsSet + 1 }

/-- Applies an item of `SET` to a node. -/
def applySet (id : NodeId) : SetItem → RunM base Unit
  | .prop _ key value => setOne params id key value
  | .merge _ props => props.forM fun entry => setOne params id entry.1 entry.2
  | .label _ label => do
    let labels := ((← stagedNow).labels[id]?).getD []
    if label ∈ labels then changeStaged fun staged =>
      { staged with labels := staged.labels.insert id labels }
    else writeLabels id (labels ++ [label])

/-- Applies an item of `REMOVE` to a node. -/
def applyRemove (id : NodeId) : RemoveItem → RunM base Unit
  | .prop _ key => do
    onWrite (removeProp id key)
    changeSummary fun summary => { summary with propsSet := summary.propsSet + 1 }
  | .label _ label => do
    let labels := ((← stagedNow).labels[id]?).getD []
    if label ∈ labels then writeLabels id (labels.filter (· ≠ label))
    else changeStaged fun staged => { staged with labels := staged.labels.insert id labels }

/-! ### `MERGE` -/

/-- The external key, which `resolveKeys` has made a literal. -/
def literalKey (node : CreateNode) : Option String :=
  match node.key with
  | some (.lit (.str key)) => some key
  | _ => none

/-- A node made under a key. -/
def createKeyed (node : CreateNode) (key : String) : RunM base NodeId := do
  let props ← resolved (propsOf params node.props)
  let id ← onWrite (createNodeWithKey key node.label.toList props)
  changeSummary fun summary => { summary with nodesCreated := summary.nodesCreated + 1 }
  return id

/-- The committed node of a key, or a new one. -/
def findOrCreate (node : CreateNode) (key : String) : RunM base (NodeId × Bool) := do
  match ← committed (getNodeByExternalKey base plane key) with
  | some found =>
    changeStaged fun staged => { staged with labels := orInsert staged.labels found.id found.labels }
    return (found.id, false)
  | none =>
    let id ← createKeyed params node key
    changeStaged fun staged =>
      { staged with labels := orInsert staged.labels id node.label.toList }
    return (id, true)

/-- The node of a bound variable, of a key the statement has used, of a key in the store, or a new
one; and whether it is new. -/
def upsertMergeNode (node : CreateNode) : RunM base (NodeId × Bool) := do
  match ← boundVar node.var with
  | some id => return (id, false)
  | none =>
    match literalKey node with
    | none => throw "MERGE node needs a `key:` to upsert on"
    | some key =>
      match (← stagedNow).keyed[key]? with
      | some id =>
        bindVar node.var id
        return (id, false)
      | none =>
        let (id, created) ← findOrCreate plane params node key
        changeStaged fun staged => { staged with keyed := staged.keyed.insert key id }
        bindVar node.var id
        return (id, created)

/-- `->` leads from the node before to the node here, `<-` back. -/
def CreateRel.ends (rel : CreateRel) (prev cur : NodeId) : NodeId × NodeId :=
  if rel.dir = .in then (cur, prev) else (prev, cur)

/-- An edge made, and noted for a later `MERGE`. -/
def addEdge (src dst : NodeId) (rel : CreateRel) : RunM base Unit := do
  let props ← resolved (propsOf params rel.props)
  let _ ← onWrite (createEdge src dst rel.ty props)
  changeStaged fun staged => { staged with
    edges := (src, dst, rel.ty) :: staged.edges
    summary := { staged.summary with edgesCreated := staged.summary.edgesCreated + 1 } }

/-- An edge of the type, there already, made by the statement, or new. -/
def ensureEdge (prev cur : NodeId) (rel : CreateRel) : RunM base Unit := do
  let (src, dst) := rel.ends prev cur
  if (src, dst, rel.ty) ∈ (← stagedNow).edges then return
  else if (neighbors base plane src .out (some rel.ty)).any fun n => n.node = dst then return
  else addEdge params src dst rel

def mergeHops (prev : NodeId) : List (CreateRel × CreateNode) → RunM base Unit
  | [] => return
  | (rel, node) :: rest => do
    let (cur, _) ← upsertMergeNode plane params node
    ensureEdge plane params prev cur rel
    mergeHops cur rest

def mergePath (clause : MergeClause) : RunM base Unit := do
  let (first, created) ← upsertMergeNode plane params clause.path.first
  (if created then clause.onCreate else clause.onMatch).forM (applySet params first)
  mergeHops plane params first clause.path.rest

/-! ### `CREATE` -/

/-- The node of a bound variable, or a new one. -/
def getOrCreate (node : CreateNode) : RunM base NodeId := do
  match ← boundVar node.var with
  | some id => return id
  | none =>
    let id ← createFresh node
    bindVar node.var id
    return id
where
  /-- A node made with its key, if it has one. -/
  createFresh (node : CreateNode) : RunM base NodeId := do
    match literalKey node with
    | some key =>
      let id ← createKeyed params node key
      changeStaged fun staged => { staged with keyed := staged.keyed.insert key id }
      return id
    | none =>
      let props ← resolved (propsOf params node.props)
      let id ← onWrite (createNode node.label.toList props)
      changeSummary fun summary => { summary with nodesCreated := summary.nodesCreated + 1 }
      return id

def createHops (prev : NodeId) : List (CreateRel × CreateNode) → RunM base Unit
  | [] => return
  | (rel, node) :: rest => do
    let cur ← getOrCreate params node
    let (src, dst) := rel.ends prev cur
    addEdge params src dst rel
    createHops cur rest

def createPath (path : CreatePath) : RunM base Unit := do
  let first ← getOrCreate params path.first
  createHops params first path.rest

/-! ### Operations -/

/-- A clause once without a match, else once for each row with its variable bound to the row's node.
-/
def perRow (binding : Option String) (ids : List NodeId) (clause : RunM base Unit) : RunM base Unit :=
  match binding with
  | none => do
    modify fun running => { running with vars := ∅ }
    clause
  | some bound => ids.forM fun id => do
    modify fun running => { running with vars :=
      (∅ : ExtTreeMap String NodeId compare).insert bound id }
    clause

/-- A plain `DELETE` refuses a node that has relationships in the committed plane. -/
def deleteOne (detach : Bool) (id : NodeId) : RunM base Unit := do
  if !detach && !(neighbors base plane id .both none).isEmpty then
    throw s!"cannot DELETE node {id} — it still has relationships; use DETACH DELETE"
  else
    onWrite (deleteNodeTxn id)
    changeStaged fun staged => { staged with
      labels := staged.labels.erase id
      summary := { staged.summary with nodesDeleted := staged.summary.nodesDeleted + 1 } }

/-- One clause over the bound rows. -/
def runOp (binding : Option String) (ids : List NodeId) : WriteOp → RunM base Unit
  | .create paths => perRow binding ids (paths.forM (createPath params))
  | .merge clause => perRow binding ids (mergePath plane params clause)
  | .set items => ids.forM fun id => items.forM (applySet params id)
  | .remove items => ids.forM fun id => items.forM (applyRemove id)
  | .delete detach _ => ids.forM (deleteOne plane detach)

end Apply

/-! ### Statements -/

/-- The searches that a plan may seed its rows with. -/
structure Searches where
  vector : VectorSearch
  keyword : KeywordSearch

/-- The nodes that the rows of a plan end at. -/
def planIds (machine : Machine) (searches : Searches) (tables : Tables) (plane : PlaneId)
    (plan : LogicalPlan) : Except Error (List NodeId) := do
  let rows ← Compute.execute machine (planeReader tables plane searches.vector searches.keyword) plan
  return (← drain rows).map Row.head

/-- The nodes that a statement's match finds; a statement without one has none. -/
def WriteStatement.ids (stmt : WriteStatement) (machine : Machine) (searches : Searches)
    (tables : Tables) (plane : PlaneId) : Except Error (List NodeId) :=
  stmt.binding.elim (.ok []) fun binding => planIds machine searches tables plane binding.2

/-- The labels that the nodes have now. -/
def preload (tables : Tables) (plane : PlaneId) (ids : List NodeId) :
    Except Error (ExtTreeMap NodeId (List String) compare) :=
  ids.foldlM (fun (labels : ExtTreeMap NodeId (List String) compare) id => do
    return (← getNode tables plane id).elim labels fun node => labels.insert id node.labels) ∅

def WriteStatement.preloaded (stmt : WriteStatement) (tables : Tables) (plane : PlaneId)
    (ids : List NodeId) : Except Error (ExtTreeMap NodeId (List String) compare) :=
  if stmt.hasLabelOps then preload tables plane ids else .ok ∅

/-- What a statement starts from. -/
def WriteStatement.start (stmt : WriteStatement) (host : Host) (db : Database) (plane : PlaneId)
    (ids : List NodeId) : Except Error (Running db.tables) := do
  let labels ← stmt.preloaded db.tables plane ids
  return ⟨db.beginTxn host plane, { labels := labels }, ∅⟩

/-- `WriteStatement::apply`: the match, then every operation, then the commit. -/
def WriteStatement.apply (stmt : WriteStatement) (host : Host) (machine : Machine)
    (searches : Searches) (db : Database) (plane : PlaneId) (millis : ℤ) :
    Except String (WriteSummary × Database) := do
  let ids ← (stmt.ids machine searches db.tables plane).mapError display
  let running ← (stmt.start host db plane ids).mapError display
  match (stmt.ops.forM (runOp plane stmt.params (stmt.binding.map Prod.fst) ids)) running with
  | .error message _ => throw message
  | .ok _ running => do
    let db ← (db.commit host running.write millis).mapError display
    return (running.staged.summary, db)

end DrStrange.Parser
