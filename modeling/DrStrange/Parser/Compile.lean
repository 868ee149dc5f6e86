/-
**From a query to a plan.**

The executor is a pipeline over one current node, so every conjunct of `WHERE` stands at the node of
the pattern it reads, its variable dropped there. A conjunct that pins the key of a scanned source
replaces the scan by a seek. The evaluator has two truth values, so `NOT`, `<>` and some equalities
are guarded by tests that what they read is there.
-/

import DrStrange.Parser.Ast

namespace DrStrange.Parser

open Std DrStrange.Graph DrStrange.Compute

/-- Embeds a text. -/
abbrev Embedder := String → Except String (List UInt32)

/-- The entries of a query vector. -/
def resolve (embedder : Option Embedder) : VecArg → Except String (List UInt32)
  | .vector entries => .ok entries
  | .text text =>
    match embedder with
    | none => .error ("SEARCH by text needs an embedding provider (set the API key), " ++
        "or pass a literal vector like NEAR [..]")
    | some embed => (embed text).mapError fun e => s!"embedding the query text failed: {e}"

/-! ### Where an expression is evaluated -/

/-- The slot of each variable, and the slot whose node is current. -/
structure Scope where
  varSlot : List (String × ℕ)
  current : ℕ

/-- `inner`, read of what `var` names; an anonymous node is always the current one. -/
def Scope.read (scope : Scope) (var : String) (inner : Expr) : Except String Expr :=
  if var = "" then .ok inner
  else
    match scope.varSlot.lookup var with
    | none => .error s!"unknown variable `{var}`"
    | some slot => .ok (if slot = scope.current then inner else .at (.node slot) inner)

/-! ### Joining expressions -/

/-- One round: neighbours joined, an odd last one kept. -/
def pairUp (op : LogicOp) : List Expr → List Expr
  | lhs :: rhs :: rest => .logic op lhs rhs :: pairUp op rest
  | items => items

/-- Rounds while more than one is left. -/
def rounds (op : LogicOp) : ℕ → List Expr → List Expr
  | 0, items => items
  | n + 1, items => if 1 < items.length then rounds op n (pairUp op items) else items

/-- The expressions joined in a balanced tree. -/
def balanced (op : LogicOp) (items : List Expr) : Option Expr :=
  (rounds op items.length items).getLast?

/-! ### What can be null -/

/-- `==` of query vectors. -/
def eqVecArg : VecArg → VecArg → Bool
  | .vector a, .vector b => eqVector a b
  | .text a, .text b => a = b
  | _, _ => false

/-- `==` of the expressions that a guard is made of. -/
def eqLeaf : PExpr → PExpr → Bool
  | .prop var key, .prop var' key' => var = var' && key = key'
  | .externalKey var, .externalKey var' => var = var'
  | .score, .score => true
  | .similarity var property query metric, .similarity var' property' query' metric'
  | .distance var property query metric, .distance var' property' query' metric' =>
    var = var' && property = property' && eqVecArg query query' && metric = metric'
  | .lit .null, .lit .null => true
  | .param name, .param name' => name = name'
  | _, _ => false

def addLeaf (out : List PExpr) (leaf : PExpr) : List PExpr :=
  if out.any (eqLeaf · leaf) then out else out ++ [leaf]

mutual

/-- The parts of an expression that can be null, each once, after those in `out`. `IS NULL` is never
null, whatever it reads. -/
def leavesOf (out : List PExpr) : PExpr → List PExpr
  | .lit .null => addLeaf out (.lit .null)
  | .prop var key => addLeaf out (.prop var key)
  | .externalKey var => addLeaf out (.externalKey var)
  | .score => addLeaf out .score
  | .similarity var property query metric => addLeaf out (.similarity var property query metric)
  | .distance var property query metric => addLeaf out (.distance var property query metric)
  | .param name => addLeaf out (.param name)
  | .lit _ | .hasLabel .. | .hops | .isNull _ => out
  | .in lhs list => leavesOfAll (leavesOf out lhs) list
  | .inValue lhs rhs | .stringMatch _ lhs rhs | .compare _ lhs rhs | .logic _ lhs rhs
  | .arith _ lhs rhs => leavesOf (leavesOf out lhs) rhs
  | .not inner | .neg inner => leavesOf out inner

def leavesOfAll (out : List PExpr) : List PExpr → List PExpr
  | [] => out
  | expr :: rest => leavesOfAll (leavesOf out expr) rest

end

def nullableLeaves (roots : List PExpr) : List PExpr := leavesOfAll [] roots

/-- A literal or a parameter that is not null. -/
def isNonNullConstant (params : Params) : PExpr → Bool
  | .lit value => !Compute.isNull value
  | .param name =>
    match resolveParam params name with
    | .ok value => !Compute.isNull value
    | .error _ => false
  | _ => false

section

variable (embedder : Option Embedder) (params : Params)

/-! ### Expressions -/

/-- `compile_expr` of an expression without parts: all that a guard is made of. -/
def compileLeaf (scope : Scope) : PExpr → Except String Expr
  | .lit value => .ok (.literal value)
  | .param name => return .literal (← resolveParam params name)
  | .prop var key => scope.read var (.property key)
  | .hasLabel var label => scope.read var (.hasLabel label)
  | .externalKey var => scope.read var .externalKey
  | .score => .ok .score
  | .hops => .ok .hops
  | .similarity var property query metric => do
    scope.read var (.similarity property (← resolve embedder query) metric)
  | .distance var property query metric => do
    scope.read var (.distance property (← resolve embedder query) metric)
  | .in .. | .inValue .. | .stringMatch .. | .isNull _ | .not _ | .neg _ | .compare .. | .logic ..
  | .arith .. => .error "an expression with parts"

/-- `pred`, true only where everything under `roots` that can be null is there. -/
def nullGuarded (scope : Scope) (pred : Expr) (roots : List PExpr) : Except String Expr := do
  let present ← (nullableLeaves roots).mapM fun leaf =>
    return .not (.isNull (← compileLeaf embedder params scope leaf))
  return (balanced .and present).elim pred fun guards => .logic .and guards pred

/-- `-inner`: folded into a literal, else zero minus it. -/
def negated : Expr → Expr
  | .literal (.int value) => .literal (.int (wrap (-value)))
  | .literal (.float bits) => .literal (.float (bits ^^^ 0x8000000000000000))
  | inner => .arith .sub (.literal (.int 0)) inner

/-- A comparison is guarded where two values would make it true of a null. -/
def compiledCompare (scope : Scope) (op : CmpOp) (lhs rhs : PExpr) (cmp : Expr) :
    Except String Expr :=
  match op with
  | .ne => nullGuarded embedder params scope cmp [lhs, rhs]
  | .eq =>
    if isNonNullConstant params lhs || isNonNullConstant params rhs then .ok cmp
    else nullGuarded embedder params scope cmp [lhs, rhs]
  | .lt | .le | .gt | .ge => .ok cmp

mutual

/-- An expression over slots. -/
def compileExpr (scope : Scope) : PExpr → Except String Expr
  | .in lhs list => do
    let lhs ← compileExpr scope lhs
    let eqs := (← compileExprs scope list).map (Expr.compare .eq lhs)
    return (balanced .or eqs).getD (.literal (.bool false))
  | .inValue lhs haystack => return .in (← compileExpr scope lhs) (← compileExpr scope haystack)
  | .stringMatch op lhs rhs =>
    return .stringMatch op (← compileExpr scope lhs) (← compileExpr scope rhs)
  | .isNull inner => return .isNull (← compileExpr scope inner)
  | .not inner => do
    nullGuarded embedder params scope (.not (← compileExpr scope inner)) [inner]
  | .neg inner => return negated (← compileExpr scope inner)
  | .compare op lhs rhs => do
    let cmp := Expr.compare op (← compileExpr scope lhs) (← compileExpr scope rhs)
    compiledCompare embedder params scope op lhs rhs cmp
  | .logic op lhs rhs => return .logic op (← compileExpr scope lhs) (← compileExpr scope rhs)
  | .arith op lhs rhs => return .arith op (← compileExpr scope lhs) (← compileExpr scope rhs)
  | leaf => compileLeaf embedder params scope leaf

def compileExprs (scope : Scope) : List PExpr → Except String (List Expr)
  | [] => .ok []
  | expr :: rest => return (← compileExpr scope expr) :: (← compileExprs scope rest)

end

/-! ### Pushing `WHERE` down -/

/-- The terms of a conjunction. -/
def splitAnd : PExpr → List PExpr
  | .logic .and lhs rhs => splitAnd lhs ++ splitAnd rhs
  | other => [other]

mutual

/-- The expression reads the score or the hop count, which a path settles at its last node. -/
def readsRowChannel : PExpr → Bool
  | .score | .hops => true
  | .lit _ | .param _ | .prop .. | .hasLabel .. | .externalKey _ | .similarity .. | .distance .. =>
    false
  | .in lhs list => readsRowChannel lhs || anyReadsRowChannel list
  | .isNull inner | .not inner | .neg inner => readsRowChannel inner
  | .inValue lhs rhs | .stringMatch _ lhs rhs | .compare _ lhs rhs | .logic _ lhs rhs
  | .arith _ lhs rhs => readsRowChannel lhs || readsRowChannel rhs

def anyReadsRowChannel : List PExpr → Bool
  | [] => false
  | expr :: rest => readsRowChannel expr || anyReadsRowChannel rest

end

mutual

/-- The variables an expression mentions, in order. -/
def mentioned : PExpr → List String
  | .prop var _ | .hasLabel var _ | .externalKey var | .similarity var .. | .distance var .. => [var]
  | .lit _ | .param _ | .score | .hops => []
  | .in lhs list => mentioned lhs ++ allMentioned list
  | .isNull inner | .not inner | .neg inner => mentioned inner
  | .inValue lhs rhs | .stringMatch _ lhs rhs | .compare _ lhs rhs | .logic _ lhs rhs
  | .arith _ lhs rhs => mentioned lhs ++ mentioned rhs

def allMentioned : List PExpr → List String
  | [] => []
  | expr :: rest => mentioned expr ++ allMentioned rest

end

def referencedVars (expr : PExpr) : List String := (mentioned expr).dedup

/-- The slot a conjunct stands at. What reads no variable, or a channel of the row, stands at the last
slot, where the whole path is walked. -/
def conjunctSlot (varSlot : List (String × ℕ)) (slots : ℕ) (conj : PExpr) : Except String ℕ :=
  match referencedVars conj with
  | [] => .ok (slots - 1)
  | [var] =>
    match varSlot.lookup var with
    | none => .error s!"WHERE refers to unknown variable `{var}`"
    | some slot => .ok (if readsRowChannel conj then slots - 1 else slot)
  | _ => .error ("a WHERE condition may reference only one pattern variable; " ++
      "cross-variable predicates aren't supported yet")

/-- The conjuncts of `WHERE`, slot by slot. -/
def pushDownWhere (whereClause : Option PExpr) (varSlot : List (String × ℕ)) (slots : ℕ) :
    Except String (List (List PExpr)) :=
  (whereClause.elim [] splitAnd).foldlM (fun (filters : List (List PExpr)) conj => do
    let slot ← conjunctSlot varSlot slots conj
    return filters.modify slot (· ++ [conj])) (List.replicate slots [])

/-- The slot of each variable; one may be bound once. -/
def bindVariables (nodes : List NodePat) : Except String (List (String × ℕ)) :=
  nodes.zipIdx.foldlM (fun (varSlot : List (String × ℕ)) node =>
    match node.1.var with
    | none => .ok varSlot
    | some var =>
      if (varSlot.lookup var).isSome then
        .error (s!"variable `{var}` is bound twice; " ++
          "reusing a pattern variable isn't supported yet")
      else .ok (varSlot ++ [(var, node.2)])) []

/-! ### Seeking by key -/

section Seek

variable (debug : PropValue → String) (var : Option String)

/-- The key that a value spells, if it is a string literal or a parameter. -/
def asKey : PExpr → Option (Except String String)
  | .lit (.str key) => some (.ok key)
  | .param name => some (
      match resolveParam params name with
      | .ok (.str key) => .ok key
      | .ok other => .error s!"`key()` compares against a string, got {debug other}"
      | .error e => .error e)
  | _ => none

/-- The keys that values spell, up to the first that is refused. -/
def asKeys : List PExpr → Option (Except String (List String))
  | [] => some (.ok [])
  | value :: rest =>
    match asKey params debug value with
    | none => none
    | some (.error e) => some (.error e)
    | some (.ok key) => (asKeys rest).map fun keys => keys.map (key :: ·)

/-- `key(v)` of the variable of the source. -/
def isKey : PExpr → Bool
  | .externalKey own => some own = var
  | _ => false

/-- The values that a conjunct compares the source's key with. -/
def pinnedValues : PExpr → Option (List PExpr)
  | .compare .eq lhs rhs =>
    if isKey var lhs then some [rhs] else if isKey var rhs then some [lhs] else none
  | .in lhs list => if isKey var lhs ∧ list ≠ [] then some list else none
  | _ => none

def keySeekKeys (conj : PExpr) : Option (Except String (List String)) :=
  (pinnedValues var conj).bind (asKeys params debug)

end Seek

/-- The plain scans of a match. -/
def scans : Source → Bool
  | .scanAll | .scanLabel _ => true
  | .seekIds _ | .seekKeys _ | .vectorTopK .. | .keywordTopK .. => false

/-- The first conjunct that pins the key of a scanned source becomes a seek, and the label of the
scan a filter. -/
def keySeekRewrite (debug : PropValue → String) (source : Source) (slot0 : List PExpr)
    (firstNode : NodePat) : Except String (Source × List PExpr) :=
  if scans source = false then .ok (source, slot0)
  else
    let seeks (conj : PExpr) := keySeekKeys params debug firstNode.var conj
    match slot0.findIdx? fun conj => (seeks conj).isSome with
    | none => .ok (source, slot0)
    | some pos => do
      let keys ← ((slot0[pos]?).bind seeks).getD (.ok [])
      let rest := slot0.eraseIdx pos
      match source with
      | .scanLabel label =>
        return (.seekKeys keys, .hasLabel (firstNode.var.getD "") label :: rest)
      | _ => return (.seekKeys keys, rest)

/-! ### Steps -/

/-- A hop of the query's path: a relationship or a beam. -/
inductive Hop where
  | rel (rel : RelPat)
  | beam (clause : BeamClause)

def defaultVectorProperty : String := "embedding"

def vectorProperty (property : Option String) : String := property.getD defaultVectorProperty

def compileHop : Hop → Except String Step
  | .rel rel =>
    match rel.varLen with
    | none => .ok (.expand rel.dir rel.ty)
    | some ⟨_, none⟩ => .error ("unbounded variable-length relationships aren't supported; " ++
        "give an upper bound, e.g. *1..3")
    | some ⟨min, some max⟩ =>
      if max < min then
        .error s!"variable-length range is empty: min ({min}) exceeds max ({max})"
      else .ok (.expandVar rel.dir rel.ty min max)
  | .beam clause => do
    let query ← resolve embedder clause.query
    return .expandBeam clause.dir clause.edgeType (vectorProperty clause.property) query
      clause.metric clause.width clause.depth

/-- The conjuncts at a slot as filters. -/
def compileFilters (varSlot : List (String × ℕ)) (slot : ℕ) (filters : List PExpr) :
    Except String (List Step) :=
  filters.mapM fun conj => return .filter (← compileExpr embedder params ⟨varSlot, slot⟩ conj)

/-- One expansion for each hop, then the label and the conjuncts of the node it lands on. -/
def compileHops (varSlot : List (String × ℕ)) :
    ℕ → List (Hop × NodePat) → List (List PExpr) → Except String (List Step)
  | slot, (hop, node) :: hops, filters :: rest => do
    let step ← compileHop embedder hop
    let own ← compileFilters embedder params varSlot slot filters
    let further ← compileHops varSlot (slot + 1) hops rest
    return step :: node.label.toList.map (fun label => .filter (.hasLabel label)) ++ own ++ further
  | _, _, _ => .ok []

/-! ### `RETURN` -/

/-- `==` of expressions, as derived. -/
def eqExpr : Expr → Expr → Bool
  | .property a, .property b | .hasLabel a, .hasLabel b | .edgeProperty a, .edgeProperty b => a = b
  | .literal a, .literal b => eqValue a b
  | .nodeId, .nodeId | .edgeType, .edgeType | .edgeDir, .edgeDir | .externalKey, .externalKey
  | .score, .score | .hops, .hops => true
  | .at binding a, .at binding' b => binding = binding' && eqExpr a b
  | .distance property query metric, .distance property' query' metric'
  | .similarity property query metric, .similarity property' query' metric' =>
    property = property' && eqVector query query' && metric = metric'
  | .isNull a, .isNull b | .not a, .not b => eqExpr a b
  | .compare op a b, .compare op' a' b' => op = op' && eqExpr a a' && eqExpr b b'
  | .logic op a b, .logic op' a' b' => op = op' && eqExpr a a' && eqExpr b b'
  | .arith op a b, .arith op' a' b' => op = op' && eqExpr a a' && eqExpr b b'
  | .stringMatch op a b, .stringMatch op' a' b' => op = op' && eqExpr a a' && eqExpr b b'
  | .in a b, .in a' b' => eqExpr a a' && eqExpr b b'
  | _, _ => false

def eqProjExpr : ProjExpr → ProjExpr → Bool
  | .value a, .value b => eqExpr a b
  | .agg a, .agg b =>
    a.func = b.func && a.distinct = b.distinct &&
      match a.arg, b.arg with
      | some x, some y => eqExpr x y
      | none, none => true
      | _, _ => false
  | _, _ => false

def unknownColumn (text : String) (items : List ProjItem) : String :=
  s!"ORDER BY `{text}` must name a returned column: " ++
    String.intercalate ", " (items.map ProjItem.name)

/-- The expression that a key of `ORDER BY` names, if it is not a bare name. -/
def keyExpr (scope : Scope) : SortTarget → Except String (Option ProjExpr)
  | .expr expr => return some (.value (← compileExpr embedder params scope expr))
  | .agg func arg distinct => do
    let arg ← arg.mapM (compileExpr embedder params scope)
    return some (.agg ⟨func, arg, distinct⟩)
  | .name _ => .ok none

/-- Each key of `ORDER BY` names a returned column, by its text first and then by what it computes. -/
def orderColumns (scope : Scope) (items : List ProjItem) (keys : List OrderKey) :
    Except String (List TupleSortKey) :=
  keys.mapM fun key =>
    match items.findIdx? fun item => item.name = key.text with
    | some column => .ok ⟨column, key.descending⟩
    | none => do
      let expr ← keyExpr embedder params scope key.target
      match expr.bind fun expr => items.findIdx? fun item => eqProjExpr item.expr expr with
      | some column => .ok ⟨column, key.descending⟩
      | none => .error (unknownColumn key.text items)

/-- A column of the table; a node is none, and a query that returns one has no columns. -/
def compileItem (scope : Scope) : ReturnItem → Except String (Option ProjItem)
  | .value expr name => return some ⟨name, .value (← compileExpr embedder params scope expr)⟩
  | .agg func arg distinct name => do
    let arg ← arg.mapM (compileExpr embedder params scope)
    return some ⟨name, .agg ⟨func, arg, distinct⟩⟩
  | .star | .var _ => .ok none

/-- The tail operators ride on the projection. -/
def projection (q : Query) (scope : Scope) : Except String Projection := do
  let items := (← q.ret.items.mapM (compileItem embedder params scope)).filterMap id
  let orderBy ← orderColumns embedder params scope items q.orderBy
  return ⟨items, q.ret.distinct, orderBy, q.skip, q.limit⟩

/-- A key of `ORDER BY` over node rows, evaluated on the row's current node. -/
def compileSortKey (varSlot : List (String × ℕ)) (last : ℕ) (key : OrderKey) :
    Except String SortKey :=
  match key.target with
  | .name _ => .error (s!"ORDER BY `{key.text}`: a bare name orders by a RETURN alias, " ++
      "and this query returns nodes rather than columns")
  | .agg .. => .error (s!"ORDER BY `{key.text}`: an aggregate orders a projection, and this query " ++
      s!"returns nodes rather than columns (`RETURN n.name, {key.text}`)")
  | .expr expr => do
    for var in referencedVars expr do
      match varSlot.lookup var with
      | none => throw s!"ORDER BY refers to unknown variable `{var}`"
      | some slot =>
        if slot ≠ last then throw "ORDER BY may reference only the returned (last) variable"
    return ⟨← compileExpr embedder params ⟨varSlot, last⟩ expr, key.descending⟩

def ReturnItem.isNode : ReturnItem → Bool
  | .star | .var _ => true
  | .value .. | .agg .. => false

/-- The rows returned are those of the pattern's last variable. -/
def checkReturned (varSlot : List (String × ℕ)) (last : ℕ) : Option ReturnItem → Except String Unit
  | some (.var var) =>
    match varSlot.lookup var with
    | none => .error s!"RETURN refers to unknown variable `{var}`"
    | some slot =>
      if slot ≠ last then
        .error ("RETURN must name the pattern's last variable; returning an earlier " ++
          s!"variable (`{var}`) isn't supported yet — project its values instead " ++
          s!"(`RETURN {var}.name`)")
      else .ok ()
  | _ => .ok ()

/-- Rows of nodes keep their steps, and anything else becomes a table. -/
def compileReturn (q : Query) (varSlot : List (String × ℕ)) (last : ℕ) :
    Except String (List Step × Option Projection) :=
  if q.ret.items.any ReturnItem.isNode then
    if 1 < q.ret.items.length then
      .error ("RETURN mixes a node with columns of values; a node isn't a value, " ++
        "so return its properties instead (`RETURN n.name, count(*)`)")
    else do
      checkReturned varSlot last q.ret.items.head?
      let keys ← q.orderBy.mapM (compileSortKey embedder params varSlot last)
      return ((if q.ret.distinct then [.distinct] else []) ++
        (if q.orderBy = [] then [] else [.sort keys]) ++
        q.skip.toList.map .skip ++ q.limit.toList.map .limit, none)
  else do
    let proj ← projection embedder params q ⟨varSlot, last⟩
    return ([], some proj)

/-! ### Queries -/

/-- A source takes the label of its first node, as the scan's or the search's. -/
def compileSource (source : QuerySource) : Except String Source :=
  match source.kind with
  | .match => .ok (source.first.label.elim .scanAll .scanLabel)
  | .search property query metric k => do
    let query ← resolve embedder query
    return .vectorTopK source.first.label (vectorProperty property) query metric k
  | .keyword property query k =>
    match source.first.label, property with
    | none, _ => .error ("a keyword SEARCH needs a label — the BM25 index is declared on " ++
        "(label, property), e.g. SEARCH (d:Doc) ON body MATCHING \"…\"")
    | some _, none => .error ("a keyword SEARCH needs ON <property> — keyword properties follow " ++
        "no convention, so there is nothing to default to. (Only NEAR defaults, to `embedding`.)")
    | some label, some property => .ok (.keywordTopK label property query k)

/-- The hops after the source: its relationships, then the beams. -/
def Query.hops (q : Query) : List (Hop × NodePat) :=
  (q.source.rest.map fun hop => (.rel hop.1, hop.2)) ++
    q.beams.map fun clause => (.beam clause, clause.node)

/-- The nodes of the path, in order. -/
def Query.nodes (q : Query) : List NodePat := q.source.first :: q.hops.map Prod.snd

/-- The plan of a query, with what is done to the source and to the conjuncts at its node. -/
def compileWith
    (rewrite : Source → List PExpr → NodePat → Except String (Source × List PExpr)) (q : Query) :
    Except String LogicalPlan := do
  let source ← compileSource embedder q.source
  let varSlot ← bindVariables q.nodes
  let slotFilters ← pushDownWhere q.whereClause varSlot q.nodes.length
  let (source, slot0) ← rewrite source (slotFilters.headD []) q.source.first
  let filters ← compileFilters embedder params varSlot 0 slot0
  let hops ← compileHops embedder params varSlot 1 q.hops slotFilters.tail
  let (tail, project) ← compileReturn embedder params q varSlot q.hops.length
  return ⟨source, filters ++ hops ++ tail, project⟩

/-- The plan of a query. -/
def compile (debug : PropValue → String) (q : Query) : Except String LogicalPlan :=
  compileWith embedder params (keySeekRewrite params debug) q

end

end DrStrange.Parser
