/-
**The parallel build of the vector index.**

A large batch is inserted by several threads at once. Vectors and levels are drawn first and do not
change; the threads share the lists of each node, the entry point and a counter of the nodes taken.
Lists are read and written one node at a time under its lock, so an action on the shared state is
what one lock guards. `worker` is the program of a thread, and a build runs a pool of them under a
schedule.
-/

import DrStrange.Lib.Interleave
import DrStrange.Hnsw.Search

namespace DrStrange.Hnsw

open Std DrStrange.Graph Lib BestFirst Interleave

/-- Smaller batches are inserted one by one. -/
def parallelMin : ℕ := 2048

/-- A node of a build but for its lists. -/
structure BuildMeta where
  id : ℕ
  vector : List F32
  norm : F32
  level : ℕ

/-- What the threads share: the lists of each node, the entry point with its level, and the next node
to insert. -/
structure BuildState where
  adj : List (List (List ℕ))
  entry : ℕ × ℕ
  next : ℕ

/-! ### Actions -/

inductive BuildAct where
  | fetchAdd
  | readEntry
  | readLinks (c layer : ℕ)
  /-- A node's own new neighbours. -/
  | pushOwn (idx layer : ℕ) (chosen : List ℕ)
  /-- A node pushed to a neighbour's list, which is pruned under the same lock. -/
  | pushBack (nb layer idx : ℕ)
  | pruneOwn (idx layer : ℕ)
  /-- The entry point, unless it is as tall by now. -/
  | raise (idx level : ℕ)

def BuildAct.Reply : BuildAct → Type
  | .fetchAdd => ℕ
  | .readEntry => ℕ × ℕ
  | .readLinks _ _ => List ℕ
  | .pushOwn _ _ _ => Unit
  | .pushBack _ _ _ => Unit
  | .pruneOwn _ _ => Unit
  | .raise _ _ => Unit

abbrev BuildProg := Prog BuildAct BuildAct.Reply Panic

section

variable (arith : Arith) (metas : List BuildMeta) (params : HnswParams) (metric : Metric)

def distBmQ (q : Query) (node : BuildMeta) : Dist :=
  ⟨guardedDist arith metric q.vec q.norm node.vector node.norm⟩

def distBm (a b : BuildMeta) : Dist := ⟨guardedDist arith metric a.vector a.norm b.vector b.norm⟩

/-- A neighbour with its distance from a node. -/
def scoreBuild (node x : ℕ) : Run (Dist × ℕ) := do
  return (distBm arith metric (← fetch metas node) (← fetch metas x), x)

/-- Only the nearest neighbours of a node stay on a layer. -/
def pruneBuild (node layer : ℕ) (links : List (List ℕ)) : Run (List (List ℕ)) := do
  let list ← fetch links layer
  if list.length ≤ params.maxConn layer then return links
  else do
    let scored ← list.mapM (scoreBuild arith metas metric node)
    let kept := (sortByDistance scored).take (params.maxConn layer)
    return links.set layer (kept.map Prod.snd)

/-- A neighbour at the end of a list. -/
def pushLink (layer : ℕ) (links : List (List ℕ)) (nb : ℕ) : Run (List (List ℕ)) :=
  alter links layer fun list => .ok (list ++ [nb])

/-- What an action does under its lock. A node without the layer has no neighbours there. -/
def performBuild : (action : BuildAct) → BuildState → Run (action.Reply × BuildState)
  | .fetchAdd, state => .ok (state.next, { state with next := state.next + 1 })
  | .readEntry, state => .ok (state.entry, state)
  | .readLinks c layer, state => do return ((← fetch state.adj c)[layer]?.getD [], state)
  | .pushOwn idx layer chosen, state => do
    let adj ← alter state.adj idx fun links => chosen.foldlM (pushLink layer) links
    return ((), { state with adj })
  | .pushBack nb layer idx, state => do
    let adj ← alter state.adj nb fun links => do
      pruneBuild arith metas params metric nb layer (← pushLink layer links idx)
    return ((), { state with adj })
  | .pruneOwn idx layer, state => do
    let adj ← alter state.adj idx (pruneBuild arith metas params metric idx layer)
    return ((), { state with adj })
  | .raise idx level, state =>
    .ok ((), if state.entry.2 < level then { state with entry := (idx, level) } else state)

/-! ### The program of a thread -/

def fetchAdd : BuildProg ℕ := Prog.perform BuildAct.fetchAdd

def readEntry : BuildProg (ℕ × ℕ) := Prog.perform BuildAct.readEntry

def readLinks (c layer : ℕ) : BuildProg (List ℕ) := Prog.perform (BuildAct.readLinks c layer)

def pushOwn (idx layer : ℕ) (chosen : List ℕ) : BuildProg Unit :=
  Prog.perform (BuildAct.pushOwn idx layer chosen)

def pushBack (layer idx : ℕ) (_ : Unit) (nb : ℕ) : BuildProg Unit :=
  Prog.perform (BuildAct.pushBack nb layer idx)

def pruneOwn (idx layer : ℕ) : BuildProg Unit := Prog.perform (BuildAct.pruneOwn idx layer)

def raise (idx level : ℕ) : BuildProg Unit := Prog.perform (BuildAct.raise idx level)

variable (ties : Ties)

/-- No node is a tombstone during a build. -/
def buildReads (q : Query) (layer : ℕ) : Reads BuildProg Dist where
  dist e := Prog.own do return distBmQ arith metric q (← fetch metas e)
  live _ := pure true
  links c := readLinks c layer
  closer a b := lt a.bits b.bits
  far := ⟨infinity⟩
  unfinished := .fail .unfinished

def searchBuild (q : Query) (starts : List ℕ) (ef layer : ℕ) : BuildProg (List (Dist × ℕ)) := do
  let kept ← BestFirst.search (buildReads arith metas metric q layer) ef starts metas.length
  return sortByDistance (ties.order layer kept)

/-- The greedy descent from a layer down to the one above `floor`. -/
def descendBuild (q : Query) (floor : ℕ) : ℕ → ℕ → BuildProg ℕ
  | 0, ep => pure ep
  | layer + 1, ep =>
    if floor < layer + 1 then do
      let w ← searchBuild arith metas metric ties q [ep] 1 (layer + 1)
      descendBuild q floor layer ((w.head?.map Prod.snd).getD ep)
    else pure ep

/-- A node linked on every layer below the given one, from the top down. -/
def connectBuild (q : Query) (idx ep : ℕ) : ℕ → List ℕ → BuildProg Unit
  | 0, _ => pure ()
  | layer + 1, starts => do
    let w ← searchBuild arith metas metric ties q starts params.efConstruction layer
    let chosen := (w.take (params.maxConn layer)).map Prod.snd
    pushOwn idx layer chosen
    chosen.foldlM (pushBack layer idx) ()
    pruneOwn idx layer
    connectBuild q idx ep layer (if w.isEmpty then [ep] else w.map Prod.snd)

def insertIntoBuild (idx : ℕ) : BuildProg Unit := do
  let node ← Prog.own (fetch metas idx)
  let q : Query := ⟨node.vector, node.norm⟩
  let (entry, top) ← readEntry
  let ep ← descendBuild arith metas metric ties q node.level top entry
  connectBuild arith metas params metric ties q idx ep (min node.level top + 1) [ep]
  if top < node.level then raise idx node.level

/-- A thread takes the next node until there is none. -/
def worker (ties : ℕ → Ties) : ℕ → BuildProg Unit
  | 0 => .fail .unfinished
  | rounds + 1 => do
    let i ← fetchAdd
    if metas.length ≤ i then return ()
    else do
      insertIntoBuild arith metas params metric (ties i) i
      worker ties rounds

end

/-! ### The build -/

section

variable (arith : Arith)

/-- The nodes of a batch, their levels drawn in turn. -/
def drawMetas (params : HnswParams) : UInt64 → List (ℕ × List F32) → List BuildMeta × UInt64
  | rng, [] => ([], rng)
  | rng, (id, vector) :: items =>
    let level := arith.level (nextRand rng >>> 11).toNat params.ml
    let rest := drawMetas params (nextRand rng) items
    (⟨id, vector, (prepare arith vector).norm, level⟩ :: rest.1, rest.2)

/-- The empty lists of a node. -/
def emptyLists (node : BuildMeta) : Run (List (List ℕ)) := do
  roomFor node.level
  return List.replicate (node.level + 1) []

def frozen (node : BuildMeta) (lists : List (List ℕ)) : Node :=
  ⟨node.id, node.vector, node.norm, false, lists⟩

/-- The threads of a build before their first step: the first node is there without links. -/
def buildPool (metas : List BuildMeta) (params : HnswParams) (metric : Metric) (ties : ℕ → Ties)
    (threads : ℕ) (adj : List (List (List ℕ))) (first : BuildMeta) :
    Pool BuildAct BuildAct.Reply Panic Unit BuildState :=
  ⟨⟨adj, (0, first.level), 1⟩,
    List.replicate threads (worker arith metas params metric ties metas.length)⟩

/-- The index as the threads leave it. -/
def HnswIndex.freeze (index : HnswIndex) (metas : List BuildMeta) (rng : UInt64)
    (state : BuildState) : HnswIndex :=
  { index with
    nodes := List.zipWith frozen metas state.adj
    entry := some state.entry.1
    topLayer := state.entry.2
    rng }

/-- The threads run under a schedule. One that does not end them all is no run of the code. -/
def HnswIndex.buildShared (index : HnswIndex) (threads : ℕ) (ties : ℕ → Ties) (schedule : List ℕ)
    (metas : List BuildMeta) (rng : UInt64) : Run HnswIndex := do
  let adj ← metas.mapM emptyLists
  let first ← fetch metas 0
  let pool := buildPool arith metas index.params index.metric ties threads adj first
  let after ← pool.run (performBuild arith metas index.params index.metric) schedule
  if after.finished then return (index.freeze metas rng after.shared).reindex
  else .error .unfinished

/-- A build on a machine of so many cores. -/
def HnswIndex.buildParallel (index : HnswIndex) (cores : ℕ) (ties : ℕ → Ties) (schedule : List ℕ)
    (items : List (ℕ × List F32)) : Run HnswIndex :=
  let threads := min cores items.length
  if items.length < parallelMin ∨ threads ≤ 1 then
    items.zipIdx.foldlM (fun index item => index.insert arith (ties item.2) item.1.1 item.1.2) index
  else
    let drawn := drawMetas arith index.params index.rng items
    index.buildShared arith threads ties schedule drawn.1 drawn.2

end

end DrStrange.Hnsw
