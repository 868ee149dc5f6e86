/-
**The cheapest way between two nodes.**

Edges are followed in one direction or in both, and weigh what a property says, made non-negative.
Costs are exact, in units of the least double. The search always ends, and it returns a route of the
scope that no other route undercuts, or nothing exactly if there is no route
(`shortestPath_shortest`).
-/

import DrStrange.Api.Planes
import DrStrange.Compute.Frame
import DrStrange.Graph.Labels
import DrStrange.Lib.Double
import DrStrange.Lib.ShortestPath

namespace DrStrange.Compute

open DrStrange.Graph Lib

/-! ### The code -/

structure ShortestPathOptions where
  dir : Dir
  weight : Option String

/-- The nodes from the source to the target, the edges between them and what they cost. -/
structure Path where
  nodes : List NodeId
  edges : List EdgeId
  cost : ℕ
  deriving DecidableEq, Repr

/-- A weight that is negative or not finite counts as zero. -/
def nonNegative (w : UInt64) : ℕ := if finite64 w ∧ 0 ≤ lineKey64 w then scaled (magnitude w) else 0

/-- What the property of an edge weighs. -/
def weigh (prop : String) (found : Option EdgeRecord) : ℕ :=
  nonNegative <| match found with
    | some rec => match (rec.properties[prop]?).map PropDesc.value with
        | some (.int i) => double i
        | some (.float f) => f
        | _ => double 1
    | none => double 1

def edgeWeight (reader : GraphReader) (edge : EdgeId) : Option String → Except Error ℕ
  | none => .ok one64
  | some prop => do return weigh prop (← reader.edge edge)

/-- The edges that are followed from each node. -/
def Frame.succ (frame : Frame) : Dir → Fin frame.nodes.length → List (Fin frame.nodes.length × EdgeId)
  | .out => frame.out
  | .in => frame.transpose
  | .both => fun i => frame.out i ++ frame.transpose i

/-- The loop of the search, of so many rounds at most. -/
def searchLoop {n : ℕ} (reader : GraphReader) (weight : Option String)
    (succ : Fin n → List (Fin n × EdgeId)) (t : Fin n) :
    ℕ → Search (Fin n) EdgeId → Except Error (Option (Search (Fin n) EdgeId))
  | 0, _ => .ok none
  | fuel + 1, state =>
    match pop state.heap with
    | none => .ok (some state)
    | some ((cost, node), heap) =>
      if node = t then .ok (some { state with heap := heap })
      else if state.dist node < cost then
        searchLoop reader weight succ t fuel { state with heap := heap }
      else do
        let state ← (succ node).foldlM (fun state hop => do
          let w ← edgeWeight reader hop.2 weight
          return relax (fun _ => w) node cost state hop) { state with heap := heap }
        searchLoop reader weight succ t fuel state

/-- The path to a node that was reached, by walking its predecessors backward. -/
def pathTo (frame : Frame) (fuel : ℕ) (t : Fin frame.nodes.length)
    (state : Search (Fin frame.nodes.length) EdgeId) : Option (Option Path) :=
  match state.dist t with
  | ⊤ => some none
  | (cost : ℕ) => (walkBack state.prev fuel t [t] []).map fun (nodes, edges) =>
    some ⟨nodes.map fun i => frame.nodes.get i, edges, cost⟩

def pathBetween (fuel : ℕ) (reader : GraphReader) (frame : Frame) (src dst : NodeId)
    (opts : ShortestPathOptions) : Except Error (Option (Option Path)) :=
  match indexOf frame.nodes src, indexOf frame.nodes dst with
  | some s, some t => do
    let found ← searchLoop reader opts.weight (frame.succ opts.dir) t fuel (Search.start s)
    return found.bind (pathTo frame fuel t)
  | _, _ => .ok (some none)

/-- The cheapest path, if there is one; nothing at all if a loop does not end in so many rounds. -/
def shortestPath (fuel : ℕ) (reader : GraphReader) (label : Option String) (src dst : NodeId)
    (opts : ShortestPathOptions) : Except Error (Option (Option Path)) := do
  let frame ← Frame.build reader label
  pathBetween fuel reader frame src dst opts

/-! ### The search of a frame -/

variable {tables : Tables} {plane : PlaneId} {label : Option String} {dir : Dir}
  {prop : Option String}
  {vector : VectorSearch}
  {keyword : KeywordSearch}
  {nodes edges : Set ℕ} {src dst a b : NodeId} {fuel : ℕ} {result : Option Path}
  {hops : List (Fin (scope tables plane label).length × EdgeId)} {reader : GraphReader}

/-- Where reading weighs every edge, the loop is the search by these weights. -/
theorem searchLoop_eq {n : ℕ} {succ : Fin n → List (Fin n × EdgeId)} {t : Fin n} {w : EdgeId → ℕ}
    (reads : ∀ edge, edgeWeight reader edge prop = .ok (w edge)) (state : Search (Fin n) EdgeId) :
    searchLoop reader prop succ t fuel state = .ok (explore succ w t fuel state) := by
  induction fuel generalizing state with
  | zero => rfl
  | succ fuel ih =>
    have round :
        ∀ (node : Fin n) (cost : ℕ) (hops : List (Fin n × EdgeId)) (state : Search (Fin n) EdgeId),
        (hops.foldlM (fun state hop => do
          let w ← edgeWeight reader hop.2 prop
          return relax (fun _ => w) node cost state hop) state : Except Error _) =
          .ok (hops.foldl (relax w node cost) state) := by
      intro node cost hops
      induction hops with
      | nil => exact fun _ => rfl
      | cons hop hops ih =>
        intro state
        exact bind_eq_ok.mpr ⟨relax w node cost state hop,
          bind_eq_ok.mpr ⟨w hop.2, reads hop.2, rfl⟩, ih _⟩
    rw [searchLoop, explore]
    cases pop state.heap with
    | none => rfl
    | some entry =>
      obtain ⟨⟨cost, node⟩, heap⟩ := entry
      dsimp only
      split_ifs
      · rfl
      · exact ih _
      · rw [round]
        exact ih _

theorem pathTo_far {frame : Frame} {t : Fin frame.nodes.length}
    {state : Search (Fin frame.nodes.length) EdgeId}
    (far : state.dist t = ⊤) : pathTo frame fuel t state = some none := by
  unfold pathTo
  rw [far]
  rfl

theorem pathTo_near {frame : Frame} {t : Fin frame.nodes.length}
    {state : Search (Fin frame.nodes.length) EdgeId}
    {cost : ℕ} {visited : List (Fin frame.nodes.length)} {taken : List EdgeId}
    (near : state.dist t = cost)
    (back : walkBack state.prev fuel t [t] [] = some (visited, taken)) :
    pathTo frame fuel t state =
    some (some ⟨visited.map fun i => frame.nodes.get i, taken, cost⟩) := by
  unfold pathTo
  rw [near]
  exact congrArg (Option.map _) back

/-! ### Routes -/

/-- What an edge weighs in a plane. -/
def weightOf (tables : Tables) (plane : PlaneId) (prop : Option String) (edge : EdgeId) : ℕ :=
  match prop with
  | none => one64
  | some prop => weigh prop ((getEdge tables plane edge).toOption.join)

/-- An edge is followed from a node, in a direction, to a node of the scope. -/
def Follows (tables : Tables) (plane : PlaneId) (label : Option String) (dir : Dir) (a : NodeId)
    (hop : NodeId × EdgeId) : Prop :=
  hop.1 ∈ scope tables plane label ∧
    ((dir ≠ .in ∧ Tables.Joins tables plane none hop.2 a hop.1) ∨
      (dir ≠ .out ∧ Tables.Joins tables plane none hop.2 hop.1 a))

/-- A route of the scope, by its hops: each is an edge and the node that it is followed to. -/
inductive Route (tables : Tables) (plane : PlaneId) (label : Option String) (dir : Dir) :
    NodeId → List (NodeId × EdgeId) → NodeId → Prop where
  | nil {a : NodeId} (inside : a ∈ scope tables plane label) : Route tables plane label dir a [] a
  | cons {a b : NodeId} {hop : NodeId × EdgeId} {hops : List (NodeId × EdgeId)}
      (inside : a ∈ scope tables plane label) (step : Follows tables plane label dir a hop)
      (rest : Route tables plane label dir hop.1 hops b) : Route tables plane label dir a
        (hop :: hops) b

def routeCost (tables : Tables) (plane : PlaneId) (prop : Option String)
    (hops : List (NodeId × EdgeId)) : ℕ :=
  (hops.map fun hop => weightOf tables plane prop hop.2).sum

theorem mem_succ (exact : Exact tables) {i j : Fin (scope tables plane label).length}
    {edge : EdgeId} :
    (j, edge) ∈ (planeFrame tables plane label).succ dir i ↔
      Follows tables plane label dir ((scope tables plane label).get i)
        ((scope tables plane label).get j, edge) := by
  have out := @mem_out tables plane label i j edge
  have back : (j, edge) ∈ (planeFrame tables plane label).transpose i ↔ _ :=
    mem_transpose.trans (@mem_out tables plane label j i edge)
  rw [leads_iff exact] at out back
  have inside : (scope tables plane label).get j ∈ scope tables plane label := List.get_mem _ _
  rw [Follows, and_iff_right inside]
  cases dir with
  | out => exact out.trans (by simp)
  | «in» => exact back.trans (by simp)
  | both => exact List.mem_append.trans ((or_congr out back).trans (by simp))

/-- A hop between numbers as one between their nodes. -/
def named (tables : Tables) (plane : PlaneId) (label : Option String)
    (hop : Fin (scope tables plane label).length × EdgeId) : NodeId × EdgeId :=
  ((scope tables plane label)[hop.1], hop.2)

theorem route_of_walk (exact : Exact tables) {i j : Fin (scope tables plane label).length}
    (walk : Lib.Walk ((planeFrame tables plane label).succ dir) i hops j) :
    Route tables plane label dir ((scope tables plane label).get i)
      (hops.map (named tables plane label)) ((scope tables plane label).get j) := by
  induction walk with
  | nil i => exact .nil (List.get_mem _ _)
  | cons step _ ih => exact .cons (List.get_mem _ _) ((mem_succ exact).mp step) ih

theorem walk_of_route (exact : Exact tables) {hops : List (NodeId × EdgeId)}
    (route : Route tables plane label dir a hops b) (i : Fin (scope tables plane label).length)
    (starts : (scope tables plane label).get i = a) :
    ∃ j, ∃ walk : List (Fin (scope tables plane label).length × EdgeId),
    (scope tables plane label).get j = b ∧
      hops = walk.map (named tables plane label) ∧
      Lib.Walk ((planeFrame tables plane label).succ dir) i walk j := by
  induction route generalizing i with
  | nil => exact ⟨i, [], starts, rfl, .nil i⟩
  | @cons a b hop hops inside step rest ih =>
    obtain ⟨k, bound, next⟩ := List.getElem_of_mem step.1
    obtain ⟨j, walk, ends, same, walks⟩ := ih ⟨k, bound⟩ next
    refine ⟨j, (⟨k, bound⟩, hop.2) :: walk, ends, ?_, .cons ((mem_succ exact).mpr ?_) walks⟩
    · rw [List.map_cons, ← same, named]
      exact congrArg (· :: hops) (Prod.ext next.symm rfl)
    · subst starts
      have hop' : ((scope tables plane label).get ⟨k, bound⟩, hop.2) = hop := Prod.ext next rfl
      rw [hop']
      exact step

theorem routeCost_named :
    routeCost tables plane prop (hops.map (named tables plane label)) =
      costOf (weightOf tables plane prop) hops := by
  rw [routeCost, List.map_map]
  rfl

theorem map_fst_named (hops : List (Fin (scope tables plane label).length × EdgeId)) :
    (hops.map Prod.fst).map (fun i => (scope tables plane label).get i) =
      (hops.map (named tables plane label)).map Prod.fst := by
  rw [List.map_map, List.map_map]
  rfl

theorem map_snd_named (hops : List (Fin (scope tables plane label).length × EdgeId)) :
    hops.map Prod.snd = (hops.map (named tables plane label)).map Prod.snd := by
  rw [List.map_map]
  rfl

theorem edgeWeight_plane (sound : Sound nodes edges tables) (edge : EdgeId) :
    edgeWeight (planeReader tables plane vector keyword) edge prop =
    .ok (weightOf tables plane prop edge) := by
  cases prop with
  | none => rfl
  | some prop =>
    obtain ⟨found, read⟩ := @Sound.getEdge_returns tables plane edge _ _ sound
    refine bind_eq_ok.mpr ⟨found, read, ?_⟩
    rw [weightOf, read]
    rfl

theorem pathBetween_outside {frame : Frame} {opts : ShortestPathOptions}
    (outside : src ∉ frame.nodes ∨ dst ∉ frame.nodes) :
    pathBetween fuel reader frame src dst opts = .ok (some none) := by
  unfold pathBetween
  rcases outside with outside | outside
  · rw [indexOf_eq_none.mpr outside]
  · rw [indexOf_eq_none.mpr outside]
    cases indexOf frame.nodes src <;> rfl

theorem pathBetween_inside {frame : Frame} {reader : GraphReader} {opts : ShortestPathOptions}
    {w : EdgeId → ℕ}
    {s t : Fin frame.nodes.length} (reads : ∀ edge, edgeWeight reader edge opts.weight = .ok (w edge))
    (here : indexOf frame.nodes src = some s) (there : indexOf frame.nodes dst = some t) :
    pathBetween fuel reader frame src dst opts =
      .ok ((explore (frame.succ opts.dir) w t fuel (Search.start s)).bind (pathTo frame fuel t)) := by
  rw [pathBetween, here, there]
  dsimp only
  rw [searchLoop_eq reads]
  rfl

/-- A path that is a route, and that no other route between its ends undercuts. -/
structure IsShortest (tables : Tables) (plane : PlaneId) (label : Option String)
    (opts : ShortestPathOptions)
    (src dst : NodeId) (path : Path) (hops : List (NodeId × EdgeId)) : Prop where
  route : Route tables plane label opts.dir src hops dst
  nodes : path.nodes = src :: hops.map Prod.fst
  edges : path.edges = hops.map Prod.snd
  cost : path.cost = routeCost tables plane opts.weight hops
  least : ∀ other, Route tables plane label opts.dir src other dst →
    path.cost ≤ routeCost tables plane opts.weight other

/-- **The shortest path is shortest.** The search ends whatever the graph, and from some number of
rounds on it returns the same: nothing exactly if an endpoint is outside of the scope or no route
joins them, and otherwise a route that costs what it says and no more than any other. -/
theorem shortestPath_shortest (sound : Sound nodes edges tables) (label : Option String)
    (src dst : NodeId) (opts : ShortestPathOptions) :
    ∃ rounds result, (∀ fuel, rounds ≤ fuel →
        shortestPath fuel (planeReader tables plane vector keyword) label src dst opts =
        .ok (some result)) ∧
      (result = none ↔ src ∉ scope tables plane label ∨ dst ∉ scope tables plane label ∨
        ∀ hops, ¬ Route tables plane label opts.dir src hops dst) ∧
      ∀ path, result = some path → ∃ hops, IsShortest tables plane label opts src dst path hops := by
  have built : ∀ fuel, shortestPath fuel (planeReader tables plane vector keyword) label
      src dst opts =
      pathBetween fuel (planeReader tables plane vector keyword) (planeFrame tables plane label) src
        dst opts := by
    intro fuel
    rw [shortestPath, build_plane]
    rfl
  simp only [built]
  by_cases outside : src ∉ scope tables plane label ∨ dst ∉ scope tables plane label
  · exact ⟨0, none, fun fuel _ => pathBetween_outside outside,
      iff_of_true rfl (outside.imp_right .inl), nofun⟩
  obtain ⟨inside, inside'⟩ := not_or.mp outside
  obtain ⟨s, here⟩ : ∃ s : Fin (scope tables plane label).length,
    (scope tables plane label).get s = src := by
    obtain ⟨i, bound, here⟩ := List.getElem_of_mem (not_not.mp inside)
    exact ⟨⟨i, bound⟩, here⟩
  obtain ⟨t, there⟩ : ∃ t : Fin (scope tables plane label).length,
    (scope tables plane label).get t = dst := by
    obtain ⟨j, bound, there⟩ := List.getElem_of_mem (not_not.mp inside')
    exact ⟨⟨j, bound⟩, there⟩
  have run := fun fuel => @pathBetween_inside src dst fuel (planeFrame tables plane label)
    (planeReader tables plane vector keyword) opts _ s t (fun edge => edgeWeight_plane sound edge)
    ((indexOf_eq_some nodup_scope).mpr here) ((indexOf_eq_some nodup_scope).mpr there)
  obtain ⟨rounds, final, ends⟩ := explore_ends ((planeFrame tables plane label).succ opts.dir)
    (weightOf tables plane opts.weight) t (Search.start s)
  have routes : ∀ hops, Route tables plane label opts.dir src hops dst →
      ∃ walk, Lib.Walk ((planeFrame tables plane label).succ opts.dir) s walk t ∧
        routeCost tables plane opts.weight hops =
        costOf (weightOf tables plane opts.weight) walk := by
    intro hops route
    obtain ⟨k, walk, ends, rfl, walks⟩ := walk_of_route sound.exact route s here
    obtain rfl : k = t :=
      Fin.ext ((List.Nodup.getElem_inj_iff nodup_scope).mp (ends.trans there.symm))
    exact ⟨walk, walks, routeCost_named⟩
  rcases explore_solved inv_start (ends rounds le_rfl) with ⟨far, none⟩ | ⟨near, chain, walk, least⟩
  · have nowhere : ∀ hops, ¬ Route tables plane label opts.dir src hops dst := by
      intro hops route
      obtain ⟨walk, walks, -⟩ := routes hops route
      exact none walk walks
    refine ⟨rounds, .none, fun fuel enough => ?_, iff_of_true rfl (.inr (.inr nowhere)), nofun⟩
    rw [run, ends fuel enough, Option.bind_some, pathTo_far far]
  · rename_i hops
    have route : Route tables plane label opts.dir src (hops.map (named tables plane label)) dst := by
      have walked := route_of_walk sound.exact walk
      rwa [here, there] at walked
    refine ⟨max rounds (hops.length + 1), some
      ⟨src :: (hops.map (named tables plane label)).map Prod.fst,
      (hops.map (named tables plane label)).map Prod.snd,
      costOf (weightOf tables plane opts.weight) hops⟩,
      fun fuel enough => ?_, iff_of_false nofun ?_, ?_⟩
    · have back := chain.walkBack ((le_max_right rounds (hops.length + 1)).trans enough) [] []
      rw [run, ends fuel ((le_max_left _ _).trans enough), Option.bind_some, pathTo_near near back]
      have visited := (congrArg (· :: _) here).trans (congrArg (src :: ·) (map_fst_named hops))
      rw [List.append_nil, List.append_nil]
      exact congrArg₂ (fun nodes edges => Except.ok (some (some (Path.mk nodes edges _)))) visited
        (map_snd_named hops)
    · rintro (outside | outside | nowhere)
      · exact inside outside
      · exact inside' outside
      · exact nowhere _ route
    · intro path same
      obtain rfl := Option.some.inj same
      refine ⟨hops.map (named tables plane label), route, rfl, rfl, routeCost_named.symm,
        fun other route' => ?_⟩
      obtain ⟨walk', walks, cost⟩ := routes other route'
      exact cost ▸ least walk' walks

/-- A road of a length. -/
def road (src dst : NodeId) (km : ℤ) : WriteOp :=
  .createEdge src dst "ROAD" ((∅ : Properties).insert "km" (.mk none (.int km)))

/-- A direct road that is longer than the way around. -/
def detour : Database := (Database.new plainHost 0).run plainHost
  [(1, .write 0 [.createNode [] ∅, .createNode [] ∅, .createNode [] ∅, road 1 2 5, road 1 3 1,
    road 3 2 1] true)]

/-- From one end of the direct road to the other there is a shortest path. -/
theorem shortestPath_shortest_detour : ∃ path hops,
    IsShortest detour.tables 0 none ⟨.out, some "km"⟩ 1 2 path hops := by
  have sound : detour.Sound := Database.new_sound.run _
  obtain ⟨-, result, -, absent, short⟩ :=
    @shortestPath_shortest detour.tables 0 (fun _ _ _ _ _ => .ok [])
    (fun _ _ _ _ => .ok []) _ _ sound.world.tables none 1 2 ⟨.out, some "km"⟩
  have inside : 1 ∈ scope detour.tables 0 none ∧ 2 ∈ scope detour.tables 0 none := by
    with_unfolding_all decide
  cases result with
  | some path => exact ⟨path, short path rfl⟩
  | none =>
    obtain outside | outside | nowhere := absent.mp rfl
    · exact absurd inside.1 outside
    · exact absurd inside.2 outside
    · have ends : (detour.tables.edges[((0 : PlaneId), (1 : EdgeId))]?).map
          (fun row => (row.src, row.dst)) =
          some (1, 2) := by with_unfolding_all decide
      obtain ⟨row, stored, same⟩ := Option.map_eq_some_iff.mp ends
      obtain ⟨starts, stops⟩ := Prod.ext_iff.mp same
      exact absurd (.cons inside.1 ⟨inside.2, .inl ⟨nofun, row, stored, starts, stops, nofun⟩⟩
        (.nil inside.2))
        (nowhere [(2, 1)])

end DrStrange.Compute
