/-
**A seek by key against the scan it replaces.**

The conjunct that a seek stands for is true of a node exactly when one of the keys is the node's
(`pinned_compiles`), and the label of the scan is a filter of the seek. So the two plans compile alike
but where a pinned value is no string, which only the seek refuses, and once the conjuncts of the
source are through, they have the same rows in some order if no key is listed twice.
-/

import DrStrange.Api.Rebuild
import DrStrange.Compute.Groups
import DrStrange.Compute.Reordered
import DrStrange.Parser.Joined
import DrStrange.Parser.Matched
import DrStrange.Parser.Reached

namespace DrStrange.Parser

open Std DrStrange.Graph DrStrange.Compute Lib

variable {embedder : Option Embedder} {params : Params} {debug : PropValue → String} {q : Query}
  {varSlot : List (String × ℕ)} {first : NodePat} {keys : List String} {conj : PExpr}
  {preds : List Expr} {message : String}

/-- The plan that scans and filters. -/
def compileScan (embedder : Option Embedder) (params : Params) (q : Query) :
    Except String LogicalPlan :=
  compileWith embedder params (fun source slot0 _ => .ok (source, slot0)) q

/-! ### The parts of a plan -/

theorem compileFilters_eq {slot : ℕ} {filters : List PExpr} :
    compileFilters embedder params varSlot slot filters =
      (filters.mapM (compileExpr embedder params ⟨varSlot, slot⟩)).map
        fun preds => preds.map .filter := by
  unfold compileFilters
  induction filters with
  | nil => rfl
  | cons conj filters ih =>
    rw [List.mapM_cons, List.mapM_cons, ih]
    cases compileExpr embedder params ⟨varSlot, slot⟩ conj with
    | error e => rfl
    | ok pred => cases filters.mapM (compileExpr embedder params ⟨varSlot, slot⟩) <;> rfl

theorem compileWith_ok
    {rewrite : Source → List PExpr → NodePat → Except String (Source × List PExpr)}
    {plan : LogicalPlan} :
    compileWith embedder params rewrite q = .ok plan ↔
      ∃ source varSlot slotFilters source' slot0 preds hops tail project,
        compileSource embedder q.source = .ok source ∧ bindVariables q.nodes = .ok varSlot ∧
        pushDownWhere q.whereClause varSlot q.nodes.length = .ok slotFilters ∧
        rewrite source (slotFilters.headD []) q.source.first = .ok (source', slot0) ∧
        slot0.mapM (compileExpr embedder params ⟨varSlot, 0⟩) = .ok preds ∧
        compileHops embedder params varSlot 1 q.hops slotFilters.tail = .ok hops ∧
        compileReturn embedder params q varSlot q.hops.length = .ok (tail, project) ∧
        plan = ⟨source', preds.map .filter ++ hops ++ tail, project⟩ := by
  constructor
  · intro compiled
    obtain ⟨source, sourced, rest⟩ := bind_eq_ok.mp compiled
    obtain ⟨varSlot, bound, rest⟩ := bind_eq_ok.mp rest
    obtain ⟨slotFilters, pushed, rest⟩ := bind_eq_ok.mp rest
    obtain ⟨⟨source', slot0⟩, rewritten, rest⟩ := bind_eq_ok.mp rest
    obtain ⟨filters, filtered, rest⟩ := bind_eq_ok.mp rest
    obtain ⟨hops, hopped, rest⟩ := bind_eq_ok.mp rest
    obtain ⟨⟨tail, project⟩, returned, rest⟩ := bind_eq_ok.mp rest
    obtain rfl := Except.ok.inj rest
    rw [compileFilters_eq] at filtered
    obtain ⟨preds, read, rfl⟩ := map_eq_ok.mp filtered
    exact ⟨source, varSlot, slotFilters, source', slot0, preds, hops, tail, project, sourced, bound,
      pushed, rewritten, read, hopped, returned, rfl⟩
  · rintro ⟨source, varSlot, slotFilters, source', slot0, preds, hops, tail, project, sourced, bound,
      pushed, rewritten, read, hopped, returned, rfl⟩
    refine bind_eq_ok.mpr ⟨source, sourced, bind_eq_ok.mpr ⟨varSlot, bound, bind_eq_ok.mpr
      ⟨slotFilters, pushed, bind_eq_ok.mpr ⟨(source', slot0), rewritten, bind_eq_ok.mpr
      ⟨preds.map .filter, ?_, bind_eq_ok.mpr ⟨hops, hopped, bind_eq_ok.mpr
      ⟨(tail, project), returned, rfl⟩⟩⟩⟩⟩⟩⟩
    rw [compileFilters_eq]
    exact map_eq_ok.mpr ⟨preds, read, rfl⟩

/-- The variable of the source stands at slot 0. -/
theorem bindVariables_first {nodes : List NodePat}
    (bound : bindVariables (first :: nodes) = .ok varSlot)
    {var : String} (named : first.var = some var) : varSlot.lookup var = some 0 := by
  rw [bindVariables, List.zipIdx_cons, List.foldlM_cons] at bound
  obtain ⟨start, one, bound⟩ := bind_eq_ok.mp bound
  rw [named] at one
  obtain rfl := Except.ok.inj one
  have here : ([] ++ [(var, 0)] : List (String × ℕ)).lookup var = some 0 := by simp
  generalize ([] ++ [(var, 0)] : List (String × ℕ)) = start at here bound
  generalize nodes.zipIdx (0 + 1) = nodes at bound
  induction nodes generalizing start with
  | nil =>
    obtain rfl := Except.ok.inj bound
    exact here
  | cons node nodes ih =>
    rw [List.foldlM_cons] at bound
    obtain ⟨next, one, bound⟩ := bind_eq_ok.mp bound
    refine ih next ?_ bound
    split at one
    · exact Except.ok.inj one ▸ here
    · split at one
      · cases one
      · obtain rfl := Except.ok.inj one
        rw [List.lookup_append, here, Option.some_or]

/-- What is read of the source's variable at slot 0 is read as it is. -/
theorem read_first (placed : ∀ var, first.var = some var → varSlot.lookup var = some 0) {var : String}
    (named : var = "" ∨ first.var = some var) {inner : Expr} :
    Scope.read ⟨varSlot, 0⟩ var inner = .ok inner := by
  unfold Scope.read
  split
  · rfl
  · rename_i other
    rw [placed var (named.resolve_left other)]
    rfl

/-! ### What a seek stands for -/

theorem asKey_ok {scope : Scope} {value : PExpr} {key : String}
    (spelled : asKey params debug value = some (.ok key)) :
    compileExpr embedder params scope value = .ok (.literal (.str key)) ∧
      isNonNullConstant params value = true := by
  unfold asKey at spelled
  split at spelled
  · obtain rfl := Except.ok.inj (Option.some.inj spelled)
    exact ⟨by rw [compileExpr, compileLeaf] <;> nofun, rfl⟩
  · rename_i name
    have resolved : resolveParam params name = .ok (.str key) := by
      replace spelled := Option.some.inj spelled
      split at spelled
      · rename_i found
        rw [found, Except.ok.inj spelled]
      · cases spelled
      · cases spelled
    constructor
    · rw [compileExpr, compileLeaf, resolved]
      · rfl
      all_goals nofun
    · rw [isNonNullConstant, resolved]
      rfl
  · cases spelled

theorem asKeys_ok {scope : Scope} {values : List PExpr}
    (spelled : asKeys params debug values = some (.ok keys)) :
    compileExprs embedder params scope values = .ok (keys.map fun key => .literal (.str key)) := by
  induction values generalizing keys with
  | nil =>
    obtain rfl := Except.ok.inj (Option.some.inj spelled)
    rfl
  | cons value values ih =>
    rw [asKeys] at spelled
    split at spelled
    · cases spelled
    · cases spelled
    · rename_i key here
      obtain ⟨rest, further, same⟩ := Option.map_eq_some_iff.mp spelled
      obtain ⟨others, rfl, rfl⟩ := map_eq_ok.mp same
      rw [compileExprs, (asKey_ok here).1, ih further]
      rfl

theorem asKeys_single {value : PExpr} (spelled : asKeys params debug [value] = some (.ok keys)) :
    ∃ key, keys = [key] ∧ asKey params debug value = some (.ok key) := by
  rw [asKeys] at spelled
  split at spelled
  · cases spelled
  · cases spelled
  · rename_i key here
    exact ⟨key, (Except.ok.inj (Option.some.inj spelled)).symm, here⟩

/-- A value that is refused is a parameter that holds no string. -/
theorem asKeys_error {values : List PExpr}
    (refused : asKeys params debug values = some (.error message)) :
    ∃ name, .param name ∈ values ∧ ∀ key, resolveParam params name ≠ .ok (.str key) := by
  induction values with
  | nil => exact nomatch Option.some.inj refused
  | cons value values ih =>
    rw [asKeys] at refused
    split at refused
    · cases refused
    · rename_i here
      unfold asKey at here
      split at here
      · exact nomatch Option.some.inj here
      · rename_i name
        refine ⟨name, List.mem_cons_self, fun key found => ?_⟩
        rw [found] at here
        cases here
      · cases here
    · obtain ⟨rest, refused, same⟩ := Option.map_eq_some_iff.mp refused
      cases rest with
      | error message' =>
        cases same
        obtain ⟨name, member, other⟩ := ih refused
        exact ⟨name, List.mem_cons_of_mem _ member, other⟩
      | ok keys => cases same

theorem isKey_iff {var : Option String} {expr : PExpr} :
    isKey var expr = true ↔ ∃ own, expr = .externalKey own ∧ var = some own := by
  constructor
  · intro key
    cases expr with
    | externalKey own => exact ⟨own, rfl, (of_decide_eq_true key).symm⟩
    | _ => cases key
  · rintro ⟨own, rfl, rfl⟩
    exact decide_eq_true rfl

/-- The key of the node, against one that is written. -/
theorem keyEq {machine : Machine} {ctx : EvalCtx} {key : String} :
    (valuesEq (eval machine ctx .externalKey) (.str key) = true ↔
        ctx.node.bind NodeRecord.externalKey = some key) ∧
      (valuesEq (.str key) (eval machine ctx .externalKey) = true ↔
        ctx.node.bind NodeRecord.externalKey = some key) := by
  rw [eval]
  cases ctx.node.bind NodeRecord.externalKey with
  | none => simp [valuesEq, eqValue]
  | some own => simp [valuesEq, eqValue, eq_comm]

/-- A comparison of the node's key with written ones. -/
structure Pins (keys : List String) (pred : Expr) : Prop where
  /-- No binding is read. -/
  add : ∀ need : BindingNeed, need.add pred = need
  holds : ∀ machine ctx, holds machine ctx pred = true ↔
    ∃ key ∈ keys, ctx.node.bind NodeRecord.externalKey = some key

/-- **The conjunct of a seek is true of the nodes whose key is listed.** -/
theorem pinned_compiles (placed : ∀ var, first.var = some var → varSlot.lookup var = some 0)
    (seeks : keySeekKeys params debug first.var conj = some (.ok keys)) :
    ∃ pred, compileExpr embedder params ⟨varSlot, 0⟩ conj = .ok pred ∧ Pins keys pred := by
  obtain ⟨values, pinned, spelled⟩ := Option.bind_eq_some_iff.mp seeks
  have compiled := @asKeys_ok embedder _ _ _ ⟨varSlot, 0⟩ _ spelled
  have own : ∀ expr, isKey first.var expr = true →
      compileExpr embedder params ⟨varSlot, 0⟩ expr = .ok .externalKey := by
    intro expr key
    obtain ⟨own, rfl, named⟩ := isKey_iff.mp key
    rw [compileExpr, compileLeaf, read_first placed (.inr named)] <;> nofun
  unfold pinnedValues at pinned
  split at pinned
  · rename_i lhs rhs
    split_ifs at pinned with left right
    · obtain rfl := Option.some.inj pinned
      obtain ⟨key, rfl, single⟩ := asKeys_single spelled
      obtain ⟨literal, constant⟩ := @asKey_ok embedder _ _ ⟨varSlot, 0⟩ _ _ single
      refine ⟨.compare .eq .externalKey (.literal (.str key)), ?_, fun need => rfl, ?_⟩
      · rw [compileExpr, own lhs left, literal]
        simp only [bind, Except.bind, compiledCompare, constant, Bool.or_true, if_true]
      · exact fun machine ctx => keyEq.1.trans (by simp)
    · obtain rfl := Option.some.inj pinned
      obtain ⟨key, rfl, single⟩ := asKeys_single spelled
      obtain ⟨literal, constant⟩ := @asKey_ok embedder _ _ ⟨varSlot, 0⟩ _ _ single
      refine ⟨.compare .eq (.literal (.str key)) .externalKey, ?_, fun need => rfl, ?_⟩
      · rw [compileExpr, own rhs right, literal]
        simp only [bind, Except.bind, compiledCompare, constant, Bool.true_or, if_true]
      · exact fun machine ctx => keyEq.2.trans (by simp)
  · rename_i lhs list
    split_ifs at pinned with left
    obtain rfl := Option.some.inj pinned
    let eqs := keys.map fun key => Expr.compare .eq .externalKey (.literal (.str key))
    have some : eqs ≠ [] := by
      rintro none
      obtain rfl := List.map_eq_nil_iff.mp none
      cases list with
      | nil => exact left.2 rfl
      | cons value list =>
        obtain ⟨value, -, rest⟩ := bind_eq_ok.mp compiled
        obtain ⟨values, -, same⟩ := bind_eq_ok.mp rest
        exact nomatch Except.ok.inj same
    obtain ⟨pred, balanced, truth⟩ := @balanced_eval .or _ some
    refine ⟨pred, ?_, fun need => ?_, fun machine ctx => ?_⟩
    · rw [compileExpr, own lhs left.1, compiled]
      have same : (keys.map fun key => Expr.literal (.str key)).map (Expr.compare .eq .externalKey) =
          eqs := List.map_map
      simp only [bind, Except.bind, pure, Except.pure, same, balanced, Option.getD_some]
    · revert need
      refine @balanced_forall .or eqs (fun pred => ∀ need : BindingNeed, need.add pred = need) ?_ ?_
        pred balanced
      · exact fun lhs rhs left right need => (congrArg (BindingNeed.add · rhs) (left need)).trans
          (right need)
      · exact List.forall_mem_map.mpr fun key _ need => rfl
    · rw [truth, joined, List.any_map, List.any_eq_true]
      exact exists_congr fun key => and_congr_right fun _ => keyEq.1
  · cases pinned

/-- The test of a scan's label. -/
def labelTests : Source → List Expr
  | .scanLabel label => [.hasLabel label]
  | .scanAll | .seekIds _ | .seekKeys _ | .vectorTopK .. | .keywordTopK .. => []

theorem labelConjunct_compiles (placed : ∀ var, first.var = some var → varSlot.lookup var = some 0)
    {source : Source} :
    (labelConjunct first source).mapM (compileExpr embedder params ⟨varSlot, 0⟩) =
      .ok (labelTests source) := by
  cases source with
  | scanLabel label =>
    have named : first.var.getD "" = "" ∨ first.var = some (first.var.getD "") := by
      cases first.var with
      | none => exact .inl rfl
      | some var => exact .inr rfl
    rw [labelConjunct, List.mapM_cons, compileExpr, compileLeaf, read_first placed named]
    · rfl
    all_goals nofun
  | scanAll | seekIds | seekKeys | vectorTopK | keywordTopK => rfl

/-! ### The rows of a source -/

section Rows

variable {machine : Machine} {tables : Tables} {plane : PlaneId} {nodes edges : Set ℕ}
  {vector : VectorSearch}
  {keyword : KeywordSearch}
  {need : BindingNeed} {id : NodeId} {preds : List Expr} {ids : List NodeId} {pred : Expr}

/-- What a row that starts at a node is evaluated against: the node, and no hop. -/
theorem rowCtx_start (sound : Sound nodes edges tables) (here : (plane, id) ∈ tables.nodes) :
    ∃ ctx row, tables.nodes[(plane, id)]? = some row ∧
      ctx.node = some ⟨id, plane, row.externalKey, tables.labelsOf row, row.props⟩ ∧
      rowCtx (planeReader tables plane vector keyword) need (.start id) = .ok ctx := by
  obtain ⟨row, found⟩ : ∃ row, tables.nodes[(plane, id)]? = some row :=
    ⟨_, ExtTreeMap.getElem?_eq_some_getElem here⟩
  have read := sound.getNode found
  have bound : ∃ bindings,
      resolveBindings (planeReader tables plane vector keyword) (.start id) need = .ok bindings := by
    obtain ⟨nodes, readNodes⟩ := @mapM_returns Error _ _
      (fun slot => if slot ≤ (Row.start id).path.length then
        (planeReader tables plane vector keyword).node ((Row.start id).nodeAt slot) else .ok none)
      (List.range (need.nodes.elim 0 (· + 1))) fun slot _ => by
        split
        · exact sound.getNode_returns
        · exact ⟨none, rfl⟩
    obtain ⟨edges, readEdges⟩ := @mapM_returns Error _ _
      (hopEdge (planeReader tables plane vector keyword) (.start id))
      (List.range (need.edges.elim 0 (· + 1))) fun hop _ => ⟨none, rfl⟩
    have none : arrivalEdge (planeReader tables plane vector keyword) (.start id) need = .ok none :=
      if_neg fun asked => asked.2 rfl
    exact ⟨⟨nodes, edges, .none⟩, bind_eq_ok.mpr ⟨nodes, readNodes, bind_eq_ok.mpr
      ⟨edges, readEdges, bind_eq_ok.mpr ⟨.none, none, rfl⟩⟩⟩⟩
  obtain ⟨bindings, resolved⟩ := bound
  refine ⟨(Row.start id).ctx _ bindings, row, found, rfl, ?_⟩
  unfold rowCtx
  rw [resolved]
  change (getNode tables plane id >>= fun node => _) = _
  rw [read]
  rfl

/-- The expressions are all true of the row that starts at a node. -/
def keeps (machine : Machine) (reader : GraphReader) (need : BindingNeed) (preds : List Expr)
    (id : NodeId) : Bool :=
  match rowCtx reader need (.start id) with
  | .ok ctx => preds.all (holds machine ctx)
  | .error _ => false

theorem matchesPred_eq {reader : GraphReader} {row : Row} :
    matchesPred machine reader row pred need =
      (rowCtx reader need row).map fun ctx => holds machine ctx pred := by
  unfold matchesPred rowCtx
  cases reader.node row.head with
  | error e => rfl
  | ok node => cases resolveBindings reader row need <;> rfl

theorem filter_start (sound : Sound nodes edges tables)
    (here : ∀ id ∈ ids, (plane, id) ∈ tables.nodes) :
    (ids.map fun id => Except.ok (Row.start id)).filterMap
        (filterOne machine (planeReader tables plane vector keyword) pred need) =
      (ids.filter (keeps machine (planeReader tables plane vector keyword) need [pred])).map
        fun id => .ok (.start id) := by
  induction ids with
  | nil => rfl
  | cons id ids ih =>
    obtain ⟨first, here⟩ := List.forall_mem_cons.mp here
    obtain ⟨ctx, row, -, -, read⟩ := @rowCtx_start _ _ _ _ vector keyword need _ sound first
    rw [List.map_cons, List.filterMap_cons, List.filter_cons, ih here, filterOne,
      matchesPred_eq, keeps,
      read]
    simp only [Except.map, List.all_cons, List.all_nil, Bool.and_true]
    cases holds machine ctx pred <;> rfl

theorem keeps_append {reader : GraphReader} {more : List Expr} :
    keeps machine reader need (preds ++ more) id =
      (keeps machine reader need preds id && keeps machine reader need more id) := by
  unfold keeps
  cases rowCtx reader need (.start id) with
  | error e => rfl
  | ok ctx => exact List.all_append

/-- Filters keep the rows of a source of which they are all true, and none fails. -/
theorem filters_start (sound : Sound nodes edges tables)
    (here : ∀ id ∈ ids, (plane, id) ∈ tables.nodes) :
    (preds.map Step.filter).foldlM
        (applyStep machine (planeReader tables plane vector keyword) need)
        (ids.map fun id => .ok (.start id)) =
      .ok ((ids.filter (keeps machine (planeReader tables plane vector keyword) need preds)).map
        fun id => .ok (.start id)) := by
  induction preds generalizing ids with
  | nil =>
    have all : ids.filter (keeps machine (planeReader tables plane vector keyword) need []) =
        ids := by
      refine List.filter_eq_self.mpr fun id member => ?_
      obtain ⟨ctx, row, -, -, read⟩ := @rowCtx_start _ _ _ _ vector keyword need _ sound
        (here id member)
      rw [keeps, read]
      rfl
    rw [all]
    rfl
  | cons pred preds ih =>
    rw [List.map_cons, List.foldlM_cons, applyStep, filter_start sound here]
    refine (ih fun id member => here id (List.mem_of_mem_filter member)).trans ?_
    rw [List.filter_filter]
    exact congrArg (fun kept => Except.ok ((ids.filter kept).map fun id => Except.ok (Row.start id)))
      (funext fun id => (Bool.and_comm _ _).trans (@keeps_append machine _ _ [pred] _ preds).symm)

/-- Keys that are all different find different nodes. -/
theorem nodup_seek (exact : Exact tables) (once : keys.Nodup) :
    (keys.filterMap (nodeIdByExternalKey tables plane)).Nodup := by
  refine once.filterMap fun key key' id found found' => ?_
  obtain ⟨row, stored, keyed⟩ := (exact.extKeys plane key id).mp found
  obtain ⟨row', stored', keyed'⟩ := (exact.extKeys plane key' id).mp found'
  obtain rfl := Option.some.inj (stored.symm.trans stored')
  exact Option.some.inj (keyed.symm.trans keyed')

/-- A node is kept if the expressions are true of what is stored of it. -/
theorem keeps_iff (sound : Sound nodes edges tables) (here : (plane, id) ∈ tables.nodes) :
    ∃ ctx row, tables.nodes[(plane, id)]? = some row ∧
      ctx.node = some ⟨id, plane, row.externalKey, tables.labelsOf row, row.props⟩ ∧
      ∀ preds, keeps machine (planeReader tables plane vector keyword) need preds id = true ↔
        ∀ pred ∈ preds, holds machine ctx pred = true := by
  obtain ⟨ctx, row, found, node, read⟩ := @rowCtx_start _ _ _ _ vector keyword need _ sound here
  refine ⟨ctx, row, found, node, fun preds => ?_⟩
  rw [keeps, read, List.all_eq_true]

/-- The nodes that a scan lists. -/
def scanned (tables : Tables) (plane : PlaneId) : Source → List NodeId
  | .scanAll => scanAll tables plane
  | .scanLabel label => scanLabel tables plane label
  | .seekIds _ | .seekKeys _ | .vectorTopK .. | .keywordTopK .. => []

/-- A scan lists the nodes that have its label. -/
theorem mem_scanned (sound : Sound nodes edges tables) {source : Source}
    (scan : scans source = true) :
    id ∈ scanned tables plane source ↔
      (plane, id) ∈ tables.nodes ∧
        keeps machine (planeReader tables plane vector keyword) need (labelTests source) id =
        true := by
  constructor
  · intro listed
    have here : (plane, id) ∈ tables.nodes := by
      cases source with
      | scanAll => exact mem_scanAll.mp listed
      | scanLabel label => exact scanLabel_live sound.exact listed
      | seekIds | seekKeys | vectorTopK | keywordTopK => cases scan
    obtain ⟨ctx, row, found, node, kept⟩ :=
      @keeps_iff machine _ _ _ _ vector keyword need _ sound here
    refine ⟨here, (kept _).mpr ?_⟩
    cases source with
    | scanLabel label =>
      obtain ⟨row', found', carried⟩ := sound.exact.mem_scanLabel.mp listed
      obtain rfl := Option.some.inj (found.symm.trans found')
      refine List.forall_mem_singleton.mpr ?_
      simpa [holds, eval, node, Compute.isTrue] using carried
    | scanAll | seekIds | seekKeys | vectorTopK | keywordTopK => exact nofun
  · rintro ⟨here, labelled⟩
    obtain ⟨ctx, row, found, node, kept⟩ :=
      @keeps_iff machine _ _ _ _ vector keyword need _ sound here
    have tested := (kept _).mp labelled
    cases source with
    | scanAll => exact mem_scanAll.mpr here
    | scanLabel label =>
      refine sound.exact.mem_scanLabel.mpr ⟨row, found, ?_⟩
      have carried := List.forall_mem_singleton.mp tested
      simpa [holds, eval, node, Compute.isTrue] using carried
    | seekIds | seekKeys | vectorTopK | keywordTopK => cases scan

/-- A seek finds the nodes of which the conjunct it stands for is true. -/
theorem mem_seek (sound : Sound nodes edges tables) {pred : Expr} (pins : Pins keys pred) :
    id ∈ keys.filterMap (nodeIdByExternalKey tables plane) ↔
      (plane, id) ∈ tables.nodes ∧
        keeps machine (planeReader tables plane vector keyword) need [pred] id = true := by
  rw [List.mem_filterMap]
  constructor
  · rintro ⟨key, member, found⟩
    have here := nodeIdByExternalKey_live sound.exact found
    obtain ⟨ctx, row, stored, node, kept⟩ :=
      @keeps_iff machine _ _ _ _ vector keyword need _ sound here
    obtain ⟨row', stored', keyed⟩ := (sound.exact.extKeys plane key id).mp found
    obtain rfl := Option.some.inj (stored.symm.trans stored')
    refine ⟨here, (kept _).mpr (List.forall_mem_singleton.mpr ((pins.holds _ _).mpr ⟨key,
      member, ?_⟩))⟩
    rw [node]
    exact keyed
  · rintro ⟨here, pinned⟩
    obtain ⟨ctx, row, stored, node, kept⟩ :=
      @keeps_iff machine _ _ _ _ vector keyword need _ sound here
    have true := (kept [pred]).mp pinned pred List.mem_cons_self
    obtain ⟨key, member, keyed⟩ := (pins.holds _ _).mp true
    rw [node] at keyed
    exact ⟨key, member, (sound.exact.extKeys plane key id).mpr ⟨row, stored, keyed⟩⟩

/-- **Behind the conjuncts of the source, a seek of different keys has the nodes of the scan.** -/
theorem seek_perm (sound : Sound nodes edges tables) {source : Source} (scan : scans source = true)
    (pins : Pins keys pred) (once : keys.Nodup) {left right : List Expr} :
    ((keys.filterMap (nodeIdByExternalKey tables plane)).filter
      (keeps machine (planeReader tables plane vector keyword) need
        (labelTests source ++ (left ++ right)))).Perm ((scanned tables plane source).filter
      (keeps machine (planeReader tables plane vector keyword) need (left ++ pred :: right))) := by
  have listed : (scanned tables plane source).Nodup := by
    cases source with
    | scanAll => exact nodup_scanAll
    | scanLabel label => exact nodup_scanLabel
    | seekIds | seekKeys | vectorTopK | keywordTopK => cases scan
  refine (List.perm_ext_iff_of_nodup ((nodup_seek sound.exact once).filter _)
    (listed.filter _)).mpr fun id => ?_
  have inScan := @mem_scanned machine _ plane _ _ vector keyword need id sound _ scan
  have inSeek := @mem_seek keys machine _ plane _ _ vector keyword need id sound _ pins
  rw [List.mem_filter, List.mem_filter, inScan, inSeek, List.append_cons left]
  simp only [keeps_append, Bool.and_eq_true]
  tauto

end Rows

/-! ### The two plans -/

/-- The conjuncts at a slot are among those of `WHERE`. -/
theorem pushDownWhere_mem {whereClause : Option PExpr} {slots : ℕ} {slotFilters : List (List PExpr)}
    (pushed : pushDownWhere whereClause varSlot slots = .ok slotFilters) :
    ∀ filters ∈ slotFilters, ∀ conj ∈ filters, conj ∈ whereClause.elim [] splitAnd := by
  unfold pushDownWhere at pushed
  generalize whereClause.elim [] splitAnd = conjs at pushed ⊢
  have start : ∀ filters ∈ List.replicate slots [], ∀ conj ∈ filters, conj ∈ conjs := by
    intro filters member
    rw [(List.mem_replicate.mp member).2]
    exact nofun
  have within : conjs ⊆ conjs := List.Subset.refl _
  revert start pushed
  generalize List.replicate slots ([] : List PExpr) = before
  suffices ∀ some ⊆ conjs, ∀ before : List (List PExpr), some.foldlM (fun filters conj => do
      let slot ← conjunctSlot varSlot slots conj
      return filters.modify slot (· ++ [conj])) before = .ok slotFilters →
      (∀ filters ∈ before, ∀ conj ∈ filters, conj ∈ conjs) →
        ∀ filters ∈ slotFilters, ∀ conj ∈ filters, conj ∈ conjs from this conjs within before
  intro some inside before
  induction some generalizing before with
  | nil =>
    intro pushed start
    obtain rfl := Except.ok.inj pushed
    exact start
  | cons conj some ih =>
    intro pushed start
    obtain ⟨here, inside⟩ := List.cons_subset.mp inside
    rw [List.foldlM_cons] at pushed
    obtain ⟨next, one, pushed⟩ := bind_eq_ok.mp pushed
    obtain ⟨slot, -, same⟩ := bind_eq_ok.mp one
    obtain rfl := Except.ok.inj same
    refine ih inside _ pushed fun filters member other among => ?_
    obtain ⟨i, bound, rfl⟩ := List.mem_iff_getElem.mp member
    rw [List.getElem_modify] at among
    have old := start _ (List.getElem_mem (List.length_modify .. ▸ bound))
    split at among
    · rcases List.mem_append.mp among with among | among
      · exact old other among
      · exact List.mem_singleton.mp among ▸ here
    · exact old other among

/-- Only a refused value stops a rewrite. -/
theorem keySeekRewrite_error {source : Source} {slot0 : List PExpr}
    (stopped : keySeekRewrite params debug source slot0 first = .error message) :
    ∃ conj ∈ slot0, ∃ values, pinnedValues first.var conj = some values ∧
      ∃ name, .param name ∈ values ∧ ∀ key, resolveParam params name ≠ .ok (.str key) := by
  unfold keySeekRewrite at stopped
  split_ifs at stopped
  dsimp only at stopped
  cases pinned : slot0.findIdx? fun conj => (keySeekKeys params debug first.var conj).isSome with
  | none =>
    rw [pinned] at stopped
    cases source <;> cases stopped
  | some pos =>
    obtain ⟨conj, result, held, seeks, read⟩ := seek_pinned pinned
    cases result with
    | ok keys =>
      rw [pinned] at stopped
      simp only [read] at stopped
      cases source <;> cases stopped
    | error refusal =>
      obtain ⟨values, written, spelled⟩ := Option.bind_eq_some_iff.mp seeks
      exact ⟨conj, List.mem_of_getElem? held, values, written, asKeys_error spelled⟩

theorem exprs_filters : (preds.map Step.filter).flatMap Step.exprs = preds := by
  rw [List.flatMap_map]
  exact List.flatMap_singleton' preds

/-- The conjunct of a seek and the label's test read no binding. -/
theorem bindingNeed_seek {pred : Expr} (pins : Pins keys pred) {source source' : Source}
    {left right : List Expr} {rest : List Step} {project : Option Projection} :
    LogicalPlan.bindingNeed ⟨source',
        (labelTests source ++ (left ++ right)).map .filter ++ rest, project⟩ =
      LogicalPlan.bindingNeed ⟨source, (left ++ pred :: right).map .filter ++ rest, project⟩ := by
  have label : ∀ need : BindingNeed, (labelTests source).foldl BindingNeed.add need = need := by
    cases source <;> exact fun need => rfl
  simp only [LogicalPlan.bindingNeed, List.flatMap_append, exprs_filters, List.foldl_append,
    List.foldl_cons, label, pins.add]

/-- A list around one of its elements. -/
theorem split_at {conjs : List PExpr} {pos : ℕ} (found : conjs[pos]? = some conj) :
    conjs = conjs.take pos ++ conj :: conjs.drop (pos + 1) ∧
      conjs.eraseIdx pos = conjs.take pos ++ conjs.drop (pos + 1) := by
  obtain ⟨inside, rfl⟩ := List.getElem?_eq_some_iff.mp found
  refine ⟨?_, List.eraseIdx_eq_take_drop_succ _ _⟩
  rw [← List.drop_eq_getElem_cons inside, List.take_append_drop]

section Statement

variable {host : Host} {machine : Machine} {db : Database} {plane : PlaneId}
  {nodes edges : Set ℕ} {tables : Tables}
  {vector : VectorSearch}
  {keyword : KeywordSearch}

theorem sourceRows_scanned {source : Source} (scan : scans source = true) :
    sourceRows machine (planeReader tables plane vector keyword) source =
      .ok ((scanned tables plane source).map .start) := by
  cases source with
  | scanAll | scanLabel => rfl
  | seekIds | seekKeys | vectorTopK | keywordTopK => cases scan

/-- The rows of a source behind filters. -/
theorem rowsAfter_filters (sound : Sound nodes edges tables) {need : BindingNeed} {source : Source}
    {ids : List NodeId} (here : ∀ id ∈ ids, (plane, id) ∈ tables.nodes)
    (read : sourceRows machine (planeReader tables plane vector keyword) source =
      .ok (ids.map .start)) :
    rowsAfter machine (planeReader tables plane vector keyword) need source (preds.map .filter) =
      .ok ((ids.filter (keeps machine (planeReader tables plane vector keyword) need preds)).map
        fun id => .ok (.start id)) := by
  rw [rowsAfter, read, ← filters_start sound here]
  exact congrArg (List.foldlM _ · _) List.map_map

/-- **A seek of different keys is the scan in another order.** -/
theorem seek_reordered (sound : Sound nodes edges tables) {source : Source}
    (scan : scans source = true) {pred : Expr} (pins : Pins keys pred) (once : keys.Nodup)
    {left right : List Expr} {rest : List Step} {project : Option Projection} :
    Reordered machine (planeReader tables plane vector keyword)
      ⟨.seekKeys keys, (labelTests source ++ (left ++ right)).map .filter ++ rest, project⟩
      ⟨source, (left ++ pred :: right).map .filter ++ rest, project⟩ := by
  have need := @bindingNeed_seek keys pred pins source (.seekKeys keys) left right rest project
  refine ⟨rfl, need, _, _, rest, rfl, rfl, ?_⟩
  have sought : ∀ id ∈ keys.filterMap (nodeIdByExternalKey tables plane), (plane, id) ∈
      tables.nodes := by
    intro id member
    obtain ⟨key, -, found⟩ := List.mem_filterMap.mp member
    exact nodeIdByExternalKey_live sound.exact found
  have live : ∀ id ∈ scanned tables plane source, (plane, id) ∈ tables.nodes := fun id member =>
    ((@mem_scanned machine _ plane _ _ vector keyword {} id sound _ scan).mp member).1
  rw [need, rowsAfter_filters sound sought (by rw [sourceRows, seekKeys_eq]; rfl),
    rowsAfter_filters sound live (sourceRows_scanned scan)]
  exact .ok ((seek_perm sound scan pins once).map _)

/-- **The key seek against the scan.** Over every reached database a query that scans compiles with
the seek as well, or a parameter in a conjunct that pins the source's key holds no string; and a
query that compiles with the seek compiles as a scan, and where no key is listed twice, the two
plans end in the same way and before that have the same rows in some order. What does not depend on
the order of its rows has the same rows in the end, or the same table. -/
theorem compile_seek {searches : Tables → PlaneId → Searches}
    (reached : Reached host machine searches db) :
    (∀ scan, compileScan embedder params q = .ok scan →
      (∃ seek, compile embedder params debug q = .ok seek) ∨
        ∃ conj ∈ q.whereClause.elim [] splitAnd, ∃ values,
          pinnedValues q.source.first.var conj = some values ∧
            ∃ name, .param name ∈ values ∧ ∀ key, resolveParam params name ≠ .ok (.str key)) ∧
    ∀ seek, compile embedder params debug q = .ok seek →
      ∃ scan, compileScan embedder params q = .ok scan ∧
        ((∀ keys, seek.source = .seekKeys keys → keys.Nodup) →
          let reader := planeReader db.tables plane vector keyword
          Reordered machine reader seek scan ∧
            (seek.OrderFree →
              Alike List.Perm (execute machine reader seek >>= drain)
                (execute machine reader scan >>= drain) ∧
              Alike Table.Same (executeTable machine reader seek)
                (executeTable machine reader scan))) := by
  have sound := reached.sound.world.tables
  constructor
  · intro scan compiled
    obtain ⟨source, varSlot, slotFilters, _, _, preds, hops, tail, project, sourced, bound, pushed,
      same, read, hopped, returned, rfl⟩ := compileWith_ok.mp compiled
    obtain ⟨rfl, rfl⟩ := Prod.mk.inj (Except.ok.inj same)
    have placed := fun var => @bindVariables_first varSlot q.source.first _ bound var
    cases rewritten : keySeekRewrite params debug source (slotFilters.headD []) q.source.first with
    | error message =>
      obtain ⟨conj, member, values, pinned, refused⟩ := keySeekRewrite_error rewritten
      refine .inr ⟨conj, ?_, values, pinned, refused⟩
      cases slotFilters with
      | nil => cases member
      | cons filters others => exact pushDownWhere_mem pushed filters List.mem_cons_self conj member
    | ok result =>
      obtain ⟨source', slot0⟩ := result
      refine .inl ?_
      obtain ⟨preds', read'⟩ : ∃ preds',
          slot0.mapM (compileExpr embedder params ⟨varSlot, 0⟩) = .ok preds' := by
        rcases keySeekRewrite_ok rewritten with ⟨-, rfl⟩ | ⟨pos, conj, keys, -, found, -, -, rfl⟩
        · exact ⟨preds, read⟩
        · obtain ⟨whole, rest⟩ := split_at found
          rw [whole] at read
          obtain ⟨left, others, readLeft, read, -⟩ := mapM_append_ok.mp read
          obtain ⟨pred, right, -, readRight, -⟩ := mapM_cons_ok.mp read
          exact ⟨_, mapM_append_ok.mpr ⟨_, _, labelConjunct_compiles placed, rest ▸
            mapM_append_ok.mpr ⟨left, right, readLeft, readRight, rfl⟩, rfl⟩⟩
      exact ⟨_, compileWith_ok.mpr ⟨source, varSlot, slotFilters, source', slot0, preds', hops, tail,
        project, sourced, bound, pushed, rewritten, read', hopped, returned, rfl⟩⟩
  · intro seek compiled
    obtain ⟨source, varSlot, slotFilters, source', slot0, preds, hops, tail, project, sourced, bound,
      pushed, rewritten, read, hopped, returned, rfl⟩ := compileWith_ok.mp compiled
    have placed := fun var => @bindVariables_first varSlot q.source.first _ bound var
    rcases keySeekRewrite_ok rewritten with ⟨rfl, rfl⟩ | ⟨pos, conj, keys, scan, found,
      seeks, rfl, rfl⟩
    · refine ⟨_, compileWith_ok.mpr ⟨_, varSlot, slotFilters, _, _, preds, hops, tail,
        project, sourced,
        bound, pushed, rfl, read, hopped, returned, rfl⟩, fun _ => ?_⟩
      exact ⟨.refl, fun free => ⟨Reordered.refl.drained free, Reordered.refl.executeTable free⟩⟩
    · obtain ⟨whole, rest⟩ := split_at found
      obtain ⟨pred, compiledPred, pins⟩ := @pinned_compiles embedder _ _ _ _ _ _ placed seeks
      rw [rest] at read
      obtain ⟨labels, others, readLabels, readOthers, rfl⟩ := mapM_append_ok.mp read
      obtain ⟨left, right, readLeft, readRight, rfl⟩ := mapM_append_ok.mp readOthers
      obtain rfl := Except.ok.inj (readLabels.symm.trans (labelConjunct_compiles placed))
      have scans : (slotFilters.headD []).mapM (compileExpr embedder params ⟨varSlot, 0⟩) =
          .ok (left ++ pred :: right) := by
        rw [whole]
        exact mapM_append_ok.mpr ⟨left, pred :: right, readLeft,
          mapM_cons_ok.mpr ⟨pred, right, compiledPred, readRight, rfl⟩, rfl⟩
      refine ⟨_, compileWith_ok.mpr ⟨source, varSlot, slotFilters, source, _, _, hops, tail, project,
        sourced, bound, pushed, rfl, scans, hopped, returned, rfl⟩, fun once => ?_⟩
      have reordered := @seek_reordered keys machine plane _ _ _ vector keyword sound source scan pred
        pins (once keys rfl) left right (hops ++ tail) project
      simp only [← List.append_assoc] at reordered ⊢
      exact ⟨reordered, fun free => ⟨reordered.drained free, reordered.executeTable free⟩⟩

end Statement

/-! ### Two keyed nodes -/

/-- Two nodes of one label, with keys. -/
def keyedStore : Database :=
  (Database.new plainHost 0).after plainHost 1
    (.write 0 [.createNodeWithKey "a" ["A"] ∅, .createNodeWithKey "b" ["A"] ∅] true)

/-- `MATCH (n:A) WHERE key(n) IN [..] RETURN n`. -/
def keyIn (values : List PExpr) : Query where
  source := ⟨.match, ⟨some "n", some "A"⟩, []⟩
  beams := []
  whereClause := some (.in (.externalKey "n") values)
  ret := ⟨false, [.var "n"]⟩
  orderBy := []
  skip := none
  limit := none

/-- The nodes that a plan returns. -/
def nodesOf (tables : Tables) (plan : Except String LogicalPlan) : Option (List NodeId) := do
  let plan ← plan.toOption
  let rows ← (execute .scalar (plainReader tables 0) plan >>= drain).toOption
  return rows.map Row.head

theorem compile_seek_of_two : ∃ seek scan,
    compile none ∅ (fun _ => "") (keyIn [.lit (.str "b"), .lit (.str "a")]) = .ok seek ∧
      compileScan none ∅ (keyIn [.lit (.str "b"), .lit (.str "a")]) = .ok scan ∧
      Alike List.Perm (execute .scalar (plainReader keyedStore.tables 0) seek >>= drain)
        (execute .scalar (plainReader keyedStore.tables 0) scan >>= drain) := by
  have reached : Reached plainHost .scalar noSearches keyedStore := .call (.new 0) 1 _
  have compiled : compile none ∅ (fun _ => "") (keyIn [.lit (.str "b"), .lit (.str "a")]) =
      .ok ⟨.seekKeys ["b", "a"], [.filter (.hasLabel "A")], none⟩ := rfl
  obtain ⟨scan, scans, same⟩ := (compile_seek reached).2 _ compiled
  refine ⟨_, scan, compiled, scans, ((same ?_).2 ?_).1⟩
  · intro keys listed
    cases listed
    decide
  · exact ⟨List.forall_mem_singleton.mpr trivial, nofun, rfl, rfl, rfl⟩

/-- A key listed twice has its node twice, a parameter that is null is refused, and of keys listed
against the order of the nodes a limit keeps another node. -/
theorem seek_differs :
    nodesOf keyedStore.tables (compile none ∅
      (fun _ => "") (keyIn [.lit (.str "a"), .lit (.str "a")])) =
        some [1, 1] ∧
      nodesOf keyedStore.tables (compileScan none ∅ (keyIn [.lit (.str "a"), .lit (.str "a")])) =
        some [1] ∧
      (compile none ((∅ : Params).insert "k" .null) (fun _ => "") (keyIn [.param "k"])).isOk = false ∧
      nodesOf keyedStore.tables
        (compileScan none ((∅ : Params).insert "k" .null) (keyIn [.param "k"])) = some [] ∧
      nodesOf keyedStore.tables (compile none ∅ (fun _ => "")
        { keyIn [.lit (.str "b"), .lit (.str "a")] with limit := some 1 }) = some [2] ∧
      nodesOf keyedStore.tables (compileScan none ∅
        { keyIn [.lit (.str "b"), .lit (.str "a")] with limit := some 1 }) = some [1] := by
  with_unfolding_all decide

end DrStrange.Parser
