/-
**A vectorized plane.**

The text of a node does not depend on what a pass gives it, if what the node keeps under the name of
the vector is no text (`rowText_given`). So a node that has been embedded is settled, and a plane
that a pass has been over in part, whether it failed or not, is `Partway` to the same plane as
before: a pass that returns has gone all the way (`Through`), and two ways through end alike
(`Through.unique`).
-/

import DrStrange.Lib.TreeMap
import DrStrange.Llm.Vectorize

namespace DrStrange.Llm

open Std (ExtTreeMap)
open DrStrange.Compute (Machine)
open DrStrange.Graph (PropDesc PropValue Properties Tables NodeId PlaneId NodeRow Metric)
open Lib

variable {machine : Machine} {sha256 : List UInt8 → List UInt8} {vector : String → List UInt32}
  {key : String} {labels : List String} {props : Properties} {text hash : String} {v : List UInt32}
  {before middle after : Tables} {plane : PlaneId} {metric : Metric} {row : NodeRow}

/-! ### Texts -/

/-- How a property of a node adds to its text. -/
def contentLine (machine : Machine) (props : Properties) : String → PropDesc → Option String :=
  if "_generated_by" ∈ props then factLine else propLine machine

theorem embeddableText_eq : embeddableText machine key labels props =
    (if labels.isEmpty then key else key ++ " (" ++ ", ".intercalate labels ++ ")") ++
      String.join ((props.filterMap (contentLine machine props)).toList.map Prod.snd) := by
  unfold embeddableText contentLine
  by_cases generated : "_generated_by" ∈ props
  · rw [if_pos generated, if_pos generated]
    rfl
  · rw [if_neg generated, if_neg generated]
    rfl

/-- A node keeps no text under the name of the vector. -/
def Silent (machine : Machine) (props : Properties) : Prop :=
  ∀ desc, props["embedding"]? = some desc → contentLine machine props "embedding" desc = none

/-- What a node has once it is embedded. -/
def given (vector : List UInt32) (hash : String) (props : Properties) : Properties :=
  (carried vector hash).foldl (fun props entry => props.insert entry.1 entry.2) props

theorem given_eq : given v hash props =
    (props.insert "embedding" (.mk (some "embedding of this node's text") (.vector v))).insert
      "_embedded_from"
      (.mk (some "hash of the text the embedding was built from") (.str hash)) := rfl

theorem contentLine_given : contentLine machine (given v hash props) = contentLine machine props := by
  unfold contentLine
  have same : "_generated_by" ∈ given v hash props ↔ "_generated_by" ∈ props := by
    rw [given_eq, ExtTreeMap.mem_insert, ExtTreeMap.mem_insert]
    simp
  simp only [same]

theorem contentLine_hidden {name : String} {desc : PropDesc} (hidden : name.toList.head? = some '_') :
    contentLine machine props name desc = none := by
  unfold contentLine
  split_ifs
  · exact if_pos hidden
  · exact if_pos hidden

theorem contentLine_vector {desc : Option String} :
    contentLine machine props "embedding" (.mk desc (.vector v)) = none := by
  unfold contentLine
  split_ifs
  · rfl
  · rfl

/-- **The text of a node** is the same with its vector and the hash it is made from. -/
theorem embeddableText_given (silent : Silent machine props) :
    embeddableText machine key labels (given v hash props) =
    embeddableText machine key labels props := by
  rw [embeddableText_eq, embeddableText_eq, contentLine_given, given_eq,
    ExtTreeMap.filterMap_insert (contentLine_hidden (by decide)) fun _ _ =>
      contentLine_hidden (by decide),
    ExtTreeMap.filterMap_insert contentLine_vector silent]

theorem getElem?_given_embedding : (given v hash props)["embedding"]? =
    some (.mk (some "embedding of this node's text") (.vector v)) := by
  rw [given_eq, ExtTreeMap.getElem?_insert, if_neg (by decide), ExtTreeMap.getElem?_insert_self]

theorem getElem?_given_hash : (given v hash props)["_embedded_from"]? =
    some (.mk (some "hash of the text the embedding was built from") (.str hash)) := by
  rw [given_eq, ExtTreeMap.getElem?_insert_self]

theorem Silent.given (v : List UInt32) (hash : String) (props : Properties) :
    Silent machine (given v hash props) := by
  intro desc found
  rw [getElem?_given_embedding] at found
  obtain rfl := Option.some.inj found
  exact contentLine_vector

theorem upToDate_given : upToDate (given v hash props) hash = true := by
  unfold upToDate
  rw [getElem?_given_embedding, getElem?_given_hash]
  simp [Graph.PropDesc.value]

/-- The value of a property. -/
def valueOf (props : Properties) (name : String) : Option PropValue :=
  (props[name]?).map PropDesc.value

/-- What a node carries that is up to date. -/
theorem upToDate_iff : upToDate props hash = true ↔
    valueOf props "_embedded_from" = some (.str hash) ∧
    ∃ v, valueOf props "embedding" = some (.vector v) := by
  unfold upToDate valueOf
  rw [Bool.and_eq_true]
  refine and_congr ?_ ?_
  · split
    · rename_i h found
      rw [found]
      simp
    · rename_i other
      exact iff_of_false Bool.false_ne_true fun found => other _ found
  · split
    · rename_i v found
      exact iff_of_true rfl ⟨v, found⟩
    · rename_i other
      exact iff_of_false Bool.false_ne_true fun ⟨v, found⟩ => other v found

/-! ### Rows -/

/-- The text to embed, cut, unless it is blank. -/
def contentText (machine : Machine) (key : String) (labels : List String) (props : Properties) :
    Option String :=
  let text := embeddableText machine key labels props
  if (trim text.toList).isEmpty then none else some (capText text)

/-- The text of a stored node whose labels can be named. -/
def rowText (machine : Machine) (tables : Tables) (row : NodeRow) : Option String :=
  match row.labels.mapM (Graph.resolveLabel tables) with
  | .error _ => none
  | .ok labels => contentText machine (row.externalKey.getD "") labels row.props

/-- The label that a node with a text is indexed under. -/
def primary (machine : Machine) (tables : Tables) (row : NodeRow) : Option String :=
  match row.labels.mapM (Graph.resolveLabel tables) with
  | .error _ => none
  | .ok labels => (contentText machine (row.externalKey.getD "") labels row.props).bind fun _ =>
    labels.head?

/-- What a plane becomes by a pass, beside what is in it. -/
structure Recipe where
  machine : Machine
  sha256 : List UInt8 → List UInt8
  /-- The vector that the embedder makes of a text. -/
  vector : String → List UInt32
  plane : PlaneId
  metric : Metric

variable {recipe : Recipe} {id : NodeId}

/-- What a pass makes of a row. -/
def Recipe.embedded (recipe : Recipe) (tables : Tables) (row : NodeRow) : NodeRow :=
  match rowText recipe.machine tables row with
  | none => row
  | some text =>
    if upToDate row.props (textHash recipe.sha256 text) then row
    else { row with props := given (recipe.vector text) (textHash recipe.sha256 text) row.props }

/-- A row that a pass leaves as it is. -/
def Recipe.Settled (recipe : Recipe) (tables : Tables) (row : NodeRow) : Prop :=
  ∀ text, rowText recipe.machine tables row = some text →
    upToDate row.props (textHash recipe.sha256 text) = true

theorem rowText_given (silent : Silent machine row.props) :
    rowText machine before { row with props := given v hash row.props } =
    rowText machine before row := by
  unfold rowText contentText
  simp only [embeddableText_given silent]

theorem primary_given (silent : Silent machine row.props) :
    primary machine before { row with props := given v hash row.props } =
    primary machine before row := by
  unfold primary contentText
  simp only [embeddableText_given silent]

theorem Recipe.Settled.embedded (settled : recipe.Settled before row) :
    recipe.embedded before row = row := by
  unfold Recipe.embedded
  split
  · rfl
  · rename_i text found
    rw [if_pos (settled text found)]

/-- A row is left as it is, or it is given the vector of its text. -/
theorem Recipe.embedded_cases (recipe : Recipe) (tables : Tables) (row : NodeRow) :
    recipe.Settled tables row ∧ recipe.embedded tables row = row ∨
      ∃ text, rowText recipe.machine tables row = some text ∧
        upToDate row.props (textHash recipe.sha256 text) = false ∧ recipe.embedded tables row =
          { row with props := given (recipe.vector text) (textHash
            recipe.sha256 text) row.props } := by
  by_cases settled : recipe.Settled tables row
  · exact .inl ⟨settled, settled.embedded⟩
  · unfold Recipe.Settled at settled
    push Not at settled
    obtain ⟨text, found, stale⟩ := settled
    rw [ne_eq, Bool.not_eq_true] at stale
    refine .inr ⟨text, found, stale, ?_⟩
    unfold Recipe.embedded
    rw [found]
    dsimp only
    rw [stale]
    rfl

theorem Recipe.settled_embedded (silent : Silent recipe.machine row.props) :
    recipe.Settled before (recipe.embedded before row) := by
  obtain ⟨settled, same⟩ | ⟨text, found, -, same⟩ := recipe.embedded_cases before row
  · rwa [same]
  · rw [same]
    intro text' found'
    rw [rowText_given silent, found] at found'
    obtain rfl := Option.some.inj found'
    exact upToDate_given

theorem Recipe.silent_embedded (silent : Silent recipe.machine row.props) :
    Silent recipe.machine (recipe.embedded before row).props := by
  obtain ⟨-, same⟩ | ⟨text, -, -, same⟩ := recipe.embedded_cases before row
  · rwa [same]
  · rw [same]
    exact .given _ _ _

theorem Recipe.rowText_embedded (silent : Silent recipe.machine row.props) :
    rowText recipe.machine before (recipe.embedded before row) =
    rowText recipe.machine before row := by
  obtain ⟨-, same⟩ | ⟨text, -, -, same⟩ := recipe.embedded_cases before row
  · rw [same]
  · rw [same, rowText_given silent]

theorem Recipe.primary_embedded (silent : Silent recipe.machine row.props) :
    primary recipe.machine before (recipe.embedded before row) =
    primary recipe.machine before row := by
  obtain ⟨-, same⟩ | ⟨text, -, -, same⟩ := recipe.embedded_cases before row
  · rw [same]
  · rw [same, primary_given silent]

/-! ### Planes on the way -/

/-- No node of the plane keeps text under the name of the vector. -/
def Recipe.Quiet (recipe : Recipe) (tables : Tables) : Prop :=
  ∀ (id : NodeId) (row : NodeRow), tables.nodes[(recipe.plane, id)]? = some row →
    Silent recipe.machine row.props

/-- A label that carries embeddings. -/
def Recipe.Due (recipe : Recipe) (tables : Tables) (label : String) : Prop :=
  ∃ (id : NodeId) (row : NodeRow), tables.nodes[(recipe.plane, id)]? = some row ∧
    primary recipe.machine tables row = some label

def Recipe.indexKey (recipe : Recipe) (label : String) : Graph.IndexRowKey :=
  Graph.indexRowKey recipe.plane label "embedding"

/-- Nothing but nodes, declarations of indexes and the stamp of the last commit differs. -/
def Beside (before after : Tables) : Prop :=
  after = { before with
    nodes := after.nodes, vectorIndexes := after.vectorIndexes,
    commitSeq := after.commitSeq, commitTime := after.commitTime }

/-- A plane that a pass has been over in part. -/
structure Recipe.Partway (recipe : Recipe) (before after : Tables) : Prop where
  beside : Beside before after
  rows : ∀ key : Graph.NodeKey, after.nodes[key]? = before.nodes[key]? ∨ ∃ row, key.1 = recipe.plane ∧
    before.nodes[key]? = some row ∧ after.nodes[key]? = some (recipe.embedded before row)
  indexes : ∀ key : Graph.IndexRowKey, after.vectorIndexes[key]? = before.vectorIndexes[key]? ∨
    ∃ label, recipe.Due before label ∧ key = recipe.indexKey label ∧
    after.vectorIndexes[key]? = some recipe.metric

/-- A plane that a pass has gone through. -/
structure Recipe.Through (recipe : Recipe) (before after : Tables) : Prop where
  beside : Beside before after
  rows : ∀ key : Graph.NodeKey, after.nodes[key]? =
    (before.nodes[key]?).map fun row => if key.1 =
    recipe.plane then recipe.embedded before row else row
  declared : ∀ label, recipe.Due before label →
    after.vectorIndexes[recipe.indexKey label]? = some recipe.metric
  undeclared : ∀ key : Graph.IndexRowKey, (∀ label, recipe.Due before label →
    key ≠ recipe.indexKey label) →
    after.vectorIndexes[key]? = before.vectorIndexes[key]?

theorem Beside.resolveLabel (beside : Beside before after) :
    Graph.resolveLabel after = Graph.resolveLabel before := by
  funext id
  unfold Graph.resolveLabel
  rw [beside]

theorem Beside.rowText (beside : Beside before after) :
    rowText machine after row = rowText machine before row := by
  unfold Llm.rowText
  rw [beside.resolveLabel]

theorem Beside.primary (beside : Beside before after) :
    primary machine after row = primary machine before row := by
  unfold Llm.primary
  rw [beside.resolveLabel]

theorem Beside.embedded (beside : Beside before after) :
    recipe.embedded after row = recipe.embedded before row := by
  unfold Recipe.embedded
  rw [beside.rowText]

theorem Beside.settled (beside : Beside before after) :
    recipe.Settled after row ↔ recipe.Settled before row := by
  unfold Recipe.Settled
  rw [beside.rowText]

theorem Beside.trans (first : Beside before middle) (second : Beside middle after) :
    Beside before after := by
  unfold Beside at *
  rw [second, first]

theorem Recipe.Partway.refl : recipe.Partway before before :=
  ⟨rfl, fun _ => .inl rfl, fun _ => .inl rfl⟩

/-- A row on the way is the one there was or the one that it becomes. -/
theorem Recipe.Partway.stored (part : recipe.Partway before after)
    (found : after.nodes[(recipe.plane, id)]? = some row) :
    ∃ old, before.nodes[(recipe.plane, id)]? = some old ∧
    (row = old ∨ row = recipe.embedded before old) := by
  obtain same | ⟨old, -, here, new⟩ := part.rows (recipe.plane, id)
  · exact ⟨row, same.symm.trans found, .inl rfl⟩
  · exact ⟨old, here, .inr (Option.some.inj (found.symm.trans new))⟩

/-- What a node keeps beside what a pass gives it is the same on the way. -/
theorem Recipe.Partway.row_same (part : recipe.Partway before after) (quiet : recipe.Quiet before)
    (found : after.nodes[(recipe.plane, id)]? = some row) :
    ∃ old, before.nodes[(recipe.plane, id)]? = some old ∧
      Silent recipe.machine row.props ∧ primary recipe.machine after row = primary recipe.machine
        before old ∧
      recipe.embedded after row = recipe.embedded before old := by
  obtain ⟨old, here, rfl | rfl⟩ := part.stored found
  · exact ⟨row, here, quiet id row here, part.beside.primary, part.beside.embedded⟩
  · have silent := quiet id old here
    refine ⟨old, here, Recipe.silent_embedded silent, ?_, ?_⟩
    · rw [part.beside.primary, Recipe.primary_embedded silent]
    · rw [part.beside.embedded, (Recipe.settled_embedded silent).embedded]

theorem Recipe.Partway.quiet (part : recipe.Partway before after) (quiet : recipe.Quiet before) :
    recipe.Quiet after := by
  intro id row found
  obtain ⟨-, -, silent, -⟩ := part.row_same quiet found
  exact silent

/-- The rows of a plane on the way are those of the plane before. -/
theorem Recipe.Partway.present (part : recipe.Partway before after) {key : Graph.NodeKey}
    {old : NodeRow}
    (here : before.nodes[key]? = some old) : ∃ row, after.nodes[key]? = some row := by
  obtain same | ⟨row, -, -, new⟩ := part.rows key
  · exact ⟨old, same.trans here⟩
  · exact ⟨_, new⟩

theorem Recipe.Partway.due (part : recipe.Partway before after) (quiet : recipe.Quiet before)
    {label : String} :
    recipe.Due after label ↔ recipe.Due before label := by
  constructor
  · rintro ⟨id, row, found, carries⟩
    obtain ⟨old, here, -, same, -⟩ := part.row_same quiet found
    exact ⟨id, old, here, same ▸ carries⟩
  · rintro ⟨id, old, here, carries⟩
    obtain ⟨row, found⟩ := part.present here
    obtain ⟨old', here', -, same, -⟩ := part.row_same quiet found
    obtain rfl := Option.some.inj (here.symm.trans here')
    exact ⟨id, row, found, same.trans carries⟩

/-- A pass over a plane on the way goes on from the plane before. -/
theorem Recipe.Partway.trans (first : recipe.Partway before middle) (quiet : recipe.Quiet before)
    (second : recipe.Partway middle after) : recipe.Partway before after where
  beside := first.beside.trans second.beside
  rows := by
    rintro ⟨at_, id⟩
    obtain same | ⟨row, own, found, new⟩ := second.rows (at_, id)
    · rw [same]
      exact first.rows (at_, id)
    · obtain rfl : at_ = recipe.plane := own
      obtain ⟨old, here, -, -, alike⟩ := first.row_same quiet found
      exact .inr ⟨old, rfl, here, by rw [new, alike]⟩
  indexes := by
    intro key
    obtain same | ⟨label, due, rfl, new⟩ := second.indexes key
    · rw [same]
      exact first.indexes key
    · exact .inr ⟨label, (first.due quiet).mp due, rfl, new⟩

/-- **Resumed.** A pass that goes through a plane on the way has gone through the plane before. -/
theorem Recipe.Partway.through (first : recipe.Partway before middle) (quiet : recipe.Quiet before)
    (second : recipe.Through middle after) : recipe.Through before after where
  beside := first.beside.trans second.beside
  rows := by
    rintro ⟨at_, id⟩
    rw [second.rows]
    by_cases own : at_ = recipe.plane
    · subst own
      cases found : middle.nodes[(recipe.plane, id)]? with
      | none =>
        have absent : before.nodes[(recipe.plane, id)]? = none := by
          rw [Option.eq_none_iff_forall_ne_some]
          intro old here
          obtain ⟨row, there⟩ := first.present here
          exact nomatch found.symm.trans there
        rw [absent]
        rfl
      | some row =>
        obtain ⟨old, here, -, -, alike⟩ := first.row_same quiet found
        rw [here, Option.map_some, Option.map_some, if_pos rfl, if_pos rfl, alike]
    · obtain same | ⟨-, own', -⟩ := first.rows (at_, id)
      · rw [same]
        cases before.nodes[(at_, id)]? with
        | none => rfl
        | some row => rw [Option.map_some, Option.map_some, if_neg own, if_neg own]
      · exact absurd own' own
  declared label due := second.declared label ((first.due quiet).mpr due)
  undeclared key other := by
    rw [second.undeclared key fun label due => other label ((first.due quiet).mp due)]
    obtain same | ⟨label, due, own, -⟩ := first.indexes key
    · exact same
    · exact absurd own (other label due)

/-- A plane that a pass has gone through is settled. -/
theorem Recipe.Through.settled (through : recipe.Through before after) (quiet : recipe.Quiet before)
    (found : after.nodes[(recipe.plane, id)]? = some row) : recipe.Settled after row := by
  rw [through.rows] at found
  obtain ⟨old, here, same⟩ := Option.map_eq_some_iff.mp found
  rw [if_pos rfl] at same
  rw [through.beside.settled, ← same]
  exact Recipe.settled_embedded (quiet id old here)

/-- The tables without the stamp of the last commit. -/
def unstamped (tables : Tables) : Tables := { tables with commitSeq := none, commitTime := none }

/-- **One end.** All passes that go through a plane end alike. -/
theorem Recipe.Through.unique {after' : Tables} (one : recipe.Through before after)
    (two : recipe.Through before after') : unstamped after = unstamped after' := by
  have nodes : after.nodes = after'.nodes :=
    ExtTreeMap.ext_getElem? fun key => by rw [one.rows, two.rows]
  have indexes : after.vectorIndexes = after'.vectorIndexes := by
    refine ExtTreeMap.ext_getElem? fun key => ?_
    by_cases own : ∃ label, recipe.Due before label ∧ key = recipe.indexKey label
    · obtain ⟨label, due, rfl⟩ := own
      rw [one.declared label due, two.declared label due]
    · push Not at own
      rw [one.undeclared key own, two.undeclared key own]
  unfold unstamped
  rw [one.beside, two.beside]
  simp only [nodes, indexes]

end DrStrange.Llm
