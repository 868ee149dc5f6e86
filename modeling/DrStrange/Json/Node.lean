/-
**Node records on the JSON wire, whole and lean.**

The lean shape sends a marker in place of a vector property, the text `$vector(n dims, omitted)`, and
`jsonToNode` drops every property whose value reads as such a text. It cannot tell a marker from a
string of the user's that looks like one: a record comes back from both shapes exactly when none of
its properties holds such a string (`jsonToNode_roundTrip_iff`).
-/

import DrStrange.Json.Value
import DrStrange.Graph.Node
import DrStrange.Lib.TreeMap

namespace DrStrange.Json

open Std DrStrange.Graph Lib

/-! ### The marker of an omitted vector -/

/-- `str::parse::<usize>`. -/
def parseUsize (text : List Char) : Option ℕ :=
  let digits := if text.head? = some '+' then text.tail else text
  if digits ≠ [] ∧ digits.all Char.isDigit then
    let value := Nat.ofDigitChars 10 digits 0
    if value < 2 ^ 64 then some value else none
  else none

/-- What stands for a vector that is left out. -/
def vectorMarker (dims : ℕ) : Value := .string s!"$vector({dims} dims, omitted)"

/-- Whether a string is a `vectorMarker`: a vector that was left out, not text. -/
def isVectorMarker (text : String) : Bool :=
  ((List.isPrefixOf? "$vector(".toList text.toList).bind fun rest =>
    (List.isSuffixOf? " dims, omitted)".toList rest).bind parseUsize).isSome

theorem isPrefixOf?_append {α : Type} [DecidableEq α] (front rest : List α) :
    List.isPrefixOf? front (front ++ rest) = some rest := by
  induction front with
  | nil => rfl
  | cons first front ih =>
    rw [List.cons_append, List.isPrefixOf?, if_pos (beq_self_eq_true first), ih]

theorem isSuffixOf?_append {α : Type} [DecidableEq α] (rest back : List α) :
    List.isSuffixOf? back (rest ++ back) = some rest := by
  rw [List.isSuffixOf?, List.reverse_append, isPrefixOf?_append, Option.map_some,
    List.reverse_reverse]

/-- A number reads back from its decimal digits. -/
theorem parseUsize_toDigits {value : ℕ} (small : value < 2 ^ 64) :
    parseUsize (Nat.toDigits 10 value) = some value := by
  have digits : ∀ char ∈ Nat.toDigits 10 value, char.isDigit := fun char member =>
    Nat.isDigit_of_mem_toDigits (by decide) (by decide) member
  have unsigned : (Nat.toDigits 10 value).head? ≠ some '+' := fun plus => by
    have digit := digits '+' (List.mem_of_head? plus)
    revert digit
    decide
  unfold parseUsize
  rw [if_neg unsigned]
  simp only
  rw [if_pos ⟨Nat.toDigits_ne_nil, List.all_eq_true.mpr digits⟩, Nat.ofDigitChars_ten_toDigits,
    if_pos small]

theorem isVectorMarker_marker {dims : ℕ} (small : dims < 2 ^ 64) :
    isVectorMarker s!"$vector({dims} dims, omitted)" := by
  have chars : (s!"$vector({dims} dims, omitted)").toList =
      "$vector(".toList ++ (Nat.toDigits 10 dims ++ " dims, omitted)".toList) := by
    show ("$vector(" ++ dims.repr ++ " dims, omitted)").toList = _
    rw [String.toList_append, String.toList_append, Nat.toList_repr, List.append_assoc]
  unfold isVectorMarker
  rw [chars, isPrefixOf?_append, Option.bind_some, isSuffixOf?_append, Option.bind_some,
    parseUsize_toDigits small]
  rfl

/-! ### From records to JSON -/

/-- Properties as an object, each written by `write`. -/
def propertiesWith (write : PropDesc → Value) (props : Properties) : Value :=
  .object (collect (props.toList.map fun entry => (entry.1, write entry.2)))

/-- The properties, each as it is. -/
def propertiesToJson (props : Properties) : Value := propertiesWith propdescToJson props

/-- The properties with each vector left out. -/
def propertiesToLeanJson (props : Properties) : Value :=
  propertiesWith (fun desc =>
    match desc with
    | .mk _ (.vector entries) => vectorMarker entries.length
    | desc => propdescToJson desc) props

/-- The fields of a record, its properties already written. -/
def nodeFields (node : NodeRecord) (properties : Value) : List (String × Value) :=
  let obj := insertField [] "id" (.number (.posInt node.id))
  let obj := match node.externalKey with
    | some key => insertField obj "external_key" (.string key)
    | none => obj
  let obj := insertField obj "labels" (.array (node.labels.map .string))
  insertField obj "properties" properties

/-- A record with all of its properties. -/
def nodeToJson (node : NodeRecord) : Value :=
  .object (nodeFields node (propertiesToJson node.properties))

/-- `node_to_json_lean`: a record without its vectors. -/
def nodeToLeanJson (node : NodeRecord) : Value :=
  .object (nodeFields node (propertiesToLeanJson node.properties))

/-! ### From JSON to records -/

/-- The properties an object spells. -/
def jsonToProperties : Value → Except Error Properties
  | .object fields => do return .ofList (← jsonToEntries fields) compare
  | _ => invalid "`properties` must be a JSON object"

/-- An entry of `labels`. -/
def labelOfJson (value : Value) : Except Error String :=
  match value.asStr with
  | some label => .ok label
  | none => invalid "a label must be a string"

/-- Whether the value is the text of a marker. -/
def isMarker : PropDesc → Bool
  | .mk _ (.str text) => isVectorMarker text
  | _ => false

/-- The `labels` field, which may be missing. -/
def labelsOfJson : Option Value → Except Error (List String)
  | none | some .null => .ok []
  | some (.array values) => values.mapM labelOfJson
  | some _ => invalid "`labels` must be an array of strings"

/-- The `properties` field, which may be missing. -/
def propertiesOfJson : Option Value → Except Error Properties
  | none | some .null => .ok ∅
  | some props => jsonToProperties props

/-- A record read back from `nodeToJson` or `nodeToLeanJson`. The JSON carries no plane, and a
property that reads as a marker is dropped. -/
def jsonToNode (value : Value) (plane : PlaneId) : Except Error NodeRecord :=
  match value with
  | .object fields =>
    match (get fields "id").bind Value.asU64 with
    | none => invalid "a node needs an integer `id`"
    | some id => do
      let labels ← labelsOfJson (get fields "labels")
      let properties ← propertiesOfJson (get fields "properties")
      return {
        id
        plane
        externalKey := (get fields "external_key").bind Value.asStr
        labels
        properties := properties.filter fun _ desc => !isMarker desc }
  | _ => invalid "a node must be a JSON object"

/-! ### Round trip -/

/-- Every property of the record is proper. -/
def ProperNode (node : NodeRecord) : Prop :=
  ∀ (key : String) (desc : PropDesc), node.properties[key]? = some desc → ProperDesc desc

/-- The properties as a list of entries in key order. -/
theorem ascending_toList (props : Properties) : Ascending props.toList :=
  ExtTreeMap.ordered_keys_toList.imp fun less => compare_lt_iff_lt.mp less

theorem properEntries_iff {entries : List (String × PropDesc)} :
    ProperEntries entries ↔ ∀ entry ∈ entries, ProperDesc entry.2 := by
  induction entries with
  | nil => exact ⟨fun _ _ member => (nomatch member), fun _ => trivial⟩
  | cons entry entries ih =>
    obtain ⟨key, desc⟩ := entry
    rw [ProperEntries, ih, List.forall_mem_cons]

variable {node : NodeRecord} {props : Properties} {holds : PropDesc → Prop} {desc : PropDesc}

theorem ProperNode.entries (proper : ProperNode node) : ProperEntries node.properties.toList :=
  properEntries_iff.mpr fun entry member =>
    proper entry.1 entry.2 (ExtTreeMap.mem_toList_iff_getElem?_eq_some.mp member)

theorem ofList_toList (props : Properties) : ExtTreeMap.ofList props.toList compare = props := by
  refine ExtTreeMap.ext_getElem? fun key => ?_
  cases held : props[key]? with
  | some desc =>
    exact ExtTreeMap.getElem?_ofList_of_mem ReflCmp.compare_self
      (ExtTreeMap.distinct_keys_toList) (ExtTreeMap.mem_toList_iff_getElem?_eq_some.mpr held)
  | none =>
    refine ExtTreeMap.getElem?_ofList_of_contains_eq_false ?_
    rw [ExtTreeMap.map_fst_toList_eq_keys, ExtTreeMap.contains_keys,
      ExtTreeMap.contains_eq_isSome_getElem?, held]
    rfl

theorem jsonToProperties_propertiesToJson (proper : ProperNode node) :
    jsonToProperties (propertiesToJson node.properties) = .ok node.properties := by
  have written : propertiesToJson node.properties =
      .object (entriesToJson node.properties.toList) := by
    rw [propertiesToJson, propertiesWith, ← entriesToJson_eq,
      collect_entriesToJson (ascending_toList _)]
  rw [written, jsonToProperties, jsonToEntries_entriesToJson proper.entries]
  show Except.ok (ExtTreeMap.ofList node.properties.toList compare) = _
  rw [ofList_toList]

theorem labelOfJson_string (labels : List String) :
    (labels.map Value.string).mapM labelOfJson = .ok labels := mapM_map_ok fun _ _ => rfl

theorem get_nodeFields (node : NodeRecord) (properties : Value) (key : String) :
    get (nodeFields node properties) key =
      if "properties" = key then some properties
      else if "labels" = key then some (.array (node.labels.map .string))
      else if "external_key" = key then node.externalKey.map .string
      else if "id" = key then some (.number (.posInt node.id)) else none := by
  unfold nodeFields
  rw [get_insertField, get_insertField]
  cases node.externalKey with
  | none =>
    simp only
    rw [get_insertField]
    by_cases external : "external_key" = key
    · subst external
      rfl
    · rw [if_neg external]
      rfl
  | some text =>
    simp only
    rw [get_insertField, get_insertField]
    rfl

/-- A record written with some properties and read back has those, less the markers. -/
theorem jsonToNode_nodeFields (node : NodeRecord) {fields : List (String × Value)}
    (back : jsonToProperties (.object fields) = .ok props) :
    jsonToNode (.object (nodeFields node (.object fields))) node.plane =
      .ok { node with properties := props.filter fun _ desc => !isMarker desc } := by
  have key : (node.externalKey.map Value.string).bind Value.asStr = node.externalKey := by
    cases node.externalKey <;> rfl
  rw [jsonToNode, get_nodeFields, get_nodeFields, get_nodeFields, get_nodeFields]
  show (do
    let labels ← (node.labels.map Value.string).mapM labelOfJson
    let properties ← jsonToProperties (.object fields)
    return NodeRecord.mk node.id node.plane ((node.externalKey.map Value.string).bind Value.asStr)
      labels (properties.filter fun _ desc => !isMarker desc)) = _
  rw [labelOfJson_string, back, key]
  rfl

/-- **The whole shape reads back as the record less the properties that read as markers.** -/
theorem jsonToNode_nodeToJson (proper : ProperNode node) :
    jsonToNode (nodeToJson node) node.plane =
      .ok { node with properties := node.properties.filter fun _ desc => !isMarker desc } :=
  jsonToNode_nodeFields node (jsonToProperties_propertiesToJson proper)

/-! ### The lean shape -/

/-- What a property reads as after the lean shape: a vector is its marker. -/
def leanDesc : PropDesc → PropDesc
  | .mk _ (.vector entries) => .mk none (.str s!"$vector({entries.length} dims, omitted)")
  | desc => desc

def isVector : PropDesc → Bool
  | .mk _ (.vector _) => true
  | _ => false

/-- The record without its vector-valued properties. -/
def withoutVectors (node : NodeRecord) : NodeRecord :=
  { node with properties := node.properties.filter fun _ desc => !isVector desc }

theorem propertiesToLeanJson_eq (props : Properties) :
    propertiesToLeanJson props = propertiesToJson (props.map fun _ desc => leanDesc desc) := by
  unfold propertiesToJson propertiesToLeanJson propertiesWith
  rw [ExtTreeMap.toList_map, List.map_map]
  congr 3
  funext ⟨key, desc⟩
  obtain ⟨description, value⟩ := desc
  cases value <;> rfl

theorem isMarker_leanDesc (proper : ProperDesc desc) :
    isMarker (leanDesc desc) = (isVector desc || isMarker desc) := by
  obtain ⟨description, value⟩ := desc
  cases value with
  | vector entries =>
    have short : entries.length < 2 ^ 64 := proper.1
    exact isVectorMarker_marker short
  | _ => rfl

theorem leanDesc_of_plain (plain : isVector desc = false) : leanDesc desc = desc := by
  obtain ⟨description, value⟩ := desc
  cases value with
  | vector entries => cases plain
  | _ => rfl

theorem ProperNode.lean (proper : ProperNode node) :
    ProperNode { node with properties := node.properties.map fun _ desc => leanDesc desc } := by
  intro key desc found
  rw [ExtTreeMap.getElem?_map] at found
  obtain ⟨source, held, rfl⟩ := Option.map_eq_some_iff.mp found
  obtain ⟨description, value⟩ := source
  have before := proper key _ held
  cases value with
  | vector entries => trivial
  | _ => exact before

/-- **The lean shape reads back as the record less its vectors and the properties that read as
markers.** -/
theorem jsonToNode_nodeToLeanJson (proper : ProperNode node) :
    jsonToNode (nodeToLeanJson node) node.plane =
      .ok { node with properties := node.properties.filter fun _ desc =>
        !(isVector desc || isMarker desc) } := by
  have read := jsonToNode_nodeFields node (jsonToProperties_propertiesToJson proper.lean)
  unfold nodeToLeanJson
  rw [propertiesToLeanJson_eq]
  refine read.trans ?_
  congr 2
  refine ExtTreeMap.ext_getElem? fun key => ?_
  rw [ExtTreeMap.getElem?_filter', ExtTreeMap.getElem?_filter', ExtTreeMap.getElem?_map]
  cases held : node.properties[key]? with
  | none => rfl
  | some desc =>
    rw [Option.map_some, Option.filter_some, Option.filter_some,
      isMarker_leanDesc (proper key desc held)]
    cases vector : isVector desc with
    | true => rfl
    | false => rw [leanDesc_of_plain vector]

/-- Dropping the markers changes nothing exactly when there are none. -/
theorem filter_marker_eq_self :
    props.filter (fun _ desc => !isMarker desc) = props ↔
      ∀ (key : String) (desc : PropDesc), props[key]? = some desc → ¬ isMarker desc := by
  constructor
  · intro same key desc held marker
    rw [← same, ExtTreeMap.getElem?_filter'] at held
    obtain ⟨-, kept⟩ := Option.filter_eq_some_iff.mp held
    rw [marker] at kept
    cases kept
  · intro plain
    refine ExtTreeMap.ext_getElem? fun key => ?_
    rw [ExtTreeMap.getElem?_filter']
    cases held : props[key]? with
    | none => rfl
    | some desc => rw [Option.filter_some, Bool.eq_false_iff.mpr (plain key desc held)]; rfl

/-- **A record comes back from both shapes exactly when none of its properties holds a string that
reads as the marker of an omitted vector.** -/
theorem jsonToNode_roundTrip_iff {node : NodeRecord} (proper : ProperNode node) :
    (jsonToNode (nodeToJson node) node.plane = .ok node ∧
      jsonToNode (nodeToLeanJson node) node.plane = .ok (withoutVectors node)) ↔
    ∀ (key : String) (desc : PropDesc), node.properties[key]? = some desc → ¬ isMarker desc := by
  rw [jsonToNode_nodeToJson proper, jsonToNode_nodeToLeanJson proper, ← filter_marker_eq_self]
  constructor
  · intro ⟨whole, _⟩
    exact congrArg NodeRecord.properties (Except.ok.inj whole)
  · intro same
    have plain := filter_marker_eq_self.mp same
    refine ⟨by rw [same], ?_⟩
    unfold withoutVectors
    congr 2
    refine ExtTreeMap.ext_getElem? fun key => ?_
    rw [ExtTreeMap.getElem?_filter', ExtTreeMap.getElem?_filter']
    cases held : node.properties[key]? with
    | none => rfl
    | some desc =>
      rw [Option.filter_some, Option.filter_some, Bool.eq_false_iff.mpr (plain key desc held),
        Bool.or_false]

theorem forall_insert {name : String} {value : PropDesc} (new : holds value)
    (old : ∀ (key : String) (desc : PropDesc), props[key]? = some desc → holds desc) (key : String)
    (desc : PropDesc) (found : (props.insert name value)[key]? = some desc) :
    holds desc := by
  rw [ExtTreeMap.getElem?_insert] at found
  split_ifs at found
  · cases found
    exact new
  · exact old key desc found

theorem forall_empty (key : String) (desc : PropDesc) (found : (∅ : Properties)[key]? = some desc) :
    holds desc := by
  rw [ExtTreeMap.getElem?_empty] at found
  cases found

/-- A vector, a description and a string that is no marker. -/
def describedNode : NodeRecord where
  id := 1
  plane := 0
  externalKey := some "m::run"
  labels := ["Function"]
  properties := ((∅ : Properties).insert "embedding" (.mk (some "why") (.vector [0x3f000000]))).insert
    "file" (.mk none (.str "a $vector(8 dims, omitted)"))

/-- A record whose one property quotes the text of a marker. -/
def quotingNode : NodeRecord where
  id := 1
  plane := 0
  externalKey := none
  labels := []
  properties := (∅ : Properties).insert "note" (.mk none (.str "$vector(3 dims, omitted)"))

theorem jsonToNode_roundTrip_of_described :
    jsonToNode (nodeToJson describedNode) 0 = .ok describedNode ∧
      jsonToNode (nodeToLeanJson describedNode) 0 = .ok (withoutVectors describedNode) := by
  have half : finite32 0x3f000000 := by with_unfolding_all decide
  refine (jsonToNode_roundTrip_iff ?_).mpr ?_
  · refine forall_insert trivial (forall_insert ⟨by decide, ?_⟩ forall_empty)
    exact List.forall_mem_singleton.mpr half
  · exact forall_insert (by decide) (forall_insert (by decide) forall_empty)

/-- The quoted text is taken for a vector that was left out, even where nothing is. -/
theorem quoted_marker_dropped :
    ProperNode quotingNode ∧
      jsonToNode (nodeToJson quotingNode) quotingNode.plane ≠ .ok quotingNode := by
  have proper : ProperNode quotingNode := forall_insert trivial forall_empty
  refine ⟨proper, fun back => ?_⟩
  rw [jsonToNode_nodeToJson proper] at back
  have plain := filter_marker_eq_self.mp (congrArg NodeRecord.properties (Except.ok.inj back))
  exact plain "note" _ ExtTreeMap.getElem?_insert_self (by decide)

end DrStrange.Json
