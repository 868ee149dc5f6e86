/-
**What a model may name and set.**

A model's names are trimmed and checked before they become keys, labels, types or property names.
Some properties are the pipeline's to write: those with an underscore in front, `embedding`, and a
vector under any name. No model's answer sets one (`Only.mergeProps`, `Only.refine`), whatever else
it changes.
-/

import DrStrange.Api.WriteTxn
import DrStrange.Compute.Value
import DrStrange.Json.Value
import DrStrange.Llm.Digest

namespace DrStrange.Llm

open Std (ExtTreeMap)
open DrStrange.Compute (eqValue)
open DrStrange.Graph (PropDesc PropValue Properties)
open DrStrange.Json (jsonToValue)
open Lib

/-! ### The code -/

/-- The characters of the category `Cc`. -/
def isControl (c : Char) : Bool := c.toNat < 0x20 || (0x7f ≤ c.toNat && c.toNat < 0xa0)

def maxNameChars : ℕ := 512

/-- A name fit to become a key, label, edge type or property name. -/
def modelName (raw : String) : Option String :=
  let s := trim raw.toList
  if !s.isEmpty && !s.any isControl && (s.take (maxNameChars + 1)).length ≤ maxNameChars then
    some (String.ofList s)
  else none

/-- Whether a model may set a property to a value. -/
def modelMaySet (name : String) (value : PropValue) : Bool :=
  modelName name = some name && name.toList.head? ≠ some '_' && name ≠ "embedding" &&
    value.asVector.isNone

def prop (value : PropValue) : PropDesc := .mk none value

def descProp (text : String) : PropDesc := .mk (some "LLM-extracted description") (.str text)

/-- Sets what is not set yet and may be; counts what may not be. -/
def mergeProps (into : Properties) (given : List (String × Json.Value)) : Properties × ℕ :=
  given.foldl (fun (into, reserved) (key, value) =>
    if key ∈ into then (into, reserved)
    else
      match jsonToValue value with
      | .error _ => (into, reserved)
      | .ok value =>
        if modelMaySet key value then (into.insert key (prop value), reserved)
        else (into, reserved + 1)) (into, 0)

/-- The provenance of a run. -/
structure Provenance where
  source : String
  model : String
  runId : String
  deriving DecidableEq, Repr

/-- A text stamped on what is written, and what it means. -/
def stamp (what text : String) : PropDesc := .mk (some what) (.str text)

def addProvenance (props : Properties) (opts : Provenance) : Properties :=
  props.insert "_source" (stamp "source document this was digested from" opts.source)
    |>.insert "_model" (stamp "model that extracted this" opts.model)
    |>.insert "_run" (stamp "digest run id" opts.runId)

/-- What a model reads of an entity with every mention in front of it. -/
structure Refined where
  properties : List (String × Json.Value)
  description : Option String

structure RefineReport where
  eligible : ℕ
  refined : ℕ
  skippedNothingNew : ℕ
  failed : ℕ
  propsAdded : ℕ
  propsRevised : ℕ
  chatRequests : ℕ
  inputTokens : ℕ
  outputTokens : ℕ
  deriving DecidableEq, Repr

/-- The properties that a refinement brings, the description behind the others. -/
def Refined.incoming (refined : Refined) : List (String × Json.Value) :=
  refined.properties ++ (refined.description.map fun text =>
    ("description", Json.Value.string text)).toList

/-- `refine::apply`: sets what may be set and differs. -/
def refine (props : Properties) (refined : Refined) (report : RefineReport) :
    Properties × RefineReport :=
  refined.incoming.foldl (fun (props, report) (key, value) =>
    match jsonToValue value with
    | .error _ => (props, report)
    | .ok value =>
      if modelMaySet key value then
        match props[key]? with
        | some existing =>
          if eqValue existing.value value then (props, report)
          else (props.insert key (prop value), { report
            with propsRevised := report.propsRevised + 1 })
        | none => (props.insert key (prop value), { report with propsAdded := report.propsAdded + 1 })
      else (props, report)) (props, report)

/-! ### Names -/

variable {raw name key original what : String} {value : PropValue} {desc : PropDesc}
  {props more : Properties}
  {written weaker : String → PropDesc → Prop}

theorem trim_trim (text : List Char) : trim (trim text) = trim text := by
  have ends : List.rdropWhile whiteSpace (trim text) = trim text := List.rdropWhile_idempotent ..
  have begins : (trim text).dropWhile whiteSpace = trim text := by
    rw [List.dropWhile_eq_self_iff]
    intro shown
    have inked : trim text <+: text.dropWhile whiteSpace := List.rdropWhile_prefix ..
    have first : (trim text)[0] = getElem (text.dropWhile whiteSpace) 0
        (shown.trans_le inked.length_le) := inked.getElem shown
    rw [first]
    exact List.dropWhile_get_zero_not _ _ (shown.trans_le inked.length_le)
  rw [trim.eq_1 (trim text), begins, ends]

/-- A name that was made fit is fit. -/
theorem modelName_fit (fit : modelName raw = some name) : modelName name = some name := by
  unfold modelName at fit ⊢
  dsimp only at fit ⊢
  split_ifs at fit with holds
  obtain rfl := Option.some.inj fit
  rw [String.toList_ofList, trim_trim, if_pos holds]

/-! ### What is reserved -/

/-- The properties that only the pipeline writes. -/
def reserved (name : String) (value : PropValue) : Bool :=
  name.toList.head? = some '_' || name = "embedding" || value.asVector.isSome

theorem not_reserved_of_maySet (may : modelMaySet name value = true) :
    reserved name value = false := by
  simp only [modelMaySet, Bool.and_eq_true, decide_eq_true_eq, ne_eq,
    Option.isNone_iff_eq_none] at may
  obtain ⟨⟨⟨-, plain⟩, other⟩, scalar⟩ := may
  simp [reserved, plain, other, scalar]

/-- The reserved properties are only those written. -/
def Only (written : String → PropDesc → Prop) (props : Properties) : Prop :=
  ∀ name desc, props[name]? = some desc → reserved name desc.value = true → written name desc

theorem only_empty : Only written ∅ := by
  intro name desc found
  rw [ExtTreeMap.getElem?_empty] at found
  cases found

theorem Only.mono (only : Only written props)
    (implied : ∀ name desc, written name desc → weaker name desc) :
    Only weaker props := fun name desc found own => implied name desc (only name desc found own)

/-- A property set. -/
theorem Only.insert (only : Only written props)
    (may : reserved key desc.value = true → written key desc) :
    Only written (props.insert key desc) := by
  intro name given found own
  rw [ExtTreeMap.getElem?_insert] at found
  split_ifs at found with same
  · obtain rfl := Std.LawfulEqCmp.eq_of_compare same
    obtain rfl := Option.some.inj found
    exact may own
  · exact only name given found own

/-- A property that the model sets. -/
theorem Only.set (only : Only written props) (may : modelMaySet key value = true) :
    Only written (props.insert key (prop value)) :=
  only.insert fun own => absurd own (by simp [prop, PropDesc.value, not_reserved_of_maySet may])

theorem Only.union (left : Only written props) (right : Only written more) :
    Only written (props ∪ more) := by
  intro name desc found
  rw [ExtTreeMap.getElem?_union, Option.or_eq_some_iff] at found
  obtain later | ⟨-, earlier⟩ := found
  · exact right name desc later
  · exact left name desc earlier

theorem Only.noteOriginal (only : Only written props)
    (noted : written key (.mk (some what) (.str original))) :
    Only written (noteOriginal props key what original) := only.insert fun _ => noted

/-- **Merging sets no reserved property**, whatever is given. -/
theorem Only.mergeProps {given : List (String × Json.Value)} (only : Only written props) :
    Only written (mergeProps props given).1 := by
  unfold Llm.mergeProps
  generalize 0 = count
  induction given generalizing props count with
  | nil => exact only
  | cons field given ih =>
    obtain ⟨key, value⟩ := field
    rw [List.foldl_cons]
    dsimp only
    by_cases set : key ∈ props
    · rw [if_pos set]
      exact ih only _
    · rw [if_neg set]
      cases jsonToValue value with
      | error => exact ih only _
      | ok value =>
        dsimp only
        split_ifs with may
        · exact ih (only.set may) _
        · exact ih only _

/-- **Refining sets no reserved property**, whatever is read. -/
theorem Only.refine {refined : Refined} {report : RefineReport} (only : Only written props) :
    Only written (refine props refined report).1 := by
  unfold Llm.refine
  generalize refined.incoming = incoming
  induction incoming generalizing props report with
  | nil => exact only
  | cons field incoming ih =>
    obtain ⟨key, value⟩ := field
    rw [List.foldl_cons]
    dsimp only
    cases jsonToValue value with
    | error => exact ih only
    | ok value =>
      dsimp only
      by_cases may : modelMaySet key value = true
      · rw [if_pos may]
        cases props[key]? with
        | none => exact ih (only.set may)
        | some existing =>
          dsimp only
          split_ifs
          · exact ih only
          · exact ih (only.set may)
      · rw [if_neg may]
        exact ih only

/-- The provenance of a run, over what a pipeline wrote before. -/
inductive Stamped (opts : Provenance) (written : String → PropDesc → Prop) :
    String → PropDesc → Prop where
  | source : Stamped opts written "_source"
    (stamp "source document this was digested from" opts.source)
  | model : Stamped opts written "_model" (stamp "model that extracted this" opts.model)
  | run : Stamped opts written "_run" (stamp "digest run id" opts.runId)
  | before {name : String} {desc : PropDesc} (wrote : written name desc) : Stamped opts
    written name desc

theorem Only.addProvenance {opts : Provenance} (only : Only written props) :
    Only (Stamped opts written) (addProvenance props opts) :=
  (((only.mono fun _ _ => .before).insert fun _ => .source).insert fun _ => .model).insert
    fun _ => .run

end DrStrange.Llm
