/-
**Merging the entities of a document.**

Every absorbed entity is folded into its survivor and every edge moves to the surviving endpoints. The
keys and the endpoints are kept where the renaming keeps the keys, so exactly where every line of the
reply that stands is read as two keys that belong together (`resolveIdentity_keeps_iff`).
-/

import DrStrange.Graph.Types
import DrStrange.Llm.Identity

namespace DrStrange.Llm

open Std (ExtTreeMap ExtTreeSet)
open DrStrange.Graph (PropDesc PropValue Properties)
open Identity Lib

/-! ### The code -/

structure DigestNode where
  key : String
  label : String
  extraLabels : List String
  props : Properties

structure DigestEdge where
  src : String
  dst : String
  ty : String
  props : Properties

/-- What the report says of the identities, and what the run cost. -/
structure DigestReport where
  identity : IdentityReport
  chatRequests : ℕ
  inputTokens : ℕ
  outputTokens : ℕ

abbrev Entities := ExtTreeMap String DigestNode compare

/-- The chunks that each entity was read in. -/
abbrev Origins := ExtTreeMap String (ExtTreeSet ℕ) compare

/-- How often each name occurs. -/
def tally (names : List String) : Counts :=
  names.foldl (fun counts name => counts.insert name (counts[name]?.getD 0 + 1)) ∅

def labelsOf (entities : Entities) : Labels := entities.map fun _ node => node.label

/-- Records the name that the document used. -/
def noteOriginal (props : Properties) (key what original : String) : Properties :=
  props.insert key (.mk (some what) (.str original))

/-- The survivor takes what it lacks from the entity that it absorbs. -/
def DigestNode.absorb (survivor absorbed : DigestNode) (source : String) : DigestNode :=
  { survivor with
    label := if survivor.label.isEmpty then absorbed.label else survivor.label
    props := noteOriginal (absorbed.props ∪ survivor.props) "_key_as_written"
      "another name this entity was written under, before identity resolution" source }

/-- Folds an entity into its survivor, with its chunks; a target that is no entity becomes one. -/
def absorbInto (state : Entities × Origins) (source target : String) : Entities × Origins :=
  match state.1[source]? with
  | none => state
  | some absorbed =>
    let entities := state.1.erase source
    let origins := state.2.erase source
    let survivor := entities[target]?.getD ⟨target, absorbed.label, [], ∅⟩
    (entities.insert target (survivor.absorb absorbed source),
      origins.insert target (origins[target]?.getD ∅ ∪ state.2[source]?.getD ∅))

/-- An edge on the surviving endpoints. -/
def DigestEdge.move (renames : Renames) (edge : DigestEdge) : DigestEdge :=
  { edge with src := canonical renames edge.src, dst := canonical renames edge.dst }

/-- The first edge of each kind between two endpoints; none from an endpoint to itself. -/
def retainFirst (seen : List (String × String × String)) : List DigestEdge → List DigestEdge
  | [] => []
  | edge :: edges =>
    if edge.src ≠ edge.dst && !seen.contains (edge.src, edge.dst, edge.ty) then
      edge :: retainFirst ((edge.src, edge.dst, edge.ty) :: seen) edges
    else retainFirst seen edges

/-- The entities, edges and chunks after the renaming. -/
structure Merged where
  entities : Entities
  edges : List DigestEdge
  origins : Origins
  identity : IdentityReport

/-- Applies a renaming. -/
def applyRenames (renames : Renames) (was : Merged) : Merged :=
  if renames.isEmpty then was
  else
    let (entities, origins) := renames.foldl absorbInto (was.entities, was.origins)
    let moved := was.edges.map (DigestEdge.move renames)
    let kept := retainFirst [] moved
    ⟨entities, kept, origins, { was.identity with mergedRelations := moved.length - kept.length }⟩

/-- Merges the entities that name one thing. -/
def resolveIdentity {ε : Type} (unicode : Unicode) (chat : Except ε Reply)
    (parse : String → Option (List String))
    (entities : Entities) (edges : List DigestEdge) (origins : Origins) (report : DigestReport) :
    Except ε (Entities × List DigestEdge × Origins × DigestReport) := do
  let (renames, identity) ← resolve unicode chat parse (tally entities.keys) (labelsOf entities)
  let merged := applyRenames renames ⟨entities, edges, origins, identity⟩
  return (merged.entities, merged.edges, merged.origins,
    { identity := merged.identity
      chatRequests := report.chatRequests + merged.identity.chatRequests
      inputTokens := report.inputTokens + merged.identity.inputTokens
      outputTokens := report.outputTokens + merged.identity.outputTokens })

/-! ### Keys and endpoints -/

/-- Every key is still an entity or renamed to a key that was one, the edges are the moved ones, and
an endpoint that named an entity names one. -/
structure KeepsEntities (entities : Entities) (edges : List DigestEdge) (renames : Renames)
    (entities' : Entities) (edges' : List DigestEdge) : Prop where
  keys : ∀ key ∈ entities, key ∈ entities' ∨ ∃ into ∈ entities, renames[key]? = some into
  moved : ∀ edge ∈ edges', ∃ before ∈ edges, edge = before.move renames
  endpoints : ∀ edge ∈ edges, (edge.src ∈ entities → (edge.move renames).src ∈ entities') ∧
    (edge.dst ∈ entities → (edge.move renames).dst ∈ entities')

variable {unicode : Unicode} {parse : String → Option (List String)} {reply : Reply}
  {entities entities' : Entities} {edges edges' : List DigestEdge} {origins : Origins}
  {renames : Renames} {report : DigestReport} {names : List String} {key : String}
  {state : Entities × Origins}

theorem mem_tally : key ∈ tally names ↔ key ∈ names := by
  suffices ∀ counts : Counts, key ∈ names.foldl
      (fun counts name => counts.insert name (counts[name]?.getD 0 + 1)) counts ↔
      key ∈ names ∨ key ∈ counts from (this ∅).trans (by simp)
  induction names with
  | nil => simp
  | cons name names ih =>
    intro counts
    rw [List.foldl_cons, ih, ExtTreeMap.mem_insert, List.mem_cons, Std.LawfulEqCmp.compare_eq_iff_eq]
    grind

/-- An entity that is not absorbed stays. -/
theorem mem_absorbInto {source target : String} (inside : key ∈ state.1) (apart : source ≠ key) :
    key ∈ (absorbInto state source target).1 := by
  unfold absorbInto
  cases state.1[source]? with
  | none => exact inside
  | some absorbed =>
    refine ExtTreeMap.mem_insert.mpr (.inr (ExtTreeMap.mem_erase.mpr ⟨?_, inside⟩))
    simpa using apart

theorem mem_foldl_absorbInto (inside : key ∈ state.1) (kept : renames[key]? = none) :
    key ∈ (renames.foldl absorbInto state).1 := by
  rw [ExtTreeMap.foldl_eq_foldl_toList]
  have apart : ∀ pair ∈ renames.toList, pair.1 ≠ key := by
    rintro ⟨source, target⟩ member rfl
    cases kept.symm.trans (ExtTreeMap.mem_toList_iff_getElem?_eq_some.mp member)
  generalize renames.toList = pairs at apart
  induction pairs generalizing state with
  | nil => exact inside
  | cons pair pairs ih =>
    exact ih (mem_absorbInto inside (apart pair List.mem_cons_self)) fun pair member =>
      apart pair (List.mem_cons_of_mem _ member)

theorem mem_retainFirst {seen : List (String × String × String)} {edge : DigestEdge}
    (kept : edge ∈ retainFirst seen edges) : edge ∈ edges := by
  induction edges generalizing seen with
  | nil => cases kept
  | cons first edges ih =>
    unfold retainFirst at kept
    split_ifs at kept
    · obtain rfl | kept := List.mem_cons.mp kept
      · exact List.mem_cons_self
      · exact List.mem_cons_of_mem _ (ih kept)
    · exact List.mem_cons_of_mem _ (ih kept)

/-- What keeps the keys keeps the entities. -/
theorem KeepsEntities.of_settled (kept : ∀ key ∈ entities, renames[key]? = none → key ∈ entities')
    (targets : ∀ a b : String, renames[a]? = some b → b ∈ entities)
    (settled : ∀ a b : String, renames[a]? = some b → renames[b]? = none)
    (moved : ∀ edge ∈ edges', ∃ before ∈ edges, edge = before.move renames) :
    KeepsEntities entities edges renames entities' edges' := by
  have stands : ∀ key ∈ entities, canonical renames key ∈ entities' := by
    intro key inside
    unfold canonical
    cases found : renames[key]? with
    | none => exact kept key inside found
    | some into => exact kept into (targets key into found) (settled key into found)
  refine ⟨fun key inside => ?_, moved, fun edge _ => ⟨stands edge.src, stands edge.dst⟩⟩
  cases found : renames[key]? with
  | none => exact .inl (kept key inside found)
  | some into => exact .inr ⟨into, targets key into found, rfl⟩

/-- **What a renaming leaves**: the entities that are not absorbed, the moved edges, and the count. -/
theorem applyRenames_leaves (renames : Renames) (was : Merged) :
    (∀ key ∈ was.entities, renames[key]? = none → key ∈ (applyRenames renames was).entities) ∧
      (∀ edge ∈ (applyRenames renames was).edges, ∃ before ∈ was.edges, edge = before.move renames) ∧
      (applyRenames renames was).identity.after = was.identity.after := by
  unfold applyRenames
  split_ifs with empty
  · obtain rfl := ExtTreeMap.isEmpty_iff.mp empty
    exact ⟨fun key inside _ => inside, fun edge inside =>
      ⟨edge, inside, by simp [DigestEdge.move, canonical]⟩, rfl⟩
  · refine ⟨fun key inside kept => mem_foldl_absorbInto inside kept, fun edge inside => ?_, rfl⟩
    obtain ⟨before, member, same⟩ := List.mem_map.mp (mem_retainFirst inside)
    exact ⟨before, member, same.symm⟩

theorem mem_keys_tally : key ∈ tally entities.keys ↔ key ∈ entities :=
  mem_tally.trans ExtTreeMap.mem_keys

/-- **When merging loses nothing.** A vocabulary is reconciled without loss, whatever is replied.
The identities of keys are resolved without loss, and in the graph every key is kept or renamed to
one that was an entity and every endpoint that named an entity names one, exactly where every line
of the reply that stands, read up to its first separator, is read as two keys that belong together.
-/
theorem merging_keeps_iff {ε : Type} (unicode : Unicode) (reply : Reply) :
    (∀ (parse : String → Option (List (List String))) (counts : Counts), ∃ renames report,
      reconcile unicode (.ok reply : Except ε Reply) parse counts = .ok (renames, report) ∧
        Lossless counts renames report.after) ∧
    (∀ (parse : String → Option (List String)) (counts : Counts) (labels : Labels), ∃ renames report,
      resolve unicode (.ok reply : Except ε Reply) parse counts labels = .ok (renames, report) ∧
        (Keeps unicode counts labels parse reply renames report.after ↔
          ReadsRight unicode counts labels parse reply)) ∧
    ∀ (parse : String → Option (List String)) (entities : Entities) (edges : List DigestEdge)
      (origins : Origins) (report : DigestReport), ∃ renames identity entities' edges' origins' report',
      resolve unicode (.ok reply : Except ε Reply) parse (tally entities.keys) (labelsOf entities) =
          .ok (renames, identity) ∧
        resolveIdentity unicode (.ok reply : Except ε Reply) parse entities edges origins report =
          .ok (entities', edges', origins', report') ∧
        (Keeps unicode (tally entities.keys) (labelsOf entities) parse reply renames
          report'.identity.after ∧
            KeepsEntities entities edges renames entities' edges' ↔
          ReadsRight unicode (tally entities.keys) (labelsOf entities) parse reply) := by
  refine ⟨fun parse counts => ?_, fun parse counts labels => resolve_keeps_iff,
    fun parse entities edges origins report => ?_⟩
  · obtain ⟨renames, report, ran⟩ := reconcile_returns (ε := ε)
    exact ⟨renames, report, ran, reconcile_lossless ran⟩
  · obtain ⟨renames, identity, ran, iff⟩ := resolve_keeps_iff (ε := ε)
    obtain ⟨kept, moved, counted⟩ := applyRenames_leaves renames ⟨entities, edges, origins, identity⟩
    refine ⟨renames, identity, _, _, _, _, ran, by rw [resolveIdentity, ran]; rfl, ?_⟩
    rw [← iff, counted, and_iff_left_iff_imp]
    intro keeps
    exact .of_settled kept (fun a b found => mem_keys_tally.mp (keeps.targets a b found))
      keeps.settled moved

/-- `a`, `a|b` and `a|bc`. -/
def separated : Entities :=
  ["a", "a|b", "a|bc"].foldl (fun entities key => entities.insert key ⟨key, "Term", [], ∅⟩) ∅

/-- A reply that names the pair of `a|b` and `a|bc`. -/
def pairNamed : Reply := ⟨"\x7b\"same\": [\"a|b|a|bc\"]\x7d", 1, 1⟩

def readPair (text : String) : Option (List String) :=
  if text = pairNamed.text then some ["a|b|a|bc"] else none

/-- The line is read as `a` and `b|a|bc`: the key `a` is lost to a key that no entity had, and the
count is short of a name. -/
theorem line_read_apart : ∃ renames identity entities' edges' origins' report',
    resolve .ascii (.ok pairNamed : Except Empty Reply) readPair (tally separated.keys)
      (labelsOf separated) =
        .ok (renames, identity) ∧
      resolveIdentity .ascii (.ok pairNamed : Except Empty Reply) readPair separated [] ∅
        ⟨⟨0, 0, 0, 0, 0, 0, 0, 0, 0⟩, 0, 0, 0⟩ = .ok (entities', edges', origins', report') ∧
      renames["a"]? = some "b|a|bc" ∧ "b|a|bc" ∉ separated ∧
      ¬ Lossless (tally separated.keys) renames report'.identity.after ∧
      ¬ KeepsEntities separated [] renames entities' edges' := by
  have renamed : ((resolve .ascii (.ok pairNamed : Except Empty Reply) readPair (tally separated.keys)
      (labelsOf separated)).toOption.map fun r => r.1["a"]?) =
        some (some "b|a|bc") := by decide +kernel
  have merged : ((resolveIdentity .ascii (.ok pairNamed : Except Empty Reply) readPair separated [] ∅
      ⟨⟨0, 0, 0, 0, 0, 0, 0, 0, 0⟩, 0, 0, 0⟩).toOption.map fun r => r.1.keys) =
        some ["a|b", "a|bc", "b|a|bc"] := by
    decide +kernel
  have absent : "b|a|bc" ∉ separated := by decide
  cases ran : resolve .ascii (.ok pairNamed : Except Empty Reply) readPair (tally separated.keys)
    (labelsOf separated) with
  | error none => exact none.elim
  | ok r =>
    cases ran' : resolveIdentity .ascii (.ok pairNamed : Except Empty Reply) readPair separated [] ∅
        ⟨⟨0, 0, 0, 0, 0, 0, 0, 0, 0⟩, 0, 0, 0⟩ with
    | error none => exact none.elim
    | ok r' =>
      rw [ran] at renamed
      rw [ran'] at merged
      have renamed : r.1["a"]? = some "b|a|bc" := Option.some.inj renamed
      have merged : r'.1.keys = ["a|b", "a|bc", "b|a|bc"] := Option.some.inj merged
      refine ⟨r.1, r.2, r'.1, r'.2.1, r'.2.2.1, r'.2.2.2, rfl, rfl, renamed, absent, fun lossless =>
        ?_, fun keeps => ?_⟩
      · exact absent (mem_keys_tally.mp (lossless.targets "a" _ renamed))
      · obtain inside | ⟨into, inside, found⟩ := keeps.keys "a" (by decide)
        · rw [← ExtTreeMap.mem_keys, merged] at inside
          exact absurd inside (by decide)
        · obtain rfl := Option.some.inj (found.symm.trans renamed)
          exact absent inside

end DrStrange.Llm
