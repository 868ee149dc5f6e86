/-
**What a rebuild computes.**

On a sound store an index is built without failing and holds what is due for every node
(`buildEntry_sound`), and a rebuild builds one index for every declaration (`rebuildFrom_sound`). The
row of a declaration is read back by splitting it at its first NUL, so it stands for the label and
property it was made from only if the label has none (`parse_indexRowKey`).
-/

import DrStrange.Api.Contents
import DrStrange.Api.Reachable

namespace DrStrange.Graph

open Std Lib ExtTreeMap

variable {tables after : Tables} {plane : PlaneId} {label property : String} {nodes edges : Set ℕ}
  {α σ ε γ : Type} {read : PropValue → Option α} {id : NodeId} {setting : σ}

/-! ### The nodes of a label -/

/-- A node carries a label if one of its label ids is the label's. -/
theorem Exact.mem_labelsOf (exact : Exact tables) {row : NodeRow} :
    label ∈ tables.labelsOf row ↔
      ∃ number ∈ row.labels, (tables.dictIds .label)[label]? = some number := by
  rw [Tables.labelsOf, List.mem_filterMap]
  exact exists_congr fun number => and_congr_right fun _ => (exact.dict .label label number).symm

/-- The scan of a label finds the nodes that carry it. -/
theorem Exact.mem_scanLabel (exact : Exact tables) :
    id ∈ scanLabel tables plane label ↔
      ∃ row, tables.nodes[(plane, id)]? = some row ∧ label ∈ tables.labelsOf row := by
  simp only [exact.mem_labelsOf]
  rw [scanLabel, lookupLabel]
  cases found : (tables.dictIds .label)[label]? with
  | none => simp
  | some number =>
    have entries : id ∈ ((tables.labelIdx.keys.filter fun key =>
        key.1 = plane && key.2.1 = number).map fun key => key.2.2) ↔
          (plane, number, id) ∈ tables.labelIdx := by
      rw [List.mem_map]
      constructor
      · rintro ⟨⟨p, other, node⟩, member, rfl⟩
        simp only [List.mem_filter, mem_keys, Bool.and_eq_true, decide_eq_true_eq] at member
        obtain ⟨inside, rfl, rfl⟩ := member
        exact inside
      · exact fun inside => ⟨(plane, number, id), by simpa using inside, rfl⟩
    rw [entries, exact.labelIdx]
    simp

/-! ### One index -/

/-- What an index reads off a stored node. -/
def Tables.valueOf (tables : Tables) (read : PropValue → Option α) (plane : PlaneId)
    (property : String) (id : NodeId) : Option α :=
  (tables.nodes[(plane, id)]?).bind fun row => indexed read row.props property

theorem Sound.nodeValue (sound : Sound nodes edges tables) :
    nodeValue read tables plane id property = .ok (tables.valueOf read plane property id) := by
  rw [Graph.nodeValue, Tables.valueOf]
  cases found : tables.nodes[(plane, id)]? with
  | none => rw [getNode_absent found, Option.bind_none]
  | some row => rw [sound.getNode found, Option.bind_some]

theorem Sound.itemsOf (sound : Sound nodes edges tables) {ids : List NodeId} :
    itemsOf read tables plane property ids = .ok (ids.filterMap fun id =>
      (tables.valueOf read plane property id).map fun value => (id, value)) := by
  induction ids with
  | nil => rfl
  | cons id ids ih =>
    rw [Graph.itemsOf, sound.nodeValue, ih]
    cases found : tables.valueOf read plane property id with
    | none => rw [List.filterMap_cons_none (by rw [found]; rfl)]; rfl
    | some value => rw [List.filterMap_cons_some (by rw [found]; rfl)]; rfl

/-- What the items of an index hold for a node is what is due for it. -/
theorem Exact.find_items (exact : Exact tables) {items : List (NodeId × α)}
    (collected : items = (scanLabel tables plane label).filterMap fun id =>
      (tables.valueOf read plane property id).map fun value => (id, value))
    (apart : (items.map Prod.fst).Nodup) :
    Items.find items id = tables.due read plane label property id := by
  refine Option.ext fun value => ?_
  rw [Items.find_eq apart, collected, List.mem_filterMap, Tables.due]
  simp only [exact.mem_scanLabel, Tables.valueOf, Option.map_eq_some_iff, Prod.mk.injEq]
  constructor
  · rintro ⟨_, ⟨row, found, carried⟩, _, held, rfl, rfl⟩
    rw [found, Option.bind_some] at held
    rw [found, Option.bind_some, if_pos carried, held]
  · intro held
    obtain ⟨row, found, held⟩ := Option.bind_eq_some_iff.mp held
    split at held
    · rename_i carried
      exact ⟨id, ⟨row, found, carried⟩, value, by rw [found, Option.bind_some, held], rfl, rfl⟩
    · cases held

variable {kind : IndexKind α σ ε} {registry : Registry ε} {rows : ExtTreeMap IndexRowKey σ compare}

/-- What one can see of a registry entry: its setting and what it holds. -/
def IndexKind.Contents.view (contents : kind.Contents γ) (entry : ε) : σ × (NodeId → Option γ) :=
  (kind.setting entry, contents.holds entry)

/-- What one can see of an index that holds what is due. -/
def IndexKind.Contents.due (contents : kind.Contents γ) (tables : Tables) (plane : PlaneId)
    (label property : String) (setting : σ) : σ × (NodeId → Option γ) :=
  (setting, fun id => (tables.due kind.read plane label property id).bind (contents.image setting))

/-- An index is built on a sound store, and holds what is due. -/
theorem buildEntry_sound (contents : kind.Contents γ) (sound : Sound nodes edges tables) :
    ∃ entry, buildEntry kind tables registry plane label property setting =
        .ok (registry.insert (plane, label, property) entry) ∧
      contents.view entry = contents.due tables plane label property setting := by
  rw [buildEntry]
  split
  · rename_i error failed
    rw [sound.itemsOf] at failed
    cases failed
  · rename_i items collected
    refine ⟨_, rfl, ?_⟩
    have same := Except.ok.inj (collected.symm.trans sound.itemsOf)
    rw [IndexKind.Contents.view, IndexKind.Contents.due, contents.setting_build]
    congr 1
    funext id
    rw [contents.holds_build, sound.exact.find_items same]
    exact (itemsOf_sublist collected).nodup nodup_scanLabel

/-! ### All declared indexes -/

/-- Where a declaration puts its index. -/
def declKey (decl : PlaneId × String × String × σ) : IndexKey := (decl.1, decl.2.1, decl.2.2.1)

/-- Indexes built one after the other: each declaration has one that holds what is due, and no other
index is touched. -/
theorem buildEntries_sound (contents : kind.Contents γ) (sound : Sound nodes edges tables)
    {decls : List (PlaneId × String × String × σ)} (apart : (decls.map declKey).Nodup) :
    ∃ built, buildEntries kind tables decls registry = .ok built ∧
      (∀ decl ∈ decls, (built[declKey decl]?).map contents.view =
        some (contents.due tables decl.1 decl.2.1 decl.2.2.1 decl.2.2.2)) ∧
      ∀ key ∉ decls.map declKey, built[key]? = registry[key]? := by
  induction decls generalizing registry with
  | nil => exact ⟨registry, rfl, fun _ member => (nomatch member), fun _ _ => rfl⟩
  | cons decl decls ih =>
    obtain ⟨plane, label, property, setting⟩ := decl
    obtain ⟨fresh, apart⟩ := List.nodup_cons.mp apart
    obtain ⟨entry, made, holds⟩ :=
      @buildEntry_sound tables plane label property nodes edges α σ ε γ setting kind registry
        contents sound
    obtain ⟨built, rest, later, kept⟩ :=
      @ih (registry.insert (plane, label, property) entry) apart
    refine ⟨built, ?_, ?_, ?_⟩
    · rw [buildEntries, made]
      exact rest
    · rintro other (_ | ⟨_, member⟩)
      · rw [kept _ fresh, declKey, getElem?_insert_self, Option.map_some, holds]
      · exact later other member
    · intro key outside
      rw [List.map_cons, List.mem_cons, not_or] at outside
      have apart : (plane, label, property) ≠ key := fun same => outside.1 same.symm
      rw [kept key outside.2, getElem?_insert, if_neg (by simpa using apart)]

/-- Every row of declarations holds the NUL that ends its label. -/
def Parsed (rows : ExtTreeMap IndexRowKey σ compare) : Prop :=
  ∀ key ∈ rows, nul ∈ key.2.toList

theorem nul_mem_indexRowKey : nul ∈ (indexRowKey plane label property).2.toList := by
  simp [indexRowKey]

/-- A label without NUL is read back. -/
theorem parse_indexRowKey (clean : nul ∉ label.toList) :
    parseIndexRowKey (indexRowKey plane label property) = (plane, label, property) := by
  have clear : ∀ char ∈ label.toList, decide (char ≠ nul) = true := by
    intro char member
    exact decide_eq_true fun same => clean (same ▸ member)
  simp only [parseIndexRowKey, indexRowKey, String.toList_ofList,
    List.takeWhile_append_of_pos clear, List.dropWhile_append_of_pos clear]
  simp

/-- A row with a NUL is the row of what it is read as, a label without NUL. -/
theorem indexRowKey_parse {key : IndexRowKey} (held : nul ∈ key.2.toList) :
    let parsed := parseIndexRowKey key
    nul ∉ parsed.2.1.toList ∧ indexRowKey parsed.1 parsed.2.1 parsed.2.2 = key := by
  obtain ⟨plane, text⟩ := key
  simp only [parseIndexRowKey, indexRowKey, String.toList_ofList]
  constructor
  · intro member
    simpa using List.mem_takeWhile_imp member
  · have stop : text.toList.dropWhile (· ≠ nul) ≠ [] := by
      rw [Ne, List.dropWhile_eq_nil_iff]
      exact fun clear => absurd (clear nul held) (by simp)
    have first : (text.toList.dropWhile (· ≠ nul)).head stop = nul := by
      simpa using List.head_dropWhile_not (· ≠ nul) stop
    have whole := @List.takeWhile_append_dropWhile _ (fun char => decide (char ≠ nul)) text.toList
    rw [← List.cons_head_tail stop, first] at whole
    rw [whole, String.ofList_toList]

/-- The setting a label and property are read back with: a label with a NUL is not read back. -/
def declaredSetting (rows : ExtTreeMap IndexRowKey σ compare) (plane : PlaneId)
    (label property : String) : Option σ :=
  if nul ∈ label.toList then none else rows[indexRowKey plane label property]?

/-- What is listed is what is read back. -/
theorem mem_listIndexes (parsed : Parsed rows) :
    (plane, label, property, setting) ∈ listIndexes rows ↔
      declaredSetting rows plane label property = some setting := by
  simp only [listIndexes, List.mem_map, declaredSetting]
  constructor
  · rintro ⟨⟨key, held⟩, member, same⟩
    have found := mem_toList_iff_getElem?_eq_some.mp member
    obtain ⟨clean, back⟩ := indexRowKey_parse (parsed key (mem_of_getElem? found))
    generalize parseIndexRowKey key = parts at *
    obtain ⟨p, l, q⟩ := parts
    cases same
    rw [if_neg clean, back, found]
  · intro found
    split at found
    · cases found
    · rename_i clean
      refine ⟨(indexRowKey plane label property, setting),
        mem_toList_iff_getElem?_eq_some.mpr found, ?_⟩
      rw [parse_indexRowKey clean]

/-- No two declarations are read back as one. -/
theorem nodup_listIndexes (parsed : Parsed rows) : ((listIndexes rows).map declKey).Nodup := by
  rw [listIndexes, List.map_map, List.Nodup, List.pairwise_map]
  refine (distinct_keys_toList (t := rows)).imp_of_mem ?_
  intro a b memberA memberB apart same
  have backA := (indexRowKey_parse (parsed a.1 (mem_of_getElem?
    (mem_toList_iff_getElem?_eq_some.mp memberA)))).2
  have backB := (indexRowKey_parse (parsed b.1 (mem_of_getElem?
    (mem_toList_iff_getElem?_eq_some.mp memberB)))).2
  simp only [Function.comp_apply, declKey, Prod.mk.injEq] at same
  rw [same.1, same.2.1, same.2.2, backB] at backA
  exact apart (Std.compare_eq_iff_eq.mpr backA.symm)

/-- **A rebuild on a sound store** does not fail, and builds the indexes that are read back, each
with what is due. -/
theorem rebuildFrom_sound (contents : kind.Contents γ) (sound : Sound nodes edges tables)
    (parsed : Parsed (kind.rows tables)) :
    ∃ rebuilt, rebuildFrom kind tables = .ok rebuilt ∧ ∀ (plane : PlaneId) (label property : String),
      (rebuilt[(plane, label, property)]?).map contents.view =
        (declaredSetting (kind.rows tables) plane label property).map
          (contents.due tables plane label property) := by
  obtain ⟨rebuilt, made, held, rest⟩ :=
    @buildEntries_sound tables nodes edges α σ ε γ kind ∅ contents sound _ (nodup_listIndexes parsed)
  refine ⟨rebuilt, made, fun plane label property => ?_⟩
  cases found : declaredSetting (kind.rows tables) plane label property with
  | some setting => exact held _ ((mem_listIndexes parsed).mpr found)
  | none =>
    have outside : (plane, label, property) ∉ (listIndexes (kind.rows tables)).map declKey := by
      intro member
      obtain ⟨⟨p, l, q, setting⟩, listed, same⟩ := List.mem_map.mp member
      cases same
      exact nomatch found.symm.trans ((mem_listIndexes parsed).mp listed)
    rw [rest _ outside]
    simp

end DrStrange.Graph
