/-
**The live index registries.**

A registry holds one index for each declared `(plane, label, property)`. Vector and keyword
registries run the same way over different indexes, so a kind of index is a record of its
operations (`IndexKind`) and the registry is written once over it. `IndexKind.Lawful` says what an
index holds: for each node what it was last given, or nothing.

A vector index is an arena of nodes, of which the replaced and removed ones stay buried, and a map
from the live ids into it; the links between its nodes serve the search only. A keyword index keeps
postings and a document for each node, none for a text without terms.
-/

import DrStrange.Api.WriteTxn

namespace DrStrange.Graph

open Std Lib ExtTreeMap

/-- What the code takes from outside: the threads of the machine, and the analysis of a text. -/
structure Host where
  threads : ℕ
  analyze : Language → String → List String

/-! ### Vector indexes -/

/-- A node of the arena. -/
structure HnswNode where
  id : NodeId
  vector : List UInt32
  deleted : Bool
  deriving DecidableEq, Repr

/-- The arena and the place of every live id in it. -/
structure HnswIndex where
  nodes : List HnswNode
  idToIdx : ExtTreeMap NodeId ℕ compare
  places : ∀ (id : NodeId) (idx : ℕ), idToIdx[id]? = some idx ↔
    ∃ vector, nodes[idx]? = some ⟨id, vector, false⟩

def HnswIndex.new : HnswIndex := ⟨[], ∅, by simp⟩

/-- The node in one place of the arena buried. -/
def bury (nodes : List HnswNode) (idx : ℕ) : List HnswNode :=
  nodes.modify idx fun node => { node with deleted := true }

variable {id other : NodeId} {index : HnswIndex} {nodes : List HnswNode} {vector : List UInt32}

theorem getElem?_bury {idx other : ℕ} :
    (bury nodes idx)[other]? =
      if idx = other then (nodes[other]?).map fun node => { node with deleted := true }
      else nodes[other]? := by
  rw [bury, List.getElem?_modify]
  split <;> simp

/-- An id taken out: its node is buried. -/
def HnswIndex.remove (index : HnswIndex) (id : NodeId) : HnswIndex :=
  match found : index.idToIdx[id]? with
  | some idx =>
    { nodes := bury index.nodes idx
      idToIdx := index.idToIdx.erase id
      places := by
        intro other place
        have known := index.places other place
        have own := index.places id idx
        have own' := index.places id place
        simp only [getElem?_erase, getElem?_bury, Std.compare_eq_iff_eq]
        grind }
  | none => index

/-- The place of an id that is not live is nowhere. -/
theorem HnswIndex.remove_absent (index : HnswIndex) (id : NodeId) :
    (index.remove id).idToIdx[id]? = none := by
  rw [remove]
  split
  · simp
  · assumption

/-- An id put in: the node it had is buried and a new one stands at the end of the arena. -/
def HnswIndex.insert (index : HnswIndex) (id : NodeId) (vector : List UInt32) : HnswIndex where
  nodes := (index.remove id).nodes ++ [⟨id, vector, false⟩]
  idToIdx := (index.remove id).idToIdx.insert id (index.remove id).nodes.length
  places := by
    intro other place
    have known := (index.remove id).places other place
    have absent := index.remove_absent id
    have outside : ∀ place, (index.remove id).nodes[place]? = none ↔
        (index.remove id).nodes.length ≤ place := fun _ => List.getElem?_eq_none_iff
    simp only [getElem?_insert, List.getElem?_append, List.getElem?_singleton,
      Std.compare_eq_iff_eq]
    by_cases same : id = other
    · subst same
      by_cases inside : place < (index.remove id).nodes.length
      · simp only [if_true, if_pos inside, Option.some.injEq]
        grind
      · by_cases last : place - (index.remove id).nodes.length = 0
        · simp only [if_true, if_neg inside, if_pos last, Option.some.injEq]
          exact ⟨fun _ => ⟨vector, rfl⟩, fun _ => by omega⟩
        · simp only [if_true, if_neg inside, if_neg last, Option.some.injEq]
          exact ⟨fun here => absurd here (by omega), fun held => nomatch held⟩
    · rw [if_neg same, known]
      by_cases inside : place < (index.remove id).nodes.length
      · rw [if_pos inside]
      · rw [if_neg inside, (outside place).mpr (Nat.le_of_not_lt inside)]
        split <;> simp [same]

/-- The vector of a live id. -/
def HnswIndex.live (index : HnswIndex) (id : NodeId) : Option (List UInt32) :=
  (index.idToIdx[id]?).bind fun idx => (index.nodes[idx]?).map HnswNode.vector

/-- `reindex`: the places of the live nodes, from the arena alone; a later node wins. -/
def reindex (nodes : List HnswNode) : ExtTreeMap NodeId ℕ compare :=
  nodes.zipIdx.foldl (fun places node =>
    if node.1.deleted then places else places.insert node.1.id node.2) ∅

theorem reindex_append {node : HnswNode} :
    reindex (nodes ++ [node]) =
      if node.deleted then reindex nodes else (reindex nodes).insert node.id nodes.length := by
  rw [reindex, List.zipIdx_append, List.foldl_append]
  simp [reindex]

/-- No id is live in two places of an arena. -/
def LiveApart (nodes : List HnswNode) : Prop :=
  nodes.Pairwise fun a b => a.deleted = false → b.deleted = false → a.id ≠ b.id

/-- The places found are those of the live nodes. -/
theorem getElem?_reindex (apart : LiveApart nodes) (id : NodeId) (idx : ℕ) :
    (reindex nodes)[id]? = some idx ↔ ∃ vector, nodes[idx]? = some ⟨id, vector, false⟩ := by
  induction nodes using List.reverseRecOn with
  | nil => simp [reindex]
  | append_singleton nodes node ih =>
    rw [LiveApart, List.pairwise_append] at apart
    have known := ih apart.1
    have outside : nodes.length ≤ idx → nodes[idx]? = none := List.getElem?_eq_none
    have different : ∀ (place : ℕ) (vector : List UInt32),
        nodes[place]? = some (⟨id, vector, false⟩ : HnswNode) →
          node.deleted = false → id ≠ node.id := fun place vector found live =>
      apart.2.2 _ (List.mem_of_getElem? found) node (List.mem_singleton_self node) rfl live
    rw [reindex_append]
    by_cases dead : node.deleted = true
    · rw [if_pos dead, known]
      by_cases inside : idx < nodes.length
      · rw [List.getElem?_append_left inside]
      · rw [outside (Nat.le_of_not_lt inside),
          List.getElem?_append_right (Nat.le_of_not_lt inside), List.getElem?_singleton]
        split
        · constructor
          · exact fun ⟨_, held⟩ => nomatch held
          · rintro ⟨vector, held⟩
            rw [Option.some.inj held] at dead
            cases dead
        · exact Iff.rfl
    · have live : node.deleted = false := Bool.not_eq_true _ ▸ dead
      rw [if_neg dead]
      simp only [getElem?_insert, Std.compare_eq_iff_eq]
      by_cases inside : idx < nodes.length
      · rw [List.getElem?_append_left inside]
        by_cases same : node.id = id
        · rw [if_pos same]
          refine ⟨fun here => absurd (Option.some.inj here) (by omega), ?_⟩
          rintro ⟨vector, found⟩
          exact absurd same.symm (different idx vector found live)
        · rw [if_neg same, known]
      · rw [List.getElem?_append_right (Nat.le_of_not_lt inside), List.getElem?_singleton]
        by_cases same : node.id = id
        · rw [if_pos same]
          by_cases last : idx - nodes.length = 0
          · rw [if_pos last]
            exact ⟨fun _ => ⟨node.vector, by rw [← same, ← live]⟩, fun _ => by congr 1; omega⟩
          · rw [if_neg last]
            exact ⟨fun here => absurd (Option.some.inj here) (by omega), fun held => nomatch held⟩
        · rw [if_neg same, known, outside (Nat.le_of_not_lt inside)]
          split
          · constructor
            · exact fun ⟨_, held⟩ => nomatch held
            · exact fun ⟨_, held⟩ => absurd (congrArg HnswNode.id (Option.some.inj held)) same
          · exact Iff.rfl

/-- Batches from this size on are built by several threads. -/
def parallelMin : ℕ := 2048

/-- Values for nodes, at most one for each. -/
abbrev Items (α : Type) := { items : List (NodeId × α) // (items.map Prod.fst).Nodup }

/-- The arena of a batch laid out at once. -/
def HnswIndex.layOut (items : Items (List UInt32)) : HnswIndex where
  nodes := items.1.map fun item => ⟨item.1, item.2, false⟩
  idToIdx := reindex (items.1.map fun item => ⟨item.1, item.2, false⟩)
  places := by
    refine getElem?_reindex ?_
    rw [LiveApart, List.pairwise_map]
    exact (List.pairwise_map.mp items.2).imp fun apart _ _ => apart

/-- `build_parallel`: a small batch is inserted vector by vector, a large one laid out at once. -/
def HnswIndex.buildParallel (threads : ℕ) (items : Items (List UInt32)) : HnswIndex :=
  if items.1.length < parallelMin ∨ min threads items.1.length ≤ 1 then
    items.1.foldl (fun index item => index.insert item.1 item.2) .new
  else .layOut items

/-- The live node of an id. -/
theorem HnswIndex.live_eq :
    index.live id = some vector ↔ (⟨id, vector, false⟩ : HnswNode) ∈ index.nodes := by
  rw [live, Option.bind_eq_some_iff, List.mem_iff_getElem?]
  refine exists_congr fun idx => ?_
  rw [Option.map_eq_some_iff, index.places id idx]
  constructor
  · rintro ⟨⟨other, found⟩, node, held, rfl⟩
    rw [found] at held
    cases held
    exact found
  · exact fun found => ⟨⟨vector, found⟩, _, found, rfl⟩

@[simp]
theorem HnswIndex.live_new : HnswIndex.new.live id = none := by
  simp [live, new]

@[simp]
theorem HnswIndex.live_remove :
    (index.remove id).live other = if id = other then none else index.live other := by
  by_cases same : id = other
  · subst same
    rw [if_pos rfl, live, index.remove_absent id]
    rfl
  · rw [if_neg same]
    refine Option.ext fun vector => ?_
    rw [live_eq, live_eq, remove]
    split
    · rename_i idx found
      simp only [List.mem_iff_getElem?, getElem?_bury]
      obtain ⟨own, held⟩ := (index.places id idx).mp found
      refine exists_congr fun place => ?_
      by_cases here : idx = place
      · subst here
        rw [if_pos rfl, held]
        simp [same]
      · rw [if_neg here]
    · exact Iff.rfl

@[simp]
theorem HnswIndex.live_insert :
    (index.insert id vector).live other = if id = other then some vector else index.live other := by
  refine Option.ext fun held => ?_
  have kept : (⟨other, held, false⟩ : HnswNode) ∈ (index.remove id).nodes ↔
      (if id = other then none else index.live other) = some held := by
    rw [← live_eq, live_remove]
  rw [live_eq, insert, List.mem_append, kept, List.mem_singleton]
  by_cases same : id = other
  · simp [same, eq_comm]
  · simp [same, eq_comm]

/-- What a batch says of a node. -/
def Items.find {α : Type} (items : List (NodeId × α)) (id : NodeId) : Option α :=
  (items.find? fun item => item.1 = id).map Prod.snd

theorem Items.find_cons {α : Type} {item : NodeId × α} {items : List (NodeId × α)} :
    Items.find (item :: items) id = if item.1 = id then some item.2 else Items.find items id := by
  rw [Items.find, Items.find, List.find?_cons]
  by_cases same : item.1 = id <;> simp [same]

theorem Items.find_absent {α : Type} {items : List (NodeId × α)} (absent : id ∉ items.map Prod.fst) :
    Items.find items id = none := by
  rw [find, Option.map_eq_none_iff, List.find?_eq_none]
  exact fun item member same => absent (List.mem_map.mpr ⟨item, member, of_decide_eq_true same⟩)

/-- A batch says of a node what its one item for it says. -/
theorem Items.find_eq {α : Type} {items : List (NodeId × α)} {value : α}
    (apart : (items.map Prod.fst).Nodup) :
    Items.find items id = some value ↔ (id, value) ∈ items := by
  induction items with
  | nil => simp [find]
  | cons item items ih =>
    obtain ⟨fresh, apart⟩ := List.nodup_cons.mp apart
    rw [find_cons, List.mem_cons, ← ih apart]
    by_cases same : item.1 = id
    · rw [if_pos same, find_absent (same ▸ fresh), Option.some.injEq]
      constructor
      · exact fun equal => .inl (Prod.ext same.symm equal.symm)
      · rintro (equal | held)
        · rw [← equal]
        · cases held
    · rw [if_neg same]
      exact ⟨.inr, fun held => held.resolve_left fun equal => same (equal ▸ rfl)⟩

/-- A batch inserted value by value holds what it says, over what was there. -/
theorem HnswIndex.live_foldl {items : List (NodeId × List UInt32)}
    (apart : (items.map Prod.fst).Nodup) :
    (items.foldl (fun index item => index.insert item.1 item.2) index).live id =
      (Items.find items id).or (index.live id) := by
  induction items generalizing index with
  | nil => rfl
  | cons item items ih =>
    obtain ⟨fresh, apart⟩ := List.nodup_cons.mp apart
    rw [List.foldl_cons, ih apart, live_insert, Items.find_cons]
    by_cases same : item.1 = id
    · simp [same, Items.find_absent (same ▸ fresh)]
    · simp [same]

/-- An index built from a batch holds what the batch says, however it is built. -/
theorem HnswIndex.live_build {threads : ℕ} {items : Items (List UInt32)} :
    (HnswIndex.buildParallel threads items).live id = Items.find items.1 id := by
  rw [buildParallel]
  split
  · rw [live_foldl items.2, live_new, Option.or_none]
  · refine Option.ext fun vector => ?_
    rw [live_eq, Items.find_eq items.2, layOut, List.mem_map]
    constructor
    · rintro ⟨item, member, same⟩
      cases same
      exact member
    · exact fun member => ⟨_, member, rfl⟩

/-! ### Keyword indexes -/

/-- A document: how many terms its text has, and which. -/
structure DocEntry where
  len : ℕ
  terms : List String
  deriving DecidableEq, Repr

/-- An inverted index: the nodes of every term with how often it occurs, the documents, and the sum
of their lengths. -/
structure KeywordEntry where
  language : Language
  postings : ExtTreeMap String (List (NodeId × ℕ)) compare
  docs : ExtTreeMap NodeId DocEntry compare
  totalLen : ℕ

def KeywordEntry.new (language : Language) : KeywordEntry := ⟨language, ∅, ∅, 0⟩

/-- How often each term occurs. -/
def termCounts (tokens : List String) : ExtTreeMap String ℕ compare :=
  tokens.foldl (fun counts token => counts.insert token (counts.getD token 0 + 1)) ∅

/-- The document of a text; a text without terms has none. -/
def document (host : Host) (language : Language) (text : String) : Option DocEntry :=
  let tokens := host.analyze language text
  if tokens.isEmpty then none else some ⟨tokens.length, (termCounts tokens).keys⟩

def KeywordEntry.addDoc (host : Host) (entry : KeywordEntry) (node : NodeId) (text : String) :
    KeywordEntry :=
  match document host entry.language text with
  | none => entry
  | some doc =>
    { entry with
      postings := (termCounts (host.analyze entry.language text)).foldl
        (fun postings term count =>
          postings.insert term (postings.getD term [] ++ [(node, count)])) entry.postings
      docs := entry.docs.insert node doc
      totalLen := entry.totalLen + doc.len }

/-- One node taken out of the postings of a term. -/
def dropPosting (node : NodeId) (postings : ExtTreeMap String (List (NodeId × ℕ)) compare)
    (term : String) : ExtTreeMap String (List (NodeId × ℕ)) compare :=
  match postings[term]? with
  | none => postings
  | some nodes =>
    let rest := nodes.filter fun posting => posting.1 ≠ node
    if rest.isEmpty then postings.erase term else postings.insert term rest

def KeywordEntry.removeDoc (entry : KeywordEntry) (node : NodeId) : KeywordEntry :=
  match entry.docs[node]? with
  | none => entry
  | some doc =>
    { entry with
      postings := doc.terms.foldl (dropPosting node) entry.postings
      docs := entry.docs.erase node
      totalLen := entry.totalLen - doc.len }

/-! ### Kinds of index -/

variable {α σ ε γ : Type} {node : NodeId} {entry : KeywordEntry} {items : List (NodeId × String)}
  {host : Host} {tables : Tables} {plane : PlaneId} {text : String}

/-- A kind of index: what it reads off a property, where its declarations are, and its operations
on one entry. -/
structure IndexKind (α σ ε : Type) where
  read : PropValue → Option α
  rows : Tables → ExtTreeMap IndexRowKey σ compare
  setting : ε → σ
  build : σ → Items α → ε
  upsert : ε → NodeId → α → ε
  remove : ε → NodeId → ε

/-- What the entries of a kind hold: for each node the image of what it was last given. -/
structure IndexKind.Contents (kind : IndexKind α σ ε) (γ : Type) where
  image : σ → α → Option γ
  holds : ε → NodeId → Option γ
  setting_build : ∀ setting items, kind.setting (kind.build setting items) = setting
  setting_upsert : ∀ entry node value,
    kind.setting (kind.upsert entry node value) = kind.setting entry
  setting_remove : ∀ entry node, kind.setting (kind.remove entry node) = kind.setting entry
  holds_build : ∀ setting items id,
    holds (kind.build setting items) id = (Items.find items.1 id).bind (image setting)
  holds_upsert : ∀ entry node value id, holds (kind.upsert entry node value) id =
    if node = id then image (kind.setting entry) value else holds entry id
  holds_remove : ∀ entry node id, holds (kind.remove entry node) id =
    if node = id then none else holds entry id

structure VectorEntry where
  metric : Metric
  index : HnswIndex

def vectorKind (host : Host) : IndexKind (List UInt32) Metric VectorEntry where
  read := PropValue.asVector
  rows := Tables.vectorIndexes
  setting := VectorEntry.metric
  build metric items := ⟨metric, .buildParallel host.threads items⟩
  upsert entry node vector := { entry with index := entry.index.insert node vector }
  remove entry node := { entry with index := entry.index.remove node }

/-- A vector index holds the live vectors. -/
def vectorContents (host : Host) : (vectorKind host).Contents (List UInt32) where
  image _ vector := some vector
  holds entry := entry.index.live
  setting_build _ _ := rfl
  setting_upsert _ _ _ := rfl
  setting_remove _ _ := rfl
  holds_build _ items id := by simp [vectorKind, HnswIndex.live_build]
  holds_upsert _ _ _ _ := HnswIndex.live_insert
  holds_remove _ _ _ := HnswIndex.live_remove

def keywordKind (host : Host) : IndexKind String Language KeywordEntry where
  read := PropValue.asText
  rows := Tables.keywordIndexes
  setting := KeywordEntry.language
  build language items :=
    items.1.foldl (fun entry item => entry.addDoc host item.1 item.2) (.new language)
  upsert entry node text := (entry.removeDoc node).addDoc host node text
  remove := KeywordEntry.removeDoc

@[simp]
theorem KeywordEntry.language_addDoc : (entry.addDoc host node text).language = entry.language := by
  rw [addDoc]
  split <;> rfl

@[simp]
theorem KeywordEntry.language_removeDoc : (entry.removeDoc node).language = entry.language := by
  rw [removeDoc]
  split <;> rfl

theorem KeywordEntry.docs_addDoc :
    (entry.addDoc host node text).docs[other]? =
      if node = other then (document host entry.language text).or entry.docs[other]?
      else entry.docs[other]? := by
  rw [addDoc]
  cases document host entry.language text with
  | none => simp
  | some doc => simp [getElem?_insert]

@[simp]
theorem KeywordEntry.docs_removeDoc :
    (entry.removeDoc node).docs[other]? = if node = other then none else entry.docs[other]? := by
  rw [removeDoc]
  cases found : entry.docs[node]? with
  | none =>
    by_cases same : node = other
    · subst same
      simp [found]
    · simp [same]
  | some doc => simp [getElem?_erase]

/-- Documents added one after the other, over what was there. -/
theorem KeywordEntry.docs_foldl (apart : (items.map Prod.fst).Nodup)
    (absent : id ∈ items.map Prod.fst → entry.docs[id]? = none) :
    (items.foldl (fun entry item => entry.addDoc host item.1 item.2) entry).docs[id]? =
      ((Items.find items id).bind (document host entry.language)).or entry.docs[id]? := by
  induction items generalizing entry with
  | nil => rfl
  | cons item items ih =>
    obtain ⟨fresh, apart⟩ := List.nodup_cons.mp apart
    have kept : id ∈ items.map Prod.fst → (entry.addDoc host item.1 item.2).docs[id]? = none := by
      intro member
      have different : item.1 ≠ id := fun same => fresh (same ▸ member)
      rw [docs_addDoc, if_neg different]
      exact absent (List.mem_cons_of_mem _ member)
    rw [List.foldl_cons, ih apart kept, docs_addDoc, language_addDoc, Items.find_cons]
    by_cases same : item.1 = id
    · simp [same, Items.find_absent (same ▸ fresh)]
    · simp [same]

theorem KeywordEntry.language_foldl :
    (items.foldl (fun entry item => entry.addDoc host item.1 item.2) entry).language =
      entry.language := by
  induction items generalizing entry with
  | nil => rfl
  | cons item items ih => rw [List.foldl_cons, ih, language_addDoc]

/-- A keyword index holds the documents. -/
def keywordContents (host : Host) : (keywordKind host).Contents DocEntry where
  image := document host
  holds entry id := entry.docs[id]?
  setting_build _ _ := KeywordEntry.language_foldl
  setting_upsert _ _ _ := by simp [keywordKind]
  setting_remove _ _ := by simp [keywordKind]
  holds_build language items id := by
    rw [keywordKind, KeywordEntry.docs_foldl items.2 (by simp [KeywordEntry.new])]
    simp [KeywordEntry.new]
  holds_upsert entry node text id := by
    simp only [keywordKind, KeywordEntry.docs_addDoc, KeywordEntry.docs_removeDoc,
      KeywordEntry.language_removeDoc]
    split <;> simp
  holds_remove _ _ _ := KeywordEntry.docs_removeDoc

/-! ### Registries -/

/-- Where an index stands in a registry: plane, label, property. -/
abbrev IndexKey := PlaneId × String × String

instance : TransOrd IndexKey := Lib.prodTransOrd

abbrev Registry (ε : Type) := ExtTreeMap IndexKey ε compare

/-- `node_vector`, `node_text`: what an index reads off a stored node. -/
def nodeValue (read : PropValue → Option α) (tables : Tables) (plane : PlaneId) (id : NodeId)
    (property : String) : Except Error (Option α) :=
  match getNode tables plane id with
  | .error error => .error error
  | .ok none => .ok none
  | .ok (some node) => .ok (indexed read node.properties property)

/-- The nodes of a list that have a value, with it. -/
def itemsOf (read : PropValue → Option α) (tables : Tables) (plane : PlaneId) (property : String) :
    List NodeId → Except Error (List (NodeId × α))
  | [] => .ok []
  | id :: ids => do
    let value ← nodeValue read tables plane id property
    let items ← itemsOf read tables plane property ids
    return (value.map fun value => (id, value)).toList ++ items

theorem itemsOf_sublist {read : PropValue → Option α} {property : String} {ids : List NodeId}
    {items : List (NodeId × α)} (collected : itemsOf read tables plane property ids = .ok items) :
    (items.map Prod.fst).Sublist ids := by
  induction ids generalizing items with
  | nil =>
    cases collected
    exact List.Sublist.slnil
  | cons id ids ih =>
    simp only [itemsOf, bind, Except.bind] at collected
    split at collected
    · cases collected
    · rename_i value _
      split at collected
      · cases collected
      · rename_i rest gathered
        cases collected
        have kept := ih gathered
        cases value with
        | none => exact kept.cons id
        | some value => exact kept.cons_cons id

theorem nodup_scanLabel {label : String} : (scanLabel tables plane label).Nodup := by
  rw [scanLabel]
  split
  · exact List.nodup_nil
  · rename_i id _
    refine List.Nodup.map_on ?_ ((nodup_keys (t := tables.labelIdx)).filter _)
    intro a memberA b memberB same
    simp only [List.mem_filter, Bool.and_eq_true, decide_eq_true_eq] at memberA memberB
    obtain ⟨-, planeA, labelA⟩ := memberA
    obtain ⟨-, planeB, labelB⟩ := memberB
    exact Prod.ext (planeA.trans planeB.symm) (Prod.ext (labelA.trans labelB.symm) same)

/-- `build_entry`: an index over every node of its label that has the property. -/
def buildEntry (kind : IndexKind α σ ε) (tables : Tables) (registry : Registry ε)
    (plane : PlaneId) (label property : String) (setting : σ) : Except Error (Registry ε) :=
  match collected : itemsOf kind.read tables plane property (scanLabel tables plane label) with
  | .error error => .error error
  | .ok items =>
    .ok (registry.insert (plane, label, property)
      (kind.build setting ⟨items, (itemsOf_sublist collected).nodup nodup_scanLabel⟩))

/-- One index built after the other. -/
def buildEntries (kind : IndexKind α σ ε) (tables : Tables) :
    List (PlaneId × String × String × σ) → Registry ε → Except Error (Registry ε)
  | [], registry => .ok registry
  | (plane, label, property, setting) :: decls, registry => do
    let registry ← buildEntry kind tables registry plane label property setting
    buildEntries kind tables decls registry

/-- `rebuild_from`: the indexes declared in the tables, built from them. -/
def rebuildFrom (kind : IndexKind α σ ε) (tables : Tables) : Except Error (Registry ε) :=
  buildEntries kind tables (listIndexes (kind.rows tables)) ∅

/-- The indexes of a plane, with their settings. -/
def declared (kind : IndexKind α σ ε) (registry : Registry ε) (plane : PlaneId) :
    List (String × String × σ) :=
  (registry.toList.filter fun entry => entry.1.1 = plane).map fun entry =>
    (entry.1.2.1, entry.1.2.2, kind.setting entry.2)

/-- `apply_index_event`, `apply_kw_event`: an event for an index that is not there does nothing. -/
def applyEvent (kind : IndexKind α σ ε) (plane : PlaneId) (registry : Registry ε) :
    IndexEvent α → Registry ε
  | .upsert label property node value =>
    registry.modify (plane, label, property) fun entry => kind.upsert entry node value
  | .remove label property node =>
    registry.modify (plane, label, property) fun entry => kind.remove entry node
  | .removeNode node => registry.map fun _ entry => kind.remove entry node

def applyEvents (kind : IndexKind α σ ε) (plane : PlaneId) (registry : Registry ε)
    (events : List (IndexEvent α)) : Registry ε :=
  events.foldl (applyEvent kind plane) registry

/-- Forgets the indexes of a plane. -/
def dropIndexes (registry : Registry ε) (plane : PlaneId) : Registry ε :=
  registry.filter fun key _ => key.1 ≠ plane

end DrStrange.Graph
