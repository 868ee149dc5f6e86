/-
**The graph's data: ids, records, and the tables they are kept in.**

The graph encoding writes plain key-value rows. A key is a fixed-width or length-delimited
concatenation of its parts in big-endian order, so the rows of a table stand in the order of the
parts, and a table is modelled as a map from the parts to the decoded value. `Tables` holds one map
for each table, with `meta` split into the families of keys it holds; `Write` is one row put or
deleted.

Ids are natural numbers: plane, label and edge-type ids are `u32` in the code, which checks them
against the width when it allocates them, and node and edge ids are `u64` counters that one
allocation advances by one.
-/

import DrStrange.Basic
import DrStrange.Lib.Table

namespace DrStrange.Graph

open Std Lib

abbrev PlaneId := ℕ
abbrev NodeId := ℕ
abbrev EdgeId := ℕ

/-- The default plane, which always exists. -/
def PlaneId.startup : PlaneId := 0

/-! ### Properties -/

/- A float is its bit pattern: the store keeps it and never computes with it. -/
mutual

/-- A property value. -/
inductive PropValue where
  | null
  | bool (value : Bool)
  | int (value : ℤ)
  | float (bits : UInt64)
  | str (value : String)
  | bytes (value : Bytes)
  | vector (entries : List UInt32)
  | list (values : List PropValue)
  | map (entries : List (String × PropDesc))

/-- A value and an optional description of what it means. -/
inductive PropDesc where
  | mk (description : Option String) (value : PropValue)

end

/-- The properties of a record, by name. -/
abbrev Properties := ExtTreeMap String PropDesc compare

/-! ### Records -/

/-- The dictionaries that intern names. -/
inductive Dict where
  | label
  | edgeType
  deriving DecidableEq, Repr

/-- The id counters of the `meta` table. -/
inductive Counter where
  | node
  | edge
  | plane
  | label
  | edgeType
  deriving DecidableEq, Repr

/-- The two adjacency tables: by source, and by destination. -/
inductive Side where
  | fwd
  | rev
  deriving DecidableEq, Repr

/-- A plane's name and properties. -/
structure PlaneRecord where
  name : String
  props : Properties

/-- A stored node: its inline key, the ids of its labels, its properties. -/
structure NodeRow where
  externalKey : Option String
  labels : List ℕ
  props : Properties

/-- A stored edge, with the id of its type. -/
structure EdgeRow where
  src : NodeId
  dst : NodeId
  ty : ℕ
  props : Properties

/-- The summary counters of one plane. -/
structure PlaneCounters where
  nodes : ℕ
  edges : ℕ
  labels : ExtTreeMap String ℕ compare
  edgeTypes : ExtTreeMap String ℕ compare

def PlaneCounters.zero : PlaneCounters := ⟨0, 0, ∅, ∅⟩

/-- How a vector index measures distance. -/
inductive Metric where
  | cosine
  | dot
  | l2
  deriving DecidableEq, Repr

/-- The language a keyword index is analysed in. -/
inductive Language where
  | english
  | arabic
  | danish
  | dutch
  | finnish
  | french
  | german
  | greek
  | hungarian
  | italian
  | norwegian
  | portuguese
  | romanian
  | russian
  | spanish
  | swedish
  | tamil
  | turkish
  | chinese
  deriving DecidableEq, Repr

/-- `plane · label · \0 · property`, the key of an index declaration: the two names stand in one
string. -/
abbrev IndexRowKey := PlaneId × String

/-- `plane · node`, the key of a node. -/
abbrev NodeKey := PlaneId × NodeId

/-- `plane · edge`, the key of an edge. -/
abbrev EdgeKey := PlaneId × EdgeId

/-- `plane · label · node`. -/
abbrev LabelKey := PlaneId × ℕ × NodeId

instance : TransOrd LabelKey := Lib.prodTransOrd

/-- `plane · node · type · other end · edge`. -/
abbrev AdjKey := PlaneId × NodeId × ℕ × NodeId × EdgeId

instance : TransOrd AdjKey := Lib.prodTransOrd

/-- The end of an edge that a side files it under. -/
def EdgeRow.near (row : EdgeRow) : Side → NodeId
  | .fwd => row.src
  | .rev => row.dst

/-- The end of an edge that a side leads to. -/
def EdgeRow.far (row : EdgeRow) : Side → NodeId
  | .fwd => row.dst
  | .rev => row.src

/-- `adj_key` of an edge on one side. -/
def EdgeRow.adjKey (row : EdgeRow) (plane : PlaneId) (id : EdgeId) (side : Side) : AdjKey :=
  (plane, row.near side, row.ty, row.far side, id)

/-! ### Tables -/

/-- The tables of a store. -/
structure Tables where
  magic : Option Bytes
  formatVersion : Option ℕ
  next : Counter → Option ℕ
  commitSeq : Option ℕ
  commitTime : Option ℤ
  dictIds : Dict → ExtTreeMap String ℕ compare
  dictNames : Dict → ExtTreeMap ℕ String compare
  counters : ExtTreeMap PlaneId PlaneCounters compare
  vectorIndexes : ExtTreeMap IndexRowKey Metric compare
  keywordIndexes : ExtTreeMap IndexRowKey Language compare
  planes : ExtTreeMap PlaneId PlaneRecord compare
  planeNames : ExtTreeMap String PlaneId compare
  nodes : ExtTreeMap NodeKey NodeRow compare
  nodePlane : ExtTreeMap NodeId PlaneId compare
  labelIdx : ExtTreeMap LabelKey Unit compare
  extKeys : ExtTreeMap (PlaneId × String) NodeId compare
  edges : ExtTreeMap EdgeKey EdgeRow compare
  adj : Side → ExtTreeMap AdjKey Unit compare

def Tables.empty : Tables where
  magic := none
  formatVersion := none
  next := fun _ => none
  commitSeq := none
  commitTime := none
  dictIds := fun _ => ∅
  dictNames := fun _ => ∅
  counters := ∅
  vectorIndexes := ∅
  keywordIndexes := ∅
  planes := ∅
  planeNames := ∅
  nodes := ∅
  nodePlane := ∅
  labelIdx := ∅
  extKeys := ∅
  edges := ∅
  adj := fun _ => ∅

/-- One row written: put with a value, or deleted where it is `none`. -/
inductive Write where
  | magic (value : Bytes)
  | formatVersion (version : ℕ)
  | next (counter : Counter) (value : ℕ)
  | commitSeq (seq : ℕ)
  | commitTime (millis : ℤ)
  | dictId (dict : Dict) (name : String) (id : ℕ)
  | dictName (dict : Dict) (id : ℕ) (name : String)
  | counters (plane : PlaneId) (row : Option PlaneCounters)
  | vectorIndex (key : IndexRowKey) (metric : Option Metric)
  | keywordIndex (key : IndexRowKey) (language : Option Language)
  | plane (id : PlaneId) (row : Option PlaneRecord)
  | planeName (name : String) (id : Option PlaneId)
  | node (key : NodeKey) (row : Option NodeRow)
  | nodePlane (id : NodeId) (plane : Option PlaneId)
  | labelIdx (key : LabelKey) (row : Option Unit)
  | extKey (key : PlaneId × String) (id : Option NodeId)
  | edge (key : EdgeKey) (row : Option EdgeRow)
  | adj (side : Side) (key : AdjKey) (row : Option Unit)

/-- The tables after one write. -/
def Tables.apply (tables : Tables) : Write → Tables
  | .magic value => { tables with magic := some value }
  | .formatVersion version => { tables with formatVersion := some version }
  | .next counter value => { tables with next := Function.update tables.next counter (some value) }
  | .commitSeq seq => { tables with commitSeq := some seq }
  | .commitTime millis => { tables with commitTime := some millis }
  | .dictId dict name id =>
    { tables with
      dictIds := Function.update tables.dictIds dict ((tables.dictIds dict).insert name id) }
  | .dictName dict id name =>
    { tables with
      dictNames := Function.update tables.dictNames dict ((tables.dictNames dict).insert id name) }
  | .counters plane row => { tables with counters := tables.counters.write plane row }
  | .vectorIndex key metric =>
    { tables with vectorIndexes := tables.vectorIndexes.write key metric }
  | .keywordIndex key language =>
    { tables with keywordIndexes := tables.keywordIndexes.write key language }
  | .plane id row => { tables with planes := tables.planes.write id row }
  | .planeName name id => { tables with planeNames := tables.planeNames.write name id }
  | .node key row => { tables with nodes := tables.nodes.write key row }
  | .nodePlane id plane => { tables with nodePlane := tables.nodePlane.write id plane }
  | .labelIdx key row => { tables with labelIdx := tables.labelIdx.write key row }
  | .extKey key id => { tables with extKeys := tables.extKeys.write key id }
  | .edge key row => { tables with edges := tables.edges.write key row }
  | .adj side key row =>
    { tables with adj := Function.update tables.adj side ((tables.adj side).write key row) }

/-- Rows written one after the other. -/
def Tables.applyAll (tables : Tables) (writes : List Write) : Tables :=
  writes.foldl Tables.apply tables

variable {tables : Tables}

@[simp]
theorem Tables.applyAll_nil : tables.applyAll [] = tables := rfl

@[simp]
theorem Tables.applyAll_cons {write : Write} {writes : List Write} :
    tables.applyAll (write :: writes) = (tables.apply write).applyAll writes := rfl

@[simp]
theorem Tables.applyAll_append {first second : List Write} :
    tables.applyAll (first ++ second) = (tables.applyAll first).applyAll second :=
  List.foldl_append

end DrStrange.Graph
