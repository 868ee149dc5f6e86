/-
**The keys of the tables.**

A key of the record tables is its ids in big-endian bytes one after another. The `meta` table holds
many kinds of keys side by side, each begun by a text of its own, and some of them end in names the
caller chose. A declaration of an index names a label and a property with a zero byte between the
two.

No two kinds of `meta` keys ever collide (`MetaKey.family_eq`), the record keys are in the order of
their ids and a scan of a prefix yields its rows and no other (`recordKeys`). A declaration has a
key of its own, and is read back from it, exactly if neither name holds a zero character. The
parsers accept the keys that are made and no others (`parsers_exact`).
-/

import DrStrange.Lib.BigEndian
import DrStrange.Lib.Utf8
import DrStrange.Native.Txn

namespace DrStrange.Native.Keys

open Lib

abbrev PlaneId := UInt32
abbrev NodeId := UInt64
abbrev EdgeId := UInt64

/-- Big-endian decode of an exactly-4-byte slice: every parser below checks the whole key's length
first. -/
def u32be (bytes : Bytes) (_checked : bytes.length = 4) : UInt32 := .ofNat (ofBigEndian bytes)

/-- Big-endian decode of an exactly-8-byte slice. -/
def u64be (bytes : Bytes) (_checked : bytes.length = 8) : UInt64 := .ofNat (ofBigEndian bytes)

/-- `to_be_bytes` of a `u32`. -/
def be32 (n : UInt32) : Bytes := bigEndian 4 n.toNat

/-- `to_be_bytes` of a `u64`. -/
def be64 (n : UInt64) : Bytes := bigEndian 8 n.toNat

theorem fits32 (n : UInt32) : n.toNat < 256 ^ 4 := n.toNat_lt

theorem fits64 (n : UInt64) : n.toNat < 256 ^ 8 := n.toNat_lt

@[simp] theorem length_be32 (n : UInt32) : (be32 n).length = 4 := length_bigEndian

@[simp] theorem length_be64 (n : UInt64) : (be64 n).length = 8 := length_bigEndian

@[simp] theorem u32be_be32 (n : UInt32) : u32be (be32 n) (length_be32 n) = n := by
  rw [u32be, be32, ofBigEndian_bigEndian (fits32 n), UInt32.ofNat_toNat]

@[simp] theorem u64be_be64 (n : UInt64) : u64be (be64 n) (length_be64 n) = n := by
  rw [u64be, be64, ofBigEndian_bigEndian (fits64 n), UInt64.ofNat_toNat]

variable {bytes : Bytes} {stop : ℕ} {second first : MetaKey} {plane : PlaneId} {node : NodeId}

theorem be32_u32be (checked : bytes.length = 4) : be32 (u32be bytes checked) = bytes := by
  have small := ofBigEndian_lt bytes
  rw [checked] at small
  rw [u32be, be32, UInt32.toNat_ofNat_of_lt' small, bigEndian_ofBigEndian checked]

theorem be64_u64be (checked : bytes.length = 8) : be64 (u64be bytes checked) = bytes := by
  have small := ofBigEndian_lt bytes
  rw [checked] at small
  rw [u64be, be64, UInt64.toNat_ofNat_of_lt' small, bigEndian_ofBigEndian checked]

theorem be32_injective : Function.Injective be32 := fun m n same =>
  UInt32.toNat_inj.mp ((bigEndian_inj (fits32 m) (fits32 n)).mp same)

theorem be64_injective : Function.Injective be64 := fun m n same =>
  UInt64.toNat_inj.mp ((bigEndian_inj (fits64 m) (fits64 n)).mp same)

/-! ### The meta table -/

/-- The fixed names. -/
inductive MetaName where
  | magic
  | formatVersion
  | nextNodeId
  | nextEdgeId
  | nextPlaneId
  | nextLabelId
  | nextEdgeTypeId
  | commitSeq
  | commitTime
  deriving DecidableEq, Repr

def MetaName.key : MetaName → Bytes
  | .magic => asBytes "magic"
  | .formatVersion => asBytes "format_version"
  | .nextNodeId => asBytes "next_node_id"
  | .nextEdgeId => asBytes "next_edge_id"
  | .nextPlaneId => asBytes "next_plane_id"
  | .nextLabelId => asBytes "next_label_id"
  | .nextEdgeTypeId => asBytes "next_edge_type_id"
  | .commitSeq => asBytes "commit_seq"
  | .commitTime => asBytes "commit_time"

/-- Per-plane summary counters. -/
def countersKey (plane : PlaneId) : Bytes := asBytes "counters/" ++ be32 plane

def historyPrefix : Bytes := asBytes "hist:"

def historyKey (id : UInt64) : Bytes := historyPrefix ++ be64 id

/-- The id in a `hist:` key, or nothing when the key is not one. -/
def parseHistoryKey (key : Bytes) : Option UInt64 := do
  let rest ← key.dropPrefix? historyPrefix
  if checked : rest.length = 8 then return u64be rest checked else none

/-- The layout of the declarations of both kinds of indexes. -/
def indexDeclKey (start : Bytes) (plane : PlaneId) (label property : String) : Bytes :=
  start ++ be32 plane ++ asBytes label ++ [0] ++ asBytes property

def vindexPrefix : Bytes := asBytes "vidx:"

def vindexDeclKey : PlaneId → String → String → Bytes := indexDeclKey vindexPrefix

def kindexPrefix : Bytes := asBytes "kidx:"

def kindexDeclKey : PlaneId → String → String → Bytes := indexDeclKey kindexPrefix

/-- Shared parser for the `start · plane · label · \0 · property` layout. -/
def parseIndexDeclKey (start key : Bytes) : Except Error (PlaneId × String × String) :=
  match key.dropPrefix? start with
  | none => .error (.corrupt "index key missing prefix")
  | some rest =>
    if short : rest.length < 4 then .error (.corrupt "index key too short")
    else
      let plane := u32be (rest.take 4) (by rw [List.length_take]; omega)
      let tail := rest.drop 4
      match tail.findIdx? (· == 0) with
      | none => .error (.corrupt "index key missing separator")
      | some sep =>
        match fromUtf8 (tail.take sep) with
        | none => .error (.corrupt "bad index label")
        | some label =>
          match fromUtf8 (tail.drop (sep + 1)) with
          | none => .error (.corrupt "bad index property")
          | some property => .ok (plane, label, property)

def parseVindexDeclKey : Bytes → Except Error (PlaneId × String × String) :=
  parseIndexDeclKey vindexPrefix

def parseKindexDeclKey : Bytes → Except Error (PlaneId × String × String) :=
  parseIndexDeclKey kindexPrefix

def dictLabelKey (name : String) : Bytes := asBytes "dl:" ++ asBytes name

def dictLabelRevKey (id : UInt32) : Bytes := asBytes "dlr:" ++ be32 id

def dictEdgeTypeKey (name : String) : Bytes := asBytes "dt:" ++ asBytes name

def dictEdgeTypeRevKey (id : UInt32) : Bytes := asBytes "dtr:" ++ be32 id

/-! ### The record tables -/

def planeKey (plane : PlaneId) : Bytes := be32 plane

def planeNameKey (name : String) : Bytes := asBytes name

def nodeKey (plane : PlaneId) (node : NodeId) : Bytes := be32 plane ++ be64 node

def parseNodeKey (key : Bytes) : Except Error (PlaneId × NodeId) :=
  if checked : key.length = 12 then
    .ok (u32be (key.take 4) (by rw [List.length_take]; omega),
      u64be (key.drop 4) (by rw [List.length_drop]; omega))
  else .error (.corrupt s!"node key has length {key.length}, expected 12")

/-- Edges have the layout of nodes, and are parsed as such. -/
def edgeKey (plane : PlaneId) (edge : EdgeId) : Bytes := be32 plane ++ be64 edge

def nodePlaneKey (node : NodeId) : Bytes := be64 node

def extKeyKey (plane : PlaneId) (externalKey : String) : Bytes := be32 plane ++ asBytes externalKey

def labelIdxKey (plane : PlaneId) (label : UInt32) (node : NodeId) : Bytes :=
  be32 plane ++ be32 label ++ be64 node

/-- Prefix for "all nodes with `label` in `plane`". -/
def labelIdxPrefix (plane : PlaneId) (label : UInt32) : Bytes := be32 plane ++ be32 label

/-- The trailing node id of a `label_idx` key. -/
def labelIdxNode (key : Bytes) : Except Error NodeId :=
  if checked : key.length = 16 then .ok (u64be (key.drop 8) (by rw [List.length_drop]; omega))
  else .error (.corrupt s!"label_idx key has length {key.length}, expected 16")

/-- Parsed adjacency entry. -/
structure AdjEntry where
  plane : PlaneId
  from_ : NodeId
  ty : UInt32
  to_ : NodeId
  edge : EdgeId
  deriving DecidableEq, Repr

def adjKeyLen : ℕ := 4 + 8 + 4 + 8 + 8

def adjKey (plane : PlaneId) (from_ : NodeId) (ty : UInt32) (to_ : NodeId) (edge : EdgeId) : Bytes :=
  be32 plane ++ be64 from_ ++ be32 ty ++ be64 to_ ++ be64 edge

/-- Prefix for "all adjacency entries of `from` in `plane`". -/
def adjPrefix (plane : PlaneId) (from_ : NodeId) : Bytes := be32 plane ++ be64 from_

/-- Prefix for "adjacency entries of `from` via edge type `ty`". -/
def adjPrefixTyped (plane : PlaneId) (from_ : NodeId) (ty : UInt32) : Bytes :=
  be32 plane ++ be64 from_ ++ be32 ty

/-- The bytes of a key from one position to another. -/
def between (start stop : ℕ) (key : Bytes) : Bytes := (key.take stop).drop start

theorem length_between {start : ℕ} {key : Bytes} (inside : stop ≤ key.length) :
    (between start stop key).length = stop - start := by
  rw [between, List.length_drop, List.length_take, min_eq_left inside]

theorem take_append_between {start : ℕ} {key : Bytes} (order : start ≤ stop) :
    key.take start ++ between start stop key = key.take stop := by
  have first : (key.take stop).take start = key.take start := by
    rw [List.take_take, min_eq_left order]
  rw [between, ← first, List.take_append_drop]

def parseAdjKey (key : Bytes) : Except Error AdjEntry :=
  if checked : key.length = adjKeyLen then
    have whole : key.length = 32 := checked
    .ok {
      plane := u32be (key.take 4) (by rw [List.length_take]; omega)
      from_ := u64be (between 4 12 key) (length_between (by omega))
      ty := u32be (between 12 16 key) (length_between (by omega))
      to_ := u64be (between 16 24 key) (length_between (by omega))
      edge := u64be (key.drop 24) (by rw [List.length_drop]; omega) }
  else .error (.corrupt s!"adjacency key has length {key.length}, expected {adjKeyLen}")

/-! ### The kinds of meta keys -/

/-- A key of the `meta` table. -/
inductive MetaKey where
  | fixed (name : MetaName)
  | counters (plane : PlaneId)
  | history (id : UInt64)
  | vindexDecl (plane : PlaneId) (label property : String)
  | kindexDecl (plane : PlaneId) (label property : String)
  | dictLabel (name : String)
  | dictLabelRev (id : UInt32)
  | dictEdgeType (name : String)
  | dictEdgeTypeRev (id : UInt32)
  deriving DecidableEq, Repr

def MetaKey.key : MetaKey → Bytes
  | .fixed name => name.key
  | .counters plane => countersKey plane
  | .history id => historyKey id
  | .vindexDecl plane label property => vindexDeclKey plane label property
  | .kindexDecl plane label property => kindexDeclKey plane label property
  | .dictLabel name => dictLabelKey name
  | .dictLabelRev id => dictLabelRevKey id
  | .dictEdgeType name => dictEdgeTypeKey name
  | .dictEdgeTypeRev id => dictEdgeTypeRevKey id

/-- The kinds of keys. A fixed name is a kind of its own. -/
inductive MetaFamily where
  | fixed (name : MetaName)
  | counters
  | history
  | vindexDecl
  | kindexDecl
  | dictLabel
  | dictLabelRev
  | dictEdgeType
  | dictEdgeTypeRev
  deriving DecidableEq, Repr

def MetaKey.family : MetaKey → MetaFamily
  | .fixed name => .fixed name
  | .counters _ => .counters
  | .history _ => .history
  | .vindexDecl .. => .vindexDecl
  | .kindexDecl .. => .kindexDecl
  | .dictLabel _ => .dictLabel
  | .dictLabelRev _ => .dictLabelRev
  | .dictEdgeType _ => .dictEdgeType
  | .dictEdgeTypeRev _ => .dictEdgeTypeRev

/-- The text that begins the keys of a kind. -/
def MetaFamily.start : MetaFamily → Bytes
  | .fixed name => name.key
  | .counters => asBytes "counters/"
  | .history => historyPrefix
  | .vindexDecl => vindexPrefix
  | .kindexDecl => kindexPrefix
  | .dictLabel => asBytes "dl:"
  | .dictLabelRev => asBytes "dlr:"
  | .dictEdgeType => asBytes "dt:"
  | .dictEdgeTypeRev => asBytes "dtr:"

def MetaFamily.all : List MetaFamily :=
  [.fixed .magic, .fixed .formatVersion, .fixed .nextNodeId, .fixed .nextEdgeId, .fixed .nextPlaneId,
    .fixed .nextLabelId, .fixed .nextEdgeTypeId, .fixed .commitSeq, .fixed .commitTime,
    .counters, .history,
    .vindexDecl, .kindexDecl, .dictLabel, .dictLabelRev, .dictEdgeType, .dictEdgeTypeRev]

theorem MetaFamily.mem_all (family : MetaFamily) : family ∈ MetaFamily.all := by
  cases family with
  | fixed name => cases name <;> decide
  | _ => decide

/-- No kind's text begins another's. -/
theorem MetaFamily.eq_of_prefix {first second : MetaFamily} (begins : first.start <+: second.start) :
    first = second := by
  have table : ∀ first ∈ MetaFamily.all, ∀ second ∈ MetaFamily.all,
      first.start <+: second.start → first = second := by decide
  exact table first first.mem_all second second.mem_all begins

theorem indexDeclKey_eq (start : Bytes) (plane : PlaneId) (label property : String) :
    indexDeclKey start plane label property =
    start ++ (be32 plane ++ (asBytes label ++ 0 :: asBytes property)) := by
  simp [indexDeclKey]

theorem MetaKey.start_prefix (key : MetaKey) : key.family.start <+: key.key := by
  cases key with
  | fixed name => exact List.prefix_refl _
  | vindexDecl plane label property => exact ⟨_, (indexDeclKey_eq ..).symm⟩
  | kindexDecl plane label property => exact ⟨_, (indexDeclKey_eq ..).symm⟩
  | _ => exact List.prefix_append ..

/-- A key begins with the text of its own kind only. -/
theorem MetaKey.family_of_start {family : MetaFamily} {key : MetaKey}
    (begins : family.start <+: key.key) :
    key.family = family := by
  obtain shorter | longer := List.prefix_or_prefix_of_prefix begins key.start_prefix
  · exact (MetaFamily.eq_of_prefix shorter).symm
  · exact MetaFamily.eq_of_prefix longer

/-- **Keys of different kinds are different.** -/
theorem MetaKey.family_eq (same : first.key = second.key) : first.family = second.family :=
  MetaKey.family_of_start (same ▸ second.start_prefix)

/-- **A scan of a kind's text yields the keys of that kind.** -/
theorem MetaKey.scan_iff (family : MetaFamily) (key : MetaKey) :
    inRange family.start (prefixSuccessor family.start) key.key = true ↔ key.family = family := by
  rw [inRange_prefixSuccessor]
  exact ⟨MetaKey.family_of_start, fun same => same ▸ key.start_prefix⟩

/-- The declarations of indexes. -/
def MetaFamily.Declares (family : MetaFamily) : Prop := family = .vindexDecl ∨ family = .kindexDecl

instance : DecidablePred MetaFamily.Declares := fun _ => inferInstanceAs (Decidable (_ ∨ _))

/-- **But for declarations, a key says what it is the key of.** -/
theorem MetaKey.eq_of_key (same : first.key = second.key) (other : ¬ first.family.Declares) :
    first = second := by
  have kind := MetaKey.family_eq same
  cases first <;> cases second <;> cases kind
  case fixed.fixed.refl => rfl
  case counters.counters.refl => exact congrArg _ (be32_injective (List.append_cancel_left same))
  case history.history.refl => exact congrArg _ (be64_injective (List.append_cancel_left same))
  case vindexDecl.vindexDecl.refl => exact absurd (.inl rfl) other
  case kindexDecl.kindexDecl.refl => exact absurd (.inr rfl) other
  case dictLabel.dictLabel.refl => exact congrArg _ (asBytes_injective (List.append_cancel_left same))
  case dictLabelRev.dictLabelRev.refl =>
    exact congrArg _ (be32_injective (List.append_cancel_left same))
  case dictEdgeType.dictEdgeType.refl =>
    exact congrArg _ (asBytes_injective (List.append_cancel_left same))
  case dictEdgeTypeRev.dictEdgeTypeRev.refl =>
    exact congrArg _ (be32_injective (List.append_cancel_left same))

theorem dropPrefix?_eq_some {start key rest : Bytes} :
    key.dropPrefix? start = some rest ↔ key = start ++ rest := by
  rw [List.dropPrefix?_eq_some_iff]
  constructor
  · rintro ⟨begun, rfl, same⟩
    rw [eq_of_beq same]
  · rintro rfl
    exact ⟨start, rfl, beq_self_eq_true start⟩

theorem dropPrefix?_append (start rest : Bytes) : (start ++ rest).dropPrefix? start = some rest :=
  dropPrefix?_eq_some.mpr rfl

theorem parseHistoryKey_historyKey (id : UInt64) : parseHistoryKey (historyKey id) = some id := by
  simp [parseHistoryKey, historyKey, dropPrefix?_append]

/-! ### Declarations -/

section Declarations

variable {start : Bytes} {plane : PlaneId} {label property : String}

/-- No zero character. -/
def NoNul (text : String) : Prop := '\x00' ∉ text.toList

instance : DecidablePred NoNul := fun _ => inferInstanceAs (Decidable (_ ∉ _))

/-- A declaration's key is read back, and no other declaration has it. -/
structure OwnKey (key : PlaneId → String → String → Bytes)
    (parse : Bytes → Except Error (PlaneId × String × String))
    (plane : PlaneId) (label property : String) : Prop where
  parses : parse (key plane label property) = .ok (plane, label, property)
  own : ∀ plane' label' property', (plane', label', property') ≠ (plane, label, property) →
    key plane' label' property' ≠ key plane label property

/-- The parser takes the first zero byte as the separator. -/
theorem parseIndexDeclKey_indexDeclKey (plain : NoNul label) :
    parseIndexDeclKey start (indexDeclKey start plane label property) =
    .ok (plane, label, property) := by
  have sep : (asBytes label ++ 0 :: asBytes property).findIdx? (· == 0) =
      some (asBytes label).length := by
    have before : (asBytes label).findIdx? (· == 0) = none := by
      rw [List.findIdx?_eq_none_iff]
      intro byte among
      exact beq_false_of_ne fun zero => plain (zero_mem_asBytes.mp (zero ▸ among))
    rw [List.findIdx?_append, before, List.findIdx?_cons, if_pos (beq_self_eq_true 0)]
    simp
  have long : ¬ (be32 plane ++ (asBytes label ++ 0 :: asBytes property)).length < 4 := by
    rw [List.length_append, length_be32]
    omega
  have first : (be32 plane ++ (asBytes label ++ 0 :: asBytes property)).take 4 = be32 plane :=
    List.take_left' (length_be32 plane)
  have rest : (be32 plane ++ (asBytes label ++ 0 :: asBytes property)).drop 4 =
      asBytes label ++ 0 :: asBytes property := List.drop_left' (length_be32 plane)
  have after : (asBytes label ++ 0 :: asBytes property).drop ((asBytes label).length + 1) =
      asBytes property := by
    rw [List.drop_length_add_append]
    rfl
  rw [parseIndexDeclKey, indexDeclKey_eq, dropPrefix?_append]
  simp only [dif_neg long, rest, sep, List.take_left', after, fromUtf8_asBytes, first, u32be_be32]

/-- A zero character moves over from the property to the label, and the key is the same. -/
theorem indexDeclKey_shift (first second third : String) :
    indexDeclKey start plane (first ++ "\x00" ++ second) third =
      indexDeclKey start plane first (second ++ "\x00" ++ third) := by
  have zero : asBytes "\x00" = [0] := by decide
  simp [indexDeclKey, asBytes_append, zero]

theorem exists_split_of_nul {text : String} (nul : ¬ NoNul text) :
    ∃ first second, text = first ++ "\x00" ++ second ∧ NoNul first := by
  obtain ⟨before, after, split, plain⟩ := List.eq_append_cons_of_mem (not_not.mp nul)
  refine ⟨.ofList before, .ofList after, ?_, by rwa [NoNul, String.toList_ofList]⟩
  rw [← String.toList_inj, split]
  simp

theorem ne_append_nul (first second : String) : first ++ "\x00" ++ second ≠ first := by
  intro same
  have lengths := congrArg (fun text => text.toList.length) same
  simp at lengths

/-- **A declaration has a key of its own exactly if neither of its names holds a zero character.** -/
theorem ownKey_iff : OwnKey (indexDeclKey start) (parseIndexDeclKey start) plane label property ↔
    NoNul label ∧ NoNul property := by
  constructor
  · intro ⟨parses, own⟩
    by_contra nul
    rw [not_and_or] at nul
    obtain nul | nul := nul
    · obtain ⟨first, second, rfl, plain⟩ := exists_split_of_nul nul
      rw [indexDeclKey_shift, parseIndexDeclKey_indexDeclKey plain] at parses
      simp only [Except.ok.injEq, Prod.mk.injEq, true_and] at parses
      exact ne_append_nul _ _ parses.1.symm
    · obtain ⟨first, second, rfl, -⟩ := exists_split_of_nul nul
      refine own plane (label ++ "\x00" ++ first) second (fun same => ?_) (indexDeclKey_shift ..)
      exact ne_append_nul _ _ (congrArg (·.2.1) same)
  · intro ⟨plain, plain'⟩
    refine ⟨parseIndexDeclKey_indexDeclKey plain, fun plane' label' property' other same => other ?_⟩
    rw [indexDeclKey_eq, indexDeclKey_eq, List.append_cancel_left_eq] at same
    obtain ⟨planes, names⟩ := List.append_inj same (by simp)
    obtain ⟨labels, -, properties⟩ :=
      (List.append_cons_inj_of_notMem (fun zero => plain (zero_mem_asBytes.mp zero))
      fun zero => plain' (zero_mem_asBytes.mp zero)).mp names.symm
    rw [be32_injective planes, asBytes_injective labels, asBytes_injective properties]

end Declarations

/-! ### Record keys -/

/-- The store compares keys byte by byte. -/
theorem compare_eq_lt_iff {first second : Bytes} : compare first second = .lt ↔ first < second := by
  induction first generalizing second with
  | nil => cases second <;> simp [List.compare_nil_cons]
  | cons byte first ih =>
    cases second with
    | nil => simp [List.compare_cons_nil]
    | cons other second =>
      rw [List.compare_cons_cons, Ordering.then_eq_lt, Std.compare_eq_lt, Std.compare_eq_iff_eq, ih,
        List.cons_lt_cons_iff]

section Rows

variable {α β : Type} {widths more : List ℕ} {key : α → Bytes} {start : β → Bytes}
  {ids : α → List ℕ} {first : β → List ℕ}

/-- The keys are the rows of these ids in these widths. -/
structure RowsOf (widths : List ℕ) (key : α → Bytes) (ids : α → List ℕ) : Prop where
  key_eq : ∀ a, key a = row widths (ids a)
  fits : ∀ a, Fits widths (ids a)

/-- Keys are in the order of their ids. -/
def InOrder (key : α → Bytes) (ids : α → List ℕ) : Prop :=
  ∀ a b, compare (key a) (key b) = .lt ↔ ids a < ids b

/-- A scan of a prefix yields its rows and no other. -/
def Scans (start : β → Bytes) (key : α → Bytes) (among : β → α → Prop) : Prop :=
  ∀ b a, inRange (start b) (prefixSuccessor (start b)) (key a) = true ↔ among b a

theorem RowsOf.inOrder (rows : RowsOf widths key ids) : InOrder key ids := fun a b => by
  rw [compare_eq_lt_iff, rows.key_eq, rows.key_eq, row_lt_row (rows.fits a) (rows.fits b)]

theorem RowsOf.scans (starts : RowsOf widths start first) (rows : RowsOf (widths ++ more) key ids) :
    Scans start key fun b a => first b <+: ids a := fun b a => by
  rw [inRange_prefixSuccessor, starts.key_eq, rows.key_eq,
    row_prefix_row (starts.fits b) (rows.fits a)]

theorem Scans.congr {among among' : β → α → Prop} (scans : Scans start key among)
    (same : ∀ b a, among b a ↔ among' b a) : Scans start key among' :=
  fun b a => (scans b a).trans (same b a)

end Rows

def nodeIds (id : PlaneId × UInt64) : List ℕ := [id.1.toNat, id.2.toNat]

def labelIdxIds (id : PlaneId × UInt32 × NodeId) : List ℕ := [id.1.toNat, id.2.1.toNat, id.2.2.toNat]

def AdjEntry.ids (entry : AdjEntry) : List ℕ :=
  [entry.plane.toNat, entry.from_.toNat, entry.ty.toNat, entry.to_.toNat, entry.edge.toNat]

def AdjEntry.key (entry : AdjEntry) : Bytes :=
  adjKey entry.plane entry.from_ entry.ty entry.to_ entry.edge

theorem rowsOf_planeKey : RowsOf [4] planeKey fun plane => [plane.toNat] where
  key_eq _ := (List.append_nil _).symm
  fits _ := .cons (fits32 _) .nil

theorem rowsOf_nodeKey : RowsOf [4, 8] nodeKey.uncurry nodeIds where
  key_eq id := by simp [Function.uncurry, nodeKey, be32, be64, row, nodeIds]
  fits _ := .cons (fits32 _) (.cons (fits64 _) .nil)

theorem rowsOf_labelIdxPrefix :
    RowsOf [4, 4] labelIdxPrefix.uncurry fun id => [id.1.toNat, id.2.toNat] where
  key_eq id := by simp [Function.uncurry, labelIdxPrefix, be32, row]
  fits _ := .cons (fits32 _) (.cons (fits32 _) .nil)

theorem rowsOf_labelIdxKey :
    RowsOf [4, 4, 8] (fun id : PlaneId × UInt32 × NodeId => labelIdxKey id.1 id.2.1 id.2.2)
      labelIdxIds where
  key_eq id := by simp [labelIdxKey, be32, be64, row, labelIdxIds]
  fits _ := .cons (fits32 _) (.cons (fits32 _) (.cons (fits64 _) .nil))

theorem rowsOf_adjPrefixTyped :
    RowsOf [4, 8, 4] (fun id : PlaneId × NodeId × UInt32 => adjPrefixTyped id.1 id.2.1 id.2.2)
      fun id => [id.1.toNat, id.2.1.toNat, id.2.2.toNat] where
  key_eq id := by simp [adjPrefixTyped, be32, be64, row]
  fits _ := .cons (fits32 _) (.cons (fits64 _) (.cons (fits32 _) .nil))

theorem rowsOf_adjKey : RowsOf [4, 8, 4, 8, 8] AdjEntry.key AdjEntry.ids where
  key_eq entry := by simp [AdjEntry.key, adjKey, be32, be64, row, AdjEntry.ids]
  fits _ := .cons (fits32 _) (.cons (fits64 _)
    (.cons (fits32 _) (.cons (fits64 _) (.cons (fits64 _) .nil))))

theorem parseNodeKey_nodeKey (plane : PlaneId) (node : NodeId) :
    parseNodeKey (nodeKey plane node) = .ok (plane, node) := by
  simp [parseNodeKey, nodeKey, List.take_left', List.drop_left']

theorem labelIdxNode_labelIdxKey (plane : PlaneId) (label : UInt32) (node : NodeId) :
    labelIdxNode (labelIdxKey plane label node) = .ok node := by
  have start : (be32 plane ++ be32 label).length = 8 := by simp
  simp only [labelIdxNode, labelIdxKey, List.drop_left' start]
  simp

theorem between_append {start : ℕ} {first second third : Bytes} (from_ : first.length = start)
    (upTo : start + second.length = stop) :
    between start stop (first ++ (second ++ third)) = second := by
  rw [between, ← List.append_assoc, List.take_left' (by rw [List.length_append, from_, upTo]),
    List.drop_left' from_]

theorem parseAdjKey_key (entry : AdjEntry) : parseAdjKey entry.key = .ok entry := by
  obtain ⟨plane, source, ty, target, edge⟩ := entry
  have whole : (adjKey plane source ty target edge).length = adjKeyLen := by simp [adjKey, adjKeyLen]
  have first : (adjKey plane source ty target edge).take 4 = be32 plane := by
    simp only [adjKey, List.append_assoc, List.take_left' (length_be32 plane)]
  have second : between 4 12 (adjKey plane source ty target edge) = be64 source := by
    simp only [adjKey, List.append_assoc]
    exact between_append (by simp) (by simp)
  have third : between 12 16 (adjKey plane source ty target edge) = be32 ty := by
    simp only [adjKey, List.append_assoc]
    rw [← List.append_assoc]
    exact between_append (by simp) (by simp)
  have fourth : between 16 24 (adjKey plane source ty target edge) = be64 target := by
    rw [adjKey, List.append_assoc]
    exact between_append (by simp) (by simp)
  have last : (adjKey plane source ty target edge).drop 24 = be64 edge := List.drop_left' (by simp)
  simp only [AdjEntry.key, parseAdjKey, dif_pos whole, first, second, third, fourth, last,
    u32be_be32, u64be_be64]

/-- The keys of the record tables are read back, stand in the order of their ids, and a scan of a
prefix yields its rows and no other. -/
structure RecordKeys : Prop where
  node : ∀ plane node, parseNodeKey (nodeKey plane node) = .ok (plane, node)
  edge : ∀ plane edge, parseNodeKey (edgeKey plane edge) = .ok (plane, edge)
  labelIdx : ∀ plane label node, labelIdxNode (labelIdxKey plane label node) = .ok node
  adj : ∀ entry : AdjEntry, parseAdjKey entry.key = .ok entry
  nodeOrder : InOrder nodeKey.uncurry nodeIds
  edgeOrder : InOrder edgeKey.uncurry nodeIds
  labelIdxOrder :
    InOrder (fun id : PlaneId × UInt32 × NodeId => labelIdxKey id.1 id.2.1 id.2.2) labelIdxIds
  adjOrder : InOrder AdjEntry.key AdjEntry.ids
  scanAll : Scans planeKey nodeKey.uncurry fun plane id => plane = id.1
  scanEdges : Scans planeKey edgeKey.uncurry fun plane id => plane = id.1
  scanLabel : Scans labelIdxPrefix.uncurry
    (fun id : PlaneId × UInt32 × NodeId => labelIdxKey id.1 id.2.1 id.2.2) fun scanned id =>
      scanned = (id.1, id.2.1)
  neighbors : Scans adjPrefix.uncurry AdjEntry.key
    fun scanned entry => scanned = (entry.plane, entry.from_)
  neighborsTyped : Scans (fun id : PlaneId × NodeId × UInt32 => adjPrefixTyped id.1 id.2.1 id.2.2)
    AdjEntry.key fun scanned entry => scanned = (entry.plane, entry.from_, entry.ty)

theorem recordKeys : RecordKeys where
  node := parseNodeKey_nodeKey
  edge := parseNodeKey_nodeKey
  labelIdx := labelIdxNode_labelIdxKey
  adj := parseAdjKey_key
  nodeOrder := rowsOf_nodeKey.inOrder
  edgeOrder := rowsOf_nodeKey.inOrder
  labelIdxOrder := rowsOf_labelIdxKey.inOrder
  adjOrder := rowsOf_adjKey.inOrder
  scanAll := (rowsOf_planeKey.scans rowsOf_nodeKey).congr fun plane id => by
    simp [nodeIds, UInt32.toNat_inj]
  scanEdges := (rowsOf_planeKey.scans rowsOf_nodeKey).congr fun plane id => by
    simp [nodeIds, UInt32.toNat_inj]
  scanLabel := (rowsOf_labelIdxPrefix.scans rowsOf_labelIdxKey).congr fun scanned id => by
    simp [labelIdxIds, UInt32.toNat_inj, Prod.ext_iff]
  neighbors := (rowsOf_nodeKey.scans rowsOf_adjKey).congr fun scanned entry => by
    simp [nodeIds, AdjEntry.ids, UInt32.toNat_inj, UInt64.toNat_inj, Prod.ext_iff]
  neighborsTyped := (rowsOf_adjPrefixTyped.scans rowsOf_adjKey).congr fun scanned entry => by
    simp [AdjEntry.ids, UInt32.toNat_inj, UInt64.toNat_inj, Prod.ext_iff]

/-- **Distinct things have distinct keys, but for declarations with a zero character in a name.** -/
theorem distinct_keys (plane : UInt32) (label property : String) :
    (OwnKey vindexDeclKey parseVindexDeclKey plane label property ↔ NoNul label ∧ NoNul property) ∧
    (OwnKey kindexDeclKey parseKindexDeclKey plane label property ↔ NoNul label ∧ NoNul property) ∧
    (∀ first second : MetaKey, first.key = second.key → first.family = second.family) ∧
    RecordKeys :=
  ⟨ownKey_iff, ownKey_iff, fun _ _ => MetaKey.family_eq, recordKeys⟩

/-- Two declarations under one key, which is read back as the first of them. -/
theorem nul_collides :
    vindexDeclKey 0 "a\x00b" "c" = vindexDeclKey 0 "a" "b\x00c" ∧
      parseVindexDeclKey (vindexDeclKey 0 "a\x00b" "c") = .ok (0, "a", "b\x00c") ∧
      ("a\x00b", "c") ≠ ("a", "b\x00c") := by
  decide

/-! ### What the parsers accept -/

theorem parseNodeKey_iff : parseNodeKey bytes = .ok (plane, node) ↔ bytes = nodeKey plane node := by
  refine ⟨fun read => ?_, fun same => same ▸ parseNodeKey_nodeKey plane node⟩
  unfold parseNodeKey at read
  split_ifs at read with checked
  cases read
  rw [nodeKey, be32_u32be, be64_u64be, List.take_append_drop]

theorem labelIdxNode_iff :
    labelIdxNode bytes = .ok node ↔ ∃ plane label, bytes = labelIdxKey plane label node := by
  constructor
  · intro read
    unfold labelIdxNode at read
    split_ifs at read with checked
    cases read
    refine ⟨u32be (bytes.take 4) (by rw [List.length_take]; omega),
      u32be (between 4 8 bytes) (length_between (by omega)), ?_⟩
    rw [labelIdxKey, be32_u32be, be32_u32be, be64_u64be, take_append_between (by omega),
      List.take_append_drop]
  · rintro ⟨plane, label, rfl⟩
    exact labelIdxNode_labelIdxKey plane label node

theorem parseAdjKey_iff {entry : AdjEntry} : parseAdjKey bytes = .ok entry ↔ bytes = entry.key := by
  refine ⟨fun read => ?_, fun same => same ▸ parseAdjKey_key entry⟩
  unfold parseAdjKey at read
  split_ifs at read with checked
  cases read
  rw [AdjEntry.key, adjKey, be32_u32be, be32_u32be, be64_u64be, be64_u64be, be64_u64be,
    take_append_between (by omega), take_append_between (by omega), take_append_between (by omega),
    List.take_append_drop]

theorem parseHistoryKey_iff {id : UInt64} :
    parseHistoryKey bytes = some id ↔ bytes = historyKey id := by
  refine ⟨fun read => ?_, fun same => same ▸ parseHistoryKey_historyKey id⟩
  obtain ⟨rest, begun, read⟩ := Option.bind_eq_some_iff.mp read
  split_ifs at read with checked
  cases read
  rw [historyKey, be64_u64be, dropPrefix?_eq_some.mp begun]

/-- A declaration is read from its own key alone, and its label holds no zero character. -/
theorem parseIndexDeclKey_iff {start : Bytes} {label property : String} :
    parseIndexDeclKey start bytes = .ok (plane, label, property) ↔
      bytes = indexDeclKey start plane label property ∧ NoNul label := by
  constructor
  · intro read
    unfold parseIndexDeclKey at read
    split at read
    · cases read
    rename_i rest begun
    split_ifs at read with short
    dsimp only at read
    split at read
    · cases read
    rename_i sep found
    split at read
    · cases read
    rename_i label' labels
    split at read
    · cases read
    rename_i property' properties
    cases read
    obtain ⟨inside, zero, earlier⟩ := List.findIdx?_eq_some_iff_getElem.mp found
    have labels := asBytes_of_fromUtf8 labels
    have properties := asBytes_of_fromUtf8 properties
    constructor
    · have tail : (rest.drop 4).take sep ++ 0 :: (rest.drop 4).drop (sep + 1) = rest.drop 4 := by
        rw [← eq_of_beq zero, ← List.drop_eq_getElem_cons inside, List.take_append_drop]
      rw [indexDeclKey_eq, be32_u32be, labels, properties, tail, List.take_append_drop,
        ← dropPrefix?_eq_some.mp begun]
    · intro nul
      have among := zero_mem_asBytes.mpr nul
      rw [labels] at among
      obtain ⟨i, bound, at_⟩ := List.getElem_of_mem among
      rw [List.length_take] at bound
      rw [List.getElem_take] at at_
      exact earlier i (by omega) (beq_iff_eq.mpr at_)
  · rintro ⟨rfl, plain⟩
    exact parseIndexDeclKey_indexDeclKey plain

/-- **The parsers accept the keys that are made, and no others.** Of whatever bytes, each reads what
the key was made of; a `meta` key that is no declaration is the key of one thing, and a scan of the
text that begins a kind yields the keys of that kind. -/
theorem parsers_exact :
    (∀ bytes plane node, parseNodeKey bytes = .ok (plane, node) ↔ bytes = nodeKey plane node) ∧
    (∀ bytes node, labelIdxNode bytes = .ok node ↔
      ∃ plane label, bytes = labelIdxKey plane label node) ∧
    (∀ bytes entry, parseAdjKey bytes = .ok entry ↔ bytes = entry.key) ∧
    (∀ bytes id, parseHistoryKey bytes = some id ↔ bytes = historyKey id) ∧
    (∀ bytes plane label property, parseVindexDeclKey bytes = .ok (plane, label, property) ↔
      bytes = vindexDeclKey plane label property ∧ NoNul label) ∧
    (∀ bytes plane label property, parseKindexDeclKey bytes = .ok (plane, label, property) ↔
      bytes = kindexDeclKey plane label property ∧ NoNul label) ∧
    (∀ first second : MetaKey, first.key = second.key → first = second ∨ first.family.Declares) ∧
    ∀ (family : MetaFamily) (key : MetaKey),
      inRange family.start (prefixSuccessor family.start) key.key = true ↔ key.family = family :=
  ⟨fun _ _ _ => parseNodeKey_iff, fun _ _ => labelIdxNode_iff, fun _ _ => parseAdjKey_iff,
    fun _ _ => parseHistoryKey_iff, fun _ _ _ _ => parseIndexDeclKey_iff, fun _ _ _ _ =>
      parseIndexDeclKey_iff,
    fun _ _ same => Classical.or_iff_not_imp_right.mpr (MetaKey.eq_of_key same), MetaKey.scan_iff⟩

end DrStrange.Native.Keys
