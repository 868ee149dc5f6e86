/-
**JSON values and the dialect properties travel in.**

Plain scalars are themselves, and what JSON has no word for travels in an escape object: a vector, a
byte string, a description beside its value, and a map with a key that starts with a dollar sign,
which would otherwise read as one of the escapes. A value whose floats are finite reads back as it
was, at every level (`jsonToValue_valueToJson`).

An object is the list of its fields in key order, as a `BTreeMap` iterates; a number is an integer or
the bits of a double.
-/

import DrStrange.Lib.Binary
import DrStrange.Graph.Types

namespace DrStrange.Json

open DrStrange.Graph Lib

variable {α : Type} {entries : List (String × PropDesc)} {fields : List (String × α)} {key : String}
  {value : Value}

/-! ### Objects -/

/-- `Map::get`. -/
def get (fields : List (String × α)) (key : String) : Option α :=
  (fields.find? fun field => field.1 = key).map Prod.snd

/-- `Map::insert`: in key order, an equal key replaced. -/
def insertField : List (String × α) → String → α → List (String × α)
  | [], key, value => [(key, value)]
  | field :: fields, key, value =>
    if key < field.1 then (key, value) :: field :: fields
    else if key = field.1 then (key, value) :: fields
    else field :: insertField fields key value

/-- Pairs collected into a map. -/
def collect (pairs : List (String × α)) : List (String × α) :=
  pairs.foldl (fun fields pair => insertField fields pair.1 pair.2) []

/-- The fields of a map: each key once, in order. -/
def Ascending (fields : List (String × α)) : Prop := fields.Pairwise fun a b => a.1 < b.1

theorem get_cons {field : String × α} :
    get (field :: fields) key = if field.1 = key then some field.2 else get fields key := by
  unfold get
  rw [List.find?_cons]
  by_cases same : field.1 = key <;> simp [same]

theorem get_insertField {other : String} {value : α} :
    get (insertField fields key value) other =
      if key = other then some value else get fields other := by
  induction fields with
  | nil => simp [insertField, get]
  | cons field fields ih =>
    rw [insertField]
    by_cases before : key < field.1
    · rw [if_pos before, get_cons]
    · by_cases same : key = field.1
      · rw [if_neg before, if_pos same, get_cons, get_cons, ← same]
        split_ifs <;> rfl
      · rw [if_neg before, if_neg same, get_cons, get_cons, ih]
        by_cases found : key = other
        · rw [if_pos found, if_pos found, if_neg fun equal => same (found.trans equal.symm)]
        · rw [if_neg found, if_neg found]

theorem get_eq_none (absent : ∀ field ∈ fields, field.1 ≠ key) : get fields key = none := by
  unfold get
  rw [Option.map_eq_none_iff, List.find?_eq_none]
  exact fun field member same => absent field member (of_decide_eq_true same)

theorem insertField_last {value : α} (past : ∀ field ∈ fields, field.1 < key) :
    insertField fields key value = fields ++ [(key, value)] := by
  induction fields with
  | nil => rfl
  | cons field fields ih =>
    have less := past field List.mem_cons_self
    unfold insertField
    rw [if_neg less.asymm, if_neg less.ne', ih fun other member =>
      past other (List.mem_cons_of_mem _ member)]
    rfl

/-- A map collected from its own fields is itself. -/
theorem Ascending.collect (ascending : Ascending fields) : Json.collect fields = fields := by
  unfold Json.collect
  induction fields using List.reverseRecOn with
  | nil => rfl
  | append_singleton fields field ih =>
    rw [Ascending, List.pairwise_append] at ascending
    rw [List.foldl_concat, ih ascending.1]
    exact insertField_last fun other member => ascending.2.2 other member field List.mem_cons_self

/-! ### Values -/

/-- A number: an unsigned integer, a negative one, or a finite float. -/
inductive Number where
  | posInt (value : ℕ)
  | negInt (value : ℤ)
  | float (bits : UInt64)
  deriving DecidableEq, Repr

/-- A JSON value. -/
inductive Value where
  | null
  | bool (value : Bool)
  | number (value : Number)
  | string (value : String)
  | array (values : List Value)
  | object (fields : List (String × Value))

/-- The number as a signed word, if it fits. -/
def Number.asI64 : Number → Option ℤ
  | .posInt value => if value < 2 ^ 63 then some value else none
  | .negInt value => some value
  | .float _ => none

/-- The number as a word, if it is written as one. -/
def Number.asU64 : Number → Option ℕ
  | .posInt value => some value
  | _ => none

/-- The nearest double of an integer. -/
def Number.asF64 : Number → Option UInt64
  | .posInt value => some (Float.ofNat value).toBits
  | .negInt value => some (Float.ofInt value).toBits
  | .float bits => some bits

def Value.asU64 : Value → Option ℕ
  | .number value => value.asU64
  | _ => none

def Value.asF64 : Value → Option UInt64
  | .number value => value.asF64
  | _ => none

def Value.asStr : Value → Option String
  | .string value => some value
  | _ => none

/-- A signed integer as JSON. -/
def Value.ofInt (value : ℤ) : Value :=
  .number (if value < 0 then .negInt value else .posInt value.toNat)

/-- A double as JSON, null if it is not finite. -/
def Value.ofFloat (bits : UInt64) : Value := if finite64 bits then .number (.float bits) else .null

/-- A single as JSON, by its double. -/
def Value.ofF32 (entry : UInt32) : Value := .ofFloat (widen entry)

def Value.ofU8 (byte : UInt8) : Value := .number (.posInt byte.toNat)

/-! ### From values to JSON -/

mutual

/-- A property value as JSON. -/
def valueToJson : PropValue → Value
  | .null => .null
  | .bool value => .bool value
  | .int value => .ofInt value
  | .float bits => .ofFloat bits
  | .str value => .string value
  | .bytes value => .object [("$bytes", .array (value.map .ofU8))]
  | .vector entries => .object [("$vector", .array (entries.map .ofF32))]
  | .list values => .array (valuesToJson values)
  | .map entries =>
    let obj := Value.object (collect (entriesToJson entries))
    if entries.any fun entry => entry.1.startsWith '$' then .object [("$map", obj)] else obj

def valuesToJson : List PropValue → List Value
  | [] => []
  | value :: values => valueToJson value :: valuesToJson values

def entriesToJson : List (String × PropDesc) → List (String × Value)
  | [] => []
  | (key, desc) :: entries => (key, propdescToJson desc) :: entriesToJson entries

/-- A property value, in its own escape if it is described. -/
def propdescToJson : PropDesc → Value
  | .mk (some description) value =>
    .object [("$desc", .string description), ("$value", valueToJson value)]
  | .mk none value => valueToJson value

end

/-! ### From JSON to values -/

/-- Refuses the input. -/
def invalid {α : Type} (message : String) : Except Error α := .error (.invalidArgument message)

/-- An entry of a `$vector`. -/
def f32OfJson (value : Value) : Except Error UInt32 :=
  match value.asF64 with
  | some bits => .ok (narrow bits)
  | none => invalid "`$vector` element is not a number"

/-- An entry of a `$bytes`. -/
def u8OfJson (value : Value) : Except Error UInt8 :=
  match value.asU64.filter (· ≤ 255) with
  | some byte => .ok (.ofNat byte)
  | none => invalid "`$bytes` element is not a 0..=255 integer"

def jsonToF32Vec : Value → Except Error (List UInt32)
  | .array values => values.mapM f32OfJson
  | _ => invalid "`$vector` must be an array of numbers"

def jsonToU8Vec : Value → Except Error Bytes
  | .array values => values.mapM u8OfJson
  | _ => invalid "`$bytes` must be an array of byte values"

theorem sizeOf_get {fields : List (String × Value)} (found : get fields key = some value) :
    sizeOf value < sizeOf fields := by
  obtain ⟨field, hit, rfl⟩ := Option.map_eq_some_iff.mp found
  have member := List.sizeOf_lt_of_mem (List.mem_of_find?_eq_some hit)
  have inside : sizeOf field.2 < sizeOf field := by
    obtain ⟨key, value⟩ := field
    show sizeOf value < sizeOf (key, value)
    rw [Prod.mk.sizeOf_spec]
    omega
  omega

mutual

/-- The property value a JSON value spells. -/
def jsonToValue : Value → Except Error PropValue
  | .null => .ok .null
  | .bool value => .ok (.bool value)
  | .number value =>
    match value.asI64 with
    | some int => .ok (.int int)
    | none =>
      match value.asU64 with
      | some big => invalid s!"integer {big} is out of the i64 range"
      | none => .ok (.float (value.asF64.getD 0x7ff8000000000000))
  | .string value => .ok (.str value)
  | .array values => .list <$> jsonToValues values
  | .object fields =>
    match get fields "$vector" with
    | some vector => .vector <$> jsonToF32Vec vector
    | none =>
      match get fields "$bytes" with
      | some bytes => .bytes <$> jsonToU8Vec bytes
      | none =>
        match _found : get fields "$map" with
        | some (.object inner) => (.map ∘ collect) <$> jsonToEntries inner
        | some _ => invalid "`$map` must be a JSON object"
        | none => (.map ∘ collect) <$> jsonToEntries fields
termination_by value => (sizeOf value, 0)
decreasing_by
  · exact .left _ _ (by simp)
  · have smaller := sizeOf_get _found
    refine .left _ _ ?_
    simp only [Value.object.sizeOf_spec] at smaller ⊢
    omega
  · exact .left _ _ (by simp)

def jsonToValues : List Value → Except Error (List PropValue)
  | [] => .ok []
  | value :: values => do return (← jsonToValue value) :: (← jsonToValues values)
termination_by values => (sizeOf values, 0)

/-- The fields of an object as properties, in their order. -/
def jsonToEntries : List (String × Value) → Except Error (List (String × PropDesc))
  | [] => .ok []
  | (key, value) :: fields => do return (key, ← jsonToPropdesc value) :: (← jsonToEntries fields)
termination_by fields => (sizeOf fields, 0)

/-- A property value, taken out of its escape if it is described. -/
def jsonToPropdesc : Value → Except Error PropDesc
  | .object fields =>
    match _found : get fields "$value" with
    | some value => do
      return .mk ((get fields "$desc").bind Value.asStr) (← jsonToValue value)
    | none => .mk none <$> jsonToValue (.object fields)
  | value => .mk none <$> jsonToValue value
termination_by value => (sizeOf value, 1)
decreasing_by
  · have smaller := sizeOf_get _found
    refine .left _ _ ?_
    simp only [Value.object.sizeOf_spec]
    omega
  · exact .right _ (by simp)
  · exact .right _ (by simp)

end

/-! ### Round trip -/

/- A value as the code's types hold it, with finite floats: integers of 64 bits, vectors that fit
memory, maps in key order. -/
mutual

def Proper : PropValue → Prop
  | .int value => -2 ^ 63 ≤ value ∧ value < 2 ^ 63
  | .float bits => finite64 bits
  | .vector entries => entries.length < 2 ^ 64 ∧ ∀ entry ∈ entries, finite32 entry
  | .list values => ProperValues values
  | .map entries => Ascending entries ∧ ProperEntries entries
  | .null | .bool _ | .str _ | .bytes _ => True

def ProperValues : List PropValue → Prop
  | [] => True
  | value :: values => Proper value ∧ ProperValues values

def ProperEntries : List (String × PropDesc) → Prop
  | [] => True
  | (_, desc) :: entries => ProperDesc desc ∧ ProperEntries entries

def ProperDesc : PropDesc → Prop
  | .mk _ value => Proper value

end

theorem entriesToJson_eq (entries : List (String × PropDesc)) :
    entriesToJson entries = entries.map fun entry => (entry.1, propdescToJson entry.2) := by
  induction entries with
  | nil => rfl
  | cons entry entries ih =>
    obtain ⟨key, desc⟩ := entry
    rw [entriesToJson, ih, List.map_cons]

/-- The fields of a map keep its order. -/
theorem collect_entriesToJson (ascending : Ascending entries) :
    collect (entriesToJson entries) = entriesToJson entries := by
  refine Ascending.collect ?_
  rw [entriesToJson_eq]
  exact List.pairwise_map.mpr ascending

/-- In a map without dollar keys no escape is found. -/
theorem get_entriesToJson_of_plain (plain : ¬ entries.any fun entry => entry.1.startsWith '$')
    (dollar : key.startsWith '$') :
    get (entriesToJson entries) key = none := by
  refine get_eq_none fun field member same => plain ?_
  rw [entriesToJson_eq] at member
  obtain ⟨entry, source, rfl⟩ := List.mem_map.mp member
  exact List.any_eq_true.mpr ⟨entry, source, same ▸ dollar⟩

theorem jsonToValue_ofInt {value : ℤ} (low : -2 ^ 63 ≤ value) (high : value < 2 ^ 63) :
    jsonToValue (.ofInt value) = .ok (.int value) := by
  rw [Value.ofInt, jsonToValue]
  split_ifs with negative
  · rfl
  · have whole : Number.asI64 (.posInt value.toNat) = some value := by
      rw [Number.asI64, if_pos (by omega), Int.toNat_of_nonneg (not_lt.mp negative)]
    rw [whole]

theorem jsonToValue_ofFloat {bits : UInt64} (finite : finite64 bits) :
    jsonToValue (.ofFloat bits) = .ok (.float bits) := by
  rw [Value.ofFloat, if_pos finite, jsonToValue]
  rfl

theorem mapM_map_ok {β : Type} {write : α → β} {read : β → Except Error α} {entries : List α}
    (back : ∀ entry ∈ entries, read (write entry) = .ok entry) :
    (entries.map write).mapM read = .ok entries := by
  induction entries with
  | nil => rfl
  | cons entry entries ih =>
    rw [List.map_cons, List.mapM_cons, back entry List.mem_cons_self,
      ih fun other member => back other (List.mem_cons_of_mem _ member)]
    rfl

theorem f32OfJson_ofF32 {entry : UInt32} (finite : finite32 entry) :
    f32OfJson (.ofF32 entry) = .ok entry := by
  rw [Value.ofF32, Value.ofFloat, if_pos (finite_widen finite), f32OfJson, Value.asF64, Number.asF64]
  simp only
  rw [narrow_widen finite]

theorem u8OfJson_ofU8 (byte : UInt8) : u8OfJson (.ofU8 byte) = .ok byte := by
  have small : byte.toNat ≤ 255 := Nat.le_of_lt_succ byte.toNat_lt
  rw [u8OfJson, Value.ofU8, Value.asU64, Number.asU64, Option.filter_some,
    if_pos (by simpa using small)]
  simp only [UInt8.ofNat_toNat]

/-- No value is written as a described one. -/
theorem get_value_of_valueToJson {value : PropValue} {fields : List (String × Value)}
    (proper : Proper value) (written : valueToJson value = .object fields) :
    get fields "$value" = none := by
  cases value with
  | bytes value =>
    rw [valueToJson, Value.object.injEq] at written
    rw [← written]
    rfl
  | vector entries =>
    rw [valueToJson, Value.object.injEq] at written
    rw [← written]
    rfl
  | map entries =>
    rw [valueToJson, collect_entriesToJson proper.1] at written
    split_ifs at written with dollar
    · rw [Value.object.injEq] at written
      rw [← written]
      rfl
    · rw [Value.object.injEq] at written
      rw [← written]
      exact get_entriesToJson_of_plain dollar (by decide)
  | float bits =>
    rw [valueToJson, Value.ofFloat] at written
    split_ifs at written
  | null => cases written
  | bool value => cases written
  | int value => cases written
  | str value => cases written
  | list values => cases written

/-- What is not written as a described value reads as one without a description. -/
theorem jsonToPropdesc_of_bare
    (bare : ∀ fields, value = .object fields → get fields "$value" = none) :
    jsonToPropdesc value = .mk none <$> jsonToValue value := by
  cases value with
  | object fields =>
    rw [jsonToPropdesc]
    split
    · rename_i inner found
      rw [bare fields rfl] at found
      cases found
    · rfl
  | _ => exact jsonToPropdesc.eq_2 _ fun fields object => by cases object

theorem jsonToEntries_map (ascending : Ascending entries)
    (back : jsonToEntries (entriesToJson entries) = .ok entries) :
    (PropValue.map ∘ collect) <$> jsonToEntries (collect (entriesToJson entries)) =
      .ok (.map entries) := by
  rw [collect_entriesToJson ascending, back]
  show Except.ok (PropValue.map (collect entries)) = _
  rw [ascending.collect]

/-- A map travels plain or in its escape, and is read back from either. -/
theorem jsonToValue_map (ascending : Ascending entries)
    (back : jsonToEntries (entriesToJson entries) = .ok entries) :
    jsonToValue (valueToJson (.map entries)) = .ok (.map entries) := by
  have whole := jsonToEntries_map ascending back
  rw [valueToJson]
  split_ifs with dollar
  · rw [jsonToValue]
    exact whole
  · have absent {key : String} (special : key.startsWith '$') :
        get (collect (entriesToJson entries)) key = none := by
      rw [collect_entriesToJson ascending]
      exact get_entriesToJson_of_plain dollar special
    rw [jsonToValue, absent (by decide), absent (by decide)]
    simp only
    split
    · rename_i inner found
      rw [absent (by decide)] at found
      cases found
    · rename_i inner _ found
      rw [absent (by decide)] at found
      cases found
    · exact whole

mutual

/-- **A value whose floats are finite reads back from its JSON as it was.** -/
theorem jsonToValue_valueToJson : ∀ {value : PropValue}, Proper value →
    jsonToValue (valueToJson value) = .ok value
  | .null, _ => by rw [valueToJson, jsonToValue]
  | .bool _, _ => by rw [valueToJson, jsonToValue]
  | .int value, proper => by
    rw [valueToJson, jsonToValue_ofInt proper.1 proper.2]
  | .float bits, proper => by
    rw [valueToJson, jsonToValue_ofFloat proper]
  | .str _, _ => by rw [valueToJson, jsonToValue]
  | .bytes value, _ => by
    rw [valueToJson, jsonToValue]
    show PropValue.bytes <$> jsonToU8Vec _ = _
    rw [jsonToU8Vec, mapM_map_ok fun byte _ => u8OfJson_ofU8 byte]
    rfl
  | .vector entries, proper => by
    rw [valueToJson, jsonToValue]
    show PropValue.vector <$> jsonToF32Vec _ = _
    rw [jsonToF32Vec, mapM_map_ok fun entry member => f32OfJson_ofF32 (proper.2 entry member)]
    rfl
  | .list values, proper => by
    rw [valueToJson, jsonToValue, jsonToValues_valuesToJson proper]
    rfl
  | .map entries, proper => jsonToValue_map proper.1 (jsonToEntries_entriesToJson proper.2)

theorem jsonToValues_valuesToJson : ∀ {values : List PropValue}, ProperValues values →
    jsonToValues (valuesToJson values) = .ok values
  | [], _ => by rw [valuesToJson, jsonToValues]
  | value :: values, proper => by
    rw [valuesToJson, jsonToValues, jsonToValue_valueToJson proper.1,
      jsonToValues_valuesToJson proper.2]
    rfl

theorem jsonToEntries_entriesToJson : ∀ {entries : List (String × PropDesc)},
    ProperEntries entries → jsonToEntries (entriesToJson entries) = .ok entries
  | [], _ => by rw [entriesToJson, jsonToEntries]
  | (key, desc) :: entries, proper => by
    rw [entriesToJson, jsonToEntries, jsonToPropdesc_propdescToJson proper.1,
      jsonToEntries_entriesToJson proper.2]
    rfl

theorem jsonToPropdesc_propdescToJson : ∀ {desc : PropDesc}, ProperDesc desc →
    jsonToPropdesc (propdescToJson desc) = .ok desc
  | .mk none value, proper => by
    rw [propdescToJson, jsonToPropdesc_of_bare fun _ => get_value_of_valueToJson proper,
      jsonToValue_valueToJson proper]
    rfl
  | .mk (some description) value, proper => by
    rw [propdescToJson, jsonToPropdesc]
    show (do return PropDesc.mk (some description) (← jsonToValue (valueToJson value))) = _
    rw [jsonToValue_valueToJson proper]
    rfl

end

end DrStrange.Json
