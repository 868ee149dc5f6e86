/-
**A codec of the WAL body in the `postcard` wire format.**

`postcard` is an external crate, so the engine's results hold for every `WalCodec`. This one follows
the published wire format: integers and lengths as little-endian base-128 varints, a byte as itself,
a sequence as its length and its items, an option as a tag byte and its content, a struct as its
fields in order. It makes the runs below concrete.
-/

import DrStrange.Native.Wal

namespace DrStrange.Native.Postcard

/-- A varint; one unit of fuel writes one byte. -/
def varintBytes : ℕ → ℕ → Bytes
  | 0, _ => []
  | fuel + 1, n =>
    if n < 128 then [n.toUInt8] else (n % 128 + 128).toUInt8 :: varintBytes fuel (n / 128)

def varint (n : ℕ) : Bytes := varintBytes (n + 1) n

def readVarint : Bytes → Option (ℕ × Bytes)
  | [] => none
  | byte :: bytes =>
    if byte.toNat < 128 then some (byte.toNat, bytes)
    else (readVarint bytes).map fun (high, rest) => (byte.toNat - 128 + 128 * high, rest)

def blob (bytes : Bytes) : Bytes := varint bytes.length ++ bytes

def readBlob (bytes : Bytes) : Option (Bytes × Bytes) := do
  let (length, rest) ← readVarint bytes
  if rest.length < length then none else some (rest.take length, rest.drop length)

def option : Option Bytes → Bytes
  | none => [0]
  | some value => 1 :: blob value

def readOption : Bytes → Option (Option Bytes × Bytes)
  | [] => none
  | tag :: bytes =>
    if tag = 0 then some (none, bytes)
    else if tag = 1 then (readBlob bytes).map fun (value, rest) => (some value, rest)
    else none

def walOp (op : WalOp) : Bytes := op.table :: (blob op.key ++ option op.value)

def readWalOp : Bytes → Option (WalOp × Bytes)
  | [] => none
  | table :: bytes => do
    let (key, bytes) ← readBlob bytes
    let (value, bytes) ← readOption bytes
    some (⟨table, key, value⟩, bytes)

def readWalOps : ℕ → Bytes → Option (List WalOp × Bytes)
  | 0, bytes => some ([], bytes)
  | count + 1, bytes => do
    let (op, bytes) ← readWalOp bytes
    let (ops, bytes) ← readWalOps count bytes
    some (op :: ops, bytes)

def encode (batch : WalBatch) : Bytes :=
  varint batch.seq ++ varint batch.ops.length ++ (batch.ops.map walOp).flatten

/-- Bytes behind the value are ignored, as `from_bytes` does. -/
def decode (bytes : Bytes) : Option WalBatch := do
  let (seq, bytes) ← readVarint bytes
  let (count, bytes) ← readVarint bytes
  let (ops, _) ← readWalOps count bytes
  some ⟨seq, ops⟩

theorem readVarint_bytes {fuel n : ℕ} (enough : n < fuel) (rest : Bytes) :
    readVarint (varintBytes fuel n ++ rest) = some (n, rest) := by
  induction fuel generalizing n with
  | zero => cases enough
  | succ fuel ih =>
    rw [varintBytes]
    by_cases small : n < 128
    · have byte : n.toUInt8.toNat = n := UInt8.toNat_ofNat_of_lt' (by rw [UInt8.size]; omega)
      rw [if_pos small, List.singleton_append, readVarint, byte, if_pos small]
    · have byte : (n % 128 + 128).toUInt8.toNat = n % 128 + 128 :=
        UInt8.toNat_ofNat_of_lt' (by rw [UInt8.size]; omega)
      rw [if_neg small, List.cons_append, readVarint, byte, if_neg (by omega), ih (by omega)]
      simp only [Option.map_some, Option.some.injEq, Prod.mk.injEq, and_true]
      omega

theorem readVarint_varint (n : ℕ) (rest : Bytes) :
    readVarint (varint n ++ rest) = some (n, rest) := readVarint_bytes (Nat.lt_succ_self n) rest

theorem readBlob_blob (bytes rest : Bytes) : readBlob (blob bytes ++ rest) = some (bytes, rest) := by
  rw [readBlob, blob, List.append_assoc, readVarint_varint]
  simp

theorem readOption_option (value : Option Bytes) (rest : Bytes) :
    readOption (option value ++ rest) = some (value, rest) := by
  cases value with
  | none => rfl
  | some value => simp [option, readOption, readBlob_blob]

theorem readWalOp_walOp (op : WalOp) (rest : Bytes) :
    readWalOp (walOp op ++ rest) = some (op, rest) := by
  simp [walOp, readWalOp, readBlob_blob, readOption_option]

theorem readWalOps_flatten (ops : List WalOp) (rest : Bytes) :
    readWalOps ops.length ((ops.map walOp).flatten ++ rest) = some (ops, rest) := by
  induction ops with
  | nil => rfl
  | cons op ops ih =>
    rw [List.length_cons, readWalOps, List.map_cons, List.flatten_cons, List.append_assoc,
      readWalOp_walOp]
    simp [ih]

theorem decode_encode (batch : WalBatch) : decode (encode batch) = some batch := by
  have ops := readWalOps_flatten batch.ops []
  rw [List.append_nil] at ops
  rw [decode, encode, List.append_assoc, readVarint_varint]
  simp [readVarint_varint, ops]

end DrStrange.Native.Postcard

namespace DrStrange.Native

def postcardCodec : WalCodec := ⟨Postcard.encode, Postcard.decode, Postcard.decode_encode⟩

end DrStrange.Native
