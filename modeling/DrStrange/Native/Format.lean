/-
**The file of a run: its writer and its reader.**

A file is its data blocks, an index block with the first key and the place of each of them, a Bloom
filter and a footer. Every block and the footer end with a checksum of their bytes. A block is cut
once it holds `blockTarget` bytes, wherever that is: the versions of a key may lie in several
blocks.

The cursor of the reader is the bytes it has yet to read. Reading a data block goes through the
engine's block cache, so the reads of a run take the read of a block as an argument, in whatever
monad that read runs; `throw ()` in it is a panic. The file system's own errors are left out.
-/

import DrStrange.Lib.Decoder
import DrStrange.Native.Read
import DrStrange.Native.Wal

namespace DrStrange.Native

open Std Lib

def blockTarget : ℕ := 16 * 1024

def u32Max : ℕ := 4294967295

def u64Max : ℕ := 18446744073709551615

/-- `u64::to_le_bytes`. -/
def leBytes64 (n : ℕ) : Bytes := leBytes n ++ leBytes (n / 4294967296)

def leNat64 (bytes : Bytes) : ℕ := leNat (bytes.take 4) + 4294967296 * leNat (bytes.drop 4)

/-! ### The Bloom filter -/

structure Bloom where
  bits : Bytes
  mBits : ℕ
  k : ℕ
  deriving DecidableEq, Repr

namespace Bloom

def bitsPerKey : ℕ := 10

/-- A filter for `n` keys, rounded to a byte. -/
def new (n : ℕ) : Bloom :=
  let mBits := (max n 1 * bitsPerKey + 7) / 8 * 8
  ⟨List.replicate (mBits / 8) 0, mBits, 7⟩

/-- FNV-1a over the table and the key, and an odd second hash. -/
def hashes (table : UInt8) (key : Bytes) : UInt64 × UInt64 :=
  let h := (table :: key).foldl (fun h byte => (h ^^^ byte.toUInt64) * 0x00000100000001b3)
    0xcbf29ce484222325
  (h, ((h <<< 32) ||| (h >>> 32)) ||| 1)

/-- The bits that `k` rounds look at. -/
def probes (mBits : ℕ) : ℕ → UInt64 → UInt64 → List ℕ
  | 0, _, _ => []
  | k + 1, h1, h2 => h1.toNat % mBits :: probes mBits k (h1 + h2) h2

def positions (bloom : Bloom) (table : UInt8) (key : Bytes) : List ℕ :=
  probes bloom.mBits bloom.k (hashes table key).1 (hashes table key).2

/-- The mask of a bit in its byte. -/
def mask (bit : ℕ) : UInt8 := 1 <<< (bit % 8).toUInt8

def setBit (bits : Bytes) (bit : ℕ) : Bytes := bits.modify (bit / 8) (· ||| mask bit)

def add (bloom : Bloom) (table : UInt8) (key : Bytes) : Bloom :=
  { bloom with bits := (bloom.positions table key).foldl setBit bloom.bits }

/-- Asked bit by bit; a bit past the bytes panics. -/
def allSet (bits : Bytes) : List ℕ → Option Bool
  | [] => some true
  | bit :: rest =>
    bits[bit / 8]?.bind fun byte => if byte &&& mask bit = 0 then some false else allSet bits rest

def maybeContains (bloom : Bloom) (table : UInt8) (key : Bytes) : Option Bool :=
  if bloom.mBits = 0 then some true else allSet bloom.bits (bloom.positions table key)

def encode (bloom : Bloom) : Bytes := leBytes64 bloom.mBits ++ leBytes bloom.k ++ bloom.bits

end Bloom

/-! ### Writing -/

/-- The first key of a data block, and where it lives. -/
structure BlockRef where
  first : MemKey
  offset : ℕ
  len : ℕ
  deriving DecidableEq, Repr

def encodeKeyParts (key : MemKey) : Bytes :=
  key.user.table :: (leBytes key.user.key.length ++ key.user.key ++ leBytes64 key.seq)

def encodeEntry (entry : Entry) : Bytes :=
  encodeKeyParts entry.1 ++
    match entry.2 with
    | .put value => 1 :: (leBytes value.length ++ value)
    | .del => 0 :: leBytes 0

def encodeRef (block : BlockRef) : Bytes :=
  encodeKeyParts block.first ++ leBytes64 block.offset ++ leBytes block.len

/-- The bytes and their CRC-32. -/
def withCrc (bytes : Bytes) : Bytes := bytes ++ leBytes (crc32 bytes).toNat

/-- The block with its trailer, and the length of both. -/
def sealBlock (block : Bytes) : Except Error (Bytes × ℕ) :=
  let whole := withCrc block
  if whole.length ≤ u32Max then .ok (whole, whole.length)
  else .error (.invalidArgument "SST block exceeds u32::MAX bytes")

/-- The locals of `write_sorted`, and what it has written. -/
structure Writer where
  file : Bytes
  index : List BlockRef
  /-- The block in progress: its first key and its bytes. -/
  cur : Option (MemKey × Bytes)
  offset : ℕ
  count : ℕ
  bloom : Bloom

def Writer.new (countHint : ℕ) : Writer := ⟨[], [], none, 0, 0, .new countHint⟩

def Writer.flushBlock (writer : Writer) : Except Error Writer :=
  match writer.cur with
  | none => .ok writer
  | some (first, block) => do
    let (whole, len) ← sealBlock block
    return { writer with
      file := writer.file ++ whole
      index := writer.index ++ [⟨first, writer.offset, len⟩]
      cur := none
      offset := writer.offset + len }

/-- One entry into the block in progress, which is cut when it is full. -/
def Writer.push (writer : Writer) (entry : Except Error Entry) : Except Error Writer := do
  let entry ← entry
  let (first, block) := writer.cur.getD (entry.1, [])
  let block := block ++ encodeEntry entry
  let writer := { writer with
    cur := some (first, block)
    bloom := writer.bloom.add entry.1.user.table entry.1.user.key
    count := writer.count + 1 }
  if blockTarget ≤ block.length then writer.flushBlock else return writer

def magicV1 : ℕ := 0x53535244

def magicV2 : ℕ := 0x32535244

def footerLen : ℕ := 8 * 6 + 4 * 2

/-- What the footer says of the file. -/
structure Footer where
  indexOffset : ℕ
  indexLen : ℕ
  bloomOffset : ℕ
  bloomLen : ℕ
  count : ℕ
  maxSeq : ℕ
  magic : ℕ
  deriving DecidableEq, Repr

def Footer.encode (footer : Footer) : Bytes :=
  leBytes64 footer.indexOffset ++ leBytes64 footer.indexLen ++ leBytes64 footer.bloomOffset ++
    leBytes64 footer.bloomLen ++ leBytes64 footer.count ++ leBytes64 footer.maxSeq ++
    leBytes footer.magic

/-- The bytes of the file, once no entry is left. -/
def Writer.finish (writer : Writer) (maxSeq : ℕ) : Except Error Bytes := do
  let writer ← writer.flushBlock
  let (indexBytes, _) ← sealBlock (writer.index.flatMap encodeRef)
  let (bloomBytes, _) ← sealBlock writer.bloom.encode
  let footer := Footer.encode {
    indexOffset := writer.offset
    indexLen := indexBytes.length
    bloomOffset := writer.offset + indexBytes.length
    bloomLen := bloomBytes.length
    count := writer.count
    maxSeq
    magic := magicV2 }
  return writer.file ++ indexBytes ++ bloomBytes ++ withCrc footer

/-- Entries in order to the bytes of a file; an error among them aborts it. -/
def writeSorted (entries : List (Except Error Entry)) (countHint maxSeq : ℕ) : Except Error Bytes :=
  do
  (← entries.foldlM Writer.push (.new countHint)).finish maxSeq

/-- The flush of a memtable. -/
def writeMemtable (mem : Memtable) (maxSeq : ℕ) : Except Error Bytes :=
  writeSorted (mem.toList.map .ok) mem.size maxSeq

/-! ### The cursor -/

namespace Cursor

def u8 : Decoder UInt8 UInt8 := Decoder.next

def u32 : Decoder UInt8 ℕ := leNat <$> Decoder.take 4

def u64 : Decoder UInt8 ℕ := leNat64 <$> Decoder.take 8

end Cursor

def Bloom.decode (bytes : Bytes) : Option Bloom := do
  let (mBits, bytes) ← Cursor.u64 bytes
  let (k, bits) ← Cursor.u32 bytes
  if bits.length ≠ mBits / 8 then none else some ⟨bits, mBits, k⟩

def decodeKey : Decoder UInt8 MemKey := do
  let table ← Cursor.u8
  let keyLen ← Cursor.u32
  let key ← Decoder.take keyLen
  let seq ← Cursor.u64
  return ⟨⟨table, key⟩, seq⟩

def decodeEntry : Decoder UInt8 Entry := do
  let key ← decodeKey
  let flag ← Cursor.u8
  let valLen ← Cursor.u32
  let val ← Decoder.take valLen
  return (key, if flag = 1 then .put val else .del)

def decodeRef : Decoder UInt8 BlockRef := do
  let first ← decodeKey
  let offset ← Cursor.u64
  let len ← Cursor.u32
  return ⟨first, offset, len⟩

/-- The fields of the footer, and its checksum. -/
def decodeFooter : Decoder UInt8 (Footer × ℕ) := do
  let indexOffset ← Cursor.u64
  let indexLen ← Cursor.u64
  let bloomOffset ← Cursor.u64
  let bloomLen ← Cursor.u64
  let count ← Cursor.u64
  let maxSeq ← Cursor.u64
  let magic ← Cursor.u32
  let crc ← Cursor.u32
  return ({ indexOffset, indexLen, bloomOffset, bloomLen, count, maxSeq, magic }, crc)

/-- The next entry of a data block; `none` exactly at its end. -/
def nextEntry (bytes : Bytes) : Except Error (Option (Entry × Bytes)) :=
  if bytes.isEmpty then .ok none
  else
    match decodeEntry bytes with
    | some (entry, rest) => .ok (some (entry, rest))
    | none => .error (.corrupt "SST data block ends mid-entry")

/-! ### Blocks -/

def readAt (file : Bytes) (offset len : ℕ) : Option Bytes :=
  if offset + len ≤ file.length then some ((file.drop offset).take len) else none

/-- A block of the file, checked against its trailer. -/
def readBlockAt (file : Bytes) (version : Version) (what : String) (offset len : ℕ) :
    Except Error Bytes :=
  match readAt file offset len with
  | none => .error (.corrupt s!"SST {what} block runs past end of file")
  | some buf =>
    match version with
    | .v1 => .ok buf
    | .v2 =>
      if buf.length < 4 then .error (.corrupt s!"SST {what} block shorter than its crc")
      else
        let payload := buf.take (buf.length - 4)
        if (crc32 payload).toNat ≠ leNat (buf.drop (buf.length - 4)) then
          .error (.corrupt s!"SST {what} block crc mismatch")
        else .ok payload

/-- A length that the file declares cannot exceed it. -/
def checkedLen (what : String) (offset len fileLen : ℕ) : Except Error ℕ :=
  if offset + len ≤ fileLen then .ok len
  else .error (.corrupt s!"SST {what} block lies outside the file")

/-! ### An open file -/

structure SstFile where
  file : Bytes
  version : Version
  index : List BlockRef
  bloom : Bloom
  maxSeq : ℕ
  count : ℕ

theorem length_withCrc (bytes : Bytes) : (withCrc bytes).length = bytes.length + 4 := by
  simp [withCrc, leBytes_length]

theorem Cursor.u32_takes : Decoder.Takes 4 Cursor.u32 := .map (.take 4) leNat

theorem Cursor.u64_takes : Decoder.Takes 8 Cursor.u64 := .map (.take 8) leNat64

theorem decodeKey_takes : Decoder.Takes 13 decodeKey := by
  refine .mono (m := 1 + (4 + 8)) (.bind .next fun table =>
    .bind Cursor.u32_takes fun keyLen => ?_) le_rfl
  exact .mono (m := keyLen + (8 + 0))
    (.bind (.take keyLen) fun key => .bind Cursor.u64_takes fun seq => .pure _) (by omega)

theorem decodeRef_takes : Decoder.Takes 25 decodeRef :=
  .bind decodeKey_takes fun _ => .bind Cursor.u64_takes fun _ =>
    .bind Cursor.u32_takes fun _ => .pure _

theorem decodeEntry_takes : Decoder.Takes 18 decodeEntry := by
  refine .mono (m := 13 + (1 + (4 + 0))) (.bind decodeKey_takes fun key => .bind .next fun flag =>
    .bind Cursor.u32_takes fun valLen => ?_) le_rfl
  exact .mono (m := valLen + 0) (.bind (.take valLen) fun val => .pure _) (Nat.zero_le _)

/-- The references of an index block. A data block must lie before the index. -/
def decodeIndex (indexOffset : ℕ) (bytes : Bytes) : Except Error (List BlockRef) :=
  if bytes.isEmpty then .ok []
  else
    match _read : decodeRef bytes with
    | none => .error (.corrupt "bad SST index")
    | some (block, rest) => do
      let _ ← checkedLen "data" block.offset block.len indexOffset
      return block :: (← decodeIndex indexOffset rest)
termination_by bytes.length
decreasing_by
  have taken := decodeRef_takes _read
  omega

def Version.ofMagic (magic : ℕ) : Except Error Version :=
  if magic = magicV1 then .ok .v1
  else if magic = magicV2 then .ok .v2
  else .error (.corrupt "SST footer magic/crc mismatch")

/-- The footer of a file, and the version its magic names. -/
def readFooter (file : Bytes) : Except Error (Footer × Version) :=
  if file.length < footerLen then .error (.corrupt "SST too short")
  else
    let bytes := file.drop (file.length - footerLen)
    match decodeFooter bytes with
    | none => .error (.corrupt "bad SST footer")
    | some ((footer, crc), _) => do
      let version ← Version.ofMagic footer.magic
      if (crc32 (bytes.take (footerLen - 4))).toNat ≠ crc then
        throw (.corrupt "SST footer magic/crc mismatch")
      else return (footer, version)

/-- `Sst::open`. -/
def SstFile.openBytes (file : Bytes) : Except Error SstFile := do
  let (footer, version) ← readFooter file
  let dataEnd := file.length - footerLen
  let bloomLen ← checkedLen "bloom" footer.bloomOffset footer.bloomLen dataEnd
  let buf ← readBlockAt file version "bloom" footer.bloomOffset bloomLen
  let bloom ← (Bloom.decode buf).elim (throw (.corrupt "bad SST bloom")) pure
  let indexLen ← checkedLen "index" footer.indexOffset footer.indexLen dataEnd
  let buf ← readBlockAt file version "index" footer.indexOffset indexLen
  let index ← decodeIndex footer.indexOffset buf
  return { file, version, index, bloom, maxSeq := footer.maxSeq, count := footer.count }

theorem nextEntry_shorter {bytes rest : Bytes} {entry : Entry}
    (read : nextEntry bytes = .ok (some (entry, rest))) : rest.length < bytes.length := by
  rw [nextEntry] at read
  split_ifs at read
  · cases read
  · split at read
    · next found =>
        cases read
        have taken := decodeEntry_takes found
        omega
    · cases read

/-! ### Reads -/

/-- What a scan makes of an entry: it goes on, or it returns. -/
inductive Scan (σ α : Type) where
  | next (state : σ)
  | done (answer : α)
  deriving DecidableEq

/-- `while let Some(e) = next_entry(&mut c)?` over a data block. -/
def scanBlock {σ α : Type} (visit : Entry → σ → Scan σ α) (bytes : Bytes) (state : σ) :
    Except Error (Scan σ α) :=
  match _read : nextEntry bytes with
  | .error error => .error error
  | .ok none => .ok (.next state)
  | .ok (some (entry, rest)) =>
    match visit entry state with
    | .next state => scanBlock visit rest state
    | .done answer => .ok (.done answer)
termination_by bytes.length
decreasing_by exact nextEntry_shorter _read

section

variable {m : Type → Type} [Monad m] {σ α : Type}

/-- A scan over the blocks, each read when the scan comes to it. -/
def scanBlocks (read : BlockRef → ExceptT Error m Bytes) (visit : Entry → σ → Scan σ α) :
    List BlockRef → σ → ExceptT Error m (Scan σ α)
  | [], state => pure (.next state)
  | block :: blocks, state => do
    let buf ← read block
    match ← ExceptT.mk (pure (scanBlock visit buf state)) with
    | .next state => scanBlocks read visit blocks state
    | .done answer => pure (.done answer)

/-- The loop body of `Sst::get`. -/
def getVisit (user : UserKey) (snapshot : ℕ) (entry : Entry) (_ : Unit) : Scan Unit (Option Op) :=
  match compare entry.1.user user with
  | .lt => .next ()
  | .gt => .done none
  | .eq => if entry.1.seq ≤ snapshot then .done (some entry.2) else .next ()

/-- The loop body of `Sst::range`, over the key taken last and the map filled so far. -/
def rangeVisit (table : UInt8) (start : Bytes) (stop : Option Bytes) (snapshot : ℕ) (entry : Entry)
    (state : Option Bytes × RangeOps) : Scan (Option Bytes × RangeOps) RangeOps :=
  if entry.1.user.table ≠ table then
    if compare entry.1.user.table table = .gt then .done state.2 else .next state
  else if compare entry.1.user.key start = .lt then .next state
  else if stop.any fun bound => (compare bound entry.1.user.key).isLE then .done state.2
  else if state.1 = some entry.1.user.key then .next state
  else if snapshot < entry.1.seq then .next state
  else .next (some entry.1.user.key, state.2.insert entry.1.user.key entry.2)

namespace SstFile

/-- `partition_point`: how many blocks start at or before the key's newest conceivable version. -/
def partitionPoint (sst : SstFile) (user : UserKey) : ℕ :=
  (sst.index.takeWhile fun block => compare block.first ⟨user, u64Max⟩ ≠ .gt).length

/-- The first block that may hold the versions of the key. -/
def startBlock (sst : SstFile) (user : UserKey) : Option ℕ :=
  if sst.index.isEmpty then none else some (sst.partitionPoint user - 1)

/-- `Sst::get`. -/
def get [MonadExceptOf Unit m] (sst : SstFile) (read : BlockRef → ExceptT Error m Bytes)
    (table : UInt8) (key : Bytes) (snapshot : ℕ) : ExceptT Error m (Option Op) :=
  match sst.bloom.maybeContains table key with
  | none => ExceptT.lift (throw ())
  | some false => pure none
  | some true =>
    match sst.startBlock ⟨table, key⟩ with
    | none => pure none
    | some start => do
      match ← scanBlocks read (getVisit ⟨table, key⟩ snapshot) (sst.index.drop start) () with
      | .next () => pure none
      | .done found => pure found

/-- `Sst::range`. -/
def range (sst : SstFile) (read : BlockRef → ExceptT Error m Bytes) (table : UInt8) (start : Bytes)
    (stop : Option Bytes) (snapshot : ℕ) (out : RangeOps) : ExceptT Error m RangeOps :=
  match sst.startBlock ⟨table, start⟩ with
  | none => pure out
  | some first => do
    match ← scanBlocks read (rangeVisit table start stop snapshot) (sst.index.drop first)
      (none, out) with
    | .next state => pure state.2
    | .done out => pure out

end SstFile

end

/-! ### The sweep of a compaction -/

/-- The items of a block, up to its end or the first that does not decode. -/
def blockItems (bytes : Bytes) : List (Except Error Entry) :=
  match _read : nextEntry bytes with
  | .error error => [.error error]
  | .ok none => []
  | .ok (some (entry, rest)) => .ok entry :: blockItems rest
termination_by bytes.length
decreasing_by exact nextEntry_shorter _read

namespace SstFile

/-- The payload of a data block, past the cache. -/
def readData (sst : SstFile) (block : BlockRef) : Except Error Bytes :=
  readBlockAt sst.file sst.version "data" block.offset block.len

/-- What the iterator yields over the blocks. An error is the last item. -/
def sweep (sst : SstFile) : List BlockRef → List (Except Error Entry)
  | [] => []
  | block :: blocks =>
    match sst.readData block with
    | .error error => [.error error]
    | .ok buf =>
      let items := blockItems buf
      if items.any fun item => !item.isOk then items else items ++ sst.sweep blocks

/-- `Sst::entries`, to its end. -/
def entries (sst : SstFile) : List (Except Error Entry) := sst.sweep sst.index

end SstFile

end DrStrange.Native
