/-
**The write-ahead log: records, the file behind a buffered writer, and replay.**

A record is `[u32 len][u32 crc32][body]`, little-endian, one for each committed transaction. The
body is the batch as `postcard` serializes it; the codec is a parameter that decodes what it
encoded (`WalCodec`). `postcardCodec` is a codec of that wire format, for runs on concrete inputs.

The log is a file with a cursor, and the bytes the buffered writer has not handed to it yet. An
append that fails keeps in the buffer what the file did not take, but for the rest of a body that is
too large for the buffer (`Wal.appendFailed_of_empty`).

`readRecords_append`: replay reads back whole records and stops at a torn one, however the last
record is cut (`readRecords_torn`).
-/

import DrStrange.Native.History

namespace DrStrange.Native

open Std Versioned

/-! ### CRC-32 -/

/-- One bit of the reflected IEEE 802.3 polynomial division. -/
def crc32Bit (crc : UInt32) : UInt32 := (crc >>> 1) ^^^ (0xEDB88320 &&& (0 - (crc &&& 1)))

/-- `CRC32_TABLE`: eight rounds from the byte. -/
def crc32Table (byte : UInt8) : UInt32 :=
  crc32Bit (crc32Bit (crc32Bit (crc32Bit (crc32Bit (crc32Bit (crc32Bit (crc32Bit byte.toUInt32)))))))

/-- `CRC32_SLICE8`: the table advanced by `k` more bytes. -/
def crc32Slice : ℕ → UInt8 → UInt32
  | 0, byte => crc32Table byte
  | k + 1, byte =>
    let prev := crc32Slice k byte
    (prev >>> 8) ^^^ crc32Table prev.toUInt8

/-- Eight bytes at a time, then the tail one byte at a time. -/
def crc32Loop : UInt32 → Bytes → UInt32
  | crc, b0 :: b1 :: b2 :: b3 :: b4 :: b5 :: b6 :: b7 :: rest =>
    crc32Loop (crc32Slice 7 (b0 ^^^ crc.toUInt8) ^^^ crc32Slice 6 (b1 ^^^ (crc >>> 8).toUInt8) ^^^
      crc32Slice 5 (b2 ^^^ (crc >>> 16).toUInt8) ^^^ crc32Slice 4 (b3 ^^^ (crc >>> 24).toUInt8) ^^^
      crc32Slice 3 b4 ^^^ crc32Slice 2 b5 ^^^ crc32Slice 1 b6 ^^^ crc32Slice 0 b7) rest
  | crc, tail => tail.foldl (fun crc byte => (crc >>> 8) ^^^ crc32Table (crc.toUInt8 ^^^ byte)) crc

/-- The checksum of a record. -/
def crc32 (bytes : Bytes) : UInt32 := ~~~ crc32Loop (~~~ 0) bytes

/-! ### Records -/

/-- One put or delete of a record. -/
structure WalOp where
  table : UInt8
  key : Bytes
  /-- `none` is a tombstone. -/
  value : Option Bytes
  deriving DecidableEq, Repr

/-- The ops of one commit. -/
structure WalBatch where
  seq : ℕ
  ops : List WalOp
  deriving DecidableEq, Repr

/-- The serializer of a record's body. It reads back what it wrote. -/
structure WalCodec where
  encode : WalBatch → Bytes
  decode : Bytes → Option WalBatch
  decode_encode : ∀ batch, decode (encode batch) = some batch

/-- `u32::to_le_bytes`. -/
def leBytes (n : ℕ) : Bytes :=
  [(n % 256).toUInt8, (n / 256 % 256).toUInt8, (n / 65536 % 256).toUInt8,
    (n / 16777216 % 256).toUInt8]

/-- `u32::from_le_bytes`. -/
def leNat : Bytes → ℕ
  | [b0, b1, b2, b3] => b0.toNat + 256 * b1.toNat + 65536 * b2.toNat + 16777216 * b3.toNat
  | _ => 0

theorem leBytes_length (n : ℕ) : (leBytes n).length = 4 := rfl

theorem leNat_leBytes {n : ℕ} (small : n < 4294967296) : leNat (leBytes n) = n := by
  have low : ∀ m : ℕ, (m % 256).toUInt8.toNat = m % 256 := fun m =>
    UInt8.toNat_ofNat_of_lt' (Nat.mod_lt m (by decide))
  rw [leBytes, leNat, low, low, low, low]
  omega

/-- Largest record body the `u32` length prefix can describe. -/
def maxWalRecordLen : ℕ := 4294967295

/-- `append_batch`: the bytes of one record. An oversize batch is refused before the first byte. -/
def walRecord (codec : WalCodec) (batch : WalBatch) : Except Error Bytes :=
  let body := codec.encode batch
  if body.length ≤ maxWalRecordLen then
    .ok (leBytes body.length ++ leBytes (crc32 body).toNat ++ body)
  else .error (.invalidArgument
    (s!"transaction too large for one WAL record: {body.length} bytes serialized, the limit is " ++
      s!"{maxWalRecordLen} bytes; split the write into smaller batches"))

/-- The record at the front of the bytes, and what follows it; `none` on a short or
checksum-failing one. -/
def readRecord (codec : WalCodec) (bytes : Bytes) : Option (WalBatch × Bytes) :=
  if bytes.length < 8 then none
  else
    let len := leNat (bytes.take 4)
    let crc := leNat ((bytes.drop 4).take 4)
    let rest := bytes.drop 8
    if rest.length < len then none
    else if (crc32 (rest.take len)).toNat ≠ crc then none
    else (codec.decode (rest.take len)).map fun batch => (batch, rest.drop len)

/-- The loop of `replay`: the intact records, and the bytes behind the last of them. -/
def readRecords (codec : WalCodec) : ℕ → Bytes → List WalBatch × Bytes
  | 0, bytes => ([], bytes)
  | fuel + 1, bytes =>
    match readRecord codec bytes with
    | none => ([], bytes)
    | some (batch, rest) =>
      let (batches, tail) := readRecords codec fuel rest
      (batch :: batches, tail)

/-- Stamp one op into the memtable. -/
def Store.stamp (store : Store) (seq : ℕ) (user : UserKey) (op : Op) : Store :=
  { store with
    memBytes := store.memBytes + (1 + user.key.length + 8 + op.valueLen)
    mem := store.mem.insert ⟨user, seq⟩ op }

/-- One replayed batch: its ops into the memtable, and the committed sequence lifted. -/
def Store.replayBatch (store : Store) (batch : WalBatch) : Store :=
  let stamped := batch.ops.foldl (fun store op =>
    store.stamp batch.seq ⟨op.table, op.key⟩ (op.value.elim .del .put)) store
  { stamped with committedSeq := max stamped.committedSeq batch.seq }

/-- Replay every intact record into the store; the second component is the length of the valid
prefix. -/
def replay (codec : WalCodec) (bytes : Bytes) (store : Store) : Store × ℕ :=
  let (batches, tail) := readRecords codec bytes.length bytes
  (batches.foldl Store.replayBatch store, bytes.length - tail.length)

/-- A committed batch as its record carries it. -/
def Batch.toWal (batch : Batch) : WalBatch :=
  ⟨batch.seq, batch.ops.toList.map fun pair => ⟨pair.1.table, pair.1.key, pair.2.intoValue⟩⟩

/-! ### The file -/

/-- The log file and its cursor. -/
structure LogFile where
  bytes : Bytes
  cursor : ℕ
  deriving DecidableEq, Repr

/-- A write at the cursor; a cursor past the end leaves a zero-filled hole. -/
def LogFile.write (file : LogFile) (data : Bytes) : LogFile :=
  if data.isEmpty then file
  else
    { bytes := (file.bytes ++ List.replicate (file.cursor - file.bytes.length) 0).take file.cursor ++
        data ++ file.bytes.drop (file.cursor + data.length)
      cursor := file.cursor + data.length }

def LogFile.setLen (file : LogFile) (len : ℕ) : LogFile :=
  { file with bytes := file.bytes.take len ++ List.replicate (len - file.bytes.length) 0 }

def LogFile.seek (file : LogFile) (position : ℕ) : LogFile := { file with cursor := position }

theorem LogFile.write_at_end {file : LogFile} (atEnd : file.cursor = file.bytes.length)
    (data : Bytes) :
    file.write data = ⟨file.bytes ++ data, (file.bytes ++ data).length⟩ := by
  cases data with
  | nil => simp [LogFile.write, ← atEnd]
  | cons byte data => simp [LogFile.write, atEnd, List.drop_eq_nil_of_le]

/-- The log: a file behind a `BufWriter`. -/
structure Wal where
  file : LogFile
  /-- Bytes the writer holds back. -/
  buf : Bytes
  deriving DecidableEq, Repr

/-- Append a record, flush and sync. -/
def Wal.append (wal : Wal) (record : Bytes) : Wal := ⟨wal.file.write (wal.buf ++ record), []⟩

/-! ### An append that fails -/

/-- The capacity of `BufWriter::new`. -/
def bufCapacity : ℕ := 8192

/-- `flush_buf`, over a file that takes `accepted` more bytes. What it does not take stays in the
buffer; an error carries the log as it is left. -/
def Wal.flushBuf (wal : Wal) (accepted : ℕ) : Except Wal (Wal × ℕ) :=
  if wal.buf.length ≤ accepted then
    .ok (⟨wal.file.write wal.buf, []⟩, accepted - wal.buf.length)
  else .error ⟨wal.file.write (wal.buf.take accepted), wal.buf.drop accepted⟩

/-- `write_all` of the buffered writer. What fits is copied; what is as large as the buffer goes to
the file directly, and of that nothing is kept when it fails. -/
def Wal.writeAll (data : Bytes) (wal : Wal) (accepted : ℕ) : Except Wal (Wal × ℕ) :=
  let spare := bufCapacity - wal.buf.length
  if data.length < spare then .ok (⟨wal.file, wal.buf ++ data⟩, accepted)
  else do
    let (wal, accepted) ← if spare < data.length then wal.flushBuf accepted else pure (wal, accepted)
    if data.length < bufCapacity then pure (⟨wal.file, wal.buf ++ data⟩, accepted)
    else if data.length ≤ accepted then
      pure (⟨wal.file.write data, wal.buf⟩, accepted - data.length)
    else throw ⟨wal.file.write (data.take accepted), wal.buf⟩

/-- Length, checksum and body are written one after the other, and flushed. -/
def Wal.writeRecord (wal : Wal) (record : Bytes) (accepted : ℕ) : Except Wal (Wal × ℕ) := do
  let (wal, accepted) ← wal.writeAll (record.take 4) accepted
  let (wal, accepted) ← wal.writeAll ((record.drop 4).take 4) accepted
  let (wal, accepted) ← wal.writeAll (record.drop 8) accepted
  wal.flushBuf accepted

/-- An append that fails: at the write or flush for which the file has no room left, and at the sync
if it has taken everything. -/
def Wal.appendFailed (wal : Wal) (record : Bytes) (accepted : ℕ) : Wal :=
  match wal.writeRecord record accepted with
  | .ok (wal, _) => wal
  | .error wal => wal

section Failed

variable {file : LogFile} {record : Bytes} {accepted : ℕ}

theorem LogFile.write_write (atEnd : file.cursor = file.bytes.length) (first second : Bytes) :
    (file.write first).write second = file.write (first ++ second) := by
  rw [LogFile.write_at_end atEnd, LogFile.write_at_end rfl, LogFile.write_at_end atEnd,
    List.append_assoc]

theorem Wal.writeAll_fits {wal : Wal} {data : Bytes}
    (fits : data.length ≤ bufCapacity - wal.buf.length) (small : data.length < bufCapacity) :
    Wal.writeAll data wal accepted = .ok (⟨wal.file, wal.buf ++ data⟩, accepted) := by
  rw [Wal.writeAll]
  by_cases less : data.length < bufCapacity - wal.buf.length
  · rw [if_pos less]
  · rw [if_neg less, if_neg fits.not_gt]
    simp [small, pure, bind, Except.pure, Except.bind]

/-- Length and checksum wait in the buffer for the body. -/
theorem Wal.writeRecord_of_empty :
    (⟨file, []⟩ : Wal).writeRecord record accepted =
      (Wal.writeAll (record.drop 8) ⟨file, record.take 8⟩ accepted).bind fun (wal, accepted) =>
        wal.flushBuf accepted := by
  have joined : record.take 4 ++ (record.drop 4).take 4 = record.take 8 := by rw [← List.take_add]
  have first : (record.take 4).length ≤ 4 := List.length_take_le _ _
  have second : ((record.drop 4).take 4).length ≤ 4 := List.length_take_le _ _
  rw [Wal.writeRecord, Wal.writeAll_fits (first.trans (by simp [bufCapacity]))
    (first.trans_lt (by decide))]
  show (Wal.writeAll _ ⟨file, record.take 4⟩ accepted).bind _ = _
  rw [Wal.writeAll_fits (second.trans (by simp only [bufCapacity]; omega))
    (second.trans_lt (by decide)), ← joined]
  rfl

/-- **A failed append to an empty buffer** leaves in the file what that has taken, and at most the
rest of the record in the buffer. -/
theorem Wal.appendFailed_of_empty (atEnd : file.cursor = file.bytes.length)
    (whole : 8 ≤ record.length) (short : accepted < record.length) :
    ∃ kept, (⟨file, []⟩ : Wal).appendFailed record accepted =
      ⟨file.write (record.take accepted), (record.drop accepted).take kept⟩ := by
  have header : (record.take 8).length = 8 := by simpa using whole
  have body : (record.drop 8).length = record.length - 8 := List.length_drop
  have all : (record.drop accepted).take record.length = record.drop accepted :=
    List.take_of_length_le (by simp)
  rw [Wal.appendFailed, Wal.writeRecord_of_empty]
  by_cases fits : (record.drop 8).length ≤ bufCapacity - (record.take 8).length
  · -- The whole record waits in the buffer, and the flush fails.
    have small : (record.drop 8).length < bufCapacity := by
      rw [header, bufCapacity] at fits
      rw [bufCapacity]
      omega
    refine ⟨record.length, ?_⟩
    rw [Wal.writeAll_fits fits small, List.take_append_drop, all]
    simp only [Except.bind, Wal.flushBuf, short.not_ge, if_false]
  -- The header leaves the buffer first.
  rw [Wal.writeAll, if_neg (fun less => fits less.le), if_pos (Nat.not_le.mp fits),
    Wal.flushBuf, header]
  by_cases early : 8 ≤ accepted
  · have split : record.take 8 ++ (record.drop 8).take (accepted - 8) = record.take accepted := by
      rw [← List.take_add, Nat.add_sub_cancel' early]
    have rest : (record.drop 8).drop (accepted - 8) = record.drop accepted := by
      rw [List.drop_drop, Nat.add_sub_cancel' early]
    have left : ¬ (record.drop 8).length ≤ accepted - 8 := by omega
    rw [if_pos early]
    by_cases small : (record.drop 8).length < bufCapacity
    · -- The body waits, and the flush fails.
      refine ⟨record.length, ?_⟩
      simp only [bind, Except.bind, pure, Except.pure, small, if_true, List.nil_append, Wal.flushBuf,
        left, if_false]
      rw [LogFile.write_write atEnd, split, rest, all]
    · -- The body goes to the file directly, and nothing of it is kept.
      refine ⟨0, ?_⟩
      simp only [bind, Except.bind, small, if_false, left, throw, throwThe, MonadExceptOf.throw]
      rw [LogFile.write_write atEnd, split, List.take_zero]
  · refine ⟨8 - accepted, ?_⟩
    rw [if_neg early]
    simp only [bind, Except.bind]
    rw [List.take_take, min_eq_left (Nat.not_le.mp early).le, List.drop_take]

end Failed

/-! ### Replay reads whole records back -/

section Records

variable {codec : WalCodec} {record bytes torn : Bytes} {batch : WalBatch}

theorem walRecord_ok (made : walRecord codec batch = .ok record) :
    (codec.encode batch).length ≤ maxWalRecordLen ∧
      record = leBytes (codec.encode batch).length ++ leBytes (crc32 (codec.encode batch)).toNat ++
        codec.encode batch := by
  unfold walRecord at made
  by_cases fits : (codec.encode batch).length ≤ maxWalRecordLen
  · rw [if_pos fits, Except.ok.injEq] at made
    exact ⟨fits, made.symm⟩
  · rw [if_neg fits] at made
    cases made

theorem walRecord_length (made : walRecord codec batch = .ok record) :
    record.length = 8 + (codec.encode batch).length := by
  obtain ⟨-, rfl⟩ := walRecord_ok made
  simp [leBytes_length]
  omega

theorem readRecord_append (made : walRecord codec batch = .ok record) (rest : Bytes) :
    readRecord codec (record ++ rest) = some (batch, rest) := by
  have length := walRecord_length made
  obtain ⟨fits, rfl⟩ := walRecord_ok made
  have len : leNat (leBytes (codec.encode batch).length) = (codec.encode batch).length :=
    leNat_leBytes (Nat.lt_of_le_of_lt fits (by decide))
  have crc : leNat (leBytes (crc32 (codec.encode batch)).toNat) =
      (crc32 (codec.encode batch)).toNat := leNat_leBytes (UInt32.toNat_lt _)
  have header : ∀ a b c d e f g h : UInt8, ∀ more : Bytes,
      readRecord codec ([a, b, c, d] ++ [e, f, g, h] ++ more) =
        if more.length < leNat [a, b, c, d] then none
        else if (crc32 (more.take (leNat [a, b, c, d]))).toNat ≠ leNat [e, f, g, h] then none
        else (codec.decode (more.take (leNat [a, b, c, d]))).map
          fun batch => (batch, more.drop (leNat [a, b, c, d])) := by
    intro a b c d e f g h more
    simp [readRecord]
  rw [List.append_assoc _ (codec.encode batch) rest]
  rw [leBytes] at len crc
  rw [leBytes, leBytes, header, len, crc, if_neg (by simp), List.take_left, if_neg (by simp),
    codec.decode_encode,
    List.drop_left, Option.map_some]

/-- A record cut anywhere is recognised by its length. -/
theorem readRecord_torn (made : walRecord codec batch = .ok record) (cut : torn <+: record)
    (short : torn.length < record.length) : readRecord codec torn = none := by
  have length := walRecord_length made
  obtain ⟨fits, rfl⟩ := walRecord_ok made
  rw [readRecord]
  by_cases header : torn.length < 8
  · rw [if_pos header]
  · have take : torn.take 4 = leBytes (codec.encode batch).length := by
      obtain ⟨rest, whole⟩ := cut
      have front : (torn ++ rest).take 4 = leBytes (codec.encode batch).length := by
        rw [whole, List.append_assoc, ← leBytes_length (codec.encode batch).length, List.take_left]
      rw [← front, List.take_append_of_le_length (by omega)]
    rw [if_neg header, take, leNat_leBytes (Nat.lt_of_le_of_lt fits (by decide)), if_pos]
    rw [List.length_drop]
    omega

/-- The bytes are the records of the batches, one after the other. -/
def Logged (codec : WalCodec) : List Batch → Bytes → Prop
  | [], bytes => bytes = []
  | batch :: batches, bytes => ∃ record rest, walRecord codec batch.toWal = .ok record ∧
      bytes = record ++ rest ∧ Logged codec batches rest

variable {batches : List Batch}

theorem Logged.concat {batch : Batch} (logged : Logged codec batches bytes)
    (made : walRecord codec batch.toWal = .ok record) :
    Logged codec (batches ++ [batch]) (bytes ++ record) := by
  induction batches generalizing bytes with
  | nil =>
    rw [Logged] at logged
    subst logged
    exact ⟨record, [], made, by simp, rfl⟩
  | cons first batches ih =>
    obtain ⟨head, rest, here, rfl, below⟩ := logged
    exact ⟨head, rest ++ record, here, by rw [List.append_assoc], ih below⟩

theorem Logged.length_le (logged : Logged codec batches bytes) : batches.length ≤ bytes.length := by
  induction batches generalizing bytes with
  | nil => exact Nat.zero_le _
  | cons first batches ih =>
    obtain ⟨head, rest, here, rfl, below⟩ := logged
    have more := ih below
    have length := walRecord_length here
    simp only [List.length_cons, List.length_append]
    omega

/-- Replay reads whole records up to the first that does not read. -/
theorem Logged.readRecords (logged : Logged codec batches bytes)
    (stops : readRecord codec torn = none) {fuel : ℕ} (enough : batches.length ≤ fuel) :
    readRecords codec fuel (bytes ++ torn) = (batches.map Batch.toWal, torn) := by
  induction batches generalizing bytes fuel with
  | nil =>
    rw [Logged] at logged
    subst logged
    cases fuel with
    | zero => rfl
    | succ fuel => simp [Native.readRecords, stops]
  | cons first batches ih =>
    obtain ⟨head, rest, here, rfl, below⟩ := logged
    cases fuel with
    | zero => cases enough
    | succ fuel =>
      rw [Native.readRecords, List.append_assoc, readRecord_append here]
      simp [ih below (Nat.le_of_succ_le_succ enough)]

theorem readRecord_nil : readRecord codec [] = none := rfl

theorem Logged.replay (logged : Logged codec batches bytes) (stops : readRecord codec torn = none)
    (store : Store) :
    replay codec (bytes ++ torn) store =
      ((batches.map Batch.toWal).foldl Store.replayBatch store, bytes.length) := by
  have enough : batches.length ≤ (bytes ++ torn).length :=
    logged.length_le.trans (by simp)
  rw [Native.replay, logged.readRecords stops enough]
  simp

end Records

/-! ### What a batch leaves in the memtable -/

theorem Store.foldl_stamp_mem (store : Store) (seq : ℕ) (ops : Ops) (user : UserKey) (at_ : ℕ) :
    memSource (ops.foldl (fun store user op => store.stamp seq user op) store).mem user at_ =
      if seq = at_ then ops[user]?.or (memSource store.mem user at_)
      else memSource store.mem user at_ := by
  by_cases here : seq = at_
  · rw [if_pos here]
    have observed : memSource (ops.foldl (fun store user op => store.stamp seq user op) store).mem
        user at_ = ops[user]?.elim (memSource store.mem user at_) some := by
      refine ExtTreeMap.foldl_observe (fun store : Store => memSource store.mem user at_) some user
        (fun store op => ?_) fun store other op different => ?_
      · simp only [Store.stamp]
        rw [memSource_eq, ExtTreeMap.getElem?_insert, here, if_pos (Std.compare_eq_iff_eq.mpr rfl)]
      · simp only [Store.stamp]
        rw [memSource_eq, memSource_eq, ExtTreeMap.getElem?_insert, if_neg]
        rw [Std.compare_eq_iff_eq]
        exact fun same => different (congrArg MemKey.user same)
    rw [observed]
    cases ops[user]? <;> rfl
  · rw [if_neg here]
    refine ExtTreeMap.foldl_unchanged (fun store : Store => memSource store.mem user at_)
      fun store other op => ?_
    simp only [Store.stamp]
    rw [memSource_eq, memSource_eq, ExtTreeMap.getElem?_insert, if_neg]
    rw [Std.compare_eq_iff_eq]
    exact fun same => here (congrArg MemKey.seq same)

theorem Store.foldl_stamp_frame (store : Store) (seq : ℕ) (ops : Ops) :
    let after := ops.foldl (fun store user op => store.stamp seq user op) store
    after.committedSeq = store.committedSeq ∧ after.ssts = store.ssts ∧
      after.nextSst = store.nextSst := by
  refine ⟨?_, ?_, ?_⟩
  · exact ExtTreeMap.foldl_unchanged (fun store : Store => store.committedSeq) fun _ _ _ => rfl
  · exact ExtTreeMap.foldl_unchanged (fun store : Store => store.ssts) fun _ _ _ => rfl
  · exact ExtTreeMap.foldl_unchanged (fun store : Store => store.nextSst) fun _ _ _ => rfl

/-- A batch read back stamps the ops it was written with. -/
theorem Store.replayBatch_toWal (store : Store) (batch : Batch) :
    store.replayBatch batch.toWal =
      { batch.ops.foldl (fun store user op => store.stamp batch.seq user op) store with
        committedSeq := max store.committedSeq batch.seq } := by
  have ops : ∀ op : Op, op.intoValue.elim Op.del Op.put = op := fun op => by cases op <;> rfl
  have same : batch.toWal.ops.foldl (fun store op =>
      store.stamp batch.seq ⟨op.table, op.key⟩ (op.value.elim .del .put)) store =
      batch.ops.foldl (fun store user op => store.stamp batch.seq user op) store := by
    rw [ExtTreeMap.foldl_eq_foldl_toList, Batch.toWal, List.foldl_map]
    simp only [ops]
  have frame := (store.foldl_stamp_frame batch.seq batch.ops).1
  simp only [Store.replayBatch, Batch.toWal] at same ⊢
  rw [same, frame]

theorem recorded_logOf_concat {batch : Batch} (ascending : Ascending (logOf (batches ++ [batch])))
    (user : UserKey) (at_ : ℕ) :
    recorded (logOf (batches ++ [batch])) user at_ =
      if batch.seq = at_ then batch.ops[user]?.or (recorded (logOf batches) user at_)
      else recorded (logOf batches) user at_ := by
  rw [logOf_append] at ascending ⊢
  have single : logOf [batch] = [(batch.seq, fun user => batch.ops[user]?)] := rfl
  rw [single] at ascending ⊢
  rw [recorded_append _ _ _ _ ascending.apart, recorded_singleton]
  by_cases here : batch.seq = at_
  · have missing : recorded (logOf batches) user at_ = none := by
      refine recorded_eq_none_of_forall_ne (fun other member same => ?_) user
      exact ascending.apart other member _ (List.mem_singleton.mpr rfl) (same.trans here.symm)
    rw [if_pos here, if_pos here, missing, Option.none_or, Option.or_none]
  · rw [if_neg here, if_neg here, Option.or_none]

/-- What replayed batches leave: their versions, and the largest sequence. -/
structure Replayed (batches : List Batch) (before after : Store) : Prop where
  mem : memSource after.mem = recorded (logOf batches)
  committedSeq : after.committedSeq = (batches.map Batch.seq).foldl max before.committedSeq
  ssts : after.ssts = before.ssts
  nextSst : after.nextSst = before.nextSst

theorem replayBatches (ascending : Ascending (logOf batches)) {store : Store}
    (empty : store.mem = ∅) :
    Replayed batches store ((batches.map Batch.toWal).foldl Store.replayBatch store) := by
  induction batches using List.reverseRecOn with
  | nil =>
    refine ⟨?_, rfl, rfl, rfl⟩
    funext user at_
    rw [List.map_nil, List.foldl_nil, memSource_eq, empty, ExtTreeMap.getElem?_empty]
    rfl
  | append_singleton batches batch ih =>
    have older : Ascending (logOf batches) := by
      rw [logOf_append] at ascending
      exact (List.pairwise_append.mp ascending).1
    have before := ih older
    rw [List.map_append, List.foldl_append, List.map_cons, List.map_nil, List.foldl_cons,
      List.foldl_nil, Store.replayBatch_toWal]
    obtain ⟨-, ssts, nextSst⟩ := Store.foldl_stamp_frame
      ((batches.map Batch.toWal).foldl Store.replayBatch store) batch.seq batch.ops
    refine ⟨?_, ?_, ssts.trans before.ssts, nextSst.trans before.nextSst⟩
    · funext user at_
      rw [recorded_logOf_concat ascending, Store.foldl_stamp_mem, before.mem]
    · rw [List.map_append, List.foldl_append, ← before.committedSeq]
      rfl

end DrStrange.Native
