/-
**A written file reads as the run it was written from.**

The writer lays its entries out in blocks, none of them empty (`Block`), with a reference to each
(`refs`). `Writer.Laid` says what it has written so far and what it still holds; one entry more
keeps it (`Laid.push`), so a whole run does. What is written is decoded again, and nothing is lost
where a block is cut. The search starts at a block before which only lesser keys stand
(`lesser_before`), so the scan of the blocks from there on is the scan of all entries
(`scanBlocks_written`). The filter has a bit for every key it was given and keeps it
(`Bloom.maybeContains_added`).

`written_shows`: the file opens, and its reads are the reads of the run.
-/

import DrStrange.Lib.Fallible
import DrStrange.Lib.Outcome
import DrStrange.Native.Format

namespace DrStrange.Native

open Std Lib Decoder Versioned

/-! ### Codes of the fields -/

variable {blocks : List Block} {user : UserKey} {block : Block}
  {file before bytes after rest : Bytes} {ref : BlockRef}
  {offset len n countHint snapshot maxSeq : ℕ} {footer : Footer}

theorem leNat64_leBytes64 (small : n ≤ u64Max) : leNat64 (leBytes64 n) = n := by
  have low : leNat (leBytes n) = n % 4294967296 := by
    have same : leBytes n = leBytes (n % 4294967296) := by
      simp only [leBytes, List.cons.injEq, and_true]
      refine ⟨?_, ?_, ?_, ?_⟩ <;> congr 1 <;> omega
    rw [same, leNat_leBytes (Nat.mod_lt _ (by decide))]
  have high : leNat (leBytes (n / 4294967296)) = n / 4294967296 :=
    leNat_leBytes (by rw [u64Max] at small; omega)
  have split : (leBytes64 n).take 4 = leBytes n ∧ (leBytes64 n).drop 4 = leBytes (n / 4294967296) :=
    ⟨rfl, rfl⟩
  rw [leNat64, split.1, split.2, low, high]
  omega

theorem Cursor.u32_undoes (small : n ≤ u32Max) : Undoes Cursor.u32 (leBytes n) n := by
  have read := (Undoes.take (leBytes n)).map leNat
  rwa [leNat_leBytes (Nat.lt_succ_of_le small)] at read

theorem Cursor.u64_undoes (small : n ≤ u64Max) : Undoes Cursor.u64 (leBytes64 n) n := by
  have read := (Undoes.take (leBytes64 n)).map leNat64
  rwa [leNat64_leBytes64 small] at read

/-- The lengths and the sequence have room in their fields. -/
structure MemKey.Fits (key : MemKey) : Prop where
  short : key.user.key.length ≤ u32Max
  seq : key.seq ≤ u64Max

/-- The lengths fit their fields. -/
structure EntryFits (entry : Entry) : Prop where
  key : entry.1.Fits
  value : entry.2.valueLen ≤ u32Max

theorem decodeKey_undoes {key : MemKey} (fits : key.Fits) :
    Undoes decodeKey (encodeKeyParts key) key := by
  have read : Undoes decodeKey
      ([key.user.table] ++ (leBytes key.user.key.length ++
        (key.user.key ++ (leBytes64 key.seq ++ [])))) key :=
    .bind (.next _) <| .bind (Cursor.u32_undoes fits.short) <| .bind (.take _) <|
      .bind (Cursor.u64_undoes fits.seq) (.pure _)
  simpa [encodeKeyParts] using read

theorem decodeEntry_undoes {entry : Entry} (fits : EntryFits entry) :
    Undoes decodeEntry (encodeEntry entry) entry := by
  obtain ⟨key, op⟩ := entry
  cases op with
  | put value =>
    have read : Undoes decodeEntry
        (encodeKeyParts key ++ ([1] ++ (leBytes value.length ++ (value ++ [])))) (key, .put value) :=
      .bind (decodeKey_undoes fits.key) <| .bind (.next _) <| .bind (Cursor.u32_undoes fits.value) <|
        .bind (.take _) (.pure _)
    simpa [encodeEntry] using read
  | del =>
    have read : Undoes decodeEntry (encodeKeyParts key ++ ([0] ++ (leBytes 0 ++ ([] ++ []))))
        (key, .del) :=
      .bind (decodeKey_undoes fits.key) <| .bind (.next _) <|
        .bind (Cursor.u32_undoes (Nat.zero_le _)) <|
        .bind (.take []) (.pure _)
    simpa [encodeEntry] using read

/-- The parts of a reference have room in their fields. -/
structure BlockRef.Fits (block : BlockRef) : Prop where
  first : block.first.Fits
  offset : block.offset ≤ u64Max
  len : block.len ≤ u32Max

theorem decodeRef_undoes {block : BlockRef} (fits : block.Fits) :
    Undoes decodeRef (encodeRef block) block := by
  have read : Undoes decodeRef
      (encodeKeyParts block.first ++ (leBytes64 block.offset ++ (leBytes block.len ++ []))) block :=
    .bind (decodeKey_undoes fits.first) <| .bind (Cursor.u64_undoes fits.offset) <|
      .bind (Cursor.u32_undoes fits.len) (.pure _)
  simpa [encodeRef] using read

/-! ### Blocks of entries -/

def encodeEntries (entries : List Entry) : Bytes := entries.flatMap encodeEntry

theorem nextEntry_encode {entry : Entry} (fits : EntryFits entry) (rest : Bytes) :
    nextEntry (encodeEntry entry ++ rest) = .ok (some (entry, rest)) := by
  have some_ : (encodeEntry entry ++ rest).isEmpty = false := by simp [encodeEntry, encodeKeyParts]
  rw [nextEntry, some_, if_neg Bool.false_ne_true, decodeEntry_undoes fits]

/-- A scan of entries at hand. -/
def scanList {σ α : Type} (visit : Entry → σ → Scan σ α) : List Entry → σ → Scan σ α
  | [], state => .next state
  | entry :: entries, state =>
    match visit entry state with
    | .next state => scanList visit entries state
    | .done answer => .done answer

section

variable {σ α : Type} {visit : Entry → σ → Scan σ α}

theorem scanList_append (before after : List Entry) (state : σ) :
    scanList visit (before ++ after) state =
      match scanList visit before state with
      | .next state => scanList visit after state
      | .done answer => .done answer := by
  induction before generalizing state with
  | nil => rfl
  | cons entry before ih =>
    rw [List.cons_append, scanList, scanList]
    cases visit entry state with
    | next state => exact ih state
    | done answer => rfl

/-- Entries that change nothing may be left out. -/
theorem scanList_skip {before : List Entry} {state : σ}
    (idle : ∀ entry ∈ before, visit entry state = .next state) (after : List Entry) :
    scanList visit (before ++ after) state = scanList visit after state := by
  induction before with
  | nil => rfl
  | cons entry before ih =>
    rw [List.cons_append, scanList, idle entry List.mem_cons_self]
    exact ih fun other member => idle other (List.mem_cons_of_mem _ member)

theorem scanBlock_next {entry : Entry} (read : nextEntry bytes = .ok (some (entry, rest)))
    (state : σ) :
    scanBlock visit bytes state =
      match visit entry state with
      | .next state => scanBlock visit rest state
      | .done answer => .ok (.done answer) := by
  rw [scanBlock]
  split
  · next found => cases read.symm.trans found
  · next found => cases read.symm.trans found
  · next found =>
      cases read.symm.trans found
      rfl

theorem scanBlock_encode {entries : List Entry} (fit : ∀ entry ∈ entries, EntryFits entry)
    (state : σ) :
    scanBlock visit (encodeEntries entries) state = .ok (scanList visit entries state) := by
  induction entries generalizing state with
  | nil =>
    rw [scanBlock]
    rfl
  | cons entry entries ih =>
    have rest : ∀ other ∈ entries, EntryFits other := fun other member =>
      fit other (List.mem_cons_of_mem _ member)
    rw [encodeEntries, List.flatMap_cons, scanBlock_next
      (nextEntry_encode (fit entry List.mem_cons_self) _),
      scanList]
    cases visit entry state with
    | next state => exact ih rest state
    | done answer => rfl

end

theorem blockItems_next {entry : Entry} (read : nextEntry bytes = .ok (some (entry, rest))) :
    blockItems bytes = .ok entry :: blockItems rest := by
  rw [blockItems]
  split
  · next found => cases read.symm.trans found
  · next found => cases read.symm.trans found
  · next found =>
      cases read.symm.trans found
      rfl

theorem blockItems_encode {entries : List Entry} (fit : ∀ entry ∈ entries, EntryFits entry) :
    blockItems (encodeEntries entries) = entries.map .ok := by
  induction entries with
  | nil =>
    rw [blockItems]
    rfl
  | cons entry entries ih =>
    rw [encodeEntries, List.flatMap_cons, blockItems_next
      (nextEntry_encode (fit entry List.mem_cons_self) _)]
    exact congrArg _ (ih fun other member => fit other (List.mem_cons_of_mem _ member))

/-! ### What the writer lays out -/

/-- The entries of a data block. No block is empty. -/
structure Block where
  first : Entry
  more : List Entry

namespace Block

def entries (block : Block) : List Entry := block.first :: block.more

def payload (block : Block) : Bytes := encodeEntries block.entries

/-- The bytes with their trailer. -/
def whole (block : Block) : Bytes := withCrc block.payload

def push (block : Block) (entry : Entry) : Block := { block with more := block.more ++ [entry] }

theorem payload_push (block : Block) (entry : Entry) :
    (block.push entry).payload = block.payload ++ encodeEntry entry := by
  simp [payload, entries, push, encodeEntries]

theorem length_whole (block : Block) : block.whole.length = block.payload.length + 4 :=
  length_withCrc _

end Block

def wholes (blocks : List Block) : Bytes := blocks.flatMap Block.whole

/-- The references to blocks that stand behind each other from an offset on. -/
def refs : ℕ → List Block → List BlockRef
  | _, [] => []
  | offset, block :: blocks =>
    ⟨block.first.1, offset, block.whole.length⟩ :: refs (offset + block.whole.length) blocks

theorem refs_append (offset : ℕ) (before after : List Block) :
    refs offset (before ++ after) = refs offset before ++ refs (offset + (wholes before).length)
      after := by
  induction before generalizing offset with
  | nil => simp [wholes, refs]
  | cons block before ih =>
    rw [List.cons_append, refs, refs, ih, List.cons_append]
    simp [wholes, Nat.add_assoc]

def entriesOf (blocks : List Block) : List Entry := blocks.flatMap Block.entries

/-- The filter with the keys of these entries. -/
def Bloom.ofEntries (entries : List Entry) (bloom : Bloom) : Bloom :=
  entries.foldl (fun bloom entry => bloom.add entry.1.user.table entry.1.user.key) bloom

/-- What the writer has written, and the block it holds. -/
structure Writer.Laid (writer : Writer) (countHint : ℕ) (blocks : List Block)
    (held : Option Block) : Prop where
  file : writer.file = wholes blocks
  index : writer.index = refs 0 blocks
  offset : writer.offset = (wholes blocks).length
  cur : writer.cur = held.map fun block => (block.first.1, block.payload)
  small : ∀ block ∈ blocks, block.whole.length ≤ u32Max
  count : writer.count = (entriesOf blocks ++ held.elim [] Block.entries).length
  bloom : writer.bloom = Bloom.ofEntries (entriesOf blocks ++ held.elim [] Block.entries)
    (.new countHint)

theorem sealBlock_ok {block whole : Bytes} (made : sealBlock block = .ok (whole, len)) :
    whole = withCrc block ∧ len = whole.length ∧ whole.length ≤ u32Max := by
  rw [sealBlock] at made
  split_ifs at made with fits
  cases made
  exact ⟨rfl, rfl, fits⟩

namespace Writer.Laid

variable {writer after : Writer} {countHint : ℕ} {blocks : List Block} {held : Option Block}

theorem new (countHint : ℕ) : Laid (.new countHint) countHint [] none where
  file := rfl
  index := rfl
  offset := rfl
  cur := rfl
  small := by simp
  count := rfl
  bloom := rfl

theorem flushBlock (laid : writer.Laid countHint blocks held) (made : writer.flushBlock = .ok after) :
    after.Laid countHint (blocks ++ held.toList) none := by
  cases held with
  | none =>
    rw [Writer.flushBlock, laid.cur] at made
    cases made
    simpa using laid
  | some block =>
    rw [Writer.flushBlock, laid.cur] at made
    simp only [Option.map_some] at made
    cases sealed_ : sealBlock block.payload with
    | error error =>
      rw [sealed_] at made
      cases made
    | ok pair =>
      obtain ⟨whole, len⟩ := pair
      rw [sealed_] at made
      cases made
      obtain ⟨rfl, rfl, small⟩ := sealBlock_ok sealed_
      have count := laid.count
      have bloom := laid.bloom
      simp only [Option.elim_some] at count bloom
      constructor
      · simp [laid.file, wholes, Block.whole]
      · rw [Option.toList_some, refs_append, laid.index, laid.offset, Nat.zero_add]
        rfl
      · simp [laid.offset, wholes, Block.whole]
      · rfl
      · intro other member
        rcases List.mem_append.mp member with before | here
        · exact laid.small other before
        · obtain rfl := List.mem_singleton.mp here
          exact small
      · simp [count, entriesOf]
      · simp [bloom, entriesOf]

/-- **One entry more.** -/
theorem push (laid : writer.Laid countHint blocks held) {entry : Entry}
    (made : writer.push (.ok entry) = .ok after) :
    ∃ blocks' held', after.Laid countHint blocks' held' ∧
      entriesOf blocks' ++ held'.elim [] Block.entries =
      entriesOf blocks ++ held.elim [] Block.entries ++ [entry] := by
  set block : Block := (held.map fun block => block.push entry).getD ⟨entry, []⟩ with block_def
  have grown : block.entries = held.elim [] Block.entries ++ [entry] := by cases held <;> rfl
  have payload : block.first.1 = (writer.cur.getD (entry.1, [])).1 ∧
      block.payload = (writer.cur.getD (entry.1, [])).2 ++ encodeEntry entry := by
    rw [laid.cur]
    cases held with
    | none => exact ⟨rfl, List.append_nil _⟩
    | some before => exact ⟨rfl, before.payload_push entry⟩
  have next : Laid { writer with
      cur := some ((writer.cur.getD (entry.1, [])).1, (writer.cur.getD (entry.1, [])).2 ++
        encodeEntry entry)
      bloom := writer.bloom.add entry.1.user.table entry.1.user.key
      count := writer.count + 1 } countHint blocks (some block) := by
    refine ⟨laid.file, laid.index, laid.offset, ?_, laid.small, ?_, ?_⟩
    · simp [payload]
    · simp [grown, laid.count, Nat.add_assoc]
    · simp [grown, laid.bloom, ← List.append_assoc, Bloom.ofEntries]
  change (if blockTarget ≤ ((writer.cur.getD (entry.1, [])).2 ++ encodeEntry entry).length then _
    else _) = _ at made
  split_ifs at made with full
  · refine ⟨_, _, next.flushBlock made, ?_⟩
    simp [entriesOf, grown]
  · cases made
    exact ⟨_, _, next, by simp [grown]⟩

theorem pushes (laid : writer.Laid countHint blocks held) {entries : List Entry}
    (made : (entries.map Except.ok).foldlM Writer.push writer = .ok after) :
    ∃ blocks' held', after.Laid countHint blocks' held' ∧
      entriesOf blocks' ++ held'.elim [] Block.entries =
      entriesOf blocks ++ held.elim [] Block.entries ++ entries := by
  induction entries generalizing writer blocks held with
  | nil =>
    cases made
    exact ⟨blocks, held, laid, by simp⟩
  | cons entry entries ih =>
    rw [List.map_cons, List.foldlM_cons] at made
    obtain ⟨next, pushed, rest⟩ := bind_eq_ok.mp made
    obtain ⟨blocks₁, held₁, laid₁, upto⟩ := laid.push pushed
    obtain ⟨blocks₂, held₂, laid₂, all⟩ := ih laid₁ rest
    exact ⟨blocks₂, held₂, laid₂, by rw [all, upto]; simp⟩

end Writer.Laid

/-- The footer of a file with these blocks. -/
def footerOf (blocks : List Block) (bloom : Bloom) (maxSeq : ℕ) : Footer :=
  let index := (refs 0 blocks).flatMap encodeRef
  { indexOffset := (wholes blocks).length
    indexLen := index.length + 4
    bloomOffset := (wholes blocks).length + (index.length + 4)
    bloomLen := bloom.encode.length + 4
    count := (entriesOf blocks).length
    maxSeq
    magic := magicV2 }

/-- **The parts of a written file.** -/
structure Parts (file : Bytes) (entries : List Entry) (countHint maxSeq : ℕ) where
  blocks : List Block
  bloom : Bloom
  laid : entriesOf blocks = entries
  filter : bloom = Bloom.ofEntries entries (.new countHint)
  small : ∀ block ∈ blocks, block.whole.length ≤ u32Max
  indexSmall : ((refs 0 blocks).flatMap encodeRef).length + 4 ≤ u32Max
  bloomSmall : bloom.encode.length + 4 ≤ u32Max
  file : file = wholes blocks ++ withCrc ((refs 0 blocks).flatMap encodeRef) ++
    withCrc bloom.encode ++
    withCrc (footerOf blocks bloom maxSeq).encode

theorem writeSorted_parts {entries : List Entry}
    (written : writeSorted (entries.map .ok) countHint maxSeq = .ok file) :
    Nonempty (Parts file entries countHint maxSeq) := by
  obtain ⟨writer, pushed, finished⟩ := bind_eq_ok.mp written
  obtain ⟨blocks, held, laid, all⟩ := (Writer.Laid.new countHint).pushes pushed
  obtain ⟨last, flushed, finished⟩ := bind_eq_ok.mp finished
  obtain ⟨⟨indexBytes, indexLen⟩, index, finished⟩ := bind_eq_ok.mp finished
  obtain ⟨⟨bloomBytes, bloomLen⟩, bloom, finished⟩ := bind_eq_ok.mp finished
  obtain rfl := pure_eq_ok.mp finished
  have done := laid.flushBlock flushed
  obtain ⟨rfl, rfl, indexSmall⟩ := sealBlock_ok index
  obtain ⟨rfl, rfl, bloomSmall⟩ := sealBlock_ok bloom
  have these : entriesOf (blocks ++ held.toList) = entries := by
    cases held <;> simpa [entriesOf] using all
  have filter := done.bloom
  simp only [Option.elim_none, List.append_nil] at filter
  refine ⟨⟨blocks ++ held.toList, last.bloom, these, these ▸ filter, done.small, ?_, ?_, ?_⟩⟩
  · simpa [done.index, length_withCrc] using indexSmall
  · simpa [length_withCrc] using bloomSmall
  · have count := done.count
    simp only [Option.elim_none, List.append_nil] at count
    simp [done.file, done.index, done.offset, count, footerOf, length_withCrc]

/-! ### The parts have room in their fields -/

theorem length_encodeRef (block : BlockRef) : 25 ≤ (encodeRef block).length := by
  simp [encodeRef, encodeKeyParts, leBytes64, leBytes_length]
  omega

theorem length_encodeEntry (entry : Entry) :
    entry.1.user.key.length + entry.2.valueLen + 18 = (encodeEntry entry).length := by
  obtain ⟨key, op⟩ := entry
  cases op <;> simp [encodeEntry, encodeKeyParts, leBytes64, leBytes_length, Op.valueLen] <;> omega

theorem length_encodeEntries (entries : List Entry) :
    entries.length ≤ (encodeEntries entries).length := by
  induction entries with
  | nil => exact Nat.zero_le _
  | cons entry entries ih =>
    have here := length_encodeEntry entry
    rw [encodeEntries, List.flatMap_cons, List.length_append, List.length_cons]
    rw [encodeEntries] at ih
    omega

theorem length_entriesOf (blocks : List Block) :
    (entriesOf blocks).length ≤ (wholes blocks).length := by
  induction blocks with
  | nil => exact Nat.zero_le _
  | cons block blocks ih =>
    have here := length_encodeEntries block.entries
    have trailer := block.length_whole
    rw [entriesOf, wholes, List.flatMap_cons, List.flatMap_cons, List.length_append,
      List.length_append]
    rw [entriesOf, wholes] at ih
    rw [Block.payload] at trailer
    omega

theorem length_refs (offset : ℕ) (blocks : List Block) :
    25 * blocks.length ≤ ((refs offset blocks).flatMap encodeRef).length := by
  induction blocks generalizing offset with
  | nil => exact Nat.zero_le _
  | cons block blocks ih =>
    have here := length_encodeRef ⟨block.first.1, offset, block.whole.length⟩
    have rest := ih (offset + block.whole.length)
    rw [refs, List.flatMap_cons, List.length_append, List.length_cons]
    omega

theorem length_wholes (small : ∀ block ∈ blocks, block.whole.length ≤ u32Max) :
    (wholes blocks).length ≤ blocks.length * u32Max := by
  induction blocks with
  | nil => exact Nat.zero_le _
  | cons block blocks ih =>
    have here := small block List.mem_cons_self
    have rest := ih fun other member => small other (List.mem_cons_of_mem _ member)
    rw [wholes, List.flatMap_cons, List.length_append, List.length_cons, Nat.succ_mul]
    rw [wholes] at rest
    omega

theorem mem_refs (member : ref ∈ refs offset blocks) :
    ∃ before block after, blocks = before ++ block :: after ∧
      ref = ⟨block.first.1, offset + (wholes before).length, block.whole.length⟩ := by
  induction blocks generalizing offset with
  | nil => cases member
  | cons block blocks ih =>
    rcases List.mem_cons.mp member with rfl | below
    · exact ⟨[], block, blocks, rfl, rfl⟩
    · obtain ⟨before, here, after, rfl, rfl⟩ := ih below
      exact ⟨block :: before, here, after, rfl, by simp [wholes, Nat.add_assoc]⟩

theorem mem_entriesOf (member : block ∈ blocks) {entry : Entry} (held : entry ∈ block.entries) :
    entry ∈ entriesOf blocks := List.mem_flatMap.mpr ⟨block, member, held⟩

namespace Parts

variable {file : Bytes} {entries : List Entry} {countHint maxSeq : ℕ}
  (parts : Parts file entries countHint maxSeq)

include parts

theorem fits (stamped : ∀ entry ∈ entries, entry.1.seq ≤ u64Max) (member : block ∈ parts.blocks)
    {entry : Entry} (held : entry ∈ block.entries) : EntryFits entry := by
  have small := parts.small block member
  have long : (encodeEntry entry).length ≤ block.payload.length := by
    obtain ⟨before, after, split⟩ := List.append_of_mem held
    simp [Block.payload, encodeEntries, split]
    omega
  have parts_ := length_encodeEntry entry
  rw [block.length_whole] at small
  exact ⟨⟨by omega, stamped entry (parts.laid ▸ mem_entriesOf member held)⟩, by omega⟩

theorem length_lt : (wholes parts.blocks).length + 4 * u32Max ≤ u64Max := by
  have few := (length_refs 0 parts.blocks).trans (Nat.le_of_add_right_le parts.indexSmall)
  have short := length_wholes parts.small
  have most : parts.blocks.length * u32Max ≤ 171798692 * u32Max := by
    refine Nat.mul_le_mul_right _ ?_
    rw [u32Max] at few
    omega
  rw [u32Max] at *
  rw [u64Max]
  omega

theorem ref_fits (stamped : ∀ entry ∈ entries, entry.1.seq ≤ u64Max)
    (member : ref ∈ refs 0 parts.blocks) :
    ref.Fits ∧ ref.offset + ref.len ≤ (wholes parts.blocks).length := by
  have room := parts.length_lt
  obtain ⟨before, block, after, split, rfl⟩ := mem_refs member
  have inside : block ∈ parts.blocks := split ▸ List.mem_append_right _ List.mem_cons_self
  have upto : (wholes before).length + block.whole.length ≤ (wholes parts.blocks).length := by
    rw [split]
    simp [wholes]
  exact ⟨⟨(parts.fits stamped inside List.mem_cons_self).key,
    by simp; omega, parts.small block inside⟩,
    by simpa using upto⟩

end Parts

/-! ### Blocks are read back -/

theorem readAt_append (here : offset = before.length) (long : len = bytes.length) :
    readAt (before ++ bytes ++ after) offset len = some bytes := by
  subst here long
  rw [readAt, if_pos (by simp), List.append_assoc, List.drop_left, List.take_left]

/-- A sealed block is its payload. -/
theorem readBlockAt_whole {payload : Bytes} (split : file = before ++ withCrc payload ++ after)
    (here : offset = before.length) (long : len = payload.length + 4) (what : String) :
    readBlockAt file .v2 what offset len = .ok payload := by
  have stored : leNat (leBytes (crc32 payload).toNat) = (crc32 payload).toNat :=
    leNat_leBytes (UInt32.toNat_lt _)
  rw [readBlockAt, split, readAt_append here (long.trans (length_withCrc payload).symm)]
  simp [withCrc, leBytes_length, stored]

theorem decodeIndex_encode {refs : List BlockRef} {indexOffset : ℕ}
    (fit : ∀ ref ∈ refs, ref.Fits ∧ ref.offset + ref.len ≤ indexOffset) :
    decodeIndex indexOffset (refs.flatMap encodeRef) = .ok refs := by
  induction refs with
  | nil =>
    rw [decodeIndex]
    rfl
  | cons ref refs ih =>
    obtain ⟨fits, inside⟩ := fit ref List.mem_cons_self
    have some_ : (encodeRef ref ++ refs.flatMap encodeRef).isEmpty = false := by
      simp [encodeRef, encodeKeyParts]
    rw [List.flatMap_cons, decodeIndex, some_, if_neg Bool.false_ne_true]
    split
    · next found => rw [decodeRef_undoes fits] at found; cases found
    · next found =>
        cases (decodeRef_undoes fits _).symm.trans found
        rw [checkedLen, if_pos inside, ih fun other member =>
          fit other (List.mem_cons_of_mem _ member)]
        rfl

theorem Bloom.decode_encode {bloom : Bloom} (room : bloom.mBits ≤ u64Max) (k : bloom.k ≤ u32Max)
    (bytes : bloom.bits.length = bloom.mBits / 8) : Bloom.decode bloom.encode = some bloom := by
  rw [Bloom.decode, Bloom.encode, List.append_assoc, Cursor.u64_undoes room]
  simp [Cursor.u32_undoes k bloom.bits, bytes]

/-! ### The filter -/

namespace Bloom

/-- The bit stands in the bytes, and is set. -/
def IsSet (bits : Bytes) (bit : ℕ) : Prop :=
  ∃ byte, bits[bit / 8]? = some byte ∧ byte &&& mask bit ≠ 0

theorem mask_ne_zero (bit : ℕ) : mask bit ≠ 0 := by
  have each : ∀ n < 8, (1 : UInt8) <<< n.toUInt8 ≠ 0 := by decide
  exact each _ (Nat.mod_lt _ (by decide))

theorem length_setBit (bits : Bytes) (bit : ℕ) : (setBit bits bit).length = bits.length :=
  List.length_modify ..

theorem or_and_ne_zero {a b m : UInt8} (set : a &&& m ≠ 0 ∨ b &&& m ≠ 0) : (a ||| b) &&& m ≠ 0 := by
  have each : (a ||| b) &&& m = (a &&& m) ||| (b &&& m) :=
    UInt8.toBitVec_inj.mp BitVec.and_or_distrib_right
  rw [each, ne_eq, UInt8.or_eq_zero_iff, not_and_or]
  exact set

variable {bits : Bytes} {positions : List ℕ} {bit : ℕ}

theorem setBit_isSet (inside : bit / 8 < bits.length) : IsSet (setBit bits bit) bit := by
  refine ⟨bits[bit / 8] ||| mask bit, by simp [setBit, inside], or_and_ne_zero (.inr ?_)⟩
  rw [UInt8.and_self]
  exact mask_ne_zero bit

theorem IsSet.setBit (set : IsSet bits bit) (other : ℕ) : IsSet (setBit bits other) bit := by
  obtain ⟨byte, here, on⟩ := set
  by_cases same : other / 8 = bit / 8
  · exact ⟨byte ||| mask other, by simp [Bloom.setBit, same, here], or_and_ne_zero (.inl on)⟩
  · exact ⟨byte, by simp [Bloom.setBit, same, here], on⟩

/-- Bits that stand in the bytes are set one after the other. -/
theorem foldl_setBit (inside : ∀ bit ∈ positions, bit / 8 < bits.length) :
    (positions.foldl setBit bits).length = bits.length ∧
      ∀ bit, bit ∈ positions ∨ IsSet bits bit → IsSet (positions.foldl setBit bits) bit := by
  induction positions generalizing bits with
  | nil => simp
  | cons first positions ih =>
    have length := length_setBit bits first
    obtain ⟨long, each⟩ :=
      ih fun bit member => length.symm ▸ inside bit (List.mem_cons_of_mem _ member)
    refine ⟨long.trans length, fun bit held => each bit ?_⟩
    rcases held with member | set
    · rcases List.mem_cons.mp member with rfl | later
      · exact .inr (setBit_isSet (inside bit List.mem_cons_self))
      · exact .inl later
    · exact .inr (set.setBit first)

theorem allSet_of_isSet (set : ∀ bit ∈ positions, IsSet bits bit) :
    allSet bits positions = some true := by
  induction positions with
  | nil => rfl
  | cons bit positions ih =>
    obtain ⟨byte, here, on⟩ := set bit List.mem_cons_self
    rw [allSet, here, Option.bind_some, if_neg on, ih fun other member =>
      set other (List.mem_cons_of_mem _ member)]

/-- No bit past the bytes is asked for. -/
theorem allSet_isSome (inside : ∀ bit ∈ positions, bit / 8 < bits.length) :
    ∃ answer, allSet bits positions = some answer := by
  induction positions with
  | nil => exact ⟨true, rfl⟩
  | cons bit positions ih =>
    rw [allSet, List.getElem?_eq_getElem (inside bit List.mem_cons_self), Option.bind_some]
    split_ifs
    · exact ⟨false, rfl⟩
    · exact ih fun other member => inside other (List.mem_cons_of_mem _ member)

/-- The bytes hold exactly the bits of the filter. -/
structure Sound (bloom : Bloom) : Prop where
  some_ : 0 < bloom.mBits
  bytes : bloom.bits.length * 8 = bloom.mBits
  rounds : bloom.k = 7

theorem new_sound (n : ℕ) : (new n).Sound := by
  refine ⟨?_, ?_, rfl⟩
  all_goals
    simp only [new, bitsPerKey, List.length_replicate]
    omega

theorem mem_probes {mBits k : ℕ} {h1 h2 : UInt64} (some_ : 0 < mBits)
    (member : bit ∈ probes mBits k h1 h2) : bit < mBits := by
  induction k generalizing h1 with
  | zero => cases member
  | succ k ih =>
    rcases List.mem_cons.mp member with rfl | later
    · exact Nat.mod_lt _ some_
    · exact ih later

variable {bloom : Bloom}

theorem Sound.inside (sound : bloom.Sound) (table : UInt8) (key : Bytes) :
    ∀ bit ∈ bloom.positions table key, bit / 8 < bloom.bits.length := by
  intro bit member
  have below := mem_probes sound.some_ member
  have bytes := sound.bytes
  omega

theorem Sound.add (sound : bloom.Sound) (table : UInt8) (key : Bytes) : (bloom.add table key).Sound :=
  ⟨sound.some_, by rw [Bloom.add,
    (foldl_setBit (sound.inside table key)).1]; exact sound.bytes, sound.rounds⟩

/-- A key added, or one that was in the filter before. -/
theorem add_isSet (sound : bloom.Sound) {table table' : UInt8} {key key' : Bytes}
    (held : (table, key) = (table', key') ∨
      ∀ bit ∈ bloom.positions table' key', IsSet bloom.bits bit) :
    ∀ bit ∈ (bloom.add table key).positions table' key', IsSet (bloom.add table key).bits bit := by
  intro bit member
  refine (foldl_setBit (sound.inside table key)).2 bit ?_
  rcases held with same | before
  · cases same
    exact .inl member
  · exact .inr (before bit member)

theorem ofEntries_sound (sound : bloom.Sound) (entries : List Entry) :
    (ofEntries entries bloom).Sound := by
  induction entries generalizing bloom with
  | nil => exact sound
  | cons entry entries ih => exact ih (sound.add _ _)

theorem ofEntries_isSet (sound : bloom.Sound) {entries : List Entry}
    (held : (∃ entry ∈ entries, entry.1.user = user) ∨
      ∀ bit ∈ bloom.positions user.table user.key, IsSet bloom.bits bit) :
    ∀ bit ∈ (ofEntries entries bloom).positions user.table user.key,
    IsSet (ofEntries entries bloom).bits bit := by
  induction entries generalizing bloom with
  | nil => simpa [ofEntries] using held
  | cons entry entries ih =>
    refine ih (sound.add _ _) ?_
    rcases held with ⟨other, member, rfl⟩ | before
    · rcases List.mem_cons.mp member with rfl | later
      · exact .inr (add_isSet sound (.inl rfl))
      · exact .inl ⟨other, later, rfl⟩
    · exact .inr (add_isSet sound (.inr before))

/-- **The filter never hides a key it was given**, and answers for every other. -/
theorem maybeContains_ofEntries (sound : bloom.Sound) (entries : List Entry) (user : UserKey) :
    ∃ answer, (ofEntries entries bloom).maybeContains user.table user.key = some answer ∧
      (answer = false → ∀ entry ∈ entries, entry.1.user ≠ user) := by
  have kept := ofEntries_sound sound entries
  rw [maybeContains, if_neg kept.some_.ne']
  obtain ⟨answer, asked⟩ := allSet_isSome (kept.inside user.table user.key)
  refine ⟨answer, asked, fun hidden entry member same => ?_⟩
  rw [allSet_of_isSet (ofEntries_isSet sound (.inl ⟨entry, member, same⟩)), hidden] at asked
  cases asked

end Bloom

/-! ### Opening -/

theorem decodeFooter_undoes {crc : ℕ} (offset : footer.indexOffset ≤ u64Max)
    (indexLen : footer.indexLen ≤ u64Max) (bloomOffset : footer.bloomOffset ≤ u64Max)
    (bloomLen : footer.bloomLen ≤ u64Max) (count : footer.count ≤ u64Max)
    (maxSeq : footer.maxSeq ≤ u64Max) (magic : footer.magic ≤ u32Max) (small : crc ≤ u32Max) :
    Undoes decodeFooter (footer.encode ++ leBytes crc) (footer, crc) := by
  have read : Undoes decodeFooter (leBytes64 footer.indexOffset ++ (leBytes64 footer.indexLen ++
      (leBytes64 footer.bloomOffset ++ (leBytes64 footer.bloomLen ++ (leBytes64 footer.count ++
        (leBytes64 footer.maxSeq ++ (leBytes footer.magic ++ (leBytes crc ++ []))))))))
          (footer, crc) :=
    .bind (Cursor.u64_undoes offset) <| .bind (Cursor.u64_undoes indexLen) <|
      .bind (Cursor.u64_undoes bloomOffset) <| .bind (Cursor.u64_undoes bloomLen) <|
      .bind (Cursor.u64_undoes count) <| .bind (Cursor.u64_undoes maxSeq) <|
      .bind (Cursor.u32_undoes magic) <| .bind (Cursor.u32_undoes small) (.pure _)
  simpa [Footer.encode] using read

/-- A footer with its checksum, at the end of a file. -/
theorem readFooter_append (split : file = before ++ withCrc footer.encode)
    (offset : footer.indexOffset ≤ u64Max) (indexLen : footer.indexLen ≤ u64Max)
    (bloomOffset : footer.bloomOffset ≤ u64Max) (bloomLen : footer.bloomLen ≤ u64Max)
    (count : footer.count ≤ u64Max) (maxSeq : footer.maxSeq ≤ u64Max)
    (magic : footer.magic = magicV2) :
    readFooter file = .ok (footer, .v2) := by
  have long : (withCrc footer.encode).length = footerLen := rfl
  have whole : file.length = before.length + footerLen := by rw [split, List.length_append, long]
  have behind : file.drop (file.length - footerLen) = withCrc footer.encode := by
    rw [whole, Nat.add_sub_cancel, split, List.drop_left]
  have front : (withCrc footer.encode).take (footerLen - 4) = footer.encode := List.take_left' rfl
  have read : decodeFooter (withCrc footer.encode) =
      some ((footer, (crc32 footer.encode).toNat), []) :=
    (decodeFooter_undoes offset indexLen bloomOffset bloomLen count maxSeq (by rw [magic]; decide)
      (Nat.le_of_lt_succ (UInt32.toNat_lt _))).whole
  rw [readFooter, if_neg (by omega)]
  simp only [behind, read, front]
  exact bind_eq_ok.mpr ⟨.v2, by rw [magic]; rfl, if_neg (by simp)⟩

namespace Parts

variable {file : Bytes} {entries : List Entry} {countHint maxSeq : ℕ}
  (parts : Parts file entries countHint maxSeq)

/-- What the reader makes of the file. -/
def opened : SstFile where
  file
  version := .v2
  index := refs 0 parts.blocks
  bloom := parts.bloom
  maxSeq
  count := (entriesOf parts.blocks).length

theorem length_file : file.length = (wholes parts.blocks).length +
    (((refs 0 parts.blocks).flatMap encodeRef).length + 4) + (parts.bloom.encode.length + 4) +
    footerLen := by
  have long : (withCrc (footerOf parts.blocks parts.bloom maxSeq).encode).length = footerLen := rfl
  conv_lhs => rw [parts.file, List.length_append, List.length_append, List.length_append,
    length_withCrc,
    length_withCrc, long]

theorem bloom_sound : parts.bloom.Sound :=
  parts.filter ▸ Bloom.ofEntries_sound (Bloom.new_sound countHint) entries

theorem decode_bloom : Bloom.decode parts.bloom.encode = some parts.bloom := by
  have sound := parts.bloom_sound
  have small := parts.bloomSmall
  have bytes := sound.bytes
  have rounds := sound.rounds
  have long : parts.bloom.encode.length = 12 + parts.bloom.bits.length := by
    rw [Bloom.encode, List.length_append]
    rfl
  refine Bloom.decode_encode ?_ ?_ (by omega)
  · rw [u32Max] at small
    rw [u64Max]
    omega
  · rw [rounds]
    decide

theorem opens (stamped : ∀ entry ∈ entries, entry.1.seq ≤ u64Max) (last : maxSeq ≤ u64Max) :
    SstFile.openBytes file = .ok parts.opened := by
  have room := parts.length_lt
  have few := parts.indexSmall
  have small := parts.bloomSmall
  have count := length_entriesOf parts.blocks
  have long := parts.length_file
  have footer : readFooter file = .ok (footerOf parts.blocks parts.bloom maxSeq, .v2) := by
    refine readFooter_append parts.file ?_ ?_ ?_ ?_ ?_ last rfl
    all_goals
      simp only [footerOf]
      omega
  have behind : file = wholes parts.blocks ++ withCrc ((refs 0 parts.blocks).flatMap encodeRef) ++
      (withCrc parts.bloom.encode ++ withCrc (footerOf parts.blocks parts.bloom maxSeq).encode) := by
    rw [← List.append_assoc]
    exact parts.file
  refine bind_eq_ok.mpr ⟨_, footer, bind_eq_ok.mpr ⟨_, if_pos ?_,
    bind_eq_ok.mpr ⟨parts.bloom.encode, ?_,
    bind_eq_ok.mpr ⟨parts.bloom, ?_, bind_eq_ok.mpr ⟨_, if_pos ?_,
      bind_eq_ok.mpr ⟨(refs 0 parts.blocks).flatMap encodeRef, ?_,
        bind_eq_ok.mpr ⟨refs 0 parts.blocks, ?_, ?_⟩⟩⟩⟩⟩⟩⟩
  · simp only [footerOf]
    omega
  · refine readBlockAt_whole parts.file ?_ rfl "bloom"
    rw [List.length_append, length_withCrc]
    rfl
  · rw [parts.decode_bloom]
    rfl
  · simp only [footerOf]
    omega
  · exact readBlockAt_whole behind rfl rfl "index"
  · exact decodeIndex_encode fun ref member => parts.ref_fits stamped member
  · rfl

/-- Every data block is read back. -/
theorem readData {before after : List Block} (split : parts.blocks = before ++ block :: after) :
    parts.opened.readData ⟨block.first.1, (wholes before).length, block.whole.length⟩ =
    .ok block.payload := by
  have data : wholes parts.blocks = wholes before ++ withCrc block.payload ++ wholes after := by
    rw [split]
    simp [wholes, Block.whole]
  have behind : file = wholes before ++ withCrc block.payload ++
      (wholes after ++ withCrc ((refs 0 parts.blocks).flatMap encodeRef) ++
        withCrc parts.bloom.encode ++
        withCrc (footerOf parts.blocks parts.bloom maxSeq).encode) := by
    conv_lhs => rw [parts.file, data]
    simp only [List.append_assoc]
  exact readBlockAt_whole behind rfl block.length_whole "data"

end Parts

/-! ### Reads of the blocks -/

section

variable {m : Type → Type} [Monad m] {σ α : Type} {outcome : Outcome m} {refused : Error → Prop}
variable {read : BlockRef → ExceptT Error m Bytes}

/-- The read of each block ends with its payload, or with an error that is allowed. -/
def ReadsAll (outcome : Outcome m) (refused : Error → Prop) (read : BlockRef → ExceptT Error m Bytes)
    (refs : List BlockRef) (blocks : List Block) : Prop :=
  List.Forall₂ (fun ref block => (outcome.exceptT refused).ends (read ref) fun buf =>
    buf = block.payload) refs blocks

/-- **A scan over the blocks is a scan over their entries.** -/
theorem scanBlocks_ends (visit : Entry → σ → Scan σ α) {refs : List BlockRef}
    (reads : ReadsAll outcome refused read refs blocks)
    (fit : ∀ block ∈ blocks, ∀ entry ∈ block.entries, EntryFits entry) (state : σ) :
    (outcome.exceptT refused).ends (scanBlocks read visit refs state) fun scan =>
      scan = scanList visit (entriesOf blocks) state := by
  induction reads generalizing state with
  | nil => exact (outcome.exceptT refused).pure rfl
  | @cons ref block refs blocks here _ ih =>
    refine (outcome.exceptT refused).bind here ?_
    rintro buf rfl
    have scanned : (outcome.exceptT refused).ends
        (ExceptT.mk (pure (scanBlock visit block.payload state))) fun scan =>
        scan = scanList visit block.entries state := by
      rw [Block.payload, scanBlock_encode (fit block List.mem_cons_self)]
      exact outcome.pure rfl
    refine (outcome.exceptT refused).bind scanned ?_
    rintro scan rfl
    rw [entriesOf, List.flatMap_cons, scanList_append]
    cases scanList visit block.entries state with
    | next state => exact ih (fun other member => fit other (List.mem_cons_of_mem _ member)) state
    | done answer => exact (outcome.exceptT refused).pure rfl

end

/-! ### Where a search starts -/

theorem length_takeWhile_refs (p : MemKey → Bool) (offset : ℕ) (blocks : List Block) :
    ((refs offset blocks).takeWhile fun ref => p ref.first).length =
      (blocks.takeWhile fun block => p block.first.1).length := by
  induction blocks generalizing offset with
  | nil => rfl
  | cons block blocks ih =>
    rw [refs, List.takeWhile_cons, List.takeWhile_cons]
    cases p block.first.1 with
    | true => exact congrArg (· + 1) (ih _)
    | false => rfl

/-- **Only lesser keys stand before the block where a search starts.** -/
theorem lesser_before (sorted : Sorted (entriesOf blocks))
    (stamped : ∀ entry ∈ entriesOf blocks, entry.1.seq ≤ u64Max) (user : UserKey) :
    ∀ entry ∈ entriesOf (blocks.take
      ((blocks.takeWhile fun block => compare block.first.1 ⟨user, u64Max⟩ ≠ .gt).length - 1)),
      compare entry.1.user user = .lt := by
  intro entry member
  set within := blocks.takeWhile fun block => compare block.first.1 ⟨user, u64Max⟩ ≠ .gt
    with within_def
  obtain ⟨rest, whole⟩ : within <+: blocks := List.takeWhile_prefix _
  rcases List.eq_nil_or_concat within with none | ⟨front, last, split⟩
  · simp [none, entriesOf] at member
  · have front_ : blocks.take (within.length - 1) = front := by
      rw [← whole, split, List.concat_eq_append, List.length_append, List.length_singleton,
        Nat.add_sub_cancel,
        List.append_assoc, List.take_left]
    have upto : compare last.first.1 ⟨user, u64Max⟩ ≠ .gt := by
      have among : last ∈ within := by simp [split]
      have holds := List.mem_takeWhile_imp (within_def ▸ among)
      exact of_decide_eq_true holds
    rw [front_] at member
    have parts : entriesOf blocks = entriesOf front ++
        (last.first :: (last.more ++ entriesOf rest)) := by
      rw [← whole, split]
      simp [entriesOf, Block.entries]
    have below := (List.pairwise_append.mp (parts ▸ sorted)).2.2 entry member last.first
      List.mem_cons_self
    have small := stamped entry (parts ▸ List.mem_append_left _ member)
    have before : compare entry.1 ⟨user, u64Max⟩ = .lt :=
      TransCmp.lt_of_lt_of_isLE below (Ordering.isLE_iff_ne_gt.mpr upto)
    rcases MemKey.compare_lt_iff.mp before with less | ⟨-, above⟩
    · exact less
    · exact absurd above (Nat.not_lt.mpr small)

/-! ### What an open file shows -/

/-- A read past the cache. -/
def SstFile.direct (sst : SstFile) (block : BlockRef) : ExceptT Error Option Bytes :=
  ExceptT.mk (some (sst.readData block))

/-- The file reads as the run, in every way it is read. -/
structure SstFile.Shows (sst : SstFile) (run : Run) : Prop where
  version : sst.version = run.version
  maxSeq : sst.maxSeq = run.maxSeq
  count : sst.count = run.entries.length
  get : ∀ table key snapshot, (sst.get sst.direct table key snapshot).run =
    some (.ok (run.get table key snapshot))
  range : ∀ table start stop snapshot out, (sst.range sst.direct table start stop snapshot out).run =
    some (.ok (run.range table start stop snapshot out))
  entries : sst.entries = run.entries.map .ok

theorem scanList_get (user : UserKey) (snapshot : ℕ) (entries : List Entry) :
    (match scanList (getVisit user snapshot) entries () with
      | .next () => none
      | .done found => found) = scanGet user snapshot entries := by
  induction entries with
  | nil => rfl
  | cons entry entries ih =>
    rw [scanList, scanGet, getVisit]
    cases compare entry.1.user user with
    | lt => exact ih
    | gt => rfl
    | eq =>
      by_cases low : entry.1.seq ≤ snapshot
      · simp [low]
      · simpa [low] using ih

theorem scanList_range (table : UInt8) (start : Bytes) (stop : Option Bytes) (snapshot : ℕ)
    (entries : List Entry) (cur : Option Bytes) (out : RangeOps) :
    (match scanList (rangeVisit table start stop snapshot) entries (cur, out) with
      | .next state => state.2
      | .done out => out) = scanRange table start stop snapshot entries cur out := by
  induction entries generalizing cur out with
  | nil => rfl
  | cons entry entries ih =>
    rw [scanList, scanRange, rangeVisit]
    split_ifs
    · rfl
    · exact ih cur out
    · exact ih cur out
    · rfl
    · exact ih cur out
    · exact ih cur out
    · exact ih _ _

/-- A key less than the one searched for changes nothing. -/
theorem getVisit_lesser {entry : Entry} (less : compare entry.1.user user = .lt) :
    getVisit user snapshot entry () = .next () := by rw [getVisit, less]

theorem rangeVisit_lesser {table : UInt8} {start : Bytes} {stop : Option Bytes} {entry : Entry}
    (less : compare entry.1.user ⟨table, start⟩ = .lt) (state : Option Bytes × RangeOps) :
    rangeVisit table start stop snapshot entry state = .next state := by
  rw [rangeVisit]
  rcases UserKey.compare_lt_iff.mp less with other | ⟨same, low⟩
  · simp only at other
    have different : entry.1.user.table ≠ table := by
      intro same
      rw [same, compare_self] at other
      cases other
    rw [if_pos different, other, if_neg (by decide)]
  · rw [if_neg (not_not.mpr same), if_pos low]

/-- Only an empty file has no block to start at. -/
theorem Parts.startBlock_none {entries : List Entry} (parts : Parts file entries countHint maxSeq)
    (found : parts.opened.startBlock user = none) :
    entries = [] := by
  rw [SstFile.startBlock] at found
  split_ifs at found with none
  rw [← parts.laid]
  cases here : parts.blocks with
  | nil => rfl
  | cons block blocks =>
    rw [show parts.opened.index = refs 0 parts.blocks from rfl, here] at none
    cases none

section

variable {m : Type → Type} [Monad m] {outcome : Outcome m} {refused : Error → Prop}
variable {read : BlockRef → ExceptT Error m Bytes}
variable {file : Bytes} {entries : List Entry} {countHint maxSeq : ℕ}
  (parts : Parts file entries countHint maxSeq)
variable (sorted : Sorted entries) (stamped : ∀ entry ∈ entries, entry.1.seq ≤ u64Max)
variable (reads : ReadsAll outcome refused read (refs 0 parts.blocks) parts.blocks)

include sorted stamped reads

/-- **A scan from the start block on is a scan of all entries.** -/
theorem Parts.scan_ends {σ α : Type} {visit : Entry → σ → Scan σ α} {state : σ} {start : ℕ}
    (idle : ∀ entry : Entry, compare entry.1.user user = .lt → visit entry state = .next state)
    (found : parts.opened.startBlock user = some start) :
    (outcome.exceptT refused).ends (scanBlocks read visit (parts.opened.index.drop start) state)
      fun scan =>
      scan = scanList visit entries state := by
  have here : start = (parts.blocks.takeWhile fun block => compare block.first.1 ⟨user, u64Max⟩ ≠
      .gt).length - 1 := by
    rw [SstFile.startBlock] at found
    split_ifs at found with none
    cases found
    exact congrArg (· - 1) (length_takeWhile_refs
      (fun key => compare key ⟨user, u64Max⟩ ≠ .gt) 0 parts.blocks)
  have all : entries = entriesOf (parts.blocks.take start) ++
      entriesOf (parts.blocks.drop start) := by
    conv_lhs => rw [← parts.laid, ← List.take_append_drop start parts.blocks]
    exact List.flatMap_append ..
  have before : ∀ entry ∈ entriesOf (parts.blocks.take start), visit entry state = .next state := by
    rw [here]
    exact fun entry member => idle entry (lesser_before (parts.laid.symm ▸ sorted)
      (parts.laid.symm ▸ stamped) user entry member)
  have rest := scanBlocks_ends visit (List.forall₂_drop start reads)
    (fun block member entry held => parts.fits stamped (List.mem_of_mem_drop member) held) state
  rwa [← scanList_skip before, ← all] at rest

/-- `Sst::get` on a written file. -/
theorem Parts.get_ends [MonadExceptOf Unit m] (table : UInt8) (key : Bytes) (snapshot : ℕ) :
    (outcome.exceptT refused).ends (parts.opened.get read table key snapshot) fun found =>
      found = scanGet ⟨table, key⟩ snapshot entries := by
  obtain ⟨answer, asked, hidden⟩ :=
    Bloom.maybeContains_ofEntries (Bloom.new_sound countHint) entries ⟨table, key⟩
  rw [← parts.filter] at asked
  rw [SstFile.get, show parts.opened.bloom = parts.bloom from rfl, asked]
  cases answer with
  | false =>
    have absent : scanGet ⟨table, key⟩ snapshot entries = none := by
      rw [scanGet_eq sorted, visible_eq_none_iff]
      exact fun seq _ => entrySource_eq_none fun entry member same =>
        hidden rfl entry member (by rw [same])
    exact (outcome.exceptT refused).pure absent.symm
  | true =>
    cases found : parts.opened.startBlock ⟨table, key⟩ with
    | none =>
      have empty := parts.startBlock_none found
      exact (outcome.exceptT refused).pure (by rw [empty]; rfl)
    | some start =>
      refine (outcome.exceptT refused).bind
        (parts.scan_ends sorted stamped reads (fun _ => getVisit_lesser) found) ?_
      rintro scan rfl
      rw [← scanList_get]
      cases scanList (getVisit ⟨table, key⟩ snapshot) entries () <;>
        exact (outcome.exceptT refused).pure rfl

/-- `Sst::range` on a written file. -/
theorem Parts.range_ends (table : UInt8) (start : Bytes) (stop : Option Bytes) (snapshot : ℕ)
    (out : RangeOps) :
    (outcome.exceptT refused).ends (parts.opened.range read table start stop snapshot out) fun map =>
      map = scanRange table start stop snapshot entries none out := by
  rw [SstFile.range]
  cases found : parts.opened.startBlock ⟨table, start⟩ with
  | none =>
    have empty := parts.startBlock_none found
    exact (outcome.exceptT refused).pure (by rw [empty]; rfl)
  | some first =>
    refine (outcome.exceptT refused).bind
      (parts.scan_ends sorted stamped reads (fun _ less =>
        rangeVisit_lesser less (none, out)) found) ?_
    rintro scan rfl
    rw [← scanList_range]
    cases scanList (rangeVisit table start stop snapshot) entries (none, out) <;>
      exact (outcome.exceptT refused).pure rfl

end

/-- A block that is read back is swept whole. -/
theorem sweep_cons {sst : SstFile} {refs : List BlockRef}
    (read : sst.readData ref = .ok block.payload) (fit : ∀ entry ∈ block.entries, EntryFits entry) :
    sst.sweep (ref :: refs) = block.entries.map .ok ++ sst.sweep refs := by
  have items : blockItems block.payload = block.entries.map .ok := blockItems_encode fit
  have fine : ((block.entries.map (Except.ok : Entry → Except Error Entry)).any fun item =>
    !item.isOk) = false := by
    simp [Except.isOk, Except.toBool]
  rw [SstFile.sweep, read]
  simp only [items, fine, Bool.false_eq_true, if_false]

namespace Parts

variable {file : Bytes} {entries : List Entry} {countHint maxSeq : ℕ}
  (parts : Parts file entries countHint maxSeq)

/-- The blocks of a list, each with its place. -/
theorem forall₂_refs {related : BlockRef → Block → Prop} (before : List Block)
    (each : ∀ front block back, blocks = front ++ block :: back →
      related ⟨block.first.1, (wholes (before ++ front)).length, block.whole.length⟩ block) :
    List.Forall₂ related (refs (wholes before).length blocks) blocks := by
  induction blocks generalizing before with
  | nil => exact .nil
  | cons block blocks ih =>
    refine .cons ?_ ?_
    · have here := each [] block blocks rfl
      rwa [List.append_nil] at here
    · have next := ih (before ++ [block]) fun front other back split => by
        have there := each (block :: front) other back (by rw [split]; rfl)
        rwa [List.append_assoc]
      simpa [wholes] using next

theorem reads_direct :
    ReadsAll Outcome.option (fun _ => False) parts.opened.direct (refs 0 parts.blocks)
      parts.blocks := by
  refine forall₂_refs [] fun front block back split => ⟨.ok block.payload, ?_, rfl⟩
  exact congrArg some (parts.readData split)

theorem sweep_eq (stamped : ∀ entry ∈ entries, entry.1.seq ≤ u64Max) {refs : List BlockRef}
    (reads : List.Forall₂ (fun ref block => parts.opened.readData ref = .ok block.payload)
      refs blocks)
    (held : ∀ block ∈ blocks, block ∈ parts.blocks) :
    parts.opened.sweep refs = (entriesOf blocks).map .ok := by
  induction reads with
  | nil => rfl
  | @cons ref block refs blocks here _ ih =>
    rw [sweep_cons here fun entry member => parts.fits stamped (held block List.mem_cons_self) member,
      ih fun other member => held other (List.mem_cons_of_mem _ member), ← List.map_append]
    rfl

end Parts

/-- Where no error is allowed, there is a result. -/
theorem ends_option {α : Type} {x : ExceptT Error Option α} {a : α}
    (ends : (Outcome.option.exceptT fun _ => False).ends x fun result => result = a) :
      x.run = some (.ok a) := by
  obtain ⟨result, ended, held⟩ := ends
  cases result with
  | ok b => rw [ended, show b = a from held]
  | error error => exact held.elim

/-- **A written file reads as the run it was written from**, whatever its blocks. -/
theorem written_shows {entries : List Entry} {countHint maxSeq : ℕ} {file : Bytes}
    (sorted : Sorted entries)
    (stamped : ∀ entry ∈ entries, entry.1.seq ≤ u64Max) (last : maxSeq ≤ u64Max)
    (written : writeSorted (entries.map .ok) countHint maxSeq = .ok file) :
    ∃ sst, SstFile.openBytes file = .ok sst ∧ sst.Shows ⟨.v2, maxSeq, entries, sorted⟩ := by
  obtain ⟨parts⟩ := writeSorted_parts written
  refine ⟨parts.opened, parts.opens stamped last, rfl, rfl, congrArg _ parts.laid, ?_, ?_, ?_⟩
  · intro table key snapshot
    exact ends_option (parts.get_ends sorted stamped parts.reads_direct table key snapshot)
  · intro table start stop snapshot out
    exact ends_option (parts.range_ends sorted stamped parts.reads_direct table start stop
      snapshot out)
  · have swept := parts.sweep_eq stamped (Parts.forall₂_refs [] fun _ _ _ split =>
      parts.readData split)
      fun _ member => member
    rwa [parts.laid] at swept

/-- A key that was set and then deleted. -/
def sampleRun : Run := ⟨.v2, 2, [(⟨⟨3, [1]⟩, 2⟩, .del), (⟨⟨3, [1]⟩, 1⟩, .put [7, 8])], by decide⟩

theorem sampleRun_written : ∃ file, writeSorted (sampleRun.entries.map .ok) 2 2 = .ok file := by
  have made : (writeSorted (sampleRun.entries.map .ok) 2 2).isOk = true := by decide
  cases written : writeSorted (sampleRun.entries.map .ok) 2 2 with
  | ok file => exact ⟨file, rfl⟩
  | error error => rw [written] at made; cases made

theorem written_shows_sample : ∃ file sst, writeSorted (sampleRun.entries.map .ok) 2 2 = .ok file ∧
    SstFile.openBytes file = .ok sst ∧ sst.Shows sampleRun := by
  obtain ⟨file, written⟩ := sampleRun_written
  obtain ⟨sst, opens, shows_⟩ := written_shows sampleRun.sorted (by decide) (by decide) written
  exact ⟨file, sst, written, opens, shows_⟩

end DrStrange.Native
