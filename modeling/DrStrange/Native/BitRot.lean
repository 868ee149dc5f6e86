/-
**Bit rot is never a wrong answer.**

Every part of a file ends with its CRC-32: each data block, the index, the filter and the footer,
whose checksum covers the magic as well. A block and its trailer leave one register of the checksum
(`sealed_iff`), so two sealed blocks that differ by a burst of at most four bytes are the same block
(`sealed_burst`). A file that differs from a written one by such a burst, wherever it lies and
whatever parts it touches, is refused as corrupt when it is opened, or shows the run wherever it is
not refused (`damaged_shows`).
-/

import DrStrange.Lib.Burst
import DrStrange.Native.Crc
import DrStrange.Native.Written

namespace DrStrange.Native

open Std Lib Lib.Crc

/-! ### The checksum as a register -/

/-- Bytes as the symbols of the register. -/
def symbols (bytes : Bytes) : List (BitVec 8) := bytes.map UInt8.toBitVec

theorem bitwiseRounds_toBitVec (crc : UInt32) :
    (bitwiseRounds crc).toBitVec = rounds crc32Poly 8 crc.toBitVec := iterate_crc32Bit_toBitVec 8 crc

theorem crc32Loop_toBitVec (crc : UInt32) (bytes : Bytes) :
    (crc32Loop crc bytes).toBitVec = feedAll crc32Poly crc.toBitVec (symbols bytes) := by
  rw [crc32Loop_eq]
  induction bytes generalizing crc with
  | nil => rfl
  | cons byte bytes ih =>
    rw [List.foldl_cons, ih, bitwiseRounds_toBitVec, UInt32.toBitVec_xor]
    rfl

theorem crc32_toBitVec (bytes : Bytes) :
    (crc32 bytes).toBitVec = ~~~ feedAll crc32Poly (BitVec.allOnes 32) (symbols bytes) := by
  rw [crc32, UInt32.toBitVec_not, crc32Loop_toBitVec]
  rfl

theorem crc32Poly_top : crc32Poly.getLsbD (32 - 1) = true := rfl

variable {trailer bytes : Bytes} {sst : SstFile}

/-- Four bytes of a trailer, as the register takes them in. -/
theorem packed_trailer (length : trailer.length = 4) :
    (packed (symbols trailer) : BitVec 32) = BitVec.ofNat 32 (leNat trailer) := by
  obtain ⟨b0, b1, b2, b3, rfl⟩ : ∃ b0 b1 b2 b3, trailer = [b0, b1, b2, b3] := by
    match trailer, length with
    | [b0, b1, b2, b3], _ => exact ⟨b0, b1, b2, b3, rfl⟩
  rw [packed_eq_ofNat]
  congr 1
  simp only [symbols, List.map_cons, List.map_nil, Crc.value, leNat, UInt8.toNat_toBitVec]
  omega

theorem leNat_lt (length : trailer.length = 4) : leNat trailer < 4294967296 := by
  match trailer, length with
  | [b0, b1, b2, b3], _ =>
    have h0 := b0.toNat_lt
    have h1 := b1.toNat_lt
    have h2 := b2.toNat_lt
    have h3 := b3.toNat_lt
    rw [leNat]
    omega

/-- The last four bytes are the checksum of those before them. -/
def Sealed (bytes : Bytes) : Prop :=
  4 ≤ bytes.length ∧ (crc32 (bytes.take (bytes.length - 4))).toNat =
    leNat (bytes.drop (bytes.length - 4))

theorem sealed_iff (long : 4 ≤ bytes.length) :
    Sealed bytes ↔ feedAll crc32Poly (BitVec.allOnes 32) (symbols bytes) =
      rounds crc32Poly 32 (BitVec.allOnes 32) := by
  have length : (bytes.drop (bytes.length - 4)).length = 4 := by
    rw [List.length_drop]
    omega
  have parts : symbols bytes =
      symbols (bytes.take (bytes.length - 4)) ++ symbols (bytes.drop (bytes.length - 4)) := by
    rw [symbols, symbols, symbols, ← List.map_append, List.take_append_drop]
  have fits : (symbols (bytes.drop (bytes.length - 4))).length * 8 = 32 := by
    rw [symbols, List.length_map, length]
  rw [parts, feedAll_sealed crc32Poly_top _ _ _ fits, packed_trailer length, ← crc32_toBitVec, Sealed,
    ← BitVec.toNat_inj, BitVec.toNat_ofNat, Nat.mod_eq_of_lt (leNat_lt length)]
  exact ⟨fun held => held.2.symm, fun same => ⟨long, same.symm⟩⟩

/-- **Sealed bytes that differ by a burst of at most four are the same.** -/
theorem sealed_burst {whole damaged : Bytes} (burst : Burst 4 whole damaged) (intact : Sealed whole)
    (passes : Sealed damaged) : damaged = whole := by
  have same := ((sealed_iff intact.1).mp intact).trans ((sealed_iff passes.1).mp passes).symm
  have symbols_ := feedAll_burst crc32Poly_top (burst.map UInt8.toBitVec) (by decide) same
  exact (List.map_injective_iff.mpr (fun _ _ bits => UInt8.toBitVec_inj.mp bits) symbols_).symm

/-! ### Blocks of a damaged file -/

section

variable {file damaged buf : Bytes} {offset len : ℕ} {parts : Footer × Version}

theorem readAt_burst (burst : Burst 4 file damaged) (read : readAt file offset len = some buf) :
    ∃ buf', readAt damaged offset len = some buf' ∧ Burst 4 buf buf' := by
  rw [readAt] at read
  split_ifs at read with inside
  cases read
  exact ⟨_, if_pos (burst.length_eq ▸ inside), (burst.drop offset).take len⟩

/-- What a v2 block reads as. -/
theorem readBlockAt_v2 (what : String) (read : readAt file offset len = some buf) :
    (Sealed buf ∧ readBlockAt file .v2 what offset len = .ok (buf.take (buf.length - 4))) ∨
      ¬ Sealed buf ∧ ∃ message, readBlockAt file .v2 what offset len = .error (.corrupt message) := by
  rw [readBlockAt, read]
  by_cases short : buf.length < 4
  · exact .inr ⟨fun held => absurd held.1 (Nat.not_le.mpr short), _, if_pos short⟩
  · simp only [if_neg short]
    by_cases same : (crc32 (buf.take (buf.length - 4))).toNat = leNat (buf.drop (buf.length - 4))
    · exact .inl ⟨⟨Nat.not_lt.mp short, same⟩, if_neg (not_not.mpr same)⟩
    · exact .inr ⟨fun held => same held.2, _, if_pos same⟩

def IsCorrupt (error : Error) : Prop := ∃ message, error = .corrupt message

/-- The value is as it was, or the file is refused as corrupt. -/
def Caught {α : Type} (value : α) : Except Error α → Prop
  | .ok a => a = value
  | .error error => IsCorrupt error

/-- **A block that a burst has reached is caught.** -/
theorem readBlockAt_caught (burst : Burst 4 file damaged) {what : String} {payload : Bytes}
    (read : readBlockAt file .v2 what offset len = .ok payload) :
    Caught payload (readBlockAt damaged .v2 what offset len) := by
  cases found : readAt file offset len with
  | none => rw [readBlockAt, found] at read; cases read
  | some buf =>
    obtain ⟨buf', found', near⟩ := readAt_burst burst found
    rcases readBlockAt_v2 what found with ⟨intact, here⟩ | ⟨-, message, refused⟩
    · rcases readBlockAt_v2 what found' with ⟨passes, there⟩ | ⟨-, message, refused⟩
      · cases sealed_burst near intact passes
        cases here.symm.trans read
        rw [there]
        rfl
      · rw [refused]
        exact ⟨message, rfl⟩
    · cases refused.symm.trans read

theorem Caught.bind {α β : Type} {a : α} {b : β} {x : Except Error α} {f : α → Except Error β}
    (first : Caught a x) (next : Caught b (f a)) : Caught b (x >>= f) := by
  cases x with
  | ok value => exact (show value = a from first) ▸ next
  | error error => exact first

/-! ### Opening a damaged file -/

/-- What is decoded as the checksum is the last four bytes. -/
theorem decodeFooter_crc {rest : Bytes} {footer : Footer} {crc : ℕ}
    (length : bytes.length = footerLen) (read : decodeFooter bytes = some ((footer, crc), rest)) :
    crc = leNat (bytes.drop (footerLen - 4)) := by
  rw [footerLen] at length
  have last : leNat ((bytes.drop 52).take 4) = crc := by
    simp [decodeFooter, Cursor.u64, Cursor.u32, Decoder.take, bind, StateT.bind, Functor.map,
      StateT.map, pure,
      StateT.pure, length] at read
    exact read.1.2
  rw [← last, List.take_of_length_le (by rw [List.length_drop]; omega)]
  rfl

theorem readFooter_ok (read : readFooter file = .ok parts) :
    footerLen ≤ file.length ∧ Sealed (file.drop (file.length - footerLen)) := by
  rw [readFooter] at read
  split_ifs at read with short
  have long : (file.drop (file.length - footerLen)).length = footerLen := by
    rw [List.length_drop]
    omega
  refine ⟨Nat.not_lt.mp short, by rw [long]; decide, ?_⟩
  cases decoded : decodeFooter (file.drop (file.length - footerLen)) with
  | none =>
    simp only [decoded] at read
    cases read
  | some pair =>
    obtain ⟨⟨footer, crc⟩, rest⟩ := pair
    simp only [decoded] at read
    obtain ⟨version, -, checked⟩ := bind_eq_ok.mp read
    split_ifs at checked with same
    rw [long, not_not.mp same, decodeFooter_crc long decoded]

theorem readFooter_error {error : Error} (refused : readFooter file = .error error) :
    ∃ message, error = .corrupt message := by
  rw [readFooter] at refused
  split_ifs at refused with short
  · cases refused
    exact ⟨_, rfl⟩
  · simp only at refused
    split at refused
    · cases refused
      exact ⟨_, rfl⟩
    · next footer crc rest decoded =>
        cases version : Version.ofMagic footer.magic with
        | error other =>
          rw [version] at refused
          cases refused
          rw [Version.ofMagic] at version
          split_ifs at version
          cases version
          exact ⟨_, rfl⟩
        | ok version_ =>
          rw [version] at refused
          change (if _ then _ else _) = _ at refused
          split_ifs at refused
          · cases refused
            exact ⟨_, rfl⟩
          · cases refused

theorem readFooter_caught (burst : Burst 4 file damaged) (read : readFooter file = .ok parts) :
    Caught parts (readFooter damaged) := by
  cases there : readFooter damaged with
  | error error => exact readFooter_error there
  | ok parts' =>
    have same := sealed_burst (burst.drop (file.length - footerLen)) (readFooter_ok read).2
      (burst.length_eq ▸ (readFooter_ok there).2)
    have alike : readFooter damaged = readFooter file := by
      rw [readFooter, readFooter, ← burst.length_eq, same]
    cases (there.symm.trans alike).trans read
    rfl

theorem openBytes_caught (burst : Burst 4 file damaged) (opens : SstFile.openBytes file = .ok sst)
    (version : sst.version = .v2) :
    Caught { sst with file := damaged } (SstFile.openBytes damaged) := by
  obtain ⟨⟨footer, _⟩, read, opens⟩ := bind_eq_ok.mp opens
  obtain ⟨bloomLen, bloomFits, opens⟩ := bind_eq_ok.mp opens
  obtain ⟨bloomBuf, bloomRead, opens⟩ := bind_eq_ok.mp opens
  obtain ⟨bloom, decoded, opens⟩ := bind_eq_ok.mp opens
  obtain ⟨indexLen, indexFits, opens⟩ := bind_eq_ok.mp opens
  obtain ⟨indexBuf, indexRead, opens⟩ := bind_eq_ok.mp opens
  obtain ⟨index, references, opens⟩ := bind_eq_ok.mp opens
  obtain rfl := pure_eq_ok.mp opens
  obtain rfl : _ = Version.v2 := version
  have known {α : Type} {a : α} {x : Except Error α} (same : x = .ok a) : Caught a x := by
    rw [same]; rfl
  rw [burst.length_eq] at bloomFits indexFits
  exact (readFooter_caught burst read).bind <| (known bloomFits).bind <|
    (readBlockAt_caught burst bloomRead).bind <|
    (known decoded).bind <| (known indexFits).bind <| (readBlockAt_caught burst indexRead).bind <|
    (known references).bind rfl

end

/-! ### Reading a damaged file -/

/-- The file shows the run wherever it does not refuse to: an answer is right or says `Corrupt`, and
a sweep that is not whole ends in `Corrupt` behind entries of the run. -/
structure SstFile.ShowsOrRefuses (sst : SstFile) (run : Run) : Prop where
  version : sst.version = run.version
  maxSeq : sst.maxSeq = run.maxSeq
  count : sst.count = run.entries.length
  get : ∀ table key snapshot, ∃ result, (sst.get sst.direct table key snapshot).run = some result ∧
    Caught (run.get table key snapshot) result
  range : ∀ table start stop snapshot out, ∃ result,
    (sst.range sst.direct table start stop snapshot out).run = some result ∧
      Caught (run.range table start stop snapshot out) result
  entries : sst.entries = run.entries.map .ok ∨
    ∃ before message, before <+: run.entries ∧
    sst.entries = before.map .ok ++ [.error (.corrupt message)]

theorem ends_caught {α : Type} {x : ExceptT Error Option α} {a : α}
    (ends : (Outcome.option.exceptT IsCorrupt).ends x fun result => result = a) :
    ∃ result, x.run = some result ∧ Caught a result := by
  obtain ⟨result, ended, held⟩ := ends
  refine ⟨result, ended, ?_⟩
  cases result with
  | ok b => exact held
  | error error => exact held

theorem sweep_caught {refs : List BlockRef} {blocks : List Block}
    (reads : List.Forall₂ (fun ref block => Caught block.payload (sst.readData ref)) refs blocks)
    (fit : ∀ block ∈ blocks, ∀ entry ∈ block.entries, EntryFits entry) :
    sst.sweep refs = (entriesOf blocks).map .ok ∨ ∃ before message, before <+: entriesOf blocks ∧
      sst.sweep refs = before.map .ok ++ [.error (.corrupt message)] := by
  induction reads with
  | nil => exact .inl rfl
  | @cons ref block refs blocks here _ ih =>
    have all : entriesOf (block :: blocks) = block.entries ++ entriesOf blocks := List.flatMap_cons ..
    rw [all]
    cases read : sst.readData ref with
    | error error =>
      rw [read] at here
      obtain ⟨message, rfl⟩ := here
      exact .inr ⟨[], message, List.nil_prefix, by rw [SstFile.sweep, read]; rfl⟩
    | ok buf =>
      rw [read] at here
      obtain rfl : buf = block.payload := here
      rw [sweep_cons read (fit block List.mem_cons_self)]
      rcases ih fun other member => fit other (List.mem_cons_of_mem _ member)
        with whole | ⟨before, message, within, cut⟩
      · exact .inl (by rw [whole, List.map_append])
      · refine .inr ⟨block.entries ++ before, message,
          (List.prefix_append_right_inj _).mpr within, ?_⟩
        rw [cut, List.map_append, List.append_assoc]

/-- **A burst of at most four bytes is never a wrong answer**, wherever in the file it lies. -/
theorem damaged_shows {entries : List Entry} {countHint maxSeq : ℕ} {file damaged : Bytes}
    (sorted : Sorted entries)
    (stamped : ∀ entry ∈ entries, entry.1.seq ≤ u64Max) (last : maxSeq ≤ u64Max)
    (written : writeSorted (entries.map .ok) countHint maxSeq = .ok file)
    (burst : Burst 4 file damaged) :
    (∃ message, SstFile.openBytes damaged = .error (.corrupt message)) ∨
      ∃ sst, SstFile.openBytes damaged = .ok sst ∧
      sst.ShowsOrRefuses ⟨.v2, maxSeq, entries, sorted⟩ := by
  obtain ⟨parts⟩ := writeSorted_parts written
  have caught := openBytes_caught burst (parts.opens stamped last) rfl
  cases opened : SstFile.openBytes damaged with
  | error error =>
    rw [opened] at caught
    obtain ⟨message, rfl⟩ := caught
    exact .inl ⟨message, rfl⟩
  | ok sst =>
    rw [opened] at caught
    obtain rfl : sst = { parts.opened with file := damaged } := caught
    have data : List.Forall₂ (fun ref block => Caught block.payload
        (SstFile.readData { parts.opened with file := damaged } ref)) (refs 0 parts.blocks)
          parts.blocks :=
      Parts.forall₂_refs [] fun _ _ _ split => readBlockAt_caught burst (parts.readData split)
    have reads : ReadsAll Outcome.option IsCorrupt
        (SstFile.direct { parts.opened with file := damaged })
        (refs 0 parts.blocks) parts.blocks := by
      refine data.imp fun ref block here => ⟨_, rfl, ?_⟩
      cases read : SstFile.readData { parts.opened with file := damaged } ref with
      | ok buf => exact (congrArg (Caught block.payload) read).mp here
      | error error => exact (congrArg (Caught block.payload) read).mp here
    refine .inr ⟨_, rfl, rfl, rfl, congrArg _ parts.laid, ?_, ?_, ?_⟩
    · exact fun table key snapshot => ends_caught
        (parts.get_ends sorted stamped reads table key snapshot)
    · exact fun table start stop snapshot out =>
        ends_caught (parts.range_ends sorted stamped reads table start stop snapshot out)
    · have swept := sweep_caught data fun block member entry held => parts.fits stamped member held
      rwa [parts.laid] at swept

/-- A byte of the first block is overwritten. -/
theorem damaged_shows_sample : ∃ file, writeSorted (sampleRun.entries.map .ok) 2 2 = .ok file ∧
    ((∃ message, SstFile.openBytes (file.set 5 9) = .error (.corrupt message)) ∨
      ∃ sst, SstFile.openBytes (file.set 5 9) = .ok sst ∧ sst.ShowsOrRefuses sampleRun) := by
  obtain ⟨file, written⟩ := sampleRun_written
  exact ⟨file, written, damaged_shows sampleRun.sorted (by decide) (by decide) written
    (.set file 5 9 (by decide))⟩

end DrStrange.Native
