/-
**The block cache never changes an answer.**

All files of an engine share one cache, keyed by the id of the file and the offset of the block. A
read asks the cache first, and puts there what it had to read itself; between these two steps any
other reader may do the same, and the cache may drop what it likes. `moka` is an external crate, so
the cache is a parameter: what it holds was put there under that key (`Cache`).

What the cache holds is the checked payload of the block at that place (`Coherent`). The blocks of a
file start at different offsets (`Parts.offset_inj`), so that is all a key says. Each of the two
steps keeps it whatever the other readers do, and so every read of a pool of readers ends with the
answer of its run, under every schedule (`cached_reads`).
-/

import DrStrange.Lib.Interleave
import DrStrange.Native.Written

namespace DrStrange.Native

open Std Lib Interleave

/-! ### The cache -/

/-- A cache that may drop entries whenever it is used: it holds nothing that was not put there. -/
structure Cache (κ υ : Type) where
  State : Type
  empty : State
  get : κ → State → Option υ × State
  insert : κ → υ → State → State
  get_empty : ∀ key, (get key empty).1 = none
  get_get : ∀ {state key other value}, (get other (get key state).2).1 = some value →
    (get other state).1 = some value
  get_insert : ∀ {state key value other found}, (get other (insert key value state)).1 = some found →
    (other = key ∧ found = value) ∨ (get other state).1 = some found

/-- A cache that never drops anything. -/
def Cache.unbounded (κ υ : Type) [DecidableEq κ] : Cache κ υ where
  State := κ → Option υ
  empty _ := none
  get key state := (state key, state)
  insert key value state := fun other => if other = key then some value else state other
  get_empty _ := rfl
  get_get held := held
  get_insert {state key value other found} held := by
    change (if other = key then some value else state other) = some found at held
    split_ifs at held with same
    · exact .inl ⟨same, (Option.some.inj held).symm⟩
    · exact .inr held

/-! ### Reads through the cache -/

variable {ι γ : Type}

/-- A step on the shared cache. -/
inductive CacheAct (ι : Type) where
  | get (key : ι × ℕ)
  | insert (key : ι × ℕ) (payload : Bytes)

abbrev CacheAct.Reply : CacheAct ι → Type
  | .get _ => Option Bytes
  | .insert _ _ => Unit

def CacheAct.perform (cache : Cache (ι × ℕ) Bytes) :
    (action : CacheAct ι) → cache.State → Except Unit (action.Reply × cache.State)
  | .get key, state => .ok (cache.get key state)
  | .insert key payload, state => .ok ((), cache.insert key payload state)

/-- A reader; it fails if it panics. -/
abbrev ReadProg (ι : Type) : Type → Type := Prog (CacheAct ι) CacheAct.Reply Unit

def cacheGet (key : ι × ℕ) : ExceptT Error (ReadProg ι) (Option Bytes) :=
  ExceptT.mk do return .ok (← Prog.perform (CacheAct.get key))

def cacheInsert (key : ι × ℕ) (payload : Bytes) : ExceptT Error (ReadProg ι) Unit :=
  ExceptT.mk do return .ok (← Prog.perform (CacheAct.insert key payload))

/-- `Sst::read_block`: only verified payloads enter the cache. -/
def SstFile.readBlock (sst : SstFile) (id : ι) (block : BlockRef) :
    ExceptT Error (ReadProg ι) Bytes := do
  match ← cacheGet (id, block.offset) with
  | some cached => pure cached
  | none => do
    let buf ← ExceptT.mk (pure (sst.readData block))
    cacheInsert (id, block.offset) buf
    pure buf

/-- A read of one of the open files. -/
inductive Request (ι : Type) where
  | get (id : ι) (table : UInt8) (key : Bytes) (snapshot : ℕ)
  | range (id : ι) (table : UInt8) (start : Bytes) (stop : Option Bytes) (snapshot : ℕ)
    (out : RangeOps)

/-- What a request is answered. -/
inductive Answer where
  | op (found : Option Op)
  | ops (out : RangeOps)

/-- The read, through the cache. -/
def Request.serve (files : ι → SstFile) : Request ι → ExceptT Error (ReadProg ι) Answer
  | .get id table key snapshot => do
    return .op (← (files id).get ((files id).readBlock id) table key snapshot)
  | .range id table start stop snapshot out => do
    return .ops (← (files id).range ((files id).readBlock id) table start stop snapshot out)

/-- What the run says. -/
def Request.answer (runs : ι → Run) : Request ι → Answer
  | .get id table key snapshot => .op ((runs id).get table key snapshot)
  | .range id table start stop snapshot out => .ops ((runs id).range table start stop snapshot out)

/-- A reader's requests, one after the other. -/
def serveAll (files : ι → SstFile) : List (Request ι) → ReadProg ι (List (Except Error Answer))
  | [] => pure []
  | request :: requests => do
    let answer ← (request.serve files).run
    return answer :: (← serveAll files requests)

/-! ### What the cache holds -/

/-- The payload is that of the block at this place. -/
def Verified (files : ι → SstFile) (key : ι × ℕ) (payload : Bytes) : Prop :=
  ∀ block ∈ (files key.1).index, block.offset = key.2 → (files key.1).readData block = .ok payload

/-- The cache holds verified payloads only. -/
def Coherent (files : ι → SstFile) (cache : Cache (ι × ℕ) Bytes) (state : cache.State) : Prop :=
  ∀ key payload, (cache.get key state).1 = some payload → Verified files key payload

/-- **Either step keeps the cache coherent**, whatever it drops. A reader puts in only what it has
verified, and relies on that of others. The record of a reader is what it was asked. -/
def cacheDiscipline (files : ι → SstFile) (cache : Cache (ι × ℕ) Bytes) (asked : List γ) :
    Discipline (CacheAct.perform cache) γ where
  inv state records := Coherent files cache state ∧ records = asked
  pre action _ :=
    match action with
    | .get _ => True
    | .insert key payload => Verified files key payload
  post action _ reply :=
    match action, reply with
    | .get key, found => ∀ payload, found = some payload → Verified files key payload
    | .insert _ _, _ => True
  next _ record _ := record
  keeps := by
    intro state records i record action inv held allowed
    obtain ⟨coherent, same⟩ := inv
    have kept : records.set i record = asked := by
      obtain ⟨inside, there⟩ := List.getElem?_eq_some_iff.mp held
      rw [← there, List.set_getElem_self, same]
    cases action with
    | get key =>
      refine ⟨_, _, rfl, fun payload found => coherent key payload found,
        fun other payload found => ?_, kept⟩
      exact coherent other payload (cache.get_get found)
    | insert key payload =>
      refine ⟨(), _, rfl, trivial, fun other found there => ?_, kept⟩
      rcases cache.get_insert there with ⟨rfl, rfl⟩ | before
      · exact allowed
      · exact coherent other found before

section

variable {files : ι → SstFile} {cache : Cache (ι × ℕ) Bytes} {asked : List γ} {record : γ}
  {payload : Bytes}

/-- How a reader ends whose record is this: with no error, and as said. -/
abbrev readerEnds (files : ι → SstFile) (cache : Cache (ι × ℕ) Bytes) (asked : List γ) (record : γ) :
    Outcome (ExceptT Error (ReadProg ι)) :=
  ((cacheDiscipline files cache asked).steady record).exceptT fun _ => False

theorem cacheGet_ends (key : ι × ℕ) :
    (readerEnds files cache asked record).ends (cacheGet key) fun found =>
    ∀ payload, found = some payload → Verified files key payload := by
  have got : ((cacheDiscipline files cache asked).steady record).ends
      (Prog.perform (CacheAct.get key))
      fun found => ∀ payload, found = some payload → Verified files key payload :=
    Discipline.Safe.mono (Discipline.Safe.act trivial) fun _ _ ended => ⟨ended.2, ended.1⟩
  exact ((cacheDiscipline files cache asked).steady record).bind got fun _ known => ⟨rfl, known⟩

theorem cacheInsert_ends {key : ι × ℕ} (verified : Verified files key payload) :
    (readerEnds files cache asked record).ends (cacheInsert key payload) fun _ => True := by
  have put : ((cacheDiscipline files cache asked).steady record).ends
      (Prog.perform (CacheAct.insert key payload)) fun _ => True :=
    Discipline.Safe.mono (Discipline.Safe.act verified) fun _ _ ended => ⟨ended.2, trivial⟩
  exact ((cacheDiscipline files cache asked).steady record).bind put fun _ _ => ⟨rfl, trivial⟩

/-- **A read through the cache is the read of the block.** -/
theorem readBlock_ends {id : ι} {block : BlockRef} (member : block ∈ (files id).index)
    (apart : ∀ other ∈ (files id).index, other.offset = block.offset → other = block)
    (read : (files id).readData block = .ok payload) :
    (readerEnds files cache asked record).ends ((files id).readBlock id block) fun buf =>
      buf = payload := by
  have verified : Verified files (id, block.offset) payload :=
    fun other among same => apart other among same ▸ read
  refine (readerEnds files cache asked record).bind (cacheGet_ends (id, block.offset))
    fun found known => ?_
  cases found with
  | some cached =>
    have same := (known cached rfl block member rfl).symm.trans read
    exact (readerEnds files cache asked record).pure (Except.ok.inj same)
  | none =>
    have here : (readerEnds files cache asked record).ends
        (ExceptT.mk (pure ((files id).readData block)))
        fun buf => buf = payload := by
      rw [read]
      exact ⟨rfl, rfl⟩
    refine (readerEnds files cache asked record).bind here ?_
    rintro _ rfl
    exact (readerEnds files cache asked record).bind (cacheInsert_ends verified) fun _ _ =>
      (readerEnds files cache asked record).pure rfl

end

/-- The blocks of a file start at different offsets. -/
theorem refs_offset (offset : ℕ) (blocks : List Block) :
    (refs offset blocks).Pairwise (fun a b => a.offset < b.offset) ∧
    ∀ ref ∈ refs offset blocks, offset ≤ ref.offset := by
  induction blocks generalizing offset with
  | nil => exact ⟨.nil, fun _ member => nomatch member⟩
  | cons block blocks ih =>
    obtain ⟨ascending, above⟩ := ih (offset + block.whole.length)
    have long := block.length_whole
    refine ⟨.cons (fun ref member => ?_) ascending, fun ref member => ?_⟩
    · have next := above ref member
      simp only
      omega
    · rcases List.mem_cons.mp member with rfl | later
      · exact le_rfl
      · exact (Nat.le_add_right _ _).trans (above ref later)

theorem offset_inj {offset : ℕ} {blocks : List Block} {a b : BlockRef}
    (first : a ∈ refs offset blocks)
    (second : b ∈ refs offset blocks) (same : a.offset = b.offset) : a = b := by
  by_contra different
  have strict : (refs offset blocks).Pairwise fun a b => a.offset ≠ b.offset :=
    (refs_offset offset blocks).1.imp fun less => less.ne
  have symm : Std.Symm fun a b : BlockRef => a.offset ≠ b.offset := ⟨fun _ _ => Ne.symm⟩
  exact strict.forall first second different same

/-! ### Pools of readers -/

section

variable {files : ι → SstFile} {runs : ι → Run} {cache : Cache (ι × ℕ) Bytes} {asked : List γ}
  {record : γ}

/-- Every open file was written from its run. -/
structure WrittenFrom (files : ι → SstFile) (runs : ι → Run) (id : ι) : Prop where
  stamped : ∀ entry ∈ (runs id).entries, entry.1.seq ≤ u64Max
  last : (runs id).maxSeq ≤ u64Max
  written : ∃ countHint bytes, writeSorted ((runs id).entries.map .ok) countHint (runs id).maxSeq =
    .ok bytes ∧
    SstFile.openBytes bytes = .ok (files id)

/-- **A request ends with the answer of its run.** -/
theorem serve_ends (written : ∀ id, WrittenFrom files runs id) (request : Request ι) :
    (readerEnds files cache asked record).ends (request.serve files) fun answer =>
      answer = request.answer runs := by
  have reads (id : ι) : ∃ countHint bytes,
      ∃ parts : Parts bytes (runs id).entries countHint (runs id).maxSeq,
      files id = parts.opened ∧ ReadsAll ((cacheDiscipline files cache asked).steady record)
        (fun _ => False)
        ((files id).readBlock id) (refs 0 parts.blocks) parts.blocks := by
    obtain ⟨countHint, bytes, made, opens⟩ := (written id).written
    obtain ⟨parts⟩ := writeSorted_parts made
    have same : files id = parts.opened :=
      Except.ok.inj (opens.symm.trans (parts.opens (written id).stamped (written id).last))
    have index : (files id).index = refs 0 parts.blocks := by rw [same]; rfl
    refine ⟨countHint, bytes, parts, same, Parts.forall₂_refs [] fun front block back split => ?_⟩
    have listed : (⟨block.first.1, (wholes front).length, block.whole.length⟩ : BlockRef) ∈
        refs 0 parts.blocks := by
      rw [split, refs_append, Nat.zero_add]
      exact List.mem_append_right _ List.mem_cons_self
    refine readBlock_ends (index ▸ listed) (fun other among alike => ?_) (same ▸ parts.readData split)
    exact offset_inj (index ▸ among) listed alike
  cases request with
  | get id table key snapshot =>
    obtain ⟨countHint, bytes, parts, same, all⟩ := reads id
    have ends := parts.get_ends (runs id).sorted (written id).stamped all table key snapshot
    rw [← same] at ends
    refine (readerEnds files cache asked record).bind ends ?_
    rintro _ rfl
    exact (readerEnds files cache asked record).pure rfl
  | range id table start stop snapshot out =>
    obtain ⟨countHint, bytes, parts, same, all⟩ := reads id
    have ends := parts.range_ends (runs id).sorted (written id).stamped all table start stop
      snapshot out
    rw [← same] at ends
    refine (readerEnds files cache asked record).bind ends ?_
    rintro _ rfl
    exact (readerEnds files cache asked record).pure rfl

theorem serveAll_ends (written : ∀ id, WrittenFrom files runs id) (requests : List (Request ι)) :
    ((cacheDiscipline files cache asked).steady record).ends (serveAll files requests) fun answers =>
      answers = requests.map fun request => .ok (request.answer runs) := by
  induction requests with
  | nil => exact ⟨rfl, rfl⟩
  | cons request requests ih =>
    refine ((cacheDiscipline files cache asked).steady record).bind (serve_ends written request)
      fun result ended => ?_
    refine ((cacheDiscipline files cache asked).steady record).bind ih ?_
    rintro answers rfl
    refine ⟨rfl, ?_⟩
    cases result with
    | ok answer => rw [show answer = request.answer runs from ended]; rfl
    | error error => exact ended.elim

/-- The readers with nothing done, on an empty cache. -/
def readers (files : ι → SstFile) (cache : Cache (ι × ℕ) Bytes) (requests : List (List (Request ι))) :
    Pool (CacheAct ι) CacheAct.Reply Unit (List (Except Error Answer)) cache.State :=
  ⟨cache.empty, requests.map (serveAll files)⟩

/-- **Under every schedule the readers run without a panic, and each that ends has the answers of
the runs**; and some schedule ends them all. -/
theorem cached_reads (written : ∀ id, WrittenFrom files runs id)
    (requests : List (List (Request ι))) :
    (∀ schedule, ∃ after, (readers files cache requests).run (CacheAct.perform cache) schedule =
      .ok after ∧
      ∀ (i : ℕ) asked answers, requests[i]? = some asked → after.threads[i]? = some (.done answers) →
        answers = asked.map fun request => .ok (request.answer runs)) ∧
      ∃ schedule after, (readers files cache requests).run (CacheAct.perform cache) schedule =
        .ok after ∧
        after.finished := by
  have inv : (cacheDiscipline files cache requests).inv (readers files cache requests).shared
      requests := by
    refine ⟨fun key payload found => ?_, rfl⟩
    rw [readers, cache.get_empty] at found
    cases found
  have guards : (cacheDiscipline files cache requests).Guards
      (fun answers asked => answers = asked.map fun request => .ok (request.answer runs))
      (readers files cache requests).threads requests := by
    refine ⟨by simp [readers], fun i prog asked running kept => ?_⟩
    rw [readers, List.getElem?_map, kept] at running
    obtain rfl := Option.some.inj running
    refine Discipline.Safe.mono (serveAll_ends written asked) ?_
    rintro answers _ ⟨rfl, ended⟩
    exact ended
  refine ⟨fun schedule => ?_, Discipline.run_finishes inv guards⟩
  obtain ⟨after, records, ran, -, ⟨-, rfl⟩, guarded⟩ := Discipline.run_safe inv guards schedule
  exact ⟨after, ran, fun i asked answers kept ended => guarded.2 i _ asked ended kept⟩

end

/-- Two readers of one file. -/
theorem cached_reads_sample : ∃ file sst, writeSorted (sampleRun.entries.map .ok) 2 2 = .ok file ∧
    SstFile.openBytes file = .ok sst ∧
    ∃ schedule after, (readers (fun _ : Unit => sst) (.unbounded (Unit × ℕ) Bytes)
      [[.get () 3 [1] 1], [.get () 3 [1] 2, .range () 3 [] none 2 ∅]]).run
        (CacheAct.perform (.unbounded (Unit × ℕ) Bytes)) schedule = .ok after ∧ after.finished := by
  obtain ⟨file, written⟩ := sampleRun_written
  obtain ⟨parts⟩ := writeSorted_parts written
  have opens := parts.opens (by decide) (by decide)
  have from_ : ∀ id : Unit, WrittenFrom (fun _ => parts.opened) (fun _ => sampleRun) id := fun _ =>
    ⟨by decide, by decide, 2, file, written, opens⟩
  exact ⟨file, parts.opened, written, opens, (cached_reads from_ _).2⟩

end DrStrange.Native
