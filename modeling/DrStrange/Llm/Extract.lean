/-
**Extracting a chunk.**

A reply that was cut off makes the chunk be cut into pieces, which are asked about in its place; a
reply that cannot be read is asked for once more. Every piece has less ink than the chunk, so this
ends whatever the model answers, after a number of calls that the ink bounds. Where it succeeds, the
replies that were read are those to pieces with the ink of the chunk, in order
(`extractChunk_sound`).
-/

import DrStrange.Json.Value
import DrStrange.Llm.Chunk
import DrStrange.Llm.Reconcile

namespace DrStrange.Llm

open Lib

/-! ### The code -/

structure ExEntity where
  key : String
  label : String
  properties : List (String × Json.Value)
  description : Option String

structure ExRelation where
  src : String
  dst : String
  ty : String
  properties : List (String × Json.Value)
  description : Option String

/-- What a model returns for a text. -/
structure Extraction where
  entities : List ExEntity
  relations : List ExRelation

/-- What was extracted from a chunk, and what it cost. -/
structure ChunkExtract where
  entities : List ExEntity
  relations : List ExRelation
  inputTokens : ℕ
  outputTokens : ℕ
  chatRequests : ℕ

def ChunkExtract.empty : ChunkExtract := ⟨[], [], 0, 0, 0⟩

/-- Why a call failed: the reply was cut off at the limit, or anything else. -/
inductive ChatError where
  | outputTruncated (limit : ℕ)
  | other (message : String)
  deriving DecidableEq, Repr

/-- A model: what it answers to a system prompt and a prompt, and what becomes of it. -/
abbrev Chat (σ : Type) := String → String → σ → Except ChatError Reply × σ

/-- A parsed reply: the extraction, or a complaint. -/
abbrev Parse := String → Except String Extraction

/-- The text as the user says it, behind the block of entities to reuse. -/
def userPrompt (block : Option String) (text : List Char) : String :=
  match block with
  | some block => block ++ "\n---\n" ++ String.ofList text
  | none => String.ofList text

/-- The second, and last, ask. -/
def nudge (user why : String) : String :=
  user ++ "\n\n---\nYour previous reply could not be used: " ++ why ++
    "\nReply again with ONLY the JSON object in the shape described — no prose before or " ++
    "after it, no markdown fences, nothing else."

def ChunkExtract.spend (acc : ChunkExtract) (reply : Reply) : ChunkExtract :=
  { acc with
    inputTokens := acc.inputTokens + reply.inputTokens
    outputTokens := acc.outputTokens + reply.outputTokens
    chatRequests := acc.chatRequests + 1 }

def ChunkExtract.extend (acc sub : ChunkExtract) : ChunkExtract where
  entities := acc.entities ++ sub.entities
  relations := acc.relations ++ sub.relations
  inputTokens := acc.inputTokens + sub.inputTokens
  outputTokens := acc.outputTokens + sub.outputTokens
  chatRequests := acc.chatRequests + sub.chatRequests

/-- What asking about a text comes to. -/
inductive Asked where
  | answered (extract : ChunkExtract)
  | truncated (limit : ℕ) (spent : ChunkExtract)
  | failed (error : ChatError)

section

variable {σ : Type} (chat : Chat σ) (parse : Parse) (system : String)

/-- One ask; `unread` goes on where the reply is not what was asked for. -/
def attempt (acc : ChunkExtract) (prompt : String)
    (unread : ChunkExtract → String → σ → Asked × σ) (s : σ) :
    Asked × σ :=
  match chat system prompt s with
  | (.ok reply, s) =>
    let acc := acc.spend reply
    match parse (extractJson reply.text) with
    | .ok extraction =>
      (.answered { acc with entities := extraction.entities, relations := extraction.relations }, s)
    | .error why => unread acc why s
  | (.error (.outputTruncated limit), s) => (.truncated limit acc, s)
  | (.error error, s) => (.failed error, s)

/-- Asks, and once more where the first reply cannot be read. -/
def ask (user : String) : σ → Asked × σ :=
  attempt chat parse system .empty user fun acc why =>
    attempt chat parse system acc (nudge user why) fun _ why s => (.failed (.other why), s)

/-- Extracts pieces one after the other. -/
def extractEach {α : Type} (extract : α → σ → Except ChatError ChunkExtract × σ) :
    List α → ChunkExtract → σ → Except ChatError ChunkExtract × σ
  | [], acc, s => (.ok acc, s)
  | piece :: pieces, acc, s =>
    match extract piece s with
    | (.ok sub, s) => extractEach extract pieces (acc.extend sub) s
    | (.error error, s) => (.error error, s)

/-- Extracts a chunk, in pieces where the reply was cut off and the chunk can be cut. -/
def extractChunk (block : Option String) (text : List Char) (s : σ) :
    Except ChatError ChunkExtract × σ :=
  match ask chat parse system (userPrompt block text) s with
  | (.answered extract, s) => (.ok extract, s)
  | (.failed error, s) => (.error error, s)
  | (.truncated limit spent, s) =>
    let pieces := chunk text (text.length / 2)
    if _several : 2 ≤ pieces.length then
      extractEach (fun (piece : { piece // piece ∈ pieces }) => extractChunk block piece.1)
        pieces.attach spent s
    else (.error (.outputTruncated limit), s)
termination_by (ink text).length
decreasing_by exact ink_lt_of_chunk _several piece.2

end

/-! ### Calls -/

/-- A prompt, and what came of it. -/
abbrev Call := String × Except ChatError Reply

/-- The calls that lead from one state to another. -/
inductive Calls {σ : Type} (chat : Chat σ) (system : String) : σ → List Call → σ → Prop where
  | none {s : σ} : Calls chat system s [] s
  | call {s s' s'' : σ} {prompt : String} {result : Except ChatError Reply} {calls : List Call}
      (made : chat system prompt s = (result, s')) (rest : Calls chat system s' calls s'') :
      Calls chat system s ((prompt, result) :: calls) s''

/-- The replies among calls. -/
def replies (calls : List Call) : List Reply := calls.filterMap fun call => call.2.toOption

/-- The replies that were read, behind their prompts. -/
def readings (parse : Parse) (calls : List Call) : List (String × Extraction) :=
  calls.filterMap fun call => call.2.toOption.bind fun reply =>
    (parse (extractJson reply.text)).toOption.map fun extraction => (call.1, extraction)

/-- What extractions hold together, at the cost of replies. -/
def ChunkExtract.of (extractions : List Extraction) (replies : List Reply) : ChunkExtract where
  entities := extractions.flatMap Extraction.entities
  relations := extractions.flatMap Extraction.relations
  inputTokens := (replies.map Reply.inputTokens).sum
  outputTokens := (replies.map Reply.outputTokens).sum
  chatRequests := replies.length

/-- A piece of a text, a prompt that asks about it and what was read in the reply. -/
structure Used where
  piece : List Char
  prompt : String
  extraction : Extraction

/-- A prompt that asks about a text, for the first time or once more. -/
def Asks (block : Option String) (text : List Char) (prompt : String) : Prop :=
  prompt = userPrompt block text ∨ ∃ why, prompt = nudge (userPrompt block text) why

/-- Uses that come to an extract: they cover a text, each was asked for, and they are what was read
in the calls. -/
structure Uses (parse : Parse) (block : Option String) (text : List Char) (calls : List Call)
    (used : List Used) (extract : ChunkExtract) : Prop where
  covers : ink (used.map Used.piece).flatten = ink text
  asked : ∀ use ∈ used, Asks block use.piece use.prompt
  read : readings parse calls = used.map fun use => (use.prompt, use.extraction)
  extract : extract = .of (used.map Used.extraction) (replies calls)

variable {σ α : Type} {chat : Chat σ} {parse : Parse} {system user prompt : String}
  {block : Option String}
  {text : List Char} {s s' s'' : σ} {calls calls' : List Call} {acc spent : ChunkExtract} {limit : ℕ}
  {extractions extractions' : List Extraction} {replied replied' : List Reply}

theorem Calls.append (first : Calls chat system s calls s')
    (second : Calls chat system s' calls' s'') :
    Calls chat system s (calls ++ calls') s'' := by
  induction first with
  | none => exact second
  | call made _ ih => exact .call made (ih second)

@[simp] theorem replies_append : replies (calls ++ calls') = replies calls ++ replies calls' :=
  List.filterMap_append

@[simp] theorem readings_append :
    readings parse (calls ++ calls') = readings parse calls ++ readings parse calls' :=
  List.filterMap_append

theorem ChunkExtract.extend_of :
    (ChunkExtract.of extractions replied).extend (.of extractions' replied') =
    .of (extractions ++ extractions') (replied ++ replied') := by
  simp [extend, of]

/-! ### Asking -/

/-- How an attempt goes. -/
theorem attempt_cases (chat : Chat σ) (parse : Parse) (system : String) (acc : ChunkExtract)
    (prompt : String) (unread : ChunkExtract → String → σ → Asked × σ) (s : σ) :
      ∃ result s', chat system prompt s = (result, s') ∧
      ((∃ reply extraction, result = .ok reply ∧ parse (extractJson reply.text) = .ok extraction ∧
          attempt chat parse system acc prompt unread s = (.answered { acc.spend reply with
            entities := extraction.entities, relations := extraction.relations }, s')) ∨
        (∃ reply why, result = .ok reply ∧ parse (extractJson reply.text) = .error why ∧
          attempt chat parse system acc prompt unread s = unread (acc.spend reply) why s') ∨
        (∃ limit, result = .error (.outputTruncated limit) ∧
          attempt chat parse system acc prompt unread s = (.truncated limit acc, s')) ∨
        ∃ error, result = .error error ∧ attempt chat parse system acc prompt unread s =
          (.failed error, s')) := by
  unfold attempt
  rcases made : chat system prompt s with ⟨result, s'⟩
  refine ⟨result, s', rfl, ?_⟩
  match result with
  | .ok reply =>
    cases parsed : parse (extractJson reply.text) with
    | ok extraction => exact .inl ⟨reply, extraction, rfl, parsed, by simp [parsed]⟩
    | error why => exact .inr (.inl ⟨reply, why, rfl, parsed, by simp [parsed]⟩)
  | .error (.outputTruncated limit) => exact .inr (.inr (.inl ⟨limit, rfl, rfl⟩))
  | .error (.other message) => exact .inr (.inr (.inr ⟨.other message, rfl, rfl⟩))

/-- What is known of asking, by what it comes to. -/
def Asked.Tells (parse : Parse) (block : Option String) (text : List Char) (calls : List Call) :
    Asked → Prop
  | .answered extract => ∃ use, Uses parse block text calls [use] extract
  | .truncated _ spent => readings parse calls = [] ∧ spent = .of [] (replies calls)
  | .failed _ => True

theorem ask_tells (chat : Chat σ) (parse : Parse) (system : String) (block : Option String)
    (text : List Char) (s : σ) :
    ∃ calls asked s', ask chat parse system (userPrompt block text) s = (asked, s') ∧
    Calls chat system s calls s' ∧
      calls.length ≤ 2 ∧ asked.Tells parse block text calls := by
  unfold ask
  obtain ⟨result, s₁, made, first⟩ := attempt_cases chat parse system .empty (userPrompt block text)
    (fun acc why => attempt chat parse system acc (nudge (userPrompt block text) why) fun _ why s =>
      (.failed (.other why), s)) s
  have once : Calls chat system s [(userPrompt block text, result)] s₁ := .call made .none
  obtain ⟨reply, extraction, rfl, parsed, came⟩ | ⟨reply, why, rfl, parsed, came⟩ | ⟨limit,
    rfl, came⟩ |
    ⟨error, rfl, came⟩ := first
  · refine ⟨_, _, _, came, once, by simp, ⟨text, userPrompt block text, extraction⟩, by
      simp, ?_, ?_, ?_⟩
    · exact List.forall_mem_singleton.mpr (.inl rfl)
    · simp [readings, Except.toOption, parsed]
    · simp [ChunkExtract.of, ChunkExtract.spend, ChunkExtract.empty, replies, Except.toOption]
  · obtain ⟨result', s₂, made', second⟩ :=
      attempt_cases chat parse system (ChunkExtract.empty.spend reply)
      (nudge (userPrompt block text) why) (fun _ why s => (.failed (.other why), s)) s₁
    have twice : Calls chat system s
        [(userPrompt block text, .ok reply), (nudge (userPrompt block text) why, result')] s₂ :=
      .call made (.call made' .none)
    obtain ⟨reply', extraction, rfl, parsed', came'⟩ | ⟨reply', why', rfl, parsed', came'⟩ | ⟨limit,
      rfl, came'⟩ |
      ⟨error, rfl, came'⟩ := second
    · refine ⟨_, _, _, came.trans came', twice,
        by simp, ⟨text, nudge (userPrompt block text) why, extraction⟩, by simp,
        ?_, ?_, ?_⟩
      · exact List.forall_mem_singleton.mpr (.inr ⟨why, rfl⟩)
      · simp [readings, Except.toOption, parsed, parsed']
      · simp [ChunkExtract.of, ChunkExtract.spend, ChunkExtract.empty, replies, Except.toOption]
    · exact ⟨_, _, _, came.trans came', twice, by simp, trivial⟩
    · refine ⟨_, _, _, came.trans came', twice, by simp, ?_, ?_⟩
      · simp [readings, Except.toOption, parsed]
      · simp [ChunkExtract.of, ChunkExtract.spend, ChunkExtract.empty, replies, Except.toOption]
    · exact ⟨_, _, _, came.trans came', twice, by simp, trivial⟩
  · exact ⟨_, _, _, came, once, by simp, rfl, rfl⟩
  · exact ⟨_, _, _, came, once, by simp, trivial⟩

/-! ### Extracting -/

/-- What is known of an extraction: its calls are bounded, and where it succeeds there are uses that
come to it. -/
def Sound (chat : Chat σ) (parse : Parse) (system : String) (block : Option String)
    (text : List Char) (s : σ) (out : Except ChatError ChunkExtract × σ) : Prop :=
  ∃ calls, Calls chat system s calls out.2 ∧ calls.length + 2 ≤ 4 * max (ink text).length 1 ∧
    ∀ extract, out.1 = .ok extract → ∃ used, Uses parse block text calls used extract

theorem length_ink_pos (shown : ink text ≠ []) :
    0 < (ink text).length := List.length_pos_iff.mpr shown

/-- What each piece is, the pieces are together. -/
theorem extractEach_sound {extract : α → σ → Except ChatError ChunkExtract × σ} {pieces : List α}
    (textOf : α → List Char) (each : ∀ piece s,
      Sound chat parse system block (textOf piece) s (extract piece s))
    (shown : ∀ piece ∈ pieces, ink (textOf piece) ≠ []) (acc : ChunkExtract) (s : σ) :
    ∃ calls, Calls chat system s calls (extractEach extract pieces acc s).2 ∧
      calls.length + 2 * pieces.length ≤ 4 * (ink (pieces.map textOf).flatten).length ∧
      ∀ out, (extractEach extract pieces acc s).1 = .ok out → ∃ used sub,
        Uses parse block (pieces.map textOf).flatten calls used sub ∧ out = acc.extend sub := by
  induction pieces generalizing acc s with
  | nil =>
    refine ⟨[], .none, le_rfl, fun out same => ⟨[], _, ⟨rfl, nofun, rfl, rfl⟩, ?_⟩⟩
    rw [← Except.ok.inj same]
    simp [ChunkExtract.extend, ChunkExtract.of, replies]
  | cons piece pieces ih =>
    obtain ⟨here, shown⟩ := List.forall_mem_cons.mp shown
    have inked := length_ink_pos here
    obtain ⟨calls, made, bound, uses⟩ := each piece s
    rw [max_eq_left inked] at bound
    rw [List.map_cons, List.flatten_cons, ink_append, List.length_append, List.length_cons]
    unfold extractEach
    rcases came : extract piece s with ⟨result, s'⟩
    rw [came] at made uses
    cases result with
    | error error =>
      obtain ⟨_, -, room, -⟩ := ih shown acc s'
      exact ⟨calls, made, by omega, nofun⟩
    | ok sub =>
      obtain ⟨calls', made', bound', uses'⟩ := ih shown (acc.extend sub) s'
      refine ⟨calls ++ calls', made.append made', ?_, fun out same => ?_⟩
      · rw [List.length_append]
        omega
      · obtain ⟨used, first⟩ := uses sub rfl
        obtain ⟨used', rest, second, rfl⟩ := uses' out same
        refine ⟨used ++ used', sub.extend rest, ⟨?_, ?_, ?_, ?_⟩, ?_⟩
        · rw [List.map_append, List.flatten_append, ink_append, first.covers, second.covers,
            ink_append]
        · exact List.forall_mem_append.mpr ⟨first.asked, second.asked⟩
        · rw [readings_append, first.read, second.read, List.map_append]
        · rw [first.extract, second.extract, ChunkExtract.extend_of, List.map_append, replies_append]
        · simp [ChunkExtract.extend, Nat.add_assoc]

/-- **Extracting a chunk ends**, after calls that the ink of the chunk bounds; where it succeeds,
what was read in these calls is what was said of pieces with the ink of the chunk, in order, and the
extract is what was read. -/
theorem extractChunk_sound (chat : Chat σ) (parse : Parse) (system : String) (block : Option String)
    (text : List Char) (s : σ) :
    Sound chat parse system block text s (extractChunk chat parse system block text s) := by
  induction length : (ink text).length using Nat.strong_induction_on generalizing text s with
  | _ n ih =>
    obtain ⟨calls, asked, s', came, made, few, tells⟩ := ask_tells chat parse system block text s
    have bound : calls.length + 2 ≤ 4 * max (ink text).length 1 := by omega
    rw [extractChunk, came]
    cases asked with
    | answered extract =>
      refine ⟨calls, made, bound, fun out same => ?_⟩
      obtain rfl := Except.ok.inj same
      obtain ⟨use, uses⟩ := tells
      exact ⟨[use], uses⟩
    | failed error => exact ⟨calls, made, bound, nofun⟩
    | truncated limit spent =>
      dsimp only
      split_ifs with several
      · obtain ⟨kept, pieces⟩ := chunk_pieces text (text.length / 2)
        have each : ∀ (piece : { piece // piece ∈ chunk text (text.length / 2) }) s,
            Sound chat parse system block piece.1 s
              (extractChunk chat parse system block piece.1 s) :=
          fun piece s => ih _ (length ▸ ink_lt_of_chunk several piece.2) piece.1 s rfl
        obtain ⟨calls', made', bound', uses⟩ := extractEach_sound Subtype.val each
          (fun piece (_ : piece ∈ (chunk text (text.length / 2)).attach) =>
            (pieces piece.1 piece.2).shown) spent s'
        rw [List.attach_map_subtype_val, kept, List.length_attach] at bound'
        refine ⟨calls ++ calls', made.append made', ?_, fun out same => ?_⟩
        · rw [List.length_append]
          omega
        · obtain ⟨used, sub, covers, rfl⟩ := uses out same
          obtain ⟨unread, rfl⟩ := tells
          rw [List.attach_map_subtype_val] at covers
          refine ⟨used, covers.covers.trans kept, covers.asked, ?_, ?_⟩
          · rw [readings_append, unread, List.nil_append, covers.read]
          · rw [covers.extract, ChunkExtract.extend_of, List.nil_append, replies_append]
      · exact ⟨calls, made, bound, nofun⟩

/-- **No text is lost.** The chunks of a document have its ink in order, each has some and is no
longer than asked, and a paragraph that opens with the source marker begins a chunk. Whatever a
model answers, extracting a text ends after calls that its ink bounds, and where it succeeds the
replies that were read are to pieces with its ink, in order and once. -/
theorem text_is_kept :
    (∀ doc size, ink (chunk doc size).flatten = ink doc ∧
      (∀ piece ∈ chunk doc size, piece.length ≤ max size 200 ∧ ink piece ≠ []) ∧
      ∀ before para after, paragraphs doc = before ++ para :: after → sourceMarker <+: para →
        ∃ left piece first rest, chunk doc size = left ++ first :: rest ∧
          ink left.flatten = ink before.flatten ∧
          ink (first :: rest).flatten = ink (para :: after).flatten ∧
          (splitParagraph para (max size 200)).head? = some piece ∧ piece <+: first) ∧
    ∀ (σ : Type) (chat : Chat σ) (parse : Parse) (system : String) (block : Option String)
      (text : List Char) (s : σ), ∃ calls result s', extractChunk chat parse system block text s = (result, s') ∧
        Calls chat system s calls s' ∧ calls.length + 2 ≤ 4 * max (ink text).length 1 ∧
        ∀ extract, result = .ok extract → ∃ used : List Used,
        ink (used.map Used.piece).flatten = ink text ∧
          (∀ use ∈ used, Asks block use.piece use.prompt) ∧
          readings parse calls = used.map (fun use => (use.prompt, use.extraction)) ∧
          extract = .of (used.map Used.extraction) (replies calls) := by
  refine ⟨chunk_sound, fun σ chat parse system block text s => ?_⟩
  obtain ⟨calls, made, bound, uses⟩ := extractChunk_sound chat parse system block text s
  refine ⟨calls, _, _, rfl, made, bound, fun extract same => ?_⟩
  obtain ⟨used, uses⟩ := uses extract same
  exact ⟨used, uses.covers, uses.asked, uses.read, uses.extract⟩

end DrStrange.Llm
