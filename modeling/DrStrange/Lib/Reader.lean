/-
**Parsers that end.**

A parser takes a text and leaves the text after what it read. An error may be mended by another
reading, a failure ends them all, and a slice that is not at characters of the text is a crash, as
is a loop whose rounds have run out. `Reads p post` says of a parser that on every text it ends
without a crash, leaves an end of the text, and makes what `post` says. Every combinator keeps it,
so that a grammar has it where its tokens do.
-/

import DrStrange.Lib.Utf8

namespace DrStrange.Lib

variable {κ α β : Type} {value : α}

/-! ### Parsers -/

/-- What a text is read to. -/
inductive Reading (κ α : Type) where
  | ok (rest : List Char) (value : α)
  | error (rest : List Char) (kind : κ)
  | failure (rest : List Char) (kind : κ)
  | crash

/-- Goes on from what was read or from an error, and from neither after a failure. -/
def Reading.fold (ok : List Char → α → Reading κ β) (error : List Char → κ → Reading κ β) :
    Reading κ α → Reading κ β
  | .ok rest value => ok rest value
  | .error rest kind => error rest kind
  | .failure rest kind => .failure rest kind
  | .crash => .crash

def Reader (κ α : Type) : Type := List Char → Reading κ α

namespace Reader

/-- What is read is passed on, with the text after it. -/
def andThen (p : Reader κ α) (next : α → Reader κ β) : Reader κ β := fun text =>
  (p text).fold (fun rest value => next value rest) .error

instance : Monad (Reader κ) where
  pure value := fun text => .ok text value
  bind := andThen

def error (kind : κ) : Reader κ α := fun text => .error text kind

def failure (kind : κ) : Reader κ α := fun text => .failure text kind

def crash : Reader κ α := fun _ => .crash

/-- `p`, and after an error of it `q`. -/
def alt (p q : Reader κ α) : Reader κ α := fun text => (p text).fold .ok fun _ _ => q text

/-- `if let Ok`: what follows `p` where it reads, and `q` whatever it is refused for. -/
def ifOk (p : Reader κ α) (next : α → Reader κ β) (q : Reader κ β) : Reader κ β := fun text =>
  match p text with
  | .ok rest value => next value rest
  | .error _ _ | .failure _ _ => q text
  | .crash => .crash

def opt (p : Reader κ α) : Reader κ (Option α) := alt (some <$> p) (pure none)

/-- Nothing is read, where `p` has an error. -/
def not (kind : κ) (p : Reader κ α) : Reader κ Unit := fun text =>
  (p text).fold (fun _ _ => .error text kind) fun _ _ => .ok text ()

/-- What is made of what is read, if something is. -/
def mapOpt (kind : κ) (f : α → Option β) (p : Reader κ α) : Reader κ β := fun text =>
  (p text).fold (fun rest value => (f value).elim (.error text kind) (.ok rest)) .error

def verify (kind : κ) (holds : α → Bool) (p : Reader κ α) : Reader κ α :=
  mapOpt kind (Option.guard holds) p

/-- The text that is read. -/
def recognize (p : Reader κ α) : Reader κ (List Char) := fun text =>
  (p text).fold (fun rest _ => .ok rest (text.take (text.length - rest.length))) .error

/-- The next character, which stays. -/
def peek : Reader κ (Option Char) := fun text => .ok text text.head?

/-- A character. -/
def satisfy (kind : κ) (holds : Char → Bool) : Reader κ Char
  | c :: text => if holds c then .ok text c else .error (c :: text) kind
  | [] => .error [] kind

def takeWhile (holds : Char → Bool) : Reader κ (List Char) := fun text =>
  .ok (text.dropWhile holds) (text.takeWhile holds)

def takeWhile1 (kind : κ) (holds : Char → Bool) : Reader κ (List Char) :=
  verify kind (fun word => !word.isEmpty) (takeWhile holds)

/-- The first bytes of the text, sliced off. -/
def split (n : ℕ) : Reader κ (List Char) := fun text =>
  (cutAt n text).elim .crash fun cut => .ok cut.2 cut.1

/-- As many bytes as the word has, where the text starts with it. -/
def tagBy (kind : κ) (starts : List Char → List Char → Bool) (word : List Char) :
    Reader κ (List Char) := fun text =>
  if starts word text then split (bytes word).length text else .error text kind

def tag (kind : κ) (word : List Char) : Reader κ (List Char) := tagBy kind List.isPrefixOf word

/-- Further items, a separator before each. -/
def separatedRounds (kind : κ) (separator : Reader κ α) (item : Reader κ β) :
    ℕ → List β → Reader κ (List β)
  | 0, _ => crash
  | rounds + 1, items => fun text =>
    let stop (_ : List Char) (_ : κ) : Reading κ (List β) := .ok text items
    (separator text).fold (fun after _ => (item after).fold (fun rest value =>
      if rest.length = text.length then .error text kind
      else separatedRounds kind separator item rounds (items ++ [value]) rest) stop) stop

/-- Items with separators between them, or none. -/
def separatedList0 (kind : κ) (separator : Reader κ α) (item : Reader κ β) : Reader κ (List β) :=
  fun text =>
  (item text).fold (fun rest value => separatedRounds kind separator item (rest.length +
    1) [value] rest)
    fun _ _ => .ok text []

end Reader

/-! ### What a parser makes of a text -/

/-- It is no crash, and what is read leaves an end of the text. -/
def Reading.Ends (text : List Char) (post : α → Prop) : Reading κ α → Prop
  | .ok rest value => rest <:+ text ∧ post value
  | .error _ _ | .failure _ _ => True
  | .crash => False

section

variable {text rest : List Char} {mid : α → Prop} {post : β → Prop} {reading : Reading κ α}

theorem Reading.Ends.later (after : rest <:+ text) (ends : reading.Ends rest mid) :
    reading.Ends text mid := by
  cases reading with
  | ok left value => exact ⟨ends.1.trans after, ends.2⟩
  | error left kind => trivial
  | failure left kind => trivial
  | crash => exact ends

theorem Reading.Ends.fold {ok : List Char → α → Reading κ β} {error : List Char → κ → Reading κ β}
    (ends : reading.Ends text mid) (read : ∀ rest value, rest <:+ text → mid value →
      (ok rest value).Ends text post) (refused : ∀ rest kind, (error rest kind).Ends text post) :
    (reading.fold ok error).Ends text post := by
  cases reading with
  | ok rest value => exact read rest value ends.1 ends.2
  | error rest kind => exact refused rest kind
  | failure rest kind => trivial
  | crash => exact ends.elim

end

/-- Whatever the text. -/
def Reads (p : Reader κ α) (post : α → Prop) : Prop := ∀ text, (p text).Ends text post

theorem Reader.bind_ok {p : Reader κ α} {next : α → Reader κ β} {text rest : List Char}
    (read : p text = .ok rest value) : (p >>= next) text = next value rest := by
  change (p text).fold _ _ = _
  rw [read, Reading.fold]

theorem Reader.split_append {text word : List Char} :
    (split (bytes word).length : Reader κ (List Char)) (word ++ text) = .ok text word := by
  rw [split, cutAt_eq_some.mpr ⟨rfl, rfl⟩, Option.elim_some]

namespace Reads

open Reader

variable {kind : κ} {p q : Reader κ α} {mid post : α → Prop} {mid' : β → Prop}
  {text word : List Char} {holds : Char → Bool} {item : Reader κ β}

theorem pure (holds : post value) : Reads (Pure.pure value : Reader κ α) post := fun text =>
  ⟨List.suffix_refl text, holds⟩

theorem error : Reads (Reader.error kind : Reader κ α) post := fun _ => trivial

theorem failure : Reads (Reader.failure kind : Reader κ α) post := fun _ => trivial

theorem bind {next : α → Reader κ β} (reads : Reads p mid)
    (each : ∀ value, mid value → Reads (next value) mid') :
    Reads (p >>= next) mid' := fun text =>
  (reads text).fold (fun rest value after holds => (each value holds rest).later after)
    fun _ _ => trivial

theorem map {f : α → β} (reads : Reads p mid) (each : ∀ value, mid value → mid' (f value)) :
    Reads (f <$> p) mid' :=
  reads.bind fun value holds => pure (each value holds)

theorem mono (reads : Reads p mid) (weaker : ∀ value, mid value → post value) : Reads p post :=
  fun text => by
  have here := reads text
  cases same : p text with
  | ok rest value =>
    rw [same] at here
    exact ⟨here.1, weaker value here.2⟩
  | error rest kind => trivial
  | failure rest kind => trivial
  | crash =>
    rw [same] at here
    exact here

theorem alt (first : Reads p post) (second : Reads q post) : Reads (Reader.alt p q) post :=
  fun text =>
  (first text).fold (fun _ _ after holds => ⟨after, holds⟩) fun _ _ => second text

theorem ifOk {next : α → Reader κ β} {q : Reader κ β} (reads : Reads p mid)
    (each : ∀ value, mid value → Reads (next value) mid') (other : Reads q mid') :
    Reads (Reader.ifOk p next q) mid' := fun text => by
  have here := reads text
  rw [Reader.ifOk]
  cases same : p text with
  | ok rest value =>
    rw [same] at here
    exact (each value here.2 rest).later here.1
  | error rest kind => exact other text
  | failure rest kind => exact other text
  | crash =>
    rw [same] at here
    exact here

theorem opt (reads : Reads p mid) : Reads (Reader.opt p) fun value => ∀ held ∈ value, mid held :=
  alt (reads.map fun _ holds _ same => Option.some.inj same ▸ holds) (pure nofun)

theorem not (reads : Reads p mid) : Reads (Reader.not kind p) fun _ => True := fun text =>
  (reads text).fold (fun _ _ _ _ => trivial) fun _ _ => ⟨List.suffix_refl text, trivial⟩

theorem mapOpt {f : α → Option β} (reads : Reads p mid) :
    Reads (Reader.mapOpt kind f p) fun made => ∃ value, mid value ∧ f value = some made :=
  fun text => by
  refine (reads text).fold (fun rest value after read => ?_) fun _ _ => trivial
  cases same : f value with
  | none => trivial
  | some made => exact ⟨after, value, read, same⟩

theorem verify {holds : α → Bool} (reads : Reads p mid) : Reads (Reader.verify kind holds p) mid :=
  (mapOpt reads).mono fun _ ⟨_, read, same⟩ => (Option.guard_eq_some_iff.mp same).1 ▸ read

theorem recognize (reads : Reads p mid) : Reads (Reader.recognize p) fun _ => True := fun text =>
  (reads text).fold (fun _ _ after _ => ⟨after, trivial⟩) fun _ _ => trivial

theorem peek : Reads (Reader.peek : Reader κ (Option Char)) fun _ => True :=
  fun text => ⟨List.suffix_refl text, trivial⟩

theorem satisfy : Reads (Reader.satisfy kind holds) fun c => holds c
  | [] => trivial
  | c :: text => by
    rw [Reader.satisfy]
    split
    · rename_i fits
      exact ⟨List.suffix_cons c text, fits⟩
    · trivial

theorem takeWhile :
    Reads (Reader.takeWhile holds : Reader κ (List Char)) fun word => ∀ c ∈ word, holds c := fun _ =>
  ⟨List.dropWhile_suffix holds, fun _ member => List.mem_takeWhile_imp member⟩

theorem takeWhile1 : Reads (Reader.takeWhile1 kind holds) fun word => ∀ c ∈ word, holds c :=
  verify takeWhile

/-- A word is split off where the text starts with as many bytes. -/
theorem tagBy {starts : List Char → List Char → Bool} (cuts : ∀ text, starts word text →
    ∃ before after, text = before ++ after ∧ (bytes before).length = (bytes word).length) :
    Reads (Reader.tagBy kind starts word) fun _ => True := fun text => by
  rw [Reader.tagBy]
  split
  · rename_i found
    obtain ⟨before, after, rfl, length⟩ := cuts text found
    rw [← length, split_append]
    exact ⟨List.suffix_append before after, trivial⟩
  · trivial

theorem tag : Reads (Reader.tag kind word) fun _ => True :=
  tagBy fun text found => by
    obtain ⟨after, rfl⟩ := List.isPrefixOf_iff_prefix.mp found
    exact ⟨word, after, rfl, rfl⟩

/-- A round takes some of the text, so that the text has characters for all of them. -/
theorem separatedRounds {separator : Reader κ α} (between : Reads separator mid)
    (each : Reads item mid') {rounds : ℕ} {items : List β} (held : ∀ value ∈ items, mid' value)
    (enough : text.length < rounds) :
    (Reader.separatedRounds kind separator item rounds items text).Ends text
      fun values => ∀ value ∈ values, mid' value := by
  induction rounds generalizing items text with
  | zero => exact absurd enough (Nat.not_lt_zero _)
  | succ rounds ih =>
    refine (between text).fold (fun middle _ after _ => ?_) fun _ _ => ⟨List.suffix_refl text, held⟩
    refine ((each middle).later after).fold (fun rest value after holds => ?_) fun _ _ =>
      ⟨List.suffix_refl text, held⟩
    split
    · trivial
    · rename_i taken
      have fewer := after.length_le
      refine (ih (fun other member => ?_) (by omega)).later after
      rcases List.mem_append.mp member with earlier | here
      · exact held other earlier
      · exact List.mem_singleton.mp here ▸ holds

theorem separatedList0 {separator : Reader κ α} (between : Reads separator mid)
    (each : Reads item mid') :
    Reads (Reader.separatedList0 kind separator item) fun values => ∀ value ∈ values, mid' value :=
  fun text => by
  refine (each text).fold (fun rest value after holds => ?_) fun _ _ => ⟨List.suffix_refl text, nofun⟩
  refine (separatedRounds between each (fun other member => ?_) (Nat.lt_succ_self _)).later after
  exact List.mem_singleton.mp member ▸ holds

end Reads

end DrStrange.Lib
