/-
**Instants and days as text.**

The parser of RFC-3339 instants slices a text at byte positions and reads the fields with a general
parser of integers. It never panics, and it takes exactly the texts of the grammar, at their Unix
time, but for two kinds: fields may carry a sign, and a day may be one that its month does not have
(`instants_exact`). The day count is the calendar's for every date (`daysFromCivil_eq`).
-/

import DrStrange.Lib.Calendar
import DrStrange.Lib.Outcome
import DrStrange.Lib.Utf8

namespace DrStrange.Ops

open DrStrange.Lib

/-! ### The code -/

/-- An index out of bounds, or a slice inside of a character. -/
structure Panic where
  deriving DecidableEq, Repr

/-- What may panic, and otherwise returns something or nothing. -/
abbrev Checked := OptionT (Except Panic)

/-- An index out of bounds. -/
def panic {α : Type} : Checked α := OptionT.mk (.error ⟨⟩)

def require {α : Type} (found : Option α) : Checked α := OptionT.mk (.ok found)

/-- `b[i]` -/
def index (b : List UInt8) (i : ℕ) : Checked UInt8 := b[i]?.elim panic pure

/-- `&s[i..]` -/
def sliceFrom (i : ℕ) (s : List Char) : Checked (List Char) :=
  (cutAt i s).elim panic fun cut => pure cut.2

def msPerDay : ℤ := 86400000

/-- Days from 1970-01-01 to a proleptic Gregorian date. -/
def daysFromCivil (year month day : ℤ) : ℤ :=
  let y := if month ≤ 2 then year - 1 else year
  let era := (if 0 ≤ y then y else y - 399).tdiv 400
  let yoe := y - era * 400
  let mp := (month + 9).tmod 12
  let doy := (153 * mp + 2).tdiv 5 + day - 1
  let doe := yoe * 365 + yoe.tdiv 4 - yoe.tdiv 100 + doy
  era * 146097 + doe - 719468

/-- The number that digits write. -/
def decimal (digits : List Char) : ℤ := Nat.ofDigitChars 10 digits 0

/-- Whether a number is negative, and what follows its sign. -/
def sign : List Char → Bool × List Char
  | '+' :: digits => (false, digits)
  | '-' :: digits => (true, digits)
  | digits => (false, digits)

/-- `parse::<i64>` -/
def parseI64 (word : List Char) : Option ℤ :=
  let (negative, digits) := sign word
  if digits ≠ [] ∧ digits.all Char.isDigit then
    let value := if negative then -decimal digits else decimal digits
    if -9223372036854775808 ≤ value ∧ value ≤ 9223372036854775807 then some value else none
  else none

/-- `s.get(start..stop)?.parse::<i64>().ok()` -/
def num (s : List Char) (start stop : ℕ) : Option ℤ := (Lib.slice start stop s).bind parseI64

/-- The date at the head of a text. -/
def civilDate (s : List Char) : Checked (ℤ × ℤ × ℤ) := do
  let b := bytes s
  if b.length < 10 then failure else
  if (← index b 4) ≠ '-'.val.toUInt8 then failure else
  if (← index b 7) ≠ '-'.val.toUInt8 then failure else
  let year ← require (num s 0 4)
  let month ← require (num s 5 7)
  let day ← require (num s 8 10)
  if 1 ≤ month ∧ month ≤ 12 ∧ 1 ≤ day ∧ day ≤ 31 then pure (year, month, day) else failure

/-- The milliseconds of a fraction, and what follows it. -/
def fraction (rest : List Char) : Checked (ℤ × List Char) :=
  match rest with
  | '.' :: frac => do
    let digits := frac.takeWhile Char.isDigit
    if digits = [] then failure else
    let millis ← require (parseI64 ((digits ++ ['0', '0', '0']).take 3))
    pure (millis, ← sliceFrom (1 + (bytes digits).length) rest)
  | _ => pure (0, rest)

/-- The minutes that a zone is ahead. -/
def offsetMin (rest : List Char) : Checked ℤ := do
  let b := bytes rest
  let first ← require b.head?
  if (first = 'Z'.val.toUInt8 ∨ first = 'z'.val.toUInt8) ∧ b.length = 1 then pure 0
  else if (first = '+'.val.toUInt8 ∨ first = '-'.val.toUInt8) ∧ b.length = 6 then
    if (← index b 3) = ':'.val.toUInt8 then
      let h ← require (num rest 1 3)
      let m ← require (num rest 4 6)
      if 23 < h ∨ 59 < m then failure
      else pure (if first = '-'.val.toUInt8 then -(h * 60 + m) else h * 60 + m)
    else failure
  else failure

/-- The milliseconds from the epoch to an instant, or nothing if the text is not one. -/
def rfc3339ToEpochMs (s : List Char) : Checked ℤ := do
  let b := bytes s
  if b.length < 20 then failure else
  let separator ← index b 10
  if separator ≠ 'T'.val.toUInt8 ∧ separator ≠ 't'.val.toUInt8 ∧
    separator ≠ ' '.val.toUInt8 then failure else
  let (year, month, day) ← civilDate s
  let hour ← require (num s 11 13)
  let min ← require (num s 14 16)
  let sec ← require (num s 17 19)
  if (← index b 13) ≠ ':'.val.toUInt8 then failure else
  if (← index b 16) ≠ ':'.val.toUInt8 then failure else
  if 23 < hour ∨ 59 < min ∨ 60 < sec then failure else
  let (millis, rest) ← fraction (← sliceFrom 19 s)
  let offset ← offsetMin rest
  let days := daysFromCivil year month day
  pure ((days * 86400 + hour * 3600 + min * 60 + sec - offset * 60) * 1000 + millis)

/-- The last millisecond of a day, or nothing if the text is not one. -/
def dateEndOfDay (s : List Char) : Checked ℤ := do
  if (bytes s).length ≠ 10 then failure else
  let (year, month, day) ← civilDate s
  pure ((daysFromCivil year month day + 1) * msPerDay - 1)

/-! ### The grammar -/

/-- Digits, and nothing else. -/
def digits (word : List Char) : Option ℤ :=
  if word ≠ [] ∧ word.all Char.isDigit then some (decimal word) else none

/-- How a field is read, and how many days a month has. -/
structure Manner where
  read : List Char → Option ℤ
  days : ℤ → ℤ → ℤ

/-- The calendar's. -/
def strict : Manner := ⟨digits, monthLength⟩

/-- The parser's. -/
def lax : Manner := ⟨parseI64, fun _ _ => 31⟩

/-- A word of some length that is read as a number. -/
def Field (manner : Manner) (n : ℕ) (word : List Char) (value : ℤ) : Prop :=
  word.length = n ∧ manner.read word = some value

/-- The words of a date. -/
structure DateWords where
  year : List Char
  month : List Char
  day : List Char
  deriving DecidableEq, Repr

def DateWords.text (words : DateWords) : List Char :=
  words.year ++ '-' :: (words.month ++ '-' :: words.day)

/-- The words spell a date. -/
structure DateWords.Reads (manner : Manner) (words : DateWords) (y m d : ℤ) : Prop where
  year : Field manner 4 words.year y
  month : Field manner 2 words.month m
  day : Field manner 2 words.day d
  month_pos : 1 ≤ m
  month_le : m ≤ 12
  day_pos : 1 ≤ d
  day_le : d ≤ manner.days y m

/-- How the offset is written. -/
inductive Zone where
  | utc (letter : Char)
  | offset (sign : Char) (hour minute : List Char)
  deriving DecidableEq, Repr

def Zone.text : Zone → List Char
  | .utc letter => [letter]
  | .offset sign hour minute => sign :: (hour ++ ':' :: minute)

/-- The minutes that a zone is ahead. -/
inductive Zone.Reads (manner : Manner) : Zone → ℤ → Prop where
  | utc {letter : Char} (zulu : letter = 'Z' ∨ letter = 'z') : Zone.Reads manner (.utc letter) 0
  | ahead {hour minute : List Char} {h m : ℤ} (hours : Field manner 2 hour h)
      (minutes : Field manner 2 minute m)
      (hour_le : h ≤ 23) (minute_le : m ≤ 59) : Zone.Reads manner (.offset '+' hour minute)
        (h * 60 + m)
  | behind {hour minute : List Char} {h m : ℤ} (hours : Field manner 2 hour h)
      (minutes : Field manner 2 minute m) (hour_le : h ≤ 23) (minute_le : m ≤ 59) :
      Zone.Reads manner (.offset '-' hour minute) (-(h * 60 + m))

/-- The words of an instant. -/
structure Words where
  date : DateWords
  separator : Char
  hour : List Char
  minute : List Char
  second : List Char
  fraction : Option (List Char)
  zone : Zone
  deriving DecidableEq, Repr

def fractionText : Option (List Char) → List Char
  | none => []
  | some word => '.' :: word

def Words.text (words : Words) : List Char :=
  words.date.text ++ words.separator :: (words.hour ++ ':' :: (words.minute ++ ':' :: (words.second ++
    (fractionText words.fraction ++ words.zone.text))))

/-- The numbers of an instant. -/
structure Fields where
  year : ℤ
  month : ℤ
  day : ℤ
  hour : ℤ
  minute : ℤ
  second : ℤ
  offset : ℤ

/-- The words spell an instant. -/
structure Words.Reads (manner : Manner) (words : Words) (fields : Fields) : Prop where
  date : words.date.Reads manner fields.year fields.month fields.day
  separator : words.separator = 'T' ∨ words.separator = 't' ∨ words.separator = ' '
  hour : Field manner 2 words.hour fields.hour
  minute : Field manner 2 words.minute fields.minute
  second : Field manner 2 words.second fields.second
  hour_le : fields.hour ≤ 23
  minute_le : fields.minute ≤ 59
  second_le : fields.second ≤ 60
  fraction : ∀ word ∈ words.fraction, word ≠ [] ∧ word.all Char.isDigit
  zone : words.zone.Reads manner fields.offset

/-- The whole milliseconds of a fraction. -/
def millisOf : Option (List Char) → ℤ
  | none => 0
  | some word => decimal word * 1000 / 10 ^ word.length

/-- The Unix time of an instant in milliseconds. -/
def Fields.unixMs (fields : Fields) (millis : ℤ) : ℤ :=
  (dayNumber fields.year fields.month fields.day * 86400 + fields.hour * 3600 + fields.minute * 60 +
    fields.second - fields.offset * 60) * 1000 + millis

/-- A text is an instant, at some Unix time. -/
def IsInstant (manner : Manner) (s : List Char) (t : ℤ) : Prop :=
  ∃ words : Words, ∃ fields, s = words.text ∧ words.Reads manner fields ∧
    t = fields.unixMs (millisOf words.fraction)

/-- A text is a day that ends at some Unix time. -/
def EndsDay (manner : Manner) (s : List Char) (t : ℤ) : Prop :=
  ∃ words : DateWords, ∃ year month day, s = words.text ∧ words.Reads manner year month day ∧
    t = (dayNumber year month day + 1) * msPerDay - 1

/-- The fields of a date. -/
def DateWords.numbers (words : DateWords) : List (List Char) := [words.year, words.month, words.day]

def Zone.numbers : Zone → List (List Char)
  | .utc _ => []
  | .offset _ hour minute => [hour, minute]

/-- The fields of an instant. -/
def Words.numbers (words : Words) : List (List Char) :=
  words.date.numbers ++ [words.hour, words.minute, words.second] ++ words.zone.numbers

/-- Without a sign. -/
def Unsigned (word : List Char) : Prop := ∀ c ∈ word, c ≠ '+' ∧ c ≠ '-'

instance : DecidablePred Unsigned :=
  fun word => inferInstanceAs (Decidable (∀ c ∈ word, c ≠ '+' ∧ c ≠ '-'))

/-- A text that reads as an instant, of which some field has a sign or the day is past its month. -/
def LaxInstant (s : List Char) : Prop :=
  ∃ words : Words, ∃ fields, s = words.text ∧ words.Reads lax fields ∧
    ((∃ word ∈ words.numbers, ¬ Unsigned word) ∨ monthLength fields.year fields.month < fields.day)

/-- A text that reads as a date, of which some field has a sign or the day is past its month. -/
def LaxDay (s : List Char) : Prop :=
  ∃ words : DateWords, ∃ year month day, s = words.text ∧ words.Reads lax year month day ∧
    ((∃ word ∈ words.numbers, ¬ Unsigned word) ∨ monthLength year month < day)

/-! ### Numbers -/

variable {word text before after rest : List Char} {c : Char} {value year month day : ℤ}
  {n i start stop : ℕ}

/-- Digits write less than the next power of ten. -/
theorem ofDigitChars_lt (all : word.all Char.isDigit) :
    Nat.ofDigitChars 10 word 0 < 10 ^ word.length := by
  induction word with
  | nil => decide
  | cons c word ih =>
    rw [List.all_cons, Bool.and_eq_true] at all
    have small := ih all.2
    have digit : c.toNat - '0'.toNat ≤ 9 := by
      have bounds := (Char.isDigit_iff_toNat.mp all.1).2
      have nine : '9'.toNat = '0'.toNat + 9 := rfl
      omega
    rw [Nat.ofDigitChars_cons, Nat.ofDigitChars_eq_ofDigitChars_zero, List.length_cons, pow_succ]
    have part : 10 ^ word.length * (10 * 0 + (c.toNat - '0'.toNat)) ≤ 10 ^ word.length * 9 :=
      Nat.mul_le_mul_left _ (by omega)
    omega

theorem decimal_nonneg : 0 ≤ decimal word := Int.natCast_nonneg _

theorem decimal_append :
    decimal (before ++ after) = decimal before * 10 ^ after.length + decimal after := by
  rw [decimal, Nat.ofDigitChars_append, Nat.ofDigitChars_eq_ofDigitChars_zero, decimal, decimal]
  push_cast
  ring

theorem sign_unsigned (unsigned : Unsigned word) : sign word = (false, word) := by
  cases word with
  | nil => rfl
  | cons c word =>
    obtain ⟨plus, minus⟩ := unsigned c List.mem_cons_self
    unfold sign
    split
    · exact absurd (List.head_eq_of_cons_eq ‹_›) plus
    · exact absurd (List.head_eq_of_cons_eq ‹_›) minus
    · rfl

theorem unsigned_of_digits (all : word.all Char.isDigit) : Unsigned word := by
  intro c among
  have digit := List.all_eq_true.mp all c among
  exact ⟨fun plus => absurd (plus ▸ digit) (by decide), fun minus =>
    absurd (minus ▸ digit) (by decide)⟩

/-- A number of few digits is parsed as what it writes. -/
theorem parseI64_digits (given : word ≠ []) (all : word.all Char.isDigit) (short : word.length ≤ 18) :
    parseI64 word = some (decimal word) := by
  have bound : decimal word < 10 ^ 18 := by
    have small := ofDigitChars_lt all
    have grown : 10 ^ word.length ≤ 10 ^ 18 := Nat.pow_le_pow_right (by decide) short
    unfold decimal
    exact_mod_cast small.trans_le grown
  have nonneg := @decimal_nonneg word
  rw [parseI64, sign_unsigned (unsigned_of_digits all)]
  dsimp only
  rw [if_pos ⟨given, all⟩]
  simp only [Bool.false_eq_true, if_false]
  exact if_pos ⟨by omega, by omega⟩

/-- **The strict numbers** are those that are parsed and have no sign. -/
theorem digits_eq_some (short : word.length ≤ 18) :
    digits word = some value ↔ parseI64 word = some value ∧ Unsigned word := by
  unfold digits
  split
  · rename_i all
    rw [parseI64_digits all.1 all.2 short, and_iff_left (unsigned_of_digits all.2)]
  · rename_i other
    refine iff_of_false (by simp) fun ⟨parsed, unsigned⟩ => ?_
    rw [parseI64, sign_unsigned unsigned] at parsed
    dsimp only at parsed
    rw [if_neg other] at parsed
    cases parsed

/-- What is parsed has characters of one byte. -/
theorem ascii_of_parse (parsed : parseI64 word = some value) : ∀ c ∈ word, Ascii c := by
  have ascii : ∀ c : Char, c.isDigit → Ascii c := by
    intro c digit
    have bounds := (Char.isDigit_iff_toNat.mp digit).2
    exact UInt32.lt_iff_toNat_lt.mpr (Nat.lt_of_le_of_lt bounds (by decide))
  have rest : ∀ c ∈ (sign word).2, Ascii c := by
    unfold parseI64 at parsed
    dsimp only at parsed
    split at parsed
    · rename_i all
      exact fun c among => ascii c (List.all_eq_true.mp all.2 c among)
    · cases parsed
  intro c among
  unfold sign at rest
  split at rest
  · rcases List.mem_cons.mp among with rfl | among
    · decide
    · exact rest c among
  · rcases List.mem_cons.mp among with rfl | among
    · decide
    · exact rest c among
  · exact rest c among

/-- **The milliseconds** that are parsed are the whole ones of the fraction. -/
theorem parse_millis (all : word.all Char.isDigit) :
    parseI64 ((word ++ ['0', '0', '0']).take 3) = some (millisOf (some word)) := by
  have padded : (word ++ ['0', '0', '0']).all Char.isDigit := by
    rw [List.all_append, all]
    rfl
  obtain ⟨first, last, split, three⟩ : ∃ first last, word ++ ['0', '0', '0'] = first ++ last ∧
      first.length = 3 := by
    refine ⟨_, _, (List.take_append_drop 3 _).symm, ?_⟩
    rw [List.length_take, List.length_append]
    exact min_eq_left (Nat.le_add_left _ _)
  rw [split, List.all_append, Bool.and_eq_true] at padded
  have rest : last.length = word.length := by
    have lengths := congrArg List.length split
    rw [List.length_append, List.length_append, three] at lengths
    exact Nat.add_left_cancel (lengths.symm.trans (Nat.add_comm _ _))
  have equal : decimal word * 1000 = decimal first * 10 ^ word.length + decimal last := by
    have both := congrArg decimal split
    rw [decimal_append, decimal_append, rest] at both
    simpa [decimal, Nat.ofDigitChars] using both
  have small : decimal last < 10 ^ word.length := by
    have bound := ofDigitChars_lt padded.2
    rw [rest] at bound
    unfold decimal
    exact_mod_cast bound
  have positive : (0 : ℤ) < 10 ^ word.length := by positivity
  rw [split, List.take_left' three, parseI64_digits (by rintro rfl; cases three) padded.1
    (by omega), millisOf,
    equal, Int.add_comm, Int.add_mul_ediv_right _ _ positive.ne',
    Int.ediv_eq_zero_of_lt decimal_nonneg small, zero_add]

/-! ### Reading on -/

/-- What does not panic, and returns nothing or what is as `post` says. -/
def checked : Outcome Checked where
  ends x post := ∃ found, x.run = .ok found ∧ ∀ a ∈ found, post a
  pure := fun holds => ⟨_, rfl, fun _ same => Option.mem_some_iff.mp same ▸ holds⟩
  bind := by
    rintro α β x f mid post ⟨found, ended, holds⟩ next
    cases found with
    | none => exact ⟨none, by rw [OptionT.run_bind, ended]; rfl, fun _ none => by cases none⟩
    | some a =>
      obtain ⟨result, run, after⟩ := next a (holds a rfl)
      exact ⟨result, by rw [OptionT.run_bind, ended]; exact run, after⟩
  mono := fun ⟨found, ended, holds⟩ weaker => ⟨found, ended, fun a some => weaker a (holds a some)⟩

theorem checked_failure {α : Type} {post : α → Prop} : checked.ends failure post :=
  ⟨none, rfl, fun _ none => by cases none⟩

theorem checked_require {α : Type} {post : α → Prop} {found : Option α}
    (holds : ∀ a, found = some a → post a) :
    checked.ends (require found) post :=
  ⟨found, rfl, holds⟩

/-- An index in bounds is read. -/
theorem checked_index {b : List UInt8} {post : UInt8 → Prop} (bound : i < b.length)
    (holds : ∀ byte, b[i]? = some byte → post byte) : checked.ends (index b i) post := by
  have inside := List.getElem?_eq_getElem bound
  rw [index, inside]
  exact checked.pure (holds _ inside)

/-- What is before and after a position of a text. -/
structure Place (text before after : List Char) (i : ℕ) : Prop where
  split : text = before ++ after
  length : (bytes before).length = i

theorem Place.zero (text : List Char) : Place text [] text 0 := ⟨rfl, rfl⟩

theorem Field.length_bytes (field : Field lax n word value) : (bytes word).length = n := by
  rw [length_bytes_ascii (ascii_of_parse field.2), field.1]

/-- The place after a character of one byte. -/
theorem Place.char (place : Place text before (c :: after) i) (ascii : Ascii c) :
    Place text (before ++ [c]) after (i + 1) := by
  refine ⟨by rw [place.split, List.append_cons], ?_⟩
  rw [bytes_append, List.length_append, place.length, bytes_ascii ascii]
  rfl

/-- The place after a field. -/
theorem Place.field (place : Place text before (word ++ after) i) (field : Field lax n word value) :
    Place text (before ++ word) after (i + n) := by
  refine ⟨by rw [place.split, List.append_assoc], ?_⟩
  rw [bytes_append, List.length_append, place.length, field.length_bytes]

/-- A byte below 128 is the character at its place. -/
theorem Place.byte (place : Place text before after i) (ascii : Ascii c)
    (byte : (bytes text)[i]? = some c.val.toUInt8) : ∃ rest, after = c :: rest := by
  rw [place.split, getElem?_bytes_append place.length] at byte
  exact head_of_byte ascii byte

/-- A number that is read is a field at its place. -/
theorem Place.read (place : Place text before after start) (read : num text start stop = some value) :
    ∃ word rest, after = word ++ rest ∧ Field lax (stop - start) word value := by
  obtain ⟨word, sliced, parsed⟩ := Option.bind_eq_some_iff.mp read
  obtain ⟨head, rest, cut, first, last⟩ := slice_eq_some.mp sliced
  obtain ⟨rfl, rfl⟩ := append_cut (place.split.symm.trans cut) (place.length.trans first.symm)
  refine ⟨word, rest, rfl, ?_, parsed⟩
  rw [bytes_append, List.length_append, length_bytes_ascii (ascii_of_parse parsed)] at last
  omega

theorem Place.index (place : Place text before (c :: after) i) (ascii : Ascii c) :
    index (bytes text) i = pure c.val.toUInt8 := by
  rw [place.split, Ops.index, getElem?_bytes_append place.length, bytes_ascii ascii]
  rfl

theorem Place.num (place : Place text before (word ++ after) start) (field : Field lax n word value) :
    num text start (start + n) = some value := by
  have place' := place.field field
  rw [Ops.num, slice_eq_some.mpr ⟨before, after, place.split, place.length, place'.length⟩]
  exact field.2

/-! ### Dates -/

theorem tdiv_era (y : ℤ) : (if 0 ≤ y then y else y - 399).tdiv 400 = y / 400 := by
  split_ifs with nonneg
  · exact Int.tdiv_eq_ediv_of_nonneg nonneg
  · rw [Int.tdiv_eq_ediv]
    split_ifs with whole
    · omega
    · rw [show Int.sign 400 = 1 from rfl]
      omega

/-- The closed formula without the eras. -/
theorem daysFromCivil_flat (year month day y : ℤ) (first : 1 ≤ month)
    (shifted : y = if month ≤ 2 then year - 1 else year) :
    daysFromCivil year month day = 365 * y + y / 4 - y / 100 + y / 400 +
      (153 * ((month + 9) % 12) + 2) / 5 + day - 719469 := by
  unfold daysFromCivil
  dsimp only
  rw [← shifted, tdiv_era, Int.tmod_eq_emod_of_nonneg (by omega),
    Int.tdiv_eq_ediv_of_nonneg (by omega),
    Int.tdiv_eq_ediv_of_nonneg (by omega), Int.tdiv_eq_ediv_of_nonneg (by omega)]
  omega

/-- A year brings a leap day if it is a leap year. -/
theorem leapDays_step (year : ℤ) : year / 4 - year / 100 + year / 400 =
    (year - 1) / 4 - (year - 1) / 100 + (year - 1) / 400 + if isLeap year then 1 else 0 := by
  have fourth : year / 4 = (year - 1) / 4 + if year % 4 = 0 then 1 else 0 := by split_ifs <;> omega
  have century : year / 100 = (year - 1) / 100 + if year % 100 = 0 then 1 else 0 := by
    split_ifs <;> omega
  have era : year / 400 = (year - 1) / 400 + if year % 400 = 0 then 1 else 0 := by split_ifs <;> omega
  have leap : (if isLeap year then (1 : ℤ) else 0) = (if year % 4 = 0 then 1 else 0) -
      (if year % 100 = 0 then 1 else 0) + if year % 400 = 0 then 1 else 0 := by
    have inCentury : year % 400 = 0 → year % 100 = 0 := by omega
    have inFourth : year % 100 = 0 → year % 4 = 0 := by omega
    by_cases whole : year % 400 = 0
    · simp [isLeap, whole, inCentury whole, inFourth (inCentury whole)]
    · by_cases hundred : year % 100 = 0
      · simp [isLeap, whole, hundred, inFourth hundred]
      · simp [isLeap, whole, hundred]
  rw [fourth, century, era, leap]
  ring

/-- The first days of the years are counted. -/
theorem daysFromCivil_year (year : ℤ) : daysFromCivil year 1 1 = yearStart year := by
  refine @eq_yearStart (fun year => daysFromCivil year 1 1) rfl (fun year => ?_) year
  have step := leapDays_step year
  rw [daysFromCivil_flat (year + 1) 1 1 (year + 1 - 1) (by decide) rfl,
    daysFromCivil_flat year 1 1 (year - 1) (by decide) rfl, yearLength, add_sub_cancel_right]
  split_ifs with leap
  · rw [if_pos leap] at step
    linarith
  · rw [if_neg leap] at step
    linarith

/-- Counted from March on, the months before a month make up the closed formula's days. -/
theorem monthStart_eq (first : 1 ≤ month) (last : month ≤ 12) :
    monthStart year month = (153 * ((month + 9) % 12) + 2) / 5 - 306 +
      if month ≤ 2 then 0 else 365 + if isLeap year then 1 else 0 := by
  rw [monthStart]
  cases found : isLeap year <;>
    interval_cases month <;> simp [Finset.sum_range_succ, monthLength, found]

/-- **The closed formula counts the days of the calendar**, for every date. -/
theorem daysFromCivil_eq (first : 1 ≤ month) (last : month ≤ 12) :
    daysFromCivil year month day = dayNumber year month day := by
  have january : (153 * ((1 + 9) % 12) + 2) / 5 = (306 : ℤ) := by decide
  have step := leapDays_step year
  rw [dayNumber, ← daysFromCivil_year, daysFromCivil_flat year 1 1 (year - 1) (by decide) rfl,
    january,
    daysFromCivil_flat year month day _ first rfl, monthStart_eq first last]
  by_cases early : month ≤ 2
  · rw [if_pos early, if_pos early]
    ring
  · rw [if_neg early, if_neg early]
    linarith

/-- What the head of a text is when it is taken as a date. -/
theorem civilDate_ends : checked.ends (civilDate text) fun (y, m, d) =>
    ∃ words : DateWords, ∃ rest, text = words.text ++ rest ∧ words.Reads lax y m d := by
  unfold civilDate
  dsimp only
  split
  · exact checked_failure
  rename_i long
  refine checked.bind (checked_index (by omega) fun _ => id) fun dash first => ?_
  split
  · exact checked_failure
  rename_i same
  rw [not_not.mp same] at first
  refine checked.bind (checked_index (by omega) fun _ => id) fun dash' second => ?_
  split
  · exact checked_failure
  rename_i same'
  rw [not_not.mp same'] at second
  refine checked.bind (checked_require fun _ => id) fun y year => ?_
  refine checked.bind (checked_require fun _ => id) fun m month => ?_
  refine checked.bind (checked_require fun _ => id) fun d day => ?_
  split
  · rename_i range
    refine checked.pure ?_
    have place := Place.zero text
    obtain ⟨yearWord, rest, rfl, years⟩ := place.read year
    replace place := place.field years
    obtain ⟨rest, rfl⟩ := place.byte (by decide) first
    replace place := place.char (by decide)
    obtain ⟨monthWord, rest, rfl, months⟩ := place.read month
    replace place := place.field months
    obtain ⟨rest, rfl⟩ := place.byte (by decide) second
    replace place := place.char (by decide)
    obtain ⟨dayWord, rest, rfl, days⟩ := place.read day
    refine ⟨⟨yearWord, monthWord, dayWord⟩, rest, ?_,
      ⟨years, months, days, range.1, range.2.1, range.2.2.1,
      range.2.2.2⟩⟩
    rw [DateWords.text, List.append_assoc, List.cons_append, List.append_assoc, List.cons_append]
  · exact checked_failure

variable {words : DateWords} {zone : Zone} {fields : Fields} {offset : ℤ}

theorem DateWords.text_append : words.text ++ rest =
    words.year ++ '-' :: (words.month ++ '-' :: (words.day ++ rest)) := by
  rw [DateWords.text, List.append_assoc, List.cons_append, List.append_assoc, List.cons_append]

/-- The place after a date. -/
theorem DateWords.Reads.place (reads : words.Reads lax year month day) (rest : List Char) :
    Place (words.text ++ rest) words.text rest 10 := by
  have start : Place words.text [] (words.text ++ []) 0 := ⟨(List.append_nil _).symm, rfl⟩
  rw [DateWords.text_append] at start
  have place := ((((start.field reads.year).char (by decide)).field reads.month).char
    (by decide)).field reads.day
  have all := place.split
  rw [List.append_nil] at all
  exact ⟨rfl, all ▸ place.length⟩

/-- A date at the head of a text is taken. -/
theorem civilDate_reads (reads : words.Reads lax year month day) :
    civilDate (words.text ++ rest) = pure (year, month, day) := by
  have long : ¬ (bytes (words.text ++ rest)).length < 10 := by
    rw [bytes_append, List.length_append, (reads.place rest).length]
    omega
  have start : Place (words.text ++ rest) [] (words.text ++ rest) 0 := Place.zero _
  rw [DateWords.text_append] at start
  rw [DateWords.text_append] at long ⊢
  have four := start.field reads.year
  have five := four.char (by decide)
  have seven := five.field reads.month
  have eight := seven.char (by decide)
  unfold civilDate
  dsimp only
  rw [if_neg long, four.index (by decide), seven.index (by decide), start.num reads.year,
    five.num reads.month,
    eight.num reads.day]
  simp only [pure_bind, ne_eq, not_true_eq_false, if_false]
  exact if_pos ⟨reads.month_pos, reads.month_le, reads.day_pos, reads.day_le⟩

/-! ### Instants -/

theorem Place.sliceFrom (place : Place text before after i) : sliceFrom i text = pure after := by
  rw [Ops.sliceFrom, cutAt_eq_some.mpr ⟨place.split, place.length⟩]
  rfl

/-- The place after a fraction. -/
theorem place_fraction :
    Place ('.' :: (word ++ after)) ('.' :: word) after (1 + (bytes word).length) := by
  refine ⟨rfl, ?_⟩
  rw [length_bytes_char (by decide), Nat.add_comm]

theorem fraction_ends : checked.ends (fraction text) fun (millis, rest) =>
    ∃ word : Option (List Char), text = fractionText word ++ rest ∧ millis = millisOf word ∧
      ∀ digits ∈ word, digits ≠ [] ∧ digits.all Char.isDigit := by
  unfold fraction
  split
  · rename_i frac
    dsimp only
    split
    · exact checked_failure
    rename_i given
    have all : (frac.takeWhile Char.isDigit).all Char.isDigit = true := List.all_takeWhile
    have split : frac = frac.takeWhile Char.isDigit ++ frac.dropWhile Char.isDigit :=
      List.takeWhile_append_dropWhile.symm
    rw [parse_millis all]
    have place := @place_fraction (frac.takeWhile Char.isDigit) (frac.dropWhile Char.isDigit)
    rw [← split] at place
    rw [place.sliceFrom]
    refine checked.pure ⟨some (frac.takeWhile Char.isDigit), ?_, rfl, ?_⟩
    · rw [fractionText, List.cons_append, ← split]
    · exact fun digits same => Option.mem_some_iff.mp same ▸ ⟨given, all⟩
  · exact checked.pure ⟨none, rfl, rfl, fun _ none => by cases none⟩

theorem offsetMin_ends : checked.ends (offsetMin text) fun offset =>
    ∃ zone : Zone, text = zone.text ∧ zone.Reads lax offset := by
  unfold offsetMin
  dsimp only
  refine checked.bind (checked_require fun _ => id) fun first head => ?_
  split
  · rename_i zulu
    refine checked.pure ?_
    have letter : ∃ c, (c = 'Z' ∨ c = 'z') ∧ first = c.val.toUInt8 ∧ Ascii c := by
      rcases zulu.1 with same | same
      · exact ⟨'Z', .inl rfl, same, by decide⟩
      · exact ⟨'z', .inr rfl, same, by decide⟩
    obtain ⟨c, zulu', rfl, ascii⟩ := letter
    obtain ⟨rest, rfl⟩ := head_of_byte ascii head
    rw [length_bytes_char ascii] at zulu
    rw [eq_nil_of_length_bytes (Nat.succ_injective zulu.2)]
    exact ⟨.utc c, rfl, .utc zulu'⟩
  rename_i other
  split
  · rename_i signed
    refine checked.bind (checked_index (by omega) fun _ => id) fun colon third => ?_
    split
    · rename_i same
      rw [same] at third
      refine checked.bind (checked_require fun _ => id) fun h hour => ?_
      refine checked.bind (checked_require fun _ => id) fun m minute => ?_
      split
      · exact checked_failure
      rename_i range
      refine checked.pure ?_
      have letter : ∃ c, (c = '+' ∨ c = '-') ∧ first = c.val.toUInt8 ∧ Ascii c := by
        rcases signed.1 with same | same
        · exact ⟨'+', .inl rfl, same, by decide⟩
        · exact ⟨'-', .inr rfl, same, by decide⟩
      obtain ⟨c, sign, rfl, ascii⟩ := letter
      obtain ⟨rest, rfl⟩ := head_of_byte ascii head
      have place := (Place.zero (c :: rest)).char ascii
      obtain ⟨hourWord, rest, rfl, hours⟩ := place.read hour
      replace place := place.field hours
      obtain ⟨rest, rfl⟩ := place.byte (by decide) third
      replace place := place.char (by decide)
      obtain ⟨minuteWord, rest, rfl, minutes⟩ := place.read minute
      have long := signed.2
      rw [length_bytes_char ascii, bytes_append, List.length_append, hours.length_bytes,
        length_bytes_char (by decide), bytes_append, List.length_append, minutes.length_bytes] at long
      obtain rfl := @eq_nil_of_length_bytes rest (by omega)
      refine ⟨.offset c hourWord minuteWord, by rw [Zone.text, List.append_nil], ?_⟩
      rcases sign with rfl | rfl
      · exact .ahead hours minutes (by omega) (by omega)
      · exact .behind hours minutes (by omega) (by omega)
    · exact checked_failure
  · exact checked_failure

/-- **What is taken as an instant**, and that no text makes the parser panic. -/
theorem rfc3339_ends : checked.ends (rfc3339ToEpochMs text) fun t => IsInstant lax text t := by
  unfold rfc3339ToEpochMs
  dsimp only
  split
  · exact checked_failure
  rename_i long
  refine checked.bind (checked_index (by omega) fun _ => id) fun tee tenth => ?_
  split
  · exact checked_failure
  rename_i among
  refine checked.bind civilDate_ends ?_
  rintro ⟨y, m, d⟩ ⟨date, rest, rfl, reads⟩
  dsimp only
  refine checked.bind (checked_require fun _ => id) fun h hour => ?_
  refine checked.bind (checked_require fun _ => id) fun min minute => ?_
  refine checked.bind (checked_require fun _ => id) fun sec second => ?_
  refine checked.bind (checked_index (by omega) fun _ => id) fun colon first => ?_
  split
  · exact checked_failure
  rename_i same
  rw [not_not.mp same] at first
  refine checked.bind (checked_index (by omega) fun _ => id) fun colon' later => ?_
  split
  · exact checked_failure
  rename_i same'
  rw [not_not.mp same'] at later
  split
  · exact checked_failure
  rename_i range
  have letter : ∃ c, (c = 'T' ∨ c = 't' ∨ c = ' ') ∧ tee = c.val.toUInt8 ∧ Ascii c := by
    by_cases upper : tee = 'T'.val.toUInt8
    · exact ⟨'T', .inl rfl, upper, by decide⟩
    · by_cases lower : tee = 't'.val.toUInt8
      · exact ⟨'t', .inr (.inl rfl), lower, by decide⟩
      · refine ⟨' ', .inr (.inr rfl), ?_, by decide⟩
        by_contra blank
        exact among ⟨upper, lower, blank⟩
  obtain ⟨separator, kind, rfl, ascii⟩ := letter
  have place := reads.place rest
  obtain ⟨rest, rfl⟩ := place.byte ascii tenth
  replace place := place.char ascii
  obtain ⟨hourWord, rest, rfl, hours⟩ := place.read hour
  replace place := place.field hours
  obtain ⟨rest, rfl⟩ := place.byte (by decide) first
  replace place := place.char (by decide)
  obtain ⟨minuteWord, rest, rfl, minutes⟩ := place.read minute
  replace place := place.field minutes
  obtain ⟨rest, rfl⟩ := place.byte (by decide) later
  replace place := place.char (by decide)
  obtain ⟨secondWord, rest, rfl, seconds⟩ := place.read second
  replace place := place.field seconds
  rw [place.sliceFrom, pure_bind]
  refine checked.bind fraction_ends ?_
  rintro ⟨millis, rest⟩ ⟨word, rfl, rfl, given⟩
  refine checked.bind offsetMin_ends ?_
  rintro offset ⟨zone, rfl, ahead⟩
  have ranges : h ≤ 23 ∧ min ≤ 59 ∧ sec ≤ 60 := by omega
  refine checked.pure ⟨⟨date, separator, hourWord, minuteWord, secondWord, word, zone⟩,
    ⟨y, m, d, h, min, sec, offset⟩, rfl, ?_, ?_⟩
  · exact ⟨reads, kind, hours, minutes, seconds, ranges.1, ranges.2.1, ranges.2.2, given, ahead⟩
  · rw [daysFromCivil_eq reads.month_pos reads.month_le]
    rfl

/-- A fraction is read up to the zone. -/
theorem fraction_reads {frac : Option (List Char)} (reads : zone.Reads lax offset)
    (given : ∀ word ∈ frac, word ≠ [] ∧ word.all Char.isDigit) :
    fraction (fractionText frac ++ zone.text) = pure (millisOf frac, zone.text) := by
  obtain ⟨c, rest, starts, other⟩ : ∃ c rest, zone.text = c :: rest ∧ c.isDigit = false ∧
    c ≠ '.' := by
    cases reads with
    | utc zulu => rcases zulu with rfl | rfl <;> exact ⟨_, _, rfl, by decide⟩
    | ahead => exact ⟨_, _, rfl, by decide⟩
    | behind => exact ⟨_, _, rfl, by decide⟩
  cases frac with
  | none =>
    rw [fractionText, List.nil_append, starts]
    unfold fraction
    split
    · exact absurd (List.head_eq_of_cons_eq ‹_›) other.2
    · rfl
  | some word =>
    obtain ⟨given, all⟩ := given word rfl
    have taken : (word ++ zone.text).takeWhile Char.isDigit = word := by
      rw [List.takeWhile_append_of_pos (List.all_eq_true.mp all), starts,
        List.takeWhile_cons, other.1,
        if_neg (by decide), List.append_nil]
    have place := @place_fraction word zone.text
    rw [fractionText, List.cons_append, fraction, taken, if_neg given, parse_millis all,
      place.sliceFrom]
    rfl

theorem offsetMin_signed {hour minute : List Char} {h m : ℤ} (sign : c = '+' ∨ c = '-')
    (hours : Field lax 2 hour h) (minutes : Field lax 2 minute m) (hour_le : h ≤ 23)
    (minute_le : m ≤ 59) :
    offsetMin (c :: (hour ++ ':' :: minute)) =
      pure (if c.val.toUInt8 = '-'.val.toUInt8 then -(h * 60 + m) else h * 60 + m) := by
  have ascii : Ascii c := by
    rcases sign with rfl | rfl <;> decide
  have one := (Place.zero (c :: (hour ++ ':' :: (minute ++ [])))).char ascii
  have three := one.field hours
  have four := three.char (by decide)
  have six := four.field minutes
  rw [List.append_nil] at one three four six
  have length : (bytes (c :: (hour ++ ':' :: minute))).length = 6 := by
    rw [six.split, List.append_nil, six.length]
  have head : (bytes (c :: (hour ++ ':' :: minute))).head? = some c.val.toUInt8 := by
    rw [bytes_ascii ascii, List.head?_cons]
  have other : ¬ ((c.val.toUInt8 = 'Z'.val.toUInt8 ∨ c.val.toUInt8 = 'z'.val.toUInt8) ∧ 6 = 1) := by
    simp
  have signed : (c.val.toUInt8 = '+'.val.toUInt8 ∨ c.val.toUInt8 = '-'.val.toUInt8) ∧ 6 = 6 := by
    rcases sign with rfl | rfl <;> decide
  have minuteAt : num (c :: (hour ++ ':' :: minute)) 4 6 = some m := by
    have place : Place (c :: (hour ++ ':' :: minute)) ([] ++ [c] ++ hour ++ [':']) (minute ++
        []) 4 := by
      rwa [List.append_nil]
    exact place.num minutes
  unfold offsetMin
  dsimp only
  rw [head, length, three.index (by decide), one.num hours, minuteAt]
  change (if _ then _ else _) = _
  rw [if_neg other, if_pos signed, pure_bind, if_pos rfl]
  change (if 23 < h ∨ 59 < m then _ else _) = _
  rw [if_neg (by omega)]

/-- A zone is read. -/
theorem offsetMin_reads (reads : zone.Reads lax offset) : offsetMin zone.text = pure offset := by
  cases reads with
  | utc zulu => rcases zulu with rfl | rfl <;> rfl
  | ahead hours minutes hour_le minute_le =>
    exact offsetMin_signed (.inl rfl) hours minutes hour_le minute_le
  | behind hours minutes hour_le minute_le =>
    exact offsetMin_signed (.inr rfl) hours minutes hour_le minute_le

theorem rfc3339_reads {words : Words} (reads : words.Reads lax fields) :
    rfc3339ToEpochMs words.text = pure (fields.unixMs (millisOf words.fraction)) := by
  have start := reads.date.place (words.separator :: (words.hour ++ ':' :: (words.minute ++ ':' ::
    (words.second ++ (fractionText words.fraction ++ words.zone.text)))))
  have ascii : Ascii words.separator := by
    rcases reads.separator with same | same | same <;> rw [same] <;> decide
  have eleven := start.char ascii
  have thirteen := eleven.field reads.hour
  have fourteen := thirteen.char (by decide)
  have sixteen := fourteen.field reads.minute
  have seventeen := sixteen.char (by decide)
  have nineteen := seventeen.field reads.second
  have long : ¬ (bytes words.text).length < 20 := by
    have zone : words.zone.text ≠ [] := by
      cases words.zone <;> exact List.cons_ne_nil _ _
    have some : (bytes (fractionText words.fraction ++ words.zone.text)).length ≠ 0 := fun none =>
      zone (List.append_eq_nil_iff.mp (eq_nil_of_length_bytes none)).2
    rw [Words.text, nineteen.split, bytes_append, List.length_append, nineteen.length]
    omega
  have kind : ¬ (words.separator.val.toUInt8 ≠ 'T'.val.toUInt8 ∧
      words.separator.val.toUInt8 ≠ 't'.val.toUInt8 ∧
      words.separator.val.toUInt8 ≠ ' '.val.toUInt8) := by
    rcases reads.separator with same | same | same <;> rw [same] <;> decide
  have range : ¬ (23 < fields.hour ∨ 59 < fields.minute ∨ 60 < fields.second) := by
    have := reads.hour_le
    have := reads.minute_le
    have := reads.second_le
    omega
  unfold rfc3339ToEpochMs
  dsimp only
  rw [if_neg long, Words.text, start.index ascii, pure_bind, if_neg kind, civilDate_reads reads.date,
    eleven.num reads.hour, fourteen.num reads.minute, seventeen.num reads.second,
    thirteen.index (by decide), sixteen.index (by decide), nineteen.sliceFrom]
  simp only [pure_bind, ne_eq, not_true_eq_false, if_false, require]
  change (if _ then _ else _) = _
  rw [if_neg range, fraction_reads reads.zone reads.fraction, pure_bind,
    offsetMin_reads reads.zone, pure_bind,
    daysFromCivil_eq reads.date.month_pos reads.date.month_le]
  rfl

/-! ### Strict and lax -/

theorem field_strict (short : n ≤ 18) :
    Field strict n word value ↔ Field lax n word value ∧ Unsigned word := by
  unfold Field
  rw [and_assoc]
  refine and_congr_right fun length => ?_
  exact digits_eq_some (length ▸ short)

theorem DateWords.reads_strict : words.Reads strict year month day ↔
    words.Reads lax year month day ∧ (∀ word ∈ words.numbers, Unsigned word) ∧
    day ≤ monthLength year month := by
  simp only [DateWords.numbers, List.forall_mem_cons, List.not_mem_nil, false_imp_iff,
    implies_true, and_true]
  constructor
  · intro reads
    obtain ⟨years, plain⟩ := (field_strict (by decide)).mp reads.year
    obtain ⟨months, plain'⟩ := (field_strict (by decide)).mp reads.month
    obtain ⟨days, plain''⟩ := (field_strict (by decide)).mp reads.day
    exact ⟨⟨years, months, days, reads.month_pos, reads.month_le, reads.day_pos,
      reads.day_le.trans monthLength_le⟩, ⟨plain, plain', plain''⟩, reads.day_le⟩
  · rintro ⟨reads, ⟨plain, plain', plain''⟩, inside⟩
    exact ⟨(field_strict (by decide)).mpr ⟨reads.year, plain⟩,
      (field_strict (by decide)).mpr ⟨reads.month, plain'⟩,
      (field_strict (by decide)).mpr ⟨reads.day, plain''⟩, reads.month_pos, reads.month_le,
      reads.day_pos, inside⟩

theorem Zone.reads_strict : zone.Reads strict offset ↔
    zone.Reads lax offset ∧ ∀ word ∈ zone.numbers, Unsigned word := by
  constructor
  · intro reads
    cases reads with
    | utc zulu => exact ⟨.utc zulu, by simp [Zone.numbers]⟩
    | ahead hours minutes hour_le minute_le =>
      obtain ⟨hours, plain⟩ := (field_strict (by decide)).mp hours
      obtain ⟨minutes, plain'⟩ := (field_strict (by decide)).mp minutes
      exact ⟨.ahead hours minutes hour_le minute_le, by simp [Zone.numbers, plain, plain']⟩
    | behind hours minutes hour_le minute_le =>
      obtain ⟨hours, plain⟩ := (field_strict (by decide)).mp hours
      obtain ⟨minutes, plain'⟩ := (field_strict (by decide)).mp minutes
      exact ⟨.behind hours minutes hour_le minute_le, by simp [Zone.numbers, plain, plain']⟩
  · rintro ⟨reads, plain⟩
    cases reads with
    | utc zulu => exact .utc zulu
    | ahead hours minutes hour_le minute_le =>
      exact .ahead ((field_strict (by decide)).mpr ⟨hours, plain _ (by simp [Zone.numbers])⟩)
        ((field_strict (by decide)).mpr ⟨minutes, plain _ (by simp [Zone.numbers])⟩) hour_le minute_le
    | behind hours minutes hour_le minute_le =>
      exact .behind ((field_strict (by decide)).mpr ⟨hours, plain _ (by simp [Zone.numbers])⟩)
        ((field_strict (by decide)).mpr ⟨minutes, plain _ (by simp [Zone.numbers])⟩) hour_le minute_le

theorem Words.reads_strict {words : Words} : words.Reads strict fields ↔
    words.Reads lax fields ∧ (∀ word ∈ words.numbers, Unsigned word) ∧
      fields.day ≤ monthLength fields.year fields.month := by
  simp only [Words.numbers, List.forall_mem_append, List.forall_mem_cons, List.not_mem_nil,
    false_imp_iff,
    implies_true, and_true]
  constructor
  · intro reads
    obtain ⟨date, plain, inside⟩ := DateWords.reads_strict.mp reads.date
    obtain ⟨hours, first⟩ := (field_strict (by decide)).mp reads.hour
    obtain ⟨minutes, second⟩ := (field_strict (by decide)).mp reads.minute
    obtain ⟨seconds, third⟩ := (field_strict (by decide)).mp reads.second
    obtain ⟨zone, last⟩ := Zone.reads_strict.mp reads.zone
    exact ⟨⟨date, reads.separator, hours, minutes, seconds, reads.hour_le, reads.minute_le,
      reads.second_le,
      reads.fraction, zone⟩, ⟨⟨plain, first, second, third⟩, last⟩, inside⟩
  · rintro ⟨reads, ⟨⟨plain, first, second, third⟩, last⟩, inside⟩
    exact ⟨DateWords.reads_strict.mpr ⟨reads.date, plain, inside⟩, reads.separator,
      (field_strict (by decide)).mpr ⟨reads.hour, first⟩,
      (field_strict (by decide)).mpr ⟨reads.minute, second⟩,
      (field_strict (by decide)).mpr ⟨reads.second, third⟩, reads.hour_le, reads.minute_le,
      reads.second_le,
      reads.fraction, Zone.reads_strict.mpr ⟨reads.zone, last⟩⟩

/-! ### One reading -/

variable {words' : DateWords} {year' month' day' : ℤ}

theorem Field.unique {value' : ℤ} (field : Field lax n word value)
    (field' : Field lax n word value') :
    value = value' :=
  Option.some_injective _ (field.2.symm.trans field'.2)

/-- A text is read as a date in one way. -/
theorem DateWords.Reads.unique (reads : words.Reads lax year month day)
    (reads' : words'.Reads lax year' month' day') (same : words.text = words'.text) :
    words = words' ∧ year = year' ∧ month = month' ∧ day = day' := by
  obtain ⟨y, m, d⟩ := words
  obtain ⟨y', m', d'⟩ := words'
  obtain ⟨rfl, rest⟩ := List.append_inj same (reads.year.1.trans reads'.year.1.symm)
  obtain ⟨rfl, rest⟩ := List.append_inj (List.tail_eq_of_cons_eq rest)
    (reads.month.1.trans reads'.month.1.symm)
  obtain rfl := List.tail_eq_of_cons_eq rest
  exact ⟨rfl, reads.year.unique reads'.year, reads.month.unique reads'.month,
    reads.day.unique reads'.day⟩

theorem pure_injective {α : Type} {a b : α} (same : (pure a : Checked α) = pure b) : a = b := by
  have run := congrArg OptionT.run same
  exact Option.some_injective _ (Except.ok.inj run)

/-- A text is read as a zone in one way. -/
theorem Zone.Reads.unique {zone' : Zone} {offset' : ℤ} (reads : zone.Reads lax offset)
    (reads' : zone'.Reads lax offset') (same : zone.text = zone'.text) :
    zone = zone' ∧ offset = offset' := by
  have offsets : offset = offset' := by
    have read := offsetMin_reads reads
    rw [same, offsetMin_reads reads'] at read
    exact (pure_injective read).symm
  refine ⟨?_, offsets⟩
  have sized : ∀ {zone : Zone} {offset : ℤ}, zone.Reads lax offset →
      ∀ hour minute sign, zone = .offset sign hour minute → hour.length = 2 := by
    intro zone offset reads hour minute sign same
    cases reads with
    | utc => cases same
    | ahead hours => cases same; exact hours.1
    | behind hours => cases same; exact hours.1
  cases zone with
  | utc letter =>
    cases zone' with
    | utc letter' => rw [List.head_eq_of_cons_eq same]
    | offset sign hour minute =>
      have none := List.tail_eq_of_cons_eq same
      exact absurd none.symm (List.append_ne_nil_of_right_ne_nil _ (List.cons_ne_nil _ _))
  | offset sign hour minute =>
    cases zone' with
    | utc letter =>
      have none := List.tail_eq_of_cons_eq same
      exact absurd none (List.append_ne_nil_of_right_ne_nil _ (List.cons_ne_nil _ _))
    | offset sign' hour' minute' =>
      obtain ⟨rfl, rest⟩ := List.append_inj (List.tail_eq_of_cons_eq same)
        ((sized reads _ _ _ rfl).trans (sized reads' _ _ _ rfl).symm)
      rw [List.head_eq_of_cons_eq same, List.tail_eq_of_cons_eq rest]

theorem fractionText_injective {frac frac' : Option (List Char)}
    (same : fractionText frac = fractionText frac') :
    frac = frac' := by
  cases frac with
  | none =>
    cases frac' with
    | none => rfl
    | some => cases same
  | some =>
    cases frac' with
    | none => cases same
    | some => rw [List.tail_eq_of_cons_eq same]

theorem DateWords.Reads.length (reads : words.Reads lax year month day) : words.text.length = 10 := by
  rw [DateWords.text, List.length_append, List.length_cons, List.length_append, List.length_cons,
    reads.year.1,
    reads.month.1, reads.day.1]

/-- **A text is read as an instant in one way.** -/
theorem Words.Reads.unique {words words' : Words} {fields' : Fields}
    (reads : words.Reads lax fields) (reads' : words'.Reads lax fields')
    (same : words.text = words'.text) :
    words = words' ∧ fields = fields' := by
  obtain ⟨date, separator, hour, minute, second, frac, zone⟩ := words
  obtain ⟨date', separator', hour', minute', second', frac', zone'⟩ := words'
  obtain ⟨y, m, d, h, min, sec, offset⟩ := fields
  obtain ⟨y', m', d', h', min', sec', offset'⟩ := fields'
  obtain ⟨dates, rest⟩ := List.append_inj same (reads.date.length.trans reads'.date.length.symm)
  obtain ⟨rfl, rfl, rfl, rfl⟩ := reads.date.unique reads'.date dates
  obtain rfl := List.head_eq_of_cons_eq rest
  obtain ⟨rfl, rest⟩ := List.append_inj (List.tail_eq_of_cons_eq rest)
    (reads.hour.1.trans reads'.hour.1.symm)
  obtain ⟨rfl, rest⟩ := List.append_inj (List.tail_eq_of_cons_eq rest)
    (reads.minute.1.trans reads'.minute.1.symm)
  obtain ⟨rfl, rest⟩ := List.append_inj (List.tail_eq_of_cons_eq rest)
    (reads.second.1.trans reads'.second.1.symm)
  have zones : zone.text = zone'.text := by
    have read := fraction_reads reads.zone reads.fraction
    dsimp only at read rest
    rw [rest, fraction_reads reads'.zone reads'.fraction] at read
    exact (congrArg Prod.snd (pure_injective read)).symm
  obtain ⟨rfl, rfl⟩ := reads.zone.unique reads'.zone zones
  obtain rfl := fractionText_injective (List.append_cancel_right rest)
  obtain rfl : h = h' := reads.hour.unique reads'.hour
  obtain rfl : min = min' := reads.minute.unique reads'.minute
  obtain rfl : sec = sec' := reads.second.unique reads'.second
  exact ⟨rfl, rfl⟩

/-! ### When the parsers are exact -/

theorem dateEndOfDay_ends : checked.ends (dateEndOfDay text) fun t => EndsDay lax text t := by
  unfold dateEndOfDay
  split
  · exact checked_failure
  rename_i ten
  refine checked.bind civilDate_ends ?_
  rintro ⟨y, m, d⟩ ⟨words, rest, rfl, reads⟩
  refine checked.pure ⟨words, y, m, d, ?_, reads, ?_⟩
  · have length := not_not.mp ten
    rw [bytes_append, List.length_append, (reads.place rest).length] at length
    rw [eq_nil_of_length_bytes (Nat.add_left_cancel length), List.append_nil]
  · rw [daysFromCivil_eq reads.month_pos reads.month_le]

theorem dateEndOfDay_reads (reads : words.Reads lax year month day) :
    dateEndOfDay words.text = pure ((dayNumber year month day + 1) * msPerDay - 1) := by
  have read : civilDate (words.text ++ []) = pure (year, month, day) := civilDate_reads reads
  rw [List.append_nil] at read
  unfold dateEndOfDay
  rw [if_neg (not_not.mpr (reads.place []).length), read, pure_bind]
  dsimp only
  rw [daysFromCivil_eq reads.month_pos reads.month_le]

/-- A computation that takes the readings of a kind, of which a text has at most one, takes the
sound ones of them exactly if the text has none that is unsound. -/
theorem takes_sound_iff {α : Type} {run : Checked ℤ} {reading sound : α → Prop} {instant : α → ℤ}
    (ends : checked.ends run fun t => ∃ a, reading a ∧ t = instant a) (takes : ∀ a, reading a →
      run = pure (instant a))
    (unique : ∀ a b, reading a → reading b → a = b) :
    (∀ t, run = pure t ↔ ∃ a, (reading a ∧ sound a) ∧ t = instant a) ↔
    ¬ ∃ a, reading a ∧ ¬ sound a := by
  constructor
  · rintro exact ⟨a, reads, unsound⟩
    obtain ⟨b, ⟨reads', sound⟩, -⟩ := (exact _).mp (takes a reads)
    exact unsound (unique b a reads' reads ▸ sound)
  · intro all t
    constructor
    · intro taken
      obtain ⟨found, ended, holds⟩ := ends
      rw [taken] at ended
      obtain ⟨a, reads, same⟩ := holds t (Except.ok.inj ended).symm
      exact ⟨a, ⟨reads, by_contra fun unsound => all ⟨a, reads, unsound⟩⟩, same⟩
    · rintro ⟨a, ⟨reads, -⟩, rfl⟩
      exact takes a reads

/-- The one parser takes the instants and the other the days, each at its time. -/
structure Exact (s : List Char) : Prop where
  instants : ∀ t, rfc3339ToEpochMs s = pure t ↔ IsInstant strict s t
  days : ∀ t, dateEndOfDay s = pure t ↔ EndsDay strict s t

theorem instants_iff : (∀ t, rfc3339ToEpochMs text = pure t ↔ IsInstant strict text t) ↔
    ¬ LaxInstant text := by
  have iff := @takes_sound_iff (Words × Fields) (rfc3339ToEpochMs text)
    (fun (words, fields) => text = words.text ∧ words.Reads lax fields)
    (fun (words, fields) => (∀ word ∈ words.numbers, Unsigned word) ∧
      fields.day ≤ monthLength fields.year fields.month)
    (fun (words, fields) => fields.unixMs (millisOf words.fraction))
    (checked.mono rfc3339_ends fun t ⟨words, fields, same, reads, time⟩ =>
      ⟨(words, fields), ⟨same, reads⟩, time⟩)
    (fun (words, fields) ⟨same, reads⟩ => same ▸ rfc3339_reads reads)
    (fun (words, fields) (words', fields') ⟨same, reads⟩ ⟨same', reads'⟩ =>
      Prod.ext_iff.mpr (reads.unique reads' (same.symm.trans same')))
  refine Iff.trans (forall_congr' fun t => iff_congr Iff.rfl ?_) (iff.trans (not_congr ?_))
  · simp only [IsInstant, Words.reads_strict, Prod.exists, and_assoc]
  · simp only [LaxInstant, Prod.exists, not_and_or, not_forall, not_le, and_assoc, exists_prop]

theorem days_iff : (∀ t, dateEndOfDay text = pure t ↔ EndsDay strict text t) ↔ ¬ LaxDay text := by
  have iff := @takes_sound_iff (DateWords × ℤ × ℤ × ℤ) (dateEndOfDay text)
    (fun (words, y, m, d) => text = words.text ∧ words.Reads lax y m d)
    (fun (words, y, m, d) => (∀ word ∈ words.numbers, Unsigned word) ∧ d ≤ monthLength y m)
    (fun (_, y, m, d) => (dayNumber y m d + 1) * msPerDay - 1)
    (checked.mono dateEndOfDay_ends fun t ⟨words, y, m, d, same, reads, time⟩ =>
      ⟨(words, y, m, d), ⟨same, reads⟩, time⟩)
    (fun (words, y, m, d) ⟨same, reads⟩ => same ▸ dateEndOfDay_reads reads)
    (fun (words, y, m, d) (words', y', m', d') ⟨same, reads⟩ ⟨same', reads'⟩ => by
      obtain ⟨rfl, rfl, rfl, rfl⟩ := reads.unique reads' (same.symm.trans same')
      rfl)
  refine Iff.trans (forall_congr' fun t => iff_congr Iff.rfl ?_) (iff.trans (not_congr ?_))
  · simp only [EndsDay, DateWords.reads_strict, Prod.exists, and_assoc]
  · simp only [LaxDay, Prod.exists, not_and_or, not_forall, not_le, and_assoc, exists_prop]

theorem not_panic {α : Type} {run : Checked α} {post : α → Prop} (ends : checked.ends run post) :
    run.run ≠ .error ⟨⟩ := by
  obtain ⟨found, ended, -⟩ := ends
  rw [ended]
  exact fun panics => by cases panics

/-- **When the parsers are exact.** No text makes them panic, and they take the instants and the
days of the calendar, at their times, exactly where no field has a sign and no day is past its
month. -/
theorem instants_exact (s : List Char) :
    (rfc3339ToEpochMs s).run ≠ .error ⟨⟩ ∧ (dateEndOfDay s).run ≠ .error ⟨⟩ ∧
      (Exact s ↔ ¬ LaxInstant s ∧ ¬ LaxDay s) := by
  refine ⟨not_panic rfc3339_ends, not_panic dateEndOfDay_ends, ?_⟩
  rw [← instants_iff, ← days_iff]
  exact ⟨fun exact => ⟨exact.instants, exact.days⟩, fun ⟨instants, days⟩ => ⟨instants, days⟩⟩

/-- The 31st of February 2026 is taken as a day, and it is none. -/
theorem dateEndOfDay_february : (dateEndOfDay "2026-02-31".toList).run = .ok (some 1772582399999) ∧
    ¬ Exact "2026-02-31".toList := by
  refine ⟨by decide +kernel, fun exact => days_iff.mp exact.days ?_⟩
  refine ⟨⟨['2', '0', '2', '6'], ['0', '2'], ['3', '1']⟩, 2026, 2, 31,
    by decide, ?_, .inr (by decide)⟩
  exact ⟨⟨rfl, by decide⟩, ⟨rfl, by decide⟩, ⟨rfl, by decide⟩, by decide, by decide,
    by decide, by decide⟩

end DrStrange.Ops
