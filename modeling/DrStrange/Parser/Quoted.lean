/-
**What a quoted text spells.**

A body is plain characters and escapes, and ends at its quote. The scanner goes through every body
character by character (`quotedRounds_append`), and stops at the end of the text, at the quote or at
the first escape that is none (`exists_body`). So a value whose quote and backslash are escaped is
read back whole, whatever follows it. The four digits of `\uXXXX` are read as a number that may have
a plus, and `\u+XXX` is the one thing that is accepted beyond the grammar (`quotedStr_grammar_iff`).
-/

import DrStrange.Parser.Tokens

namespace DrStrange.Parser

open Lib Reader

/-! ### The grammar -/

/-- The value of hexadecimal digits. -/
def hexCode (digits : List Char) : Option ℕ :=
  digits.foldlM (fun value c => (hexValue c).map (16 * value + ·)) 0

/-- What stands after a backslash, for the character it spells. With `signed` three digits after a
plus count as four. -/
inductive Escape (signed : Bool) : List Char → Char → Prop
  | letter {c d : Char} (known : escaped c = some d) : Escape signed [c] d
  | unicode {hex : List Char} {code : ℕ} {c : Char} (four : hex.length = 4)
      (value : hexCode hex = some code)
      (scalar : fromU32 code = some c) : Escape signed ('u' :: hex) c
  | plus {hex : List Char} {code : ℕ} {c : Char} (allowed : signed = true) (three : hex.length = 3)
      (value : hexCode hex = some code) (scalar : fromU32 code = some c) : Escape signed
        ('u' :: '+' :: hex) c

/-- What stands between the quotes, and the text it spells. -/
inductive Body (signed : Bool) (q : Char) : List Char → List Char → Prop
  | nil : Body signed q [] []
  | plain {c : Char} {text value : List Char} (open_ : c ≠ q) (bare : c ≠ '\\')
      (rest : Body signed q text value) :
      Body signed q (c :: text) (c :: value)
  | escape {spelled text value : List Char} {c : Char} (head : Escape signed spelled c)
      (rest : Body signed q text value) : Body signed q ('\\' :: spelled ++ text) (c :: value)

/-- White space, as it may stand before a token. -/
def Blank (spaces : List Char) : Prop := ∀ c ∈ spaces, c = ' ' ∨ c = '\t' ∨ c = '\r' ∨ c = '\n'

/-- The text starts with a literal of `value`, and `rest` is left. -/
def Accepts (q : Char) (text rest : List Char) (value : String) : Prop :=
  ∃ spaces body, Blank spaces ∧ Body false q body value.toList ∧
    text = spaces ++ q :: (body ++ q :: rest)

/-- The first escape that is none of the grammar stands before `rest`. -/
def BadEscape (q : Char) (text rest : List Char) : Prop :=
  ∃ spaces body value, Blank spaces ∧ Body false q body value ∧
    text = spaces ++ q :: (body ++ '\\' :: rest) ∧
    ∀ spelled c after, rest = spelled ++ after → ¬ Escape false spelled c

/-- Just the literals are accepted, and a bad escape is a failure. -/
def ReadsGrammar (q : Char) (text : List Char) : Prop :=
  (∀ rest value, quotedStr q text = .ok rest value ↔ Accepts q text rest value) ∧
  ∀ rest, BadEscape q text rest → quotedStr q text = .failure rest .escaped

/-- The literal has an escape of three digits with a plus. -/
def SignedEscape (q : Char) (text : List Char) : Prop :=
  ∃ spaces body value hex rest, Blank spaces ∧ Body false q body value ∧ hex.length = 3 ∧
    (∀ c ∈ hex, (hexValue c).isSome) ∧
    text = spaces ++ q :: (body ++ '\\' :: 'u' :: '+' :: (hex ++ rest))

/-- A value as a caller quotes it. -/
def quoteEscaped (q : Char) (value : List Char) : List Char :=
  value.flatMap fun c => if c = q ∨ c = '\\' then ['\\', c] else [c]

/-! ### Hexadecimal digits -/

variable {value body spelled digits rest hex : List Char} {c q : Char} {code : ℕ}

theorem hexValue_small {digit : ℕ} (read : hexValue c = some digit) : Ascii c ∧ digit < 16 := by
  have range : ∀ low high : Char, low ≤ c → c ≤ high → low.toNat ≤ c.toNat ∧ c.toNat ≤ high.toNat :=
    fun low high above below => ⟨above, below⟩
  have small : c.toNat < 128 → Ascii c := fun below => below
  rw [hexValue] at read
  split_ifs at read with decimal lower upper
  · rw [Char.isDigit, Bool.and_eq_true, decide_eq_true_eq, decide_eq_true_eq] at decimal
    obtain ⟨above, below⟩ := range '0' '9' decimal.1 decimal.2
    obtain rfl := Option.some.inj read
    exact ⟨small (by simp at below; omega), by simp at below; omega⟩
  · obtain ⟨above, below⟩ := range 'a' 'f' lower.1 lower.2
    obtain rfl := Option.some.inj read
    exact ⟨small (by simp at below; omega), by simp at below; omega⟩
  · obtain ⟨above, below⟩ := range 'A' 'F' upper.1 upper.2
    obtain rfl := Option.some.inj read
    exact ⟨small (by simp at below; omega), by simp at below; omega⟩

theorem hexValue_plus : hexValue '+' = none := by decide

/-- Up to eight digits stay within the type that they are read into. -/
theorem guarded_eq {value k : ℕ} (small : value < 16 ^ k) (room : k + digits.length ≤ 8) :
    digits.foldlM (fun value c => (hexValue c).bind fun digit =>
      Option.guard (· < 2 ^ 32) (16 * value + digit)) value =
    digits.foldlM (fun value c => (hexValue c).map (16 * value + ·)) value := by
  induction digits generalizing value k with
  | nil => rfl
  | cons c digits ih =>
    rw [List.foldlM_cons, List.foldlM_cons]
    cases read : hexValue c with
    | none => rfl
    | some digit =>
      obtain ⟨-, below⟩ := hexValue_small read
      have next : 16 * value + digit < 16 ^ (k + 1) := by
        rw [pow_succ]
        omega
      rw [List.length_cons] at room
      have bound : 16 ^ (k + 1) ≤ 2 ^ 32 := by
        rw [show 2 ^ 32 = 16 ^ 8 by norm_num]
        exact Nat.pow_le_pow_right (by norm_num) (by omega)
      have within : (Option.guard (fun value => decide (value < 2 ^ 32)) (16 * value +
          digit) : Option ℕ) =
          some (16 * value + digit) := by
        rw [Option.guard_eq_some_iff]
        exact ⟨rfl, by simpa using next.trans_le bound⟩
      rw [Option.bind_some, within, Option.map_some]
      exact ih next (by omega)

/-- Digits have a value if and only if each is one, and `k` of them stay below `16 ^ k`. -/
theorem hexCode_digits (value : hexCode digits = some code) :
    (∀ c ∈ digits, (hexValue c).isSome) ∧ code < 16 ^ digits.length := by
  have general : ∀ (digits : List Char) (start k : ℕ), start < 16 ^ k →
      digits.foldlM (fun value c => (hexValue c).map (16 * value + ·)) start = some code →
      (∀ c ∈ digits, (hexValue c).isSome) ∧ code < 16 ^ (k + digits.length) := by
    intro digits
    induction digits with
    | nil =>
      intro start k small value
      obtain rfl := Option.some.inj value
      exact ⟨fun _ inside => (List.not_mem_nil inside).elim, small⟩
    | cons c digits ih =>
      intro start k small value
      rw [List.foldlM_cons] at value
      obtain ⟨next, first, value⟩ := Option.bind_eq_some_iff.mp value
      obtain ⟨digit, read, rfl⟩ := Option.map_eq_some_iff.mp first
      obtain ⟨-, below⟩ := hexValue_small read
      have next : 16 * start + digit < 16 ^ (k + 1) := by
        rw [pow_succ]
        omega
      obtain ⟨all, bound⟩ := ih _ _ next value
      refine ⟨List.forall_mem_cons.mpr ⟨by rw [read]; rfl, all⟩, ?_⟩
      rwa [List.length_cons, Nat.add_comm digits.length, ← Nat.add_assoc]
  have held := general digits 0 0 (by norm_num) value
  rwa [Nat.zero_add] at held

theorem exists_hexCode (all : ∀ c ∈ digits, (hexValue c).isSome) :
    ∃ code, hexCode digits = some code := by
  unfold hexCode
  generalize 0 = start
  induction digits generalizing start with
  | nil => exact ⟨start, rfl⟩
  | cons c digits ih =>
    obtain ⟨first, rest⟩ := List.forall_mem_cons.mp all
    obtain ⟨digit, read⟩ := Option.isSome_iff_exists.mp first
    rw [List.foldlM_cons, read]
    exact ih rest (16 * start + digit)

/-- Digits are of one byte each. -/
theorem length_bytes_digits (all : ∀ c ∈ digits, (hexValue c).isSome) :
    (bytes digits).length = digits.length := by
  induction digits with
  | nil => rfl
  | cons c digits ih =>
    obtain ⟨first, rest⟩ := List.forall_mem_cons.mp all
    obtain ⟨digit, read⟩ := Option.isSome_iff_exists.mp first
    rw [length_bytes_cons, utf8Size_ascii (hexValue_small read).1, ih rest, List.length_cons,
      Nat.add_comm]

/-- Four bytes are read as four digits, or as three after a plus. -/
theorem fromStrRadix16_eq_some (four : (bytes hex).length = 4) :
    fromStrRadix16 hex = some code ↔ (hex.length = 4 ∧ hexCode hex = some code) ∨
      ∃ digits, hex = '+' :: digits ∧ digits.length = 3 ∧ hexCode digits = some code := by
  have short := length_le_bytes hex
  by_cases plus : hex.head? = some '+'
  · cases hex with
    | nil => cases plus
    | cons c digits =>
      obtain rfl := Option.some.inj plus
      rw [length_bytes_cons, show ('+' : Char).utf8Size = 1 by decide] at four
      rw [length_bytes_cons, List.length_cons, show ('+' : Char).utf8Size = 1 by decide] at short
      have read : fromStrRadix16 ('+' :: digits) = if digits = [] then none else hexCode digits := by
        rw [fromStrRadix16, if_pos plus, List.tail_cons, hexCode,
          ← guarded_eq (k := 0) (by norm_num) (by omega)]
      have none_ : hexCode ('+' :: digits) = none := by
        rw [hexCode, List.foldlM_cons, hexValue_plus]
        rfl
      rw [read, none_]
      constructor
      · intro held
        split_ifs at held with empty
        have all := (hexCode_digits held).1
        exact .inr ⟨digits, rfl, by rw [← length_bytes_digits all]; omega, held⟩
      · rintro (⟨-, wrong⟩ | ⟨other, same, three, held⟩)
        · cases wrong
        · obtain rfl := (List.cons.inj same).2
          have full : digits ≠ [] := List.ne_nil_of_length_pos (by omega)
          rw [if_neg full, held]
  · have full : hex ≠ [] := by
      rintro rfl
      cases four
    have read : fromStrRadix16 hex = hexCode hex := by
      rw [fromStrRadix16, if_neg plus, if_neg full, hexCode,
        guarded_eq (k := 0) (by norm_num) (by omega)]
    rw [read]
    constructor
    · intro held
      exact .inl ⟨by rw [← length_bytes_digits (hexCode_digits held).1, four], held⟩
    · rintro (⟨-, held⟩ | ⟨digits, rfl, -⟩)
      · exact held
      · exact absurd rfl plus

/-! ### Escapes -/

theorem escape_cons (c : Char) (rest : List Char) :
    escape (c :: rest) = escapeOf (c :: rest) c rest :=
  bind_ok split_char

theorem unicodeEscape_ok {i : List Char} (four : (bytes hex).length = 4)
    (value : fromStrRadix16 hex = some code) (scalar : fromU32 code = some c) :
    unicodeEscape i (hex ++ rest) = .ok rest c := by
  have cut : cutAt 4 (hex ++ rest) = some (hex, rest) := cutAt_eq_some.mpr ⟨rfl, four⟩
  rw [unicodeEscape, cut, Option.bind_some, value, Option.bind_some, scalar]
  change (Reader.andThen (split 4) _ _) = _
  rw [Reader.andThen, ← four, split_append]
  rfl

/-- An escape that the code knows is read. -/
theorem escape_ok (known : Escape true spelled c) : escape (spelled ++ rest) = .ok rest c := by
  cases known with
  | @letter first _ known =>
    have other : first ≠ 'u' := by
      rintro rfl
      cases known
    rw [List.cons_append, List.nil_append, escape_cons, escapeOf, if_neg other, known]
    rfl
  | @unicode hex code _ four value scalar =>
    have length : (bytes hex).length = 4 := by rw [length_bytes_digits (hexCode_digits value).1, four]
    rw [List.cons_append, escape_cons, escapeOf, if_pos rfl]
    exact unicodeEscape_ok length ((fromStrRadix16_eq_some length).mpr (.inl ⟨four, value⟩)) scalar
  | @plus hex code _ allowed three value scalar =>
    have length : (bytes ('+' :: hex)).length = 4 := by
      rw [length_bytes_cons, length_bytes_digits (hexCode_digits value).1, three]
      rfl
    rw [List.cons_append, escape_cons, escapeOf, if_pos rfl]
    exact unicodeEscape_ok length
      ((fromStrRadix16_eq_some length).mpr (.inr ⟨hex, rfl, three, value⟩)) scalar

/-- Anything else is a failure at what stands after the backslash. -/
theorem escape_cases (text : List Char) :
    (∃ spelled c rest, text = spelled ++ rest ∧ Escape true spelled c) ∨
    escape text = .failure text .escaped := by
  cases text with
  | nil => exact .inr rfl
  | cons first rest =>
    by_cases unicode : first = 'u'
    · subst unicode
      cases spelled : ((cutAt 4 rest).bind fun cut => fromStrRadix16 cut.1).bind fromU32 with
      | none =>
        refine .inr ?_
        rw [escape_cons, escapeOf, if_pos rfl, unicodeEscape, spelled]
      | some c =>
        obtain ⟨code, digits, scalar⟩ := Option.bind_eq_some_iff.mp spelled
        obtain ⟨⟨hex, after⟩, cut, value⟩ := Option.bind_eq_some_iff.mp digits
        obtain ⟨rfl, four⟩ := cutAt_eq_some.mp cut
        obtain ⟨length, value⟩ | ⟨three_, rfl, three, value⟩ := (fromStrRadix16_eq_some four).mp value
        · exact .inl ⟨'u' :: hex, c, after, rfl, .unicode length value scalar⟩
        · exact .inl ⟨'u' :: '+' :: three_, c, after, rfl, .plus rfl three value scalar⟩
    · cases known : escaped first with
      | none =>
        refine .inr ?_
        rw [escape_cons, escapeOf, if_neg unicode, known]
        rfl
      | some c => exact .inl ⟨[first], c, rest, rfl, .letter known⟩

/-! ### The scanner goes through a body -/

theorem peek_cons {text : List Char} :
    (peek : TextReader (Option Char)) (c :: text) = .ok (c :: text) (some c) := rfl

section

variable {q : Char} {rounds : ℕ} {out text : List Char}

theorem quotedRounds_nil : quotedRounds q (rounds + 1) out [] = .error [] .char := by
  rw [quotedRounds, bind_ok plainRun_ok]
  rfl

theorem quotedRounds_quote : quotedRounds q (rounds + 1) out (q :: text) = .ok text out := by
  rw [quotedRounds, bind_ok plainRun_ok, List.dropWhile_cons_of_neg (by simp),
    List.takeWhile_cons_of_neg (by simp),
    bind_ok peek_cons, stopAt, if_pos rfl, bind_ok split_char, List.append_nil]
  rfl

/-- A plain character is taken over. -/
theorem quotedRounds_plain (open_ : c ≠ q) (bare : c ≠ '\\') :
    quotedRounds q (rounds + 1) out (c :: text) = quotedRounds q (rounds + 1) (out ++ [c]) text := by
  have dropped : ((c :: text).dropWhile fun c => c ≠ q && c ≠ '\\') = text.dropWhile fun c =>
    c ≠ q && c ≠ '\\' :=
    List.dropWhile_cons_of_pos (by simp [open_, bare])
  have taken : ((c :: text).takeWhile fun c => c ≠ q && c ≠ '\\') =
      c :: text.takeWhile fun c => c ≠ q && c ≠ '\\' :=
    List.takeWhile_cons_of_pos (by simp [open_, bare])
  rw [quotedRounds, bind_ok plainRun_ok, dropped, taken, quotedRounds, bind_ok plainRun_ok,
    List.append_assoc,
    List.singleton_append]

theorem quotedRounds_escape (other : q ≠ '\\') :
    quotedRounds q (rounds + 1) out ('\\' :: text) =
      (escape >>= fun c => quotedRounds q rounds (out ++ [c])) text := by
  have one : (split 1 : TextReader (List Char)) ('\\' :: text) = .ok text ['\\'] :=
    @split_char '\\' text
  rw [quotedRounds, bind_ok plainRun_ok, List.dropWhile_cons_of_neg (by simp),
    List.takeWhile_cons_of_neg (by simp),
    bind_ok peek_cons, stopAt, if_neg other.symm, bind_ok one, List.append_nil]

/-- The body is scanned, and rounds are left for what is behind it. -/
theorem quotedRounds_append (other : q ≠ '\\') (spelled : Body true q body value)
    (out text : List Char) (enough : (body ++ text).length < rounds) :
    ∃ left, text.length < left ∧
      quotedRounds q rounds out (body ++ text) = quotedRounds q left (out ++ value) text := by
  induction spelled generalizing rounds out with
  | nil => exact ⟨rounds, enough, by rw [List.nil_append, List.append_nil]⟩
  | @plain c body value open_ bare _ ih =>
    obtain ⟨left, more, run⟩ := ih (out ++ [c]) (lt_of_le_of_lt (Nat.le_succ _) enough)
    obtain ⟨rounds, rfl⟩ := Nat.exists_eq_add_one_of_ne_zero (Nat.ne_zero_of_lt enough)
    refine ⟨left, more, ?_⟩
    rw [List.cons_append, quotedRounds_plain open_ bare, run, List.append_assoc,
      List.singleton_append]
  | @escape head body value c known _ ih =>
    obtain ⟨rounds, rfl⟩ := Nat.exists_eq_add_one_of_ne_zero (Nat.ne_zero_of_lt enough)
    have fewer : (body ++ text).length < rounds := by
      simp only [List.length_append, List.length_cons] at enough ⊢
      omega
    obtain ⟨left, more, run⟩ := ih (out ++ [c]) fewer
    refine ⟨left, more, ?_⟩
    rw [List.cons_append, List.cons_append, quotedRounds_escape other, List.append_assoc,
      bind_ok (escape_ok known), run, List.append_assoc, List.singleton_append]

end

/-- Every text starts with a body, up to its end, the quote or an escape that the code does not
know. -/
theorem exists_body (q : Char) (text : List Char) :
    ∃ body value rest, Body true q body value ∧ text = body ++ rest ∧
      (rest = [] ∨ (∃ after, rest = q :: after) ∨
        ∃ after, rest = '\\' :: after ∧ escape after = .failure after .escaped) := by
  induction length : text.length using Nat.strong_induction_on generalizing text with
  | _ n ih =>
    subst length
    cases text with
    | nil => exact ⟨[], [], [], .nil, rfl, .inl rfl⟩
    | cons c text =>
      by_cases closes : c = q
      · subst closes
        exact ⟨[], [], _, .nil, rfl, .inr (.inl ⟨text, rfl⟩)⟩
      · by_cases backslash : c = '\\'
        · subst backslash
          obtain ⟨spelled, d, after, rfl, known⟩ | bad := escape_cases text
          · obtain ⟨body, value, rest, run, rfl, stops⟩ := ih after.length (by simp) after rfl
            exact ⟨_, _, rest, .escape known run, by simp, stops⟩
          · exact ⟨[], [], _, .nil, rfl, .inr (.inr ⟨text, rfl, bad⟩)⟩
        · obtain ⟨body, value, rest, run, rfl, stops⟩ := ih text.length (by simp) text rfl
          exact ⟨c :: body, c :: value, rest, .plain closes backslash run, rfl, stops⟩

/-! ### The whole literal -/

section

variable {q : Char} {text spaces : List Char}

/-- Behind white space the quote opens the literal. -/
theorem quotedStr_open (blank : Blank spaces) (quote : q = '\'' ∨ q = '"') :
    quotedStr q (spaces ++ q :: text) =
      (quotedRounds q (text.length + 1) [] text).fold
        (fun rest value => .ok rest (String.ofList value)) .error := by
  have space : ∀ c ∈ spaces, (c = ' ' || c = '\t' || c = '\r' || c = '\n') = true := by
    intro c inside
    simpa [or_assoc] using blank c inside
  have stops : ¬ (q = ' ' || q = '\t' || q = '\r' || q = '\n') = true := by
    obtain rfl | rfl := quote <;> decide
  have skipped : multispace0 (spaces ++ q :: text) = .ok (q :: text) spaces := by
    have dropped := List.dropWhile_cons_of_neg (p := fun c =>
      c = ' ' || c = '\t' || c = '\r' || c = '\n')
      (l := text) stops
    have taken := List.takeWhile_cons_of_neg (p := fun c =>
      c = ' ' || c = '\t' || c = '\r' || c = '\n')
      (l := text) stops
    rw [multispace0, Reader.takeWhile, List.dropWhile_append_of_pos space,
      List.takeWhile_append_of_pos space,
      dropped, taken, List.append_nil]
  have opened : char q (q :: text) = .ok text q := by
    rw [char, Reader.satisfy, if_pos (decide_eq_true rfl)]
  rw [quotedStr, bind_ok skipped, bind_ok opened]
  rfl

/-- A text that does not open so is refused. -/
theorem quotedStr_other (quote : q = '\'' ∨ q = '"') (text : List Char) :
    (∃ spaces rest, Blank spaces ∧ text = spaces ++ q :: rest) ∨
    ∃ left, quotedStr q text = .error left .char := by
  have skipped : multispace0 text =
      .ok (text.dropWhile fun c => c = ' ' || c = '\t' || c = '\r' || c = '\n')
        (text.takeWhile fun c => c = ' ' || c = '\t' || c = '\r' || c = '\n') := rfl
  have whole := List.takeWhile_append_dropWhile (p := fun c : Char =>
    c = ' ' || c = '\t' || c = '\r' || c = '\n')
    (l := text)
  rw [quotedStr, bind_ok skipped]
  cases left : text.dropWhile fun c => c = ' ' || c = '\t' || c = '\r' || c = '\n' with
  | nil => exact .inr ⟨[], rfl⟩
  | cons c rest =>
    by_cases opens : c = q
    · subst opens
      rw [left] at whole
      refine .inl ⟨_, rest, fun d inside => ?_, whole.symm⟩
      simpa [or_assoc] using List.mem_takeWhile_imp inside
    · refine .inr ⟨c :: rest, ?_⟩
      have refused : char q (c :: rest) = .error (c :: rest) .char := by
        rw [char, Reader.satisfy, if_neg (by simpa using opens)]
      change (Reader.andThen (char q) _ _) = _
      rw [Reader.andThen, refused]
      rfl

/-- What stands behind a body decides. -/
theorem quotedStr_body (quote : q = '\'' ∨ q = '"') (blank : Blank spaces)
    (spelled : Body true q body value) (rest : List Char) :
    ∃ left, rest.length < left ∧ quotedStr q (spaces ++ q :: (body ++ rest)) =
      (quotedRounds q left value rest).fold (fun rest value => .ok rest (String.ofList value))
        .error := by
  have other : q ≠ '\\' := by
    obtain rfl | rfl := quote <;> decide
  obtain ⟨left, more, run⟩ := quotedRounds_append other spelled [] rest (Nat.lt_succ_self _)
  exact ⟨left, more, by rw [quotedStr_open blank quote, run, List.nil_append]⟩

theorem quotedStr_closed (quote : q = '\'' ∨ q = '"') (blank : Blank spaces)
    (spelled : Body true q body value) (rest : List Char) :
    quotedStr q (spaces ++ q :: (body ++ q :: rest)) = .ok rest (String.ofList value) := by
  obtain ⟨left, more, run⟩ := quotedStr_body quote blank spelled (q :: rest)
  obtain ⟨left, rfl⟩ := Nat.exists_eq_add_one_of_ne_zero (Nat.ne_zero_of_lt more)
  rw [run, quotedRounds_quote]
  rfl

theorem quotedStr_bad (quote : q = '\'' ∨ q = '"') (blank : Blank spaces)
    (spelled : Body true q body value) (bad : escape rest = .failure rest .escaped) :
    quotedStr q (spaces ++ q :: (body ++ '\\' :: rest)) = .failure rest .escaped := by
  have other : q ≠ '\\' := by
    obtain rfl | rfl := quote <;> decide
  obtain ⟨left, more, run⟩ := quotedStr_body quote blank spelled ('\\' :: rest)
  obtain ⟨left, rfl⟩ := Nat.exists_eq_add_one_of_ne_zero (Nat.ne_zero_of_lt more)
  rw [run, quotedRounds_escape other]
  change ((escape rest).fold _ _).fold _ _ = _
  rw [bad]
  rfl

theorem quotedStr_unterminated (quote : q = '\'' ∨ q = '"') (blank : Blank spaces)
    (spelled : Body true q body value) :
    quotedStr q (spaces ++ q :: (body ++ [])) = .error [] .char := by
  obtain ⟨left, more, run⟩ := quotedStr_body quote blank spelled []
  obtain ⟨left, rfl⟩ := Nat.exists_eq_add_one_of_ne_zero (Nat.ne_zero_of_lt more)
  rw [run, quotedRounds_nil]
  rfl

/-- What is read is a literal of the code's grammar, and the reading ends where no body goes on. -/
theorem quotedStr_cases (quote : q = '\'' ∨ q = '"') (text : List Char) :
    (∃ spaces body value rest, Blank spaces ∧ Body true q body value ∧
      text = spaces ++ q :: (body ++ q :: rest) ∧ quotedStr q text = .ok rest (String.ofList value)) ∨
    (∃ spaces body value rest, Blank spaces ∧ Body true q body value ∧
      text = spaces ++ q :: (body ++ '\\' :: rest) ∧ quotedStr q text = .failure rest .escaped) ∨
    ∃ left, quotedStr q text = .error left .char := by
  obtain ⟨spaces, inner, blank, rfl⟩ | refused := quotedStr_other quote text
  · obtain ⟨body, value, rest, spelled, rfl, rfl | ⟨after, rfl⟩ | ⟨after, rfl, bad⟩⟩ :=
      exists_body q inner
    · exact .inr (.inr ⟨[], quotedStr_unterminated quote blank spelled⟩)
    · exact .inl ⟨spaces, body, value, after, blank, spelled, rfl,
        quotedStr_closed quote blank spelled after⟩
    · exact .inr (.inl ⟨spaces, body, value, after, blank, spelled, rfl,
        quotedStr_bad quote blank spelled bad⟩)
  · exact .inr (.inr refused)

end

/-! ### The grammar and the code's -/

theorem Escape.signed (known : Escape false spelled c) : Escape true spelled c := by
  cases known with
  | letter known => exact .letter known
  | unicode four value scalar => exact .unicode four value scalar
  | plus allowed => cases allowed

theorem Body.signed (spelled : Body false q body value) : Body true q body value := by
  induction spelled with
  | nil => exact .nil
  | plain open_ bare _ ih => exact .plain open_ bare ih
  | escape known _ ih => exact .escape known.signed ih

/-- Three digits after a plus are an escape that the code knows and the grammar does not. -/
theorem Escape.of_signed (known : Escape true spelled c) :
    Escape false spelled c ∨ ∃ hex, spelled = 'u' :: '+' :: hex ∧ hex.length = 3 ∧
    ∀ c ∈ hex, (hexValue c).isSome := by
  cases known with
  | letter known => exact .inl (.letter known)
  | unicode four value scalar => exact .inl (.unicode four value scalar)
  | plus _ three value => exact .inr ⟨_, rfl, three, (hexCode_digits value).1⟩

/-- A body of the code's is one of the grammar up to the first sign. -/
theorem Body.of_signed (spelled : Body true q body value) :
    Body false q body value ∨ ∃ before read hex rest, Body false q before read ∧ hex.length = 3 ∧
      (∀ c ∈ hex, (hexValue c).isSome) ∧ body = before ++ '\\' :: 'u' :: '+' :: (hex ++ rest) := by
  induction spelled with
  | nil => exact .inl .nil
  | @plain c _ _ open_ bare _ ih =>
    obtain strict | ⟨before, read, hex, rest, strict, three, digits, rfl⟩ := ih
    · exact .inl (.plain open_ bare strict)
    · exact .inr ⟨c :: before, c :: read, hex, rest, .plain open_ bare strict, three, digits, rfl⟩
  | @escape head text _ c known _ ih =>
    obtain known | ⟨hex, rfl, three, digits⟩ := known.of_signed
    · obtain strict | ⟨before, read, hex, rest, strict, three, digits, rfl⟩ := ih
      · exact .inl (.escape known strict)
      · exact .inr ⟨_, _, hex, rest, .escape known strict, three, digits, by simp⟩
    · exact .inr ⟨[], [], hex, text, .nil, three, digits, rfl⟩

/-- A sign is no escape of the grammar. -/
theorem Escape.not_plus {after : List Char} (same : 'u' :: '+' :: rest = spelled ++ after) :
    ¬ Escape false spelled c := by
  intro known
  cases known with
  | letter known =>
    obtain rfl := (List.cons.inj same).1
    cases known
  | @unicode hex _ _ four value =>
    have digits := (hexCode_digits value).1
    cases hex with
    | nil => cases four
    | cons first hex =>
      obtain rfl := (List.cons.inj (List.cons.inj same).2).1
      have sign := digits '+' List.mem_cons_self
      rw [hexValue_plus] at sign
      cases sign
  | plus allowed => cases allowed

/-- The sign is read, and what is behind it is read on. -/
theorem Escape.of_digits (three : hex.length = 3) (digits : ∀ c ∈ hex, (hexValue c).isSome) :
    ∃ c, Escape true ('u' :: '+' :: hex) c := by
  obtain ⟨code, value⟩ := exists_hexCode digits
  have small := (hexCode_digits value).2
  rw [three] at small
  have scalar : code.isValidChar := .inl (by omega)
  exact ⟨Char.ofNat code, .plus rfl three value (if_pos scalar)⟩

theorem Body.append {signed : Bool} {more read : List Char} (first : Body signed q body value)
    (second : Body signed q more read) : Body signed q (body ++ more) (value ++ read) := by
  induction first with
  | nil => exact second
  | plain open_ bare _ ih => exact .plain open_ bare ih
  | escape known _ ih =>
    rw [List.append_assoc]
    exact .escape known ih

section

variable {q : Char} {text : List Char}

/-- With a sign the reading is not what the grammar says: the code reads on behind it. -/
theorem SignedEscape.not_reads (quote : q = '\'' ∨ q = '"') (signed : SignedEscape q text) :
    ¬ ReadsGrammar q text := by
  intro reads
  obtain ⟨spaces, before, read, hex, rest, blank, strict, three, digits, rfl⟩ := signed
  have failed := reads.2 _ ⟨spaces, before, read, blank, strict, rfl, fun spelled c after same =>
    Escape.not_plus same⟩
  obtain ⟨c, sign⟩ := Escape.of_digits three digits
  obtain ⟨body, value, last, spelled, rfl, stops⟩ := exists_body q rest
  have whole := strict.signed.append (.escape sign spelled)
  have shape : before ++ '\\' :: 'u' :: '+' :: (hex ++ (body ++ last)) =
      before ++ ('\\' :: 'u' :: '+' :: hex ++ body) ++ last := by simp
  rw [shape] at failed
  obtain rfl | ⟨after, rfl⟩ | ⟨after, rfl, bad⟩ := stops
  · rw [quotedStr_unterminated quote blank whole] at failed
    cases failed
  · rw [quotedStr_closed quote blank whole after] at failed
    cases failed
  · rw [quotedStr_bad quote blank whole bad] at failed
    have lengths := congrArg List.length (Reading.failure.inj failed).1
    simp only [List.length_cons, List.length_append] at lengths
    omega

theorem reads_of_not_signed (quote : q = '\'' ∨ q = '"') (unsigned : ¬ SignedEscape q text) :
    ReadsGrammar q text := by
  refine ⟨fun rest value => ⟨fun read => ?_, ?_⟩, ?_⟩
  · obtain ⟨spaces, body, spelled, after, blank, run, rfl, closed⟩ | ⟨_, _, _, _, _, _, _,
      failed⟩ | ⟨_, refused⟩ :=
      quotedStr_cases quote text
    · rw [closed] at read
      obtain ⟨rfl, rfl⟩ := Reading.ok.inj read
      obtain strict | ⟨before, value, hex, left, strict, three, digits, rfl⟩ := run.of_signed
      · exact ⟨spaces, body, blank, by rwa [String.toList_ofList], rfl⟩
      · exact absurd ⟨spaces, before, value, hex, left ++ q :: after, blank, strict, three, digits,
          by simp⟩ unsigned
    · rw [failed] at read
      cases read
    · rw [refused] at read
      cases read
  · rintro ⟨spaces, body, blank, strict, rfl⟩
    rw [quotedStr_closed quote blank strict.signed rest, String.ofList_toList]
  · rintro rest ⟨spaces, body, value, blank, strict, rfl, unknown⟩
    obtain ⟨spelled, c, after, rfl, known⟩ | bad := escape_cases rest
    · obtain known | ⟨hex, rfl, three, digits⟩ := known.of_signed
      · exact absurd known (unknown _ _ _ rfl)
      · exact absurd ⟨spaces, body, value, hex, after, blank, strict, three, digits, rfl⟩ unsigned
    · exact quotedStr_bad quote blank strict.signed bad

/-- The escaped value is a body of its own, and nothing in it closes the literal. -/
theorem body_quoteEscaped (quote : q = '\'' ∨ q = '"') (value : List Char) :
    Body false q (quoteEscaped q value) value := by
  induction value with
  | nil => exact .nil
  | cons c value ih =>
    rw [quoteEscaped, List.flatMap_cons]
    split_ifs with special
    · have known : escaped c = some c := by
        obtain rfl | rfl := special
        · obtain rfl | rfl := quote <;> rfl
        · rfl
      exact .escape (.letter known) ih
    · obtain ⟨open_, bare⟩ := not_or.mp special
      exact .plain open_ bare ih

end

/-- An escaped value is read back whole, no text crashes the scanner, and it reads the grammar just
where no escape has a sign. -/
theorem quotedStr_grammar_iff {q : Char} (quote : q = '\'' ∨ q = '"') :
    (∀ (value : String) (rest : List Char),
      quotedStr q (q :: (quoteEscaped q value.toList ++ q :: rest)) = .ok rest value) ∧
    (∀ text, quotedStr q text ≠ .crash) ∧
    ∀ text, ReadsGrammar q text ↔ ¬ SignedEscape q text := by
  refine ⟨fun value rest => ?_, fun text crashed => ?_, fun text =>
    ⟨fun reads signed => ?_, reads_of_not_signed quote⟩⟩
  · have blank : Blank [] := fun _ inside => (List.not_mem_nil inside).elim
    have closed := quotedStr_closed quote blank (body_quoteEscaped quote value.toList).signed rest
    rwa [List.nil_append, String.ofList_toList] at closed
  · have ends := quotedStr_reads (q := q) text
    rw [crashed] at ends
    exact ends
  · exact signed.not_reads quote reads

theorem quotedStr_grammar_double :
    quotedStr '"' ('"' :: (quoteEscaped '"' "a\"b\\".toList ++ '"' :: " RETURN".toList)) =
      .ok " RETURN".toList "a\"b\\" :=
  (quotedStr_grammar_iff (.inr rfl)).1 "a\"b\\" " RETURN".toList

/-- `\u+041` has no four digits, and is read as a letter. -/
theorem quotedStr_takes_sign :
    BadEscape '"' "\"\\u+041\"".toList "u+041\"".toList ∧
      quotedStr '"' "\"\\u+041\"".toList = .ok [] "A" := by
  have blank : Blank [] := fun _ inside => (List.not_mem_nil inside).elim
  refine ⟨⟨[], [], [], blank, .nil, rfl, fun spelled c after same => ?_⟩, ?_⟩
  · have plus : "u+041\"".toList = 'u' :: '+' :: "041\"".toList := rfl
    exact Escape.not_plus (plus.symm.trans same)
  · have value : hexCode ['0', '4', '1'] = some 65 := by decide
    have sign : Body true '"' ('\\' :: ['u', '+', '0', '4', '1'] ++ []) ['A'] :=
      .escape (.plus rfl rfl value (by decide)) .nil
    have read := quotedStr_closed (.inr rfl) blank sign []
    have letter : String.ofList ['A'] = "A" := rfl
    rw [letter] at read
    have text : "\"\\u+041\"".toList = [] ++ '"' :: ('\\' :: ['u', '+', '0', '4', '1'] ++ [] ++
        '"' :: []) := rfl
    rw [text]
    exact read

end DrStrange.Parser
