/-
**The tokens of the query language.**

White space is skipped before every token. Keywords and the names of functions are read whatever their
case, numbers have no sign, and a text is quoted either way, its escapes resolved.
-/

import DrStrange.Lib.Reader
import DrStrange.Parser.Ast

namespace DrStrange.Parser

open DrStrange.Graph DrStrange.Compute Lib

/-! ### What the standard library says of characters and of floats -/

/-- The tables of Unicode. -/
structure Unicode extends Lib.Unicode where
  alphabetic : Char → Bool
  /-- Only letters of ASCII have the lower case of one, but for the sign of the kelvin. -/
  narrow : ∀ c d : Char, d.isLower → d ≠ 'k' → lower c = lower d → Ascii c

/-- The tables as they are for texts of ASCII. -/
def asciiUnicode : Unicode where
  toUnicode := .ascii
  alphabetic := Char.isAlpha
  narrow c d lower _ same := by
    have letter : c.isAlpha := by
      have alpha := Char.isLower_toLower_eq_isAlpha c
      rw [List.singleton_inj.mp same, Char.isLower_toLower_eq_isAlpha, Char.isAlpha, lower,
        Bool.or_true] at alpha
      exact alpha.symm
    rw [Char.isAlpha, Bool.or_eq_true] at letter
    simp only [Char.isUpper, Char.isLower, Bool.and_eq_true, decide_eq_true_eq] at letter
    exact letter.elim (fun upper => UInt32.lt_of_le_of_lt upper.2 (by decide))
      fun small => UInt32.lt_of_le_of_lt small.2 (by decide)

/-- How floats are read and converted. -/
structure Floats where
  parse : List Char → Option UInt64
  toF32 : UInt64 → UInt32
  intToF32 : ℤ → UInt32

/-- For texts without a float. -/
def noFloats : Floats := ⟨fun _ => none, fun _ => 0, fun _ => 0⟩

/-- What a parser refuses a text for. -/
inductive ErrorKind where
  | tag
  | char
  | oneOf
  | satisfy
  | digit
  | verify
  | not
  | separatedList
  | tooLarge
  | escaped
  /-- Unsupported, with the rewrite that works. -/
  | fail (message : String)

abbrev TextReader := Reader ErrorKind

open Reader

/-! ### Symbols and words -/

def multispace0 : TextReader (List Char) :=
  takeWhile fun c => c = ' ' || c = '\t' || c = '\r' || c = '\n'

def char (c : Char) : TextReader Char := Reader.satisfy .char (· = c)

def oneOf (chars : List Char) : TextReader Char := Reader.satisfy .oneOf chars.contains

def digit1 : TextReader (List Char) := takeWhile1 .digit Char.isDigit

def symbol (word : String) : TextReader Unit := do
  let _ ← multispace0
  let _ ← Reader.tag .tag word.toList
  return ()

section

variable (unicode : Unicode)

/-- The text starts with the word but for the case of letters. -/
def startsNoCase (word text : List Char) : Bool :=
  (text.zip word).all (fun (a, b) => unicode.lower a = unicode.lower b) &&
    (bytes word).length ≤ (bytes text).length

def tagNoCase (word : String) : TextReader (List Char) :=
  tagBy .tag (startsNoCase unicode) word.toList

def isIdentStart (c : Char) : Bool := unicode.alphabetic c || c = '_'

def isIdentChar (c : Char) : Bool := unicode.alphanumeric c || c = '_'

/-- A keyword, which no further letter follows. -/
def kw (word : String) : TextReader Unit := do
  let _ ← multispace0
  let _ ← tagNoCase unicode word
  Reader.not .not (Reader.satisfy .satisfy (isIdentChar unicode))

def backtick : Char := Char.ofNat 96

/-- A word, or anything at all between backticks. -/
def ident : TextReader String := do
  let _ ← multispace0
  alt
    (String.ofList <$> recognize (do
      let _ ← Reader.satisfy .satisfy (isIdentStart unicode)
      takeWhile (isIdentChar unicode)))
    (do
      let _ ← char backtick
      let name ← verify .verify (fun name => !name.isEmpty) (takeWhile (· ≠ backtick))
      let _ ← char backtick
      return String.ofList name)

def paramName : TextReader String := do
  symbol "$"
  ident unicode

/-! ### Operators -/

def addOp : TextReader ArithOp := do
  let _ ← multispace0
  let op ← oneOf ['+', '-']
  return if op = '+' then .add else .sub

def mulOp : TextReader ArithOp := do
  let _ ← multispace0
  let op ← oneOf ['*', '/']
  return if op = '*' then .mul else .div

def otherOp : TextReader Char := do
  let _ ← multispace0
  oneOf ['%', '^']

def opTag (word : String) (op : CmpOp) : TextReader CmpOp := do
  let _ ← Reader.tag .tag word.toList
  return op

/-- The longest operator first. -/
def cmpOp : TextReader CmpOp := do
  let _ ← multispace0
  alt (opTag "<=" .le) <| alt (opTag ">=" .ge) <| alt (opTag "<>" .ne) <| alt (opTag "!=" .ne) <|
    alt (opTag "=" .eq) <| alt (opTag "<" .lt) (opTag ">" .gt)

def strOp : TextReader StrOp :=
  alt (do kw unicode "contains"; return .contains) <|
    alt (do kw unicode "starts"; kw unicode "with"; return .startsWith)
      (do kw unicode "ends"; kw unicode "with"; return .endsWith)

/-! ### Numbers -/

/-- Digits as an `i64`, if they fit. -/
def parseI64 (digits : List Char) : Option ℤ :=
  let value := Nat.ofDigitChars 10 digits 0
  if value < 2 ^ 63 then some value else none

variable (floats : Floats)

/-- A run of digits is an int, and a float where it has a fraction or an exponent. -/
def parseNumber (text : List Char) : Option PropValue :=
  if text.all Char.isDigit then (parseI64 text).map .int else (floats.parse text).map .float

/-- A number without a sign; one that its type has no room for is refused. -/
def number : TextReader PropValue := do
  let _ ← multispace0
  mapOpt .digit (parseNumber floats) <| recognize (do
    let _ ← digit1
    let _ ← opt (do let _ ← char '.'; digit1)
    opt (do let _ ← oneOf ['e', 'E']; let _ ← opt (oneOf ['+', '-']); digit1))

/-- An entry of a vector. -/
def f32Num : TextReader UInt32 := do
  let neg ← opt (symbol "-")
  let entry := match ← number floats with
    | .float bits => floats.toF32 bits
    | .int value => floats.intToF32 value
    | _ => 0
  return if neg.isSome then entry ^^^ 0x80000000 else entry

/-! ### Texts -/

def hexValue (c : Char) : Option ℕ :=
  if c.isDigit then some (c.toNat - 48)
  else if 'a' ≤ c ∧ c ≤ 'f' then some (c.toNat - 87)
  else if 'A' ≤ c ∧ c ≤ 'F' then some (c.toNat - 55)
  else none

/-- Hexadecimal digits as a `u32`; a plus may stand before them. -/
def fromStrRadix16 (text : List Char) : Option ℕ :=
  let digits := if text.head? = some '+' then text.tail else text
  if digits = [] then none
  else digits.foldlM (fun value c => (hexValue c).bind fun digit =>
    Option.guard (· < 2 ^ 32) (16 * value + digit)) 0

def fromU32 (code : ℕ) : Option Char := if code.isValidChar then some (Char.ofNat code) else none

/-- `\uXXXX`; a refusal names the text `i` of the whole escape. -/
def unicodeEscape (i : List Char) : TextReader Char := fun rest =>
  match ((cutAt 4 rest).bind fun cut => fromStrRadix16 cut.1).bind fromU32 with
  | none => .failure i .escaped
  | some c => (do let _ ← split 4; return c : TextReader Char) rest

/-- The characters of which an escape is one letter. -/
def escaped : Char → Option Char
  | '\\' => some '\\'
  | '\'' => some '\''
  | '"' => some '"'
  | 'n' => some '\n'
  | 't' => some '\t'
  | 'r' => some '\r'
  | 'b' => some '\x08'
  | 'f' => some '\x0c'
  | _ => none

/-- The escape `i` with the letter `c`. -/
def escapeOf (i : List Char) (c : Char) : TextReader Char :=
  if c = 'u' then unicodeEscape i else (escaped c).elim (fun _ => .failure i .escaped) pure

/-- What stands after a backslash. -/
def escape : TextReader Char := fun i =>
  match i.head? with
  | none => .failure i .escaped
  | some c => (do let _ ← split c.utf8Size; escapeOf i c : TextReader Char) i

/-- The plain run up to the next quote or backslash, sliced off. -/
def plainRun (q : Char) : TextReader (List Char) := fun i =>
  split (bytes (i.takeWhile fun c => c ≠ q && c ≠ '\\')).length i

/-- The quote ends the text; from an escape it goes on. -/
def stopAt (q : Char) (again : List Char → TextReader (List Char)) (out : List Char) :
    Option Char → TextReader (List Char)
  | none => Reader.error .char
  | some c =>
    if c = q then do
      let _ ← split c.utf8Size
      return out
    else do
      let _ ← split 1
      let c ← escape
      again (out ++ [c])

/-- Runs and the escapes between them, up to the quote that ends the text. -/
def quotedRounds (q : Char) : ℕ → List Char → TextReader (List Char)
  | 0, _ => crash
  | rounds + 1, out => do
    let plain ← plainRun q
    stopAt q (quotedRounds q rounds) (out ++ plain) (← peek)

/-- A string up to its closing quote. -/
def quotedStr (q : Char) : TextReader String := do
  let _ ← multispace0
  let _ ← char q
  String.ofList <$> (fun i => quotedRounds q (i.length + 1) [] i)

/-! ### Literals -/

def quoted (q : Char) : TextReader PropValue := PropValue.str <$> quotedStr q

/-- A word that spells a value. -/
def kwValue (word : String) (value : PropValue) : TextReader PropValue := do
  kw unicode word
  return value

/-- A literal, in either kind of quotes. -/
def literal : TextReader PropValue :=
  alt (number floats) <| alt (quoted '\'') <| alt (quoted '"') <|
    alt (kwValue unicode "true" (.bool true)) <|
    alt (kwValue unicode "false" (.bool false)) (kwValue unicode "null" .null)

/-! ### Vectors and metrics -/

def vectorLiteral : TextReader (List UInt32) := do
  symbol "["
  let entries ← separatedList0 .separatedList (symbol ",") (f32Num floats)
  symbol "]"
  return entries

/-- A vector, or the text that is embedded for it. -/
def vecArg : TextReader VecArg :=
  alt (VecArg.text <$> quotedStr '\'') <|
    alt (VecArg.text <$> quotedStr '"') (VecArg.vector <$> vectorLiteral floats)

def toAsciiLowercase (name : String) : String := String.ofList (name.toList.map Char.toLower)

def metricNamed (name : String) : Option Metric :=
  match toAsciiLowercase name with
  | "cosine" => some .cosine
  | "dot" => some .dot
  | "l2" => some .l2
  | _ => none

def metricIdent : TextReader Metric := mapOpt .tag metricNamed (ident unicode)

/-- `v.key`. -/
def propRef : TextReader (String × String) := do
  let var ← ident unicode
  let _ ← multispace0
  let _ ← char '.'
  let key ← ident unicode
  return (var, key)

end

/-! ### Every token is read to an end -/

theorem multispace0_reads : Reads multispace0 fun _ => True := Reads.takeWhile.mono fun _ _ => trivial

theorem char_reads {c : Char} : Reads (char c) fun read => read = c :=
  Reads.satisfy.mono fun _ same => of_decide_eq_true same

theorem oneOf_reads {chars : List Char} : Reads (oneOf chars) fun _ => True :=
  Reads.satisfy.mono fun _ _ => trivial

theorem digit1_reads : Reads digit1 fun _ => True := Reads.takeWhile1.mono fun _ _ => trivial

theorem symbol_reads {word : String} : Reads (symbol word) fun _ => True :=
  multispace0_reads.bind fun _ _ => Reads.tag.bind fun _ _ => .pure trivial

variable {c : Char}

theorem ascii_of_isLower (lower : c.isLower) : Ascii c := by
  rw [Char.isLower, Bool.and_eq_true, decide_eq_true_eq, decide_eq_true_eq] at lower
  exact UInt32.lt_of_le_of_lt lower.2 (by decide)

section

variable {unicode : Unicode} {word : String} {text : List Char}

/-- The letters of keywords: only characters of one byte are taken for them. -/
def Lower (word : List Char) : Prop := ∀ d ∈ word, d.isLower ∧ d ≠ 'k'

instance {word : List Char} : Decidable (Lower word) := inferInstanceAs (Decidable (∀ d ∈ word, _))

/-- What a keyword is taken for has its length, so that the slice ends at a character. -/
theorem startsNoCase_cuts {word : List Char} (plain : Lower word)
    (starts : startsNoCase unicode word text) :
    ∃ before after, text = before ++ after ∧ (bytes before).length = (bytes word).length := by
  induction word generalizing text with
  | nil => exact ⟨[], text, rfl, rfl⟩
  | cons d word ih =>
    obtain ⟨⟨lower, other⟩, plain⟩ := List.forall_mem_cons.mp plain
    have small := @length_bytes_char word d (ascii_of_isLower lower)
    rw [startsNoCase, Bool.and_eq_true, decide_eq_true_eq] at starts
    cases text with
    | nil =>
      rw [small] at starts
      exact absurd starts.2 (Nat.not_succ_le_zero _)
    | cons c text =>
      obtain ⟨same, enough⟩ := starts
      rw [List.zip_cons_cons, List.all_cons, Bool.and_eq_true, decide_eq_true_eq] at same
      have ascii := unicode.narrow c d lower other same.1
      rw [small, length_bytes_char ascii] at enough
      obtain ⟨before, after, rfl, length⟩ := @ih text plain (by
        rw [startsNoCase, same.2, Bool.true_and]
        exact decide_eq_true (Nat.le_of_succ_le_succ enough))
      exact ⟨c :: before, after, rfl, by rw [small, length_bytes_char ascii, length]⟩

theorem kw_reads (plain : Lower word.toList) : Reads (kw unicode word) fun _ => True :=
  multispace0_reads.bind fun _ _ => (Reads.tagBy fun _ => startsNoCase_cuts plain).bind fun _ _ =>
    Reads.satisfy.not

theorem ident_reads : Reads (ident unicode) fun _ => True := by
  refine multispace0_reads.bind fun _ _ => .alt ?_ ?_
  · have word : Reads (do
        let _ ← Reader.satisfy ErrorKind.satisfy (isIdentStart unicode)
        Reader.takeWhile (isIdentChar unicode)) fun _ => True :=
      Reads.satisfy.bind fun _ _ => Reads.takeWhile.mono fun _ _ => trivial
    exact word.recognize.map fun _ _ => trivial
  · refine char_reads.bind fun _ _ => (Reads.verify .takeWhile).bind fun _ _ => ?_
    exact char_reads.bind fun _ _ => .pure trivial

theorem paramName_reads : Reads (paramName unicode) fun _ => True :=
  symbol_reads.bind fun _ _ => ident_reads

theorem addOp_reads : Reads addOp fun _ => True :=
  multispace0_reads.bind fun _ _ => oneOf_reads.bind fun _ _ => .pure trivial

theorem mulOp_reads : Reads mulOp fun _ => True :=
  multispace0_reads.bind fun _ _ => oneOf_reads.bind fun _ _ => .pure trivial

theorem otherOp_reads : Reads otherOp fun _ => True := multispace0_reads.bind fun _ _ => oneOf_reads

theorem opTag_reads {op : CmpOp} : Reads (opTag word op) fun _ => True :=
  Reads.tag.bind fun _ _ => .pure trivial

theorem cmpOp_reads : Reads cmpOp fun _ => True := by
  refine multispace0_reads.bind fun _ _ => .alt opTag_reads <| .alt opTag_reads <| .alt opTag_reads ?_
  exact .alt opTag_reads <| .alt opTag_reads <| .alt opTag_reads opTag_reads

theorem strOp_reads : Reads (strOp unicode) fun _ => True := by
  refine .alt ?_ (.alt ?_ ?_)
  · exact (kw_reads (by simp [Lower])).bind fun _ _ => .pure trivial
  · exact (kw_reads (by simp [Lower])).bind fun _ _ => (kw_reads (by simp [Lower])).bind fun _ _ =>
      .pure trivial
  · exact (kw_reads (by simp [Lower])).bind fun _ _ => (kw_reads (by simp [Lower])).bind fun _ _ =>
      .pure trivial

/-! ### Numbers are in range -/

variable {floats : Floats} {q : Char} {value : PropValue} {i : List Char}

/-- An int as digits alone spell it. -/
def Spelled : PropValue → Prop
  | .int value => 0 ≤ value ∧ value < 2 ^ 63
  | _ => True

theorem spelled_of_parseNumber (parsed : parseNumber floats text = some value) : Spelled value := by
  rw [parseNumber] at parsed
  split at parsed
  · obtain ⟨n, read, rfl⟩ := Option.map_eq_some_iff.mp parsed
    rw [parseI64] at read
    split at read
    · rename_i small
      obtain rfl := Option.some.inj read
      exact ⟨Int.natCast_nonneg _, by exact_mod_cast small⟩
    · cases read
  · obtain ⟨bits, -, rfl⟩ := Option.map_eq_some_iff.mp parsed
    trivial

theorem number_reads : Reads (number floats) Spelled := by
  have fraction := (@char_reads '.').bind fun _ _ => digit1_reads
  have exponent := (@oneOf_reads ['e', 'E']).bind fun _ _ =>
    (@oneOf_reads ['+', '-']).opt.bind fun _ _ => digit1_reads
  have shape := digit1_reads.bind fun _ _ => fraction.opt.bind fun _ _ => exponent.opt
  refine multispace0_reads.bind fun _ _ => ?_
  exact shape.recognize.mapOpt.mono fun _ ⟨_, _, parsed⟩ => spelled_of_parseNumber parsed

theorem f32Num_reads : Reads (f32Num floats) fun _ => True :=
  symbol_reads.opt.bind fun _ _ => number_reads.bind fun _ _ => .pure trivial

/-! ### Texts are sliced at characters -/

theorem split_char {c : Char} {text : List Char} :
    (split c.utf8Size : TextReader (List Char)) (c :: text) = .ok text [c] := by
  have cut := @split_append ErrorKind text [c]
  rwa [length_bytes_cons, bytes_nil, List.length_nil, Nat.add_zero] at cut

theorem unicodeEscape_reads : Reads (unicodeEscape i) fun _ => True := fun rest => by
  rw [unicodeEscape]
  cases spelled : ((cutAt 4 rest).bind fun cut => fromStrRadix16 cut.1).bind fromU32 with
  | none => trivial
  | some c =>
    obtain ⟨code, digits, -⟩ := Option.bind_eq_some_iff.mp spelled
    obtain ⟨⟨hex, after⟩, cut, -⟩ := Option.bind_eq_some_iff.mp digits
    obtain ⟨rfl, length⟩ := cutAt_eq_some.mp cut
    change (Reader.andThen (split 4) _ _).Ends _ _
    rw [Reader.andThen, ← length, split_append]
    exact ⟨List.suffix_append hex after, trivial⟩

theorem escapeOf_reads : Reads (escapeOf i c) fun _ => True := by
  unfold escapeOf
  split
  · exact unicodeEscape_reads
  · cases escaped c with
    | none => exact fun _ => trivial
    | some out => exact .pure trivial

theorem escape_reads : Reads escape fun _ => True := fun i => by
  cases i with
  | nil => trivial
  | cons c rest =>
    have sliced : escape (c :: rest) = escapeOf (c :: rest) c rest := bind_ok split_char
    rw [sliced]
    exact (escapeOf_reads rest).later (List.suffix_cons c rest)

theorem plainRun_ok :
    plainRun q text = .ok (text.dropWhile fun c => c ≠ q && c ≠ '\\')
      (text.takeWhile fun c => c ≠ q && c ≠ '\\') := by
  have split := @split_append ErrorKind (text.dropWhile fun c => c ≠ q && c ≠ '\\') (text.takeWhile
    fun c => c ≠ q && c ≠ '\\')
  rwa [List.takeWhile_append_dropWhile] at split

/-- After a run comes the quote or a backslash, and with each escape the text gets shorter. -/
theorem quotedRounds_reads {rounds : ℕ} {out : List Char} (enough : text.length < rounds) :
    (quotedRounds q rounds out text).Ends text fun _ => True := by
  induction rounds generalizing out text with
  | zero => exact absurd enough (Nat.not_lt_zero _)
  | succ rounds ih =>
    have after := @List.dropWhile_suffix Char text fun c => c ≠ q && c ≠ '\\'
    rw [quotedRounds, bind_ok plainRun_ok]
    cases left : text.dropWhile fun c => c ≠ q && c ≠ '\\' with
    | nil => trivial
    | cons c rest =>
      rw [left] at after
      refine Reading.Ends.later after ?_
      have stops : c = q ∨ c = '\\' := by
        have head := List.head?_dropWhile_not (fun c => c ≠ q && c ≠ '\\') text
        rw [left] at head
        simpa [or_iff_not_imp_left] using head
      have next : (peek : TextReader (Option Char)) (c :: rest) = .ok (c :: rest) (some c) := rfl
      rw [bind_ok next, stopAt]
      split
      · rw [bind_ok split_char]
        exact ⟨List.suffix_cons c rest, trivial⟩
      · rename_i other
        obtain rfl := stops.resolve_left other
        have shorter := after.length_le
        rw [List.length_cons] at shorter
        have one : (split 1 : TextReader (List Char)) ('\\' :: rest) = .ok rest ['\\'] :=
          @split_char '\\' rest
        rw [bind_ok one]
        refine Reading.Ends.later (List.suffix_cons _ rest) ?_
        refine (escape_reads rest).fold (fun rest' escaped after' _ => ?_) fun _ _ => trivial
        have shorter' := after'.length_le
        exact (ih (by omega)).later after'

theorem quotedStr_reads : Reads (quotedStr q) fun _ => True :=
  multispace0_reads.bind fun _ _ => char_reads.bind fun _ _ => by
    have rounds : Reads (fun i => quotedRounds q (i.length + 1) [] i) fun _ => True := fun i =>
      quotedRounds_reads (Nat.lt_succ_self _)
    exact rounds.map fun _ _ => trivial

/-! ### Literals and vectors -/

theorem quoted_reads : Reads (quoted q) Spelled := quotedStr_reads.map fun _ _ => trivial

theorem kwValue_reads (plain : Lower word.toList) (spelled : Spelled value) :
    Reads (kwValue unicode word value) Spelled := (kw_reads plain).bind fun _ _ => .pure spelled

theorem literal_reads : Reads (literal unicode floats) Spelled := by
  refine .alt number_reads <| .alt quoted_reads <| .alt quoted_reads <| .alt ?_ <| .alt ?_ ?_
  · exact kwValue_reads (by simp [Lower]) trivial
  · exact kwValue_reads (by simp [Lower]) trivial
  · exact kwValue_reads (by simp [Lower]) trivial

theorem vectorLiteral_reads : Reads (vectorLiteral floats) fun _ => True :=
  symbol_reads.bind fun _ _ => (Reads.separatedList0 symbol_reads f32Num_reads).bind fun _ _ =>
    symbol_reads.bind fun _ _ => .pure trivial

theorem vecArg_reads : Reads (vecArg floats) fun _ => True := by
  refine .alt ?_ (.alt ?_ ?_)
  · exact quotedStr_reads.map fun _ _ => trivial
  · exact quotedStr_reads.map fun _ _ => trivial
  · exact vectorLiteral_reads.map fun _ _ => trivial

theorem metricIdent_reads : Reads (metricIdent unicode) fun _ => True :=
  ident_reads.mapOpt.mono fun _ _ => trivial

theorem propRef_reads : Reads (propRef unicode) fun _ => True :=
  ident_reads.bind fun _ _ => multispace0_reads.bind fun _ _ => char_reads.bind fun _ _ =>
    ident_reads.bind fun _ _ => .pure trivial

end

end DrStrange.Parser
