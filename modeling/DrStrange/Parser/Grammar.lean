/-
**The expression grammar.**

A rule reads on at its own depth, and goes a level deeper for every parenthesis, sign, `NOT` and
operator of a chain. `level below` is the grammar over the one that is one level deeper, and where
there is none a descent is refused, so that the levels are the recursion of the whole grammar. On
every text it ends (`parseExpr_reads`), and an int that it reads as a literal has no sign.
-/

import DrStrange.Parser.Tokens

namespace DrStrange.Parser

open DrStrange.Graph DrStrange.Compute Lib Reader

/-! ### The rules -/

/-- The rules that are read a level deeper. -/
structure Levels where
  orExpr : TextReader PExpr
  orChain : PExpr → TextReader PExpr
  andExpr : TextReader PExpr
  andChain : PExpr → TextReader PExpr
  notExpr : TextReader PExpr
  multiplicative : TextReader PExpr
  addChain : PExpr → TextReader PExpr
  unary : TextReader PExpr
  mulChain : PExpr → TextReader PExpr

/-- A shape that is recognised and cannot run ends the reading. -/
def unsupported (message : String) : TextReader PExpr := Reader.failure (.fail message)

section

variable (unicode : Unicode) (floats : Floats)

/-! ### Terms -/

/-- `similarity(v.key, vector, metric)` after its parenthesis. -/
def vectorCall (make : String → String → VecArg → Metric → PExpr) : TextReader PExpr := do
  let (var, key) ← propRef unicode
  symbol ","
  let query ← vecArg floats
  let metric ← opt (do symbol ","; metricIdent unicode)
  symbol ")"
  return make var key query (metric.getD .cosine)

def funcCall (name : String) : TextReader PExpr := do
  symbol "("
  match toAsciiLowercase name with
  | "score" => do
    symbol ")"
    return .score
  | "hops" => do
    symbol ")"
    return .hops
  | "key" => do
    let var ← ident unicode
    symbol ")"
    return .externalKey var
  | "similarity" => vectorCall unicode floats .similarity
  | "distance" => vectorCall unicode floats .distance
  | _ => Reader.error .tag

/-- A function where a parenthesis follows the name, else a property or a label of a variable. -/
def funcOrVar : TextReader PExpr := do
  let name ← ident unicode
  let _ ← multispace0
  if (← peek) = some '(' then funcCall unicode floats name
  else do
    let sep ← oneOf ['.', ':']
    let member ← ident unicode
    return if sep = '.' then .prop name member else .hasLabel name member

def compositeLiteral : TextReader PExpr := do
  let _ ← multispace0
  let head ← peek
  if head = some '[' then
    unsupported ("a list literal is only supported on the right of IN (`x IN [1, 2]`), or " ++
      "as a vector in NEAR / similarity(); it isn't a value elsewhere")
  else if head = some '\x7b' then
    unsupported ("a map literal isn't a value in an expression; set properties one by one " ++
      "(`SET n.a = 1, n.b = 2` or `SET n += \x7ba: 1\x7d`)")
  else Reader.error .tag

variable (below : Option Levels)

/-- One level of nesting for what `go` reads. -/
def descend {α : Type} (go : Levels → TextReader α) : TextReader α :=
  below.elim (Reader.failure .tooLarge) go

/-- An expression, one level deeper. -/
def expr : TextReader PExpr := descend below Levels.orExpr

def parenExpr : TextReader PExpr := do
  symbol "("
  let e ← expr below
  symbol ")"
  return e

def primary : TextReader PExpr :=
  alt (parenExpr below) <| alt (PExpr.param <$> paramName unicode) <|
    alt (PExpr.lit <$> literal unicode floats) <| alt (funcOrVar unicode floats) compositeLiteral

/-! ### Operators, the tightest first -/

def unary : TextReader PExpr :=
  ifOk (symbol "-") (fun _ => descend below fun deeper => PExpr.neg <$> deeper.unary)
    (primary unicode floats below)

/-- `%` and `^`. -/
def otherMessage (op : Char) : String :=
  if op = '%' then "the `%` (modulo) operator isn't supported; the arithmetic is `+ - * /`"
  else "the `^` (power) operator isn't supported; the arithmetic is `+ - * /` " ++
    "— spell a small power out as a product (`x * x`)"

/-- A further operator costs a level, up to the end of its chain. -/
def mulChain (lhs : PExpr) : TextReader PExpr :=
  ifOk mulOp (fun op => descend below fun deeper => do
    deeper.mulChain (.arith op lhs (← deeper.unary)))
    (ifOk otherOp (fun op => unsupported (otherMessage op)) (pure lhs))

def multiplicative : TextReader PExpr := do mulChain below (← unary unicode floats below)

def addChain (lhs : PExpr) : TextReader PExpr :=
  ifOk addOp (fun op => descend below fun deeper => do
    deeper.addChain (.arith op lhs (← deeper.multiplicative)))
    (pure lhs)

def additive : TextReader PExpr := do addChain below (← multiplicative unicode floats below)

/-- `IS NULL` and `IS NOT NULL`, after `IS`. -/
def isNullTail (lhs : PExpr) : TextReader PExpr := do
  let negated ← opt (kw unicode "not")
  kw unicode "null"
  return if negated.isSome then .not (.isNull lhs) else .isNull lhs

/-- A list, or the value of a row, after `IN`. -/
def inTail (lhs : PExpr) : TextReader PExpr :=
  ifOk (symbol "[")
    (fun _ => do
      let list ← separatedList0 .separatedList (symbol ",") (expr below)
      symbol "]"
      return .in lhs list)
    (PExpr.inValue lhs <$> additive unicode floats below)

/-- A comparison, or what follows `IS` and `IN`. -/
def comparison : TextReader PExpr := do
  let lhs ← additive unicode floats below
  ifOk (kw unicode "is") (fun _ => isNullTail unicode lhs) <|
    ifOk (kw unicode "in") (fun _ => inTail unicode floats below lhs) <|
    ifOk (strOp unicode) (fun op => PExpr.stringMatch op lhs <$> additive unicode floats below) <|
    ifOk cmpOp (fun op => PExpr.compare op lhs <$> additive unicode floats below) (pure lhs)

def notExpr : TextReader PExpr :=
  ifOk (kw unicode "not") (fun _ => descend below fun deeper => PExpr.not <$> deeper.notExpr)
    (comparison unicode floats below)

def andChain (lhs : PExpr) : TextReader PExpr :=
  ifOk (kw unicode "and")
    (fun _ => descend below fun deeper => do
      deeper.andChain (.logic .and lhs (← deeper.notExpr))) (pure lhs)

def andExpr : TextReader PExpr := do andChain unicode below (← notExpr unicode floats below)

def orChain (lhs : PExpr) : TextReader PExpr :=
  ifOk (kw unicode "or")
    (fun _ => descend below fun deeper => do
      deeper.orChain (.logic .or lhs (← deeper.andExpr))) (pure lhs)

def orExpr : TextReader PExpr := do orChain unicode below (← andExpr unicode floats below)

/-! ### The levels -/

/-- The rules over those that are a level deeper. -/
def level : Levels where
  orExpr := orExpr unicode floats below
  orChain := orChain unicode below
  andExpr := andExpr unicode floats below
  andChain := andChain unicode below
  notExpr := notExpr unicode floats below
  multiplicative := multiplicative unicode floats below
  addChain := addChain below
  unary := unary unicode floats below
  mulChain := mulChain below

/-- The rules with so many descents left. -/
def levels : ℕ → Option Levels
  | 0 => none
  | depth + 1 => some (level unicode floats (levels depth))

def maxNesting : ℕ := 64

/-- The expression that a text starts with. -/
def parseExpr : TextReader PExpr := expr (levels unicode floats maxNesting)

end

/-! ### The terms of an expression -/

mutual

/-- The expressions without parts, in the order in which they are compiled, each with whether
nothing but a minus stands over it. -/
def terms (minus : Bool) : PExpr → List (Bool × PExpr)
  | .in lhs list => terms false lhs ++ termsAll list
  | .isNull inner | .not inner => terms false inner
  | .neg inner => terms true inner
  | .inValue lhs rhs | .stringMatch _ lhs rhs | .compare _ lhs rhs | .logic _ lhs rhs | .arith
    _ lhs rhs =>
    terms false lhs ++ terms false rhs
  | term => [(minus, term)]

def termsAll : List PExpr → List (Bool × PExpr)
  | [] => []
  | e :: rest => terms false e ++ termsAll rest

end

theorem map_terms {minus : Bool} {e : PExpr} :
    (terms minus e).map Prod.snd = (terms false e).map Prod.snd := by
  cases e <;> rfl

/-- The literals among terms are as the grammar reads them. -/
def SpelledAll (all : List (Bool × PExpr)) : Prop :=
  ∀ value, .lit value ∈ all.map Prod.snd → Spelled value

def SpelledIn (e : PExpr) : Prop := SpelledAll (terms false e)

section

variable {xs ys : List (Bool × PExpr)} {lhs e : PExpr} {list : List PExpr}

theorem spelledAll_append : SpelledAll (xs ++ ys) ↔ SpelledAll xs ∧ SpelledAll ys := by
  simp only [SpelledAll, List.map_append, List.mem_append]
  exact ⟨fun all => ⟨fun value left => all value (.inl left), fun value right =>
    all value (.inr right)⟩,
    fun ⟨left, right⟩ value member => member.elim (left value) (right value)⟩

theorem spelledIn_lit {value : PropValue} (spelled : Spelled value) : SpelledIn (.lit value) :=
  fun other member => by
  obtain rfl := PExpr.lit.inj (List.mem_singleton.mp member)
  exact spelled

theorem spelledAll_signed : SpelledAll (terms true e) ↔ SpelledIn e := by
  rw [SpelledIn, SpelledAll, map_terms, SpelledAll]

theorem spelledAll_termsAll : SpelledAll (termsAll list) ↔ ∀ e ∈ list, SpelledIn e := by
  induction list with
  | nil => simp [SpelledAll, termsAll]
  | cons e rest ih => rw [termsAll, spelledAll_append, ih, List.forall_mem_cons, SpelledIn]

theorem spelledIn_in : SpelledIn (.in lhs list) ↔ SpelledIn lhs ∧ ∀ e ∈ list, SpelledIn e := by
  rw [SpelledIn, terms, spelledAll_append, spelledAll_termsAll, SpelledIn]

end

/-! ### Every rule ends -/

section

variable {unicode : Unicode} {floats : Floats}

theorem vectorCall_reads {make : String → String → VecArg → Metric → PExpr}
    (bare : ∀ var key query metric, SpelledIn (make var key query metric)) :
    Reads (vectorCall unicode floats make) SpelledIn := by
  have metric : Reads (do symbol ","; metricIdent unicode) fun _ => True :=
    symbol_reads.bind fun _ _ => metricIdent_reads
  refine propRef_reads.bind fun _ _ => symbol_reads.bind fun _ _ => vecArg_reads.bind fun _ _ => ?_
  exact metric.opt.bind fun _ _ => symbol_reads.bind fun _ _ => .pure (bare _ _ _ _)

theorem funcCall_reads {name : String} : Reads (funcCall unicode floats name) SpelledIn := by
  refine symbol_reads.bind fun _ _ => ?_
  split
  · exact symbol_reads.bind fun _ _ => .pure (by simp [SpelledIn, SpelledAll, terms])
  · exact symbol_reads.bind fun _ _ => .pure (by simp [SpelledIn, SpelledAll, terms])
  · exact ident_reads.bind fun _ _ => symbol_reads.bind fun _ _ =>
      .pure (by simp [SpelledIn, SpelledAll, terms])
  · exact vectorCall_reads fun _ _ _ _ => by simp [SpelledIn, SpelledAll, terms]
  · exact vectorCall_reads fun _ _ _ _ => by simp [SpelledIn, SpelledAll, terms]
  · exact .error

theorem funcOrVar_reads : Reads (funcOrVar unicode floats) SpelledIn := by
  refine ident_reads.bind fun _ _ => multispace0_reads.bind fun _ _ => Reads.peek.bind fun _ _ => ?_
  split
  · exact funcCall_reads
  · refine oneOf_reads.bind fun _ _ => ident_reads.bind fun _ _ => .pure ?_
    split
    · simp [SpelledIn, SpelledAll, terms]
    · simp [SpelledIn, SpelledAll, terms]

theorem compositeLiteral_reads : Reads compositeLiteral SpelledIn := by
  refine multispace0_reads.bind fun _ _ => Reads.peek.bind fun head _ => ?_
  by_cases list : head = some '['
  · rw [if_pos list]
    exact .failure
  · rw [if_neg list]
    split
    · exact .failure
    · exact .error

/-- Every rule ends. -/
structure Levels.Read (rules : Levels) : Prop where
  orExpr : Reads rules.orExpr SpelledIn
  orChain : ∀ lhs, SpelledIn lhs → Reads (rules.orChain lhs) SpelledIn
  andExpr : Reads rules.andExpr SpelledIn
  andChain : ∀ lhs, SpelledIn lhs → Reads (rules.andChain lhs) SpelledIn
  notExpr : Reads rules.notExpr SpelledIn
  multiplicative : Reads rules.multiplicative SpelledIn
  addChain : ∀ lhs, SpelledIn lhs → Reads (rules.addChain lhs) SpelledIn
  unary : Reads rules.unary SpelledIn
  mulChain : ∀ lhs, SpelledIn lhs → Reads (rules.mulChain lhs) SpelledIn

variable {below : Option Levels} (deeper : ∀ rules ∈ below, rules.Read) {lhs : PExpr}
include deeper

theorem descend_reads {α : Type} {go : Levels → TextReader α} {post : α → Prop}
    (each : ∀ rules, rules.Read → Reads (go rules) post) : Reads (descend below go) post := by
  cases below with
  | none => exact .failure
  | some rules => exact each rules (deeper rules rfl)

/-- A chain goes on a level deeper, after a further operand. -/
theorem chain_reads {operand : Levels → TextReader PExpr}
    {chain : Levels → PExpr → TextReader PExpr} {join : PExpr → PExpr}
    (own : ∀ rules, rules.Read → Reads (operand rules) SpelledIn)
    (further : ∀ rules, rules.Read → ∀ lhs, SpelledIn lhs → Reads (chain rules lhs) SpelledIn)
    (joined : ∀ rhs, SpelledIn rhs → SpelledIn (join rhs)) :
    Reads (descend below fun rules => do chain rules (join (← operand rules))) SpelledIn :=
  descend_reads deeper fun rules read => (own rules read).bind fun rhs spelled =>
    further rules read (join rhs) (joined rhs spelled)

theorem expr_reads : Reads (expr below) SpelledIn := descend_reads deeper fun _ read => read.orExpr

theorem primary_reads : Reads (primary unicode floats below) SpelledIn := by
  refine .alt ?_ <| .alt ?_ <| .alt ?_ <| .alt funcOrVar_reads compositeLiteral_reads
  · refine symbol_reads.bind fun _ _ => (expr_reads deeper).bind fun _ spelled => ?_
    exact symbol_reads.bind fun _ _ => .pure spelled
  · exact paramName_reads.map fun _ _ => by simp [SpelledIn, SpelledAll, terms]
  · exact literal_reads.map fun _ => spelledIn_lit

theorem unary_reads : Reads (unary unicode floats below) SpelledIn := by
  refine symbol_reads.ifOk (fun _ _ => ?_) (primary_reads deeper)
  exact descend_reads deeper fun _ read => read.unary.map fun _ => spelledAll_signed.mpr

theorem mulChain_reads (left : SpelledIn lhs) : Reads (mulChain below lhs) SpelledIn := by
  refine mulOp_reads.ifOk (fun op _ => ?_) (otherOp_reads.ifOk (fun _ _ => .failure) (.pure left))
  exact chain_reads deeper (fun _ read => read.unary) (fun _ read => read.mulChain) fun _ right =>
    spelledAll_append.mpr ⟨left, right⟩

theorem multiplicative_reads : Reads (multiplicative unicode floats below) SpelledIn :=
  (unary_reads deeper).bind fun _ => mulChain_reads deeper

theorem addChain_reads (left : SpelledIn lhs) : Reads (addChain below lhs) SpelledIn := by
  refine addOp_reads.ifOk (fun op _ => ?_) (.pure left)
  exact chain_reads deeper (fun _ read => read.multiplicative) (fun _ read => read.addChain)
    fun _ right =>
    spelledAll_append.mpr ⟨left, right⟩

theorem additive_reads : Reads (additive unicode floats below) SpelledIn :=
  (multiplicative_reads deeper).bind fun _ => addChain_reads deeper

omit deeper in
theorem isNullTail_reads (left : SpelledIn lhs) : Reads (isNullTail unicode lhs) SpelledIn := by
  refine (kw_reads (by simp [Lower])).opt.bind fun _ _ =>
    (kw_reads (by simp [Lower])).bind fun _ _ => .pure ?_
  split
  · exact left
  · exact left

theorem inTail_reads (left : SpelledIn lhs) :
    Reads (inTail unicode floats below lhs) SpelledIn := by
  refine symbol_reads.ifOk (fun _ _ => ?_) ((additive_reads deeper).map fun _ right =>
    spelledAll_append.mpr ⟨left, right⟩)
  refine (Reads.separatedList0 symbol_reads (expr_reads deeper)).bind fun _ each => ?_
  exact symbol_reads.bind fun _ _ => .pure (spelledIn_in.mpr ⟨left, each⟩)

theorem comparison_reads : Reads (comparison unicode floats below) SpelledIn := by
  refine (additive_reads deeper).bind fun lhs left => ?_
  refine (kw_reads (by simp [Lower])).ifOk (fun _ _ => isNullTail_reads left) ?_
  refine (kw_reads (by simp [Lower])).ifOk (fun _ _ => inTail_reads deeper left) ?_
  refine strOp_reads.ifOk (fun _ _ => (additive_reads deeper).map fun _ right =>
    spelledAll_append.mpr ⟨left, right⟩) ?_
  exact cmpOp_reads.ifOk (fun _ _ => (additive_reads deeper).map fun _ right =>
    spelledAll_append.mpr ⟨left, right⟩) (.pure left)

theorem notExpr_reads : Reads (notExpr unicode floats below) SpelledIn := by
  refine (kw_reads (by simp [Lower])).ifOk (fun _ _ => ?_) (comparison_reads deeper)
  exact descend_reads deeper fun _ read => read.notExpr.map fun _ spelled => spelled

theorem andChain_reads (left : SpelledIn lhs) : Reads (andChain unicode below lhs) SpelledIn := by
  refine (kw_reads (by simp [Lower])).ifOk (fun _ _ => ?_) (.pure left)
  exact chain_reads deeper (fun _ read => read.notExpr) (fun _ read => read.andChain) fun _ right =>
    spelledAll_append.mpr ⟨left, right⟩

theorem andExpr_reads : Reads (andExpr unicode floats below) SpelledIn :=
  (notExpr_reads deeper).bind fun _ => andChain_reads deeper

theorem orChain_reads (left : SpelledIn lhs) : Reads (orChain unicode below lhs) SpelledIn := by
  refine (kw_reads (by simp [Lower])).ifOk (fun _ _ => ?_) (.pure left)
  exact chain_reads deeper (fun _ read => read.andExpr) (fun _ read => read.orChain) fun _ right =>
    spelledAll_append.mpr ⟨left, right⟩

theorem orExpr_reads : Reads (orExpr unicode floats below) SpelledIn :=
  (andExpr_reads deeper).bind fun _ => orChain_reads deeper

/-- One level: the rules end if those that they descend to do. -/
theorem level_read : (level unicode floats below).Read where
  orExpr := orExpr_reads deeper
  orChain _ := orChain_reads deeper
  andExpr := andExpr_reads deeper
  andChain _ := andChain_reads deeper
  notExpr := notExpr_reads deeper
  multiplicative := multiplicative_reads deeper
  addChain _ := addChain_reads deeper
  unary := unary_reads deeper
  mulChain _ := mulChain_reads deeper

omit deeper

/-- However many descents are left. -/
theorem levels_read {depth : ℕ} : ∀ rules ∈ levels unicode floats depth, rules.Read := by
  induction depth with
  | zero => exact nofun
  | succ depth ih =>
    rintro _ ⟨⟩
    exact level_read ih

/-- **An expression is read to an end on every text.** -/
theorem parseExpr_reads : Reads (parseExpr unicode floats) SpelledIn := expr_reads levels_read

end

end DrStrange.Parser
