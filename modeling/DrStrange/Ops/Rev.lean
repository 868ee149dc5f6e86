/-
**Git revisions, resolved over a history plane.**

A revision is a name of a commit or a step from one: it is parsed into an expression, and a walker
evaluates the expression over the nodes of the plane. What an expression names is said by a relation
of its own, one rule for each form (`Names`), and the walker answers just that (`eval_one`,
`eval_many`).
-/

import DrStrange.Compute.Row
import DrStrange.Lib.Fallible
import DrStrange.Lib.Pieces
import DrStrange.Ops.Time

namespace DrStrange.Ops

open DrStrange.Graph DrStrange.Compute DrStrange.Lib

/-! ### The properties of a record -/

/-- A text that is not empty. -/
def propStr (props : Properties) (key : String) : Option String :=
  match (props[key]?).map PropDesc.value with
  | some (.str s) => if s = "" then none else some s
  | _ => none

def propInt (props : Properties) (key : String) : Option ℤ :=
  match (props[key]?).map PropDesc.value with
  | some (.int i) => some i
  | _ => none

def propBool (props : Properties) (key : String) : Bool :=
  match (props[key]?).map PropDesc.value with
  | some (.bool b) => b
  | _ => false

/-- The date of a timestamp. -/
def day (props : Properties) (key : String) : String :=
  String.ofList (((propStr props key).getD "").toList.take 10)

/-! ### Expressions -/

/-- The fewest digits that abbreviate a name. -/
def minPrefix : ℕ := 4

/-- The most commits that a walk visits. -/
def walkCap : ℕ := 100000

def forms : String :=
  "a revision is a sha (4+ hex digits), a branch, a tag, HEAD, a date (YYYY-MM-DD or RFC-3339) or " ++
    "`<rev>@\x7b<date>\x7d`, each optionally followed by `~n` / `^n`"

def lowerHex (c : Char) : Bool := c.isDigit || ('a' ≤ c && c ≤ 'f')

def hexDigit (c : Char) : Bool := lowerHex c || ('A' ≤ c && c ≤ 'F')

/-- A full object name: 40 or 64 lower-case hex digits. -/
def isSha (s : String) : Bool := (s.length = 40 || s.length = 64) && s.toList.all lowerHex

/-- `~n` or `^n`. -/
inductive Step where
  | back (n : ℕ)
  | parent (n : ℕ)
  deriving DecidableEq, Repr

/-- A parsed revision. -/
inductive RevExpr where
  | head
  | name (name : String)
  | atDate (start : RevExpr) (instant : ℤ)
  | ancestor (start : RevExpr) (step : Step)
  deriving DecidableEq, Repr

/-- The end of a day, or an instant. Reading either does not panic. -/
def instant (s : List Char) : Option ℤ :=
  (dateEndOfDay s).run.toOption.join.or (rfc3339ToEpochMs s).run.toOption.join

def isStep (c : Char) : Bool := c = '~' || c = '^'

/-- The revision and the date of `<rev>@{<date>}`. -/
def dated (base : List Char) : Option (List Char × List Char) :=
  if base.getLast? = some '}' then splitOnce ['@', '{'] base.dropLast else none

theorem dated_lt {base name date : List Char} (found : dated base = some (name, date)) :
    name.length < base.length := by
  unfold dated splitOnce at found
  split_ifs at found with closed
  obtain ⟨i, first, same⟩ := Option.map_eq_some_iff.mp found
  obtain ⟨rfl, -⟩ := Prod.mk.inj same
  obtain ⟨-, inside⟩ := find_some first
  have given : base ≠ [] := by rintro rfl; cases closed
  have shorter := List.length_pos_of_ne_nil given
  rw [List.length_dropLast] at inside
  rw [List.length_take, List.length_dropLast]
  omega

/-- The part of a revision before its steps. -/
def parseBase (base : List Char) : Except String RevExpr :=
  if base = [] then .error s!"an empty revision — {forms}"
  else match _ : dated base with
    | some (name, date) => do
      let some instant := instant date
        | .error s!"`{String.ofList date}` is not a date (YYYY-MM-DD or RFC-3339)"
      let start ← if name = [] then pure .head else parseBase name
      return .atDate start instant
    | none =>
      if base = "HEAD".toList ∨ base = "@".toList then .ok .head
      else match instant base with
        | some instant => .ok (.atDate .head instant)
        | none => .ok (.name (String.ofList base))
termination_by base.length
decreasing_by exact dated_lt ‹_›

/-- The number of a step, of 32 bits; one if there are no digits. -/
def stepCount (digits : List Char) : Except String ℕ :=
  if digits = [] then .ok 1
  else if Nat.ofDigitChars 10 digits 0 < 2 ^ 32 then .ok (Nat.ofDigitChars 10 digits 0)
  else .error s!"`{String.ofList digits}` is too large a step"

/-- The steps behind a revision. -/
def parseSteps (expr : RevExpr) : List Char → Except String RevExpr
  | [] => .ok expr
  | op :: rest => do
    let n ← stepCount (rest.takeWhile Char.isDigit)
    let expr := RevExpr.ancestor expr (if op = '~' then .back n else .parent n)
    let left := rest.dropWhile Char.isDigit
    if left.head?.all isStep then parseSteps expr left
    else .error s!"`{String.ofList left}` after a step is not `~n` or `^n` — {forms}"
termination_by rest => rest.length
decreasing_by exact Nat.lt_succ_of_le (List.dropWhile_suffix Char.isDigit).length_le

def parseRev (s : String) : Except String RevExpr := do
  let s := trim s.toList
  let expr ← parseBase (s.takeWhile (!isStep ·))
  parseSteps expr (s.dropWhile (!isStep ·))

/-! ### The walker -/

/-- A read that failed, or a slice inside of a character. -/
inductive Fault where
  | read (error : Error)
  | panic

def reading {α : Type} : Except Error α → Except Fault α
  | .ok a => .ok a
  | .error error => .error (.read error)

/-- What a revision names in the history. -/
inductive Found where
  | one (node : NodeRecord)
  | many (nodes : List NodeRecord)
  | none (why : String)

/-- The nodes of a label, as a query reads them. -/
def nodesOf (reader : GraphReader) (label : String) : Except Error (List NodeRecord) := do
  let nodes ← (← reader.scanLabel label).mapM reader.node
  return nodes.reduceOption

def nodeByKey (reader : GraphReader) (key : String) : Except Error (Option NodeRecord) := do
  match ← reader.nodeIdByKey key with
  | some id => reader.node id
  | none => return none

section

variable (history : GraphReader) (headHint : Option String)

/-- `&sha[..sha.len().min(12)]` -/
def shortened (sha : String) : Except Fault String :=
  (cutAt (min 12 (bytes sha.toList).length) sha.toList).elim (.error .panic) fun cut =>
    .ok (String.ofList cut.1)

def shortOf (node : NodeRecord) : String :=
  String.ofList (((propStr node.properties "sha").getD "?").toList.take 12)

/-- The commit of a full name. -/
def commit (sha : String) : Except Fault Found := do
  match ← reading (nodeByKey history ("commit:" ++ sha)) with
  | some node => return .one node
  | none =>
    return .none
      s!"commit {← shortened sha} is not in this history plane — it may be newer than the last digest"

/-- The tip of the local branch that is checked out, else the hint. -/
def headTip : Except Error (Option String) := do
  let branches ← nodesOf history "Branch"
  let checkedOut := branches.find? fun b => propBool b.properties "is_head" &&
    !propBool b.properties "remote"
  return (checkedOut.bind fun b => propStr b.properties "tip").or headHint

def head : Except Fault Found := do
  match ← reading (headTip history headHint) with
  | some sha => commit history sha
  | none =>
    return .none "HEAD is detached and the plane records no synced commit — name a sha, branch or tag"

/-- A ref is called by its short or its full name. -/
def called (name : String) (node : NodeRecord) : Bool :=
  propStr node.properties "name" = some name || propStr node.properties "ref" = some name

/-- What a ref points at: a tag, then a local branch, then a remote one. -/
def refTarget (name : String) : Except Error (Option String) := do
  match (← nodesOf history "Tag").find? (called name) with
  | some tag => return propStr tag.properties "target"
  | none =>
    let (remote, locals) :=
      (← nodesOf history "Branch").partition fun b => propBool b.properties "remote"
    return ((locals.find? (called name)).or (remote.find? (called name))).bind fun b =>
      propStr b.properties "tip"

def lower (s : String) : List Char := s.toList.map Char.toLower

/-- A commit was made no earlier than another; one without a time comes last. -/
def noEarlier (a b : NodeRecord) : Bool :=
  match propInt b.properties "committed_ts", propInt a.properties "committed_ts" with
  | some old, some new => old ≤ new
  | none, _ => true
  | some _, none => false

/-- The commits whose names start with some digits, newest first. -/
def startingWith (hex : List Char) (commits : List NodeRecord) : List NodeRecord :=
  (commits.filter fun c => (propStr c.properties "sha").any fun sha =>
    hex.isPrefixOf sha.toList).mergeSort noEarlier

/-- A full name, then a ref, then an abbreviation. -/
def byName (name : String) : Except Fault Found := do
  if isSha name then commit history name
  else match ← reading (refTarget history name) with
    | some target => commit history target
    | none =>
      if ¬ (lower name).all hexDigit then
        return .none s!"no branch or tag is named `{name}` — {forms}"
      else if (lower name).length < minPrefix then
        return .none s!"`{name}` is too short to name a commit — give at least {minPrefix} hex digits"
      else match startingWith (lower name) (← reading (nodesOf history "Commit")) with
        | [] => return .none s!"no commit starts with `{name}` — {forms}"
        | [node] => return .one node
        | nodes => return .many nodes

def parentAmong (order : ℕ) : List Neighbor → Except Error (Option NodeRecord)
  | [] => .ok none
  | nb :: rest => do
    if (← history.edge nb.edge).any fun e => propInt e.properties "order" = some (order : ℤ) then
      history.node nb.node
    else parentAmong order rest

/-- The parent of some number, counting from one. -/
def parent (node : NodeRecord) (order : ℕ) : Except Error (Option NodeRecord) := do
  parentAmong history order (← history.neighbors node.id .out (some "PARENT"))

/-- The newest commit that is old enough, among so many of a line. -/
def beforeWithin (limit : ℤ) : ℕ → NodeRecord → Except Fault Found
  | 0, _ => return .none s!"gave up after {walkCap} commits looking for one that old"
  | fuel + 1, node => do
    if (propInt node.properties "committed_ts").any (· ≤ limit) then return .one node
    else match ← reading (parent history node 1) with
      | some next => beforeWithin limit fuel next
      | none =>
        return .none <|
          s!"nothing on this line of history is that old — it begins at {shortOf node} " ++
          "(" ++ day node.properties "committed_at" ++ ")"

/-- The last commit no later than an instant. -/
def before (start : NodeRecord) (instant : ℤ) : Except Fault Found :=
  beforeWithin history (instant / 1000) walkCap start

/-- So many hops to the parent of some number, after those that were taken. -/
def hop (order : ℕ) : ℕ → ℕ → NodeRecord → Except Fault Found
  | 0, _, node => return .one node
  | hops + 1, taken, node => do
    match ← reading (parent history node order) with
    | some next => hop order hops (taken + 1) next
    | none =>
      return .none s!"{shortOf node} has no parent #{order} — the walk stopped {taken} step(s) back"

def step (start : NodeRecord) : Step → Except Fault Found
  | .back n => hop history 1 n 0 start
  | .parent 0 => return .one start
  | .parent n => hop history n 1 0 start

/-- Walks the history as the expression says. -/
def eval : RevExpr → Except Fault Found
  | .head => head history headHint
  | .name name => byName history name
  | .atDate start instant => do
    match ← eval start with
    | .one node => before history node instant
    | other => return other
  | .ancestor start back => do
    match ← eval start with
    | .one node => step history node back
    | other => return other

end

/-! ### The answer -/

/-- A commit, as an answer shows it. -/
structure CommitRef where
  sha : String
  date : String
  author : String
  summary : String
  reachable : Bool
  deriving DecidableEq, Repr

/-- The answer to a revision. -/
inductive RevAnswer where
  | one (commit : CommitRef)
  | many (commits : List CommitRef)
  | none (why : String)
  deriving DecidableEq, Repr

def commitRef (node : NodeRecord) : CommitRef where
  sha := (propStr node.properties "sha").getD ""
  date := day node.properties "committed_at"
  author := (propStr node.properties "author_name").getD ""
  summary := (propStr node.properties "summary").getD ""
  reachable := match (node.properties["reachable"]?).map PropDesc.value with
    | some (.bool false) => false
    | _ => true

def resolveRev (history : GraphReader) (headHint : Option String) (rev : String) :
    Except Fault RevAnswer :=
  match parseRev rev with
  | .error why => return .none why
  | .ok expr => do
    match ← eval history headHint expr with
    | .one node => return .one (commitRef node)
    | .many nodes => return .many (nodes.map commitRef)
    | .none why => return .none why

/-! ### What an expression names -/

section

variable {history : GraphReader} {hint : Option String} {start last : NodeRecord}
  {run : Except Fault Found} {names : List NodeRecord → Prop} {nodes : List NodeRecord}
  {name why : String} {instant : ℤ} {order n : ℕ}

/-- The node of a commit, by its key. -/
def Keyed (history : GraphReader) (sha : String) (node : NodeRecord) : Prop :=
  nodeByKey history ("commit:" ++ sha) = .ok (some node)

/-- A line from parent to parent of some number: the commits that it passes, and where it arrives. -/
inductive Line (history : GraphReader) (order : ℕ) :
    NodeRecord → List NodeRecord → NodeRecord → Prop where
  | nil (node : NodeRecord) : Line history order node [] node
  | cons {node next last : NodeRecord} {passed : List NodeRecord}
      (up : parent history node order = .ok (some next))
        (rest : Line history order next passed last) :
      Line history order node (node :: passed) last

/-- A commit was made by an instant. -/
def MadeBy (instant : ℤ) (node : NodeRecord) : Prop :=
  ∃ made, propInt node.properties "committed_ts" = some made ∧ made ≤ instant / 1000

/-- The newest commit that was made by an instant, among so many of the first-parent line. -/
def Newest (history : GraphReader) (instant : ℤ) (n : ℕ) (start last : NodeRecord) : Prop :=
  ∃ passed, Line history 1 start passed last ∧ passed.length < n ∧
    (∀ node ∈ passed, ¬ MadeBy instant node) ∧
    MadeBy instant last

/-- So many hops from parent to parent. -/
def Hops (history : GraphReader) (order n : ℕ) (start last : NodeRecord) : Prop :=
  ∃ passed, Line history order start passed last ∧ passed.length = n

/-- Where a step leads. -/
inductive Leads (history : GraphReader) (start : NodeRecord) : Step → NodeRecord → Prop where
  | back {n : ℕ} {last : NodeRecord} (line : Hops history 1 n start last) : Leads history start
    (.back n) last
  | itself : Leads history start (.parent 0) start
  | parent {order : ℕ} {next : NodeRecord} (up : Hops history (order + 1) 1 start next) :
      Leads history start (.parent (order + 1)) next

/-- The commits that an expression names: one, or the several that an abbreviation fits. -/
inductive Names (history : GraphReader) (hint : Option String) :
    RevExpr → List NodeRecord → Prop where
  | head {tip : String} {node : NodeRecord} (out : headTip history hint = .ok (some tip))
      (keyed : Keyed history tip node) : Names history hint .head [node]
  | full {name : String} {node : NodeRecord} (full : isSha name) (keyed : Keyed history name node) :
      Names history hint (.name name) [node]
  | ref {name target : String} {node : NodeRecord} (short : ¬ isSha name)
      (points : refTarget history name = .ok (some target)) (keyed : Keyed history target node) :
      Names history hint (.name name) [node]
  | abbreviation {name : String} {commits : List NodeRecord} (short : ¬ isSha name)
      (free : refTarget history name = .ok none) (hex : (lower name).all hexDigit)
      (long : minPrefix ≤ (lower name).length) (read : nodesOf history "Commit" = .ok commits)
      (fits : startingWith (lower name) commits ≠ []) :
      Names history hint (.name name) (startingWith (lower name) commits)
  | atDate {start : RevExpr} {instant : ℤ} {node last : NodeRecord}
      (base : Names history hint start [node]) (newest : Newest history instant walkCap node last) :
      Names history hint (.atDate start instant) [last]
  | ancestor {start : RevExpr} {step : Step} {node last : NodeRecord}
      (base : Names history hint start [node]) (leads : Leads history node step last) :
      Names history hint (.ancestor start step) [last]
  | severalAt {start : RevExpr} {instant : ℤ} {nodes : List NodeRecord}
      (base : Names history hint start nodes) (several : 1 < nodes.length) :
      Names history hint (.atDate start instant) nodes
  | severalBack {start : RevExpr} {step : Step} {nodes : List NodeRecord}
      (base : Names history hint start nodes) (several : 1 < nodes.length) :
      Names history hint (.ancestor start step) nodes

/-- A walk answers just what is named. -/
structure Answers (run : Except Fault Found) (names : List NodeRecord → Prop) : Prop where
  one : ∀ node, run = .ok (.one node) ↔ names [node]
  many : ∀ nodes, run = .ok (.many nodes) ↔ names nodes ∧ 1 < nodes.length

theorem reading_eq_ok {α : Type} {x : Except Error α} {a : α} : reading x = .ok a ↔ x = .ok a := by
  cases x with
  | ok b =>
    exact ⟨fun same => congrArg _ (Except.ok.inj same), fun same => congrArg _ (Except.ok.inj same)⟩
  | error e => exact ⟨nofun, nofun⟩

theorem Answers.congr {names' : List NodeRecord → Prop} (answers : Answers run names)
    (same : ∀ nodes, names nodes ↔ names' nodes) : Answers run names' :=
  ⟨fun node => (answers.one node).trans (same _), fun nodes =>
    (answers.many nodes).trans (and_congr_left' (same _))⟩

/-- A walk that ends nowhere. -/
def Nowhere (run : Except Fault Found) : Prop := ∀ found, run = .ok found → ∃ why, found = .none why

theorem Nowhere.none : Nowhere (.ok (.none why)) :=
  fun _ same => ⟨why, (Except.ok.inj same).symm⟩

theorem Nowhere.error {fault : Fault} : Nowhere (.error fault) := by
  intro found same
  cases same

theorem Nowhere.ended (nowhere : Nowhere run) :
    (∃ fault, run = .error fault) ∨ ∃ why, run = .ok (.none why) := by
  cases run with
  | error fault => exact .inl ⟨fault, rfl⟩
  | ok found =>
    obtain ⟨why, rfl⟩ := nowhere found rfl
    exact .inr ⟨why, rfl⟩

theorem Nowhere.answers (nowhere : Nowhere run) : Answers run fun _ => False := by
  refine ⟨fun node => iff_of_false (fun answer => ?_) id, fun nodes =>
    iff_of_false (fun answer => ?_) (·.1)⟩
  all_goals
    obtain ⟨why, same⟩ := nowhere _ answer
    cases same

theorem Answers.here {node : NodeRecord} : Answers (.ok (.one node)) fun nodes => nodes = [node] := by
  refine ⟨fun other => ?_, fun nodes => iff_of_false (fun same => ?_) ?_⟩
  · rw [Except.ok.injEq, Found.one.injEq, List.singleton_inj, eq_comm]
  · cases same
  · rintro ⟨rfl, several⟩
    exact absurd several (by simp)

/-- What a walk that ended so names. -/
theorem Answers.of_nowhere (answers : Answers run names) (nowhere : Nowhere run) :
    (∀ node, ¬ names [node]) ∧ ∀ nodes, ¬ (names nodes ∧ 1 < nodes.length) := by
  refine ⟨fun node named => ?_, fun nodes named => ?_⟩
  · obtain ⟨why, same⟩ := nowhere _ ((answers.one node).mpr named)
    cases same
  · obtain ⟨why, same⟩ := nowhere _ ((answers.many nodes).mpr named)
    cases same

theorem Answers.of_one (answers : Answers (.ok (.one start)) names) :
    (∀ node, names [node] ↔ start = node) ∧ ∀ nodes, ¬ (names nodes ∧ 1 < nodes.length) := by
  refine ⟨fun node => (answers.one node).symm.trans ?_, fun nodes named => ?_⟩
  · rw [Except.ok.injEq, Found.one.injEq]
  · cases (answers.many nodes).mpr named

theorem Answers.of_many (answers : Answers (.ok (.many nodes)) names) :
    (∀ node, ¬ names [node]) ∧ ∀ others, (names others ∧ 1 < others.length) ↔ nodes = others := by
  refine ⟨fun node named => ?_, fun others => (answers.many others).symm.trans ?_⟩
  · cases (answers.one node).mpr named
  · rw [Except.ok.injEq, Found.many.injEq]

/-- A walk that goes on from what was read. -/
theorem Answers.read {α : Type} {x : Except Error (Option α)} {names : α → List NodeRecord → Prop}
    (failed : ∀ error, x = .error error → Nowhere run) (absent : x = .ok none → Nowhere run)
    (each : ∀ a, x = .ok (some a) → Answers run (names a)) :
    Answers run fun nodes => ∃ a, x = .ok (some a) ∧ names a nodes := by
  cases x with
  | error e =>
    exact (failed e rfl).answers.congr fun nodes =>
      iff_of_false id (by rintro ⟨a, same, -⟩; cases same)
  | ok found =>
    cases found with
    | none => exact (absent rfl).answers.congr fun nodes =>
      iff_of_false id (by rintro ⟨a, same, -⟩; cases same)
    | some a =>
      refine (each a rfl).congr fun nodes => ⟨fun named => ⟨a, rfl, named⟩, ?_⟩
      rintro ⟨b, same, named⟩
      exact Option.some.inj (Except.ok.inj same) ▸ named

/-- A walk that goes on from one commit. -/
theorem Answers.walk {start : Except Fault Found} {goes : NodeRecord → List NodeRecord → Prop}
    (answers : Answers start names) (stopped : Nowhere start → Nowhere run)
    (walks : ∀ node, start = .ok (.one node) → Answers run (goes node))
    (several : ∀ nodes, start = .ok (.many nodes) → run = .ok (.many nodes)) :
    Answers run fun nodes => (∃ node, names [node] ∧ goes node nodes) ∨
    (names nodes ∧ 1 < nodes.length) := by
  have still : Nowhere start → Answers run fun nodes =>
      (∃ node, names [node] ∧ goes node nodes) ∨ (names nodes ∧ 1 < nodes.length) := by
    intro nowhere
    obtain ⟨absent, few⟩ := answers.of_nowhere nowhere
    refine (stopped nowhere).answers.congr fun nodes => iff_of_false id ?_
    rintro (⟨node, named, -⟩ | named)
    · exact absent node named
    · exact few nodes named
  cases start with
  | error fault => exact still Nowhere.error
  | ok found =>
    cases found with
    | none why => exact still Nowhere.none
    | one first =>
      obtain ⟨only, few⟩ := answers.of_one
      refine (walks first rfl).congr fun nodes =>
        ⟨fun goes => .inl ⟨first, (only first).mpr rfl, goes⟩, ?_⟩
      rintro (⟨node, named, goes⟩ | named)
      · exact (only node).mp named ▸ goes
      · exact absurd named (few nodes)
    | many nodes =>
      obtain ⟨absent, only⟩ := answers.of_many
      rw [several nodes rfl]
      refine ⟨fun node => iff_of_false nofun ?_, fun others => ?_⟩
      · rintro (⟨other, named, -⟩ | ⟨named, -⟩)
        · exact absent other named
        · exact absent node named
      · rw [Except.ok.injEq, Found.many.injEq, ← only others]
        refine ⟨fun several => ⟨.inr several, several.2⟩, ?_⟩
        rintro ⟨⟨node, named, -⟩ | several, -⟩
        · exact absurd named (absent node)
        · exact several

theorem answers_commit {sha : String} :
    Answers (commit history sha) fun nodes => ∃ node, Keyed history sha node ∧ nodes = [node] := by
  refine .read (fun error read => ?_) (fun read => ?_) fun node read => ?_
  all_goals
    unfold commit
    rw [read]
  · exact Nowhere.error
  · intro found ended
    obtain ⟨found', missing, same⟩ := bind_eq_ok.mp ended
    obtain rfl := Except.ok.inj missing
    obtain ⟨short, -, same⟩ := bind_eq_ok.mp same
    exact ⟨_, (Except.ok.inj same).symm⟩
  · exact .here

theorem answers_head : Answers (head history hint) (Names history hint .head) := by
  have answers : Answers (head history hint) fun nodes => ∃ tip, headTip history hint =
      .ok (some tip) ∧
      ∃ node, Keyed history tip node ∧ nodes = [node] := by
    refine .read (fun error read => ?_) (fun read => ?_) fun node read => ?_
    all_goals
      unfold head
      rw [read]
    · exact Nowhere.error
    · exact Nowhere.none
    · exact answers_commit
  refine answers.congr fun nodes => ?_
  constructor
  · rintro ⟨tip, out, node, keyed, rfl⟩
    exact .head out keyed
  · intro named
    cases named with
    | head out keyed => exact ⟨_, out, _, keyed, rfl⟩

theorem answers_several : Answers (match nodes with
    | [] => .ok (.none why)
    | [node] => .ok (.one node)
    | nodes => .ok (.many nodes)) fun others => nodes ≠ [] ∧ others = nodes := by
  match nodes with
  | [] => exact Nowhere.none.answers.congr fun others => iff_of_false id fun named => named.1 rfl
  | [node] => exact Answers.here.congr fun others => (and_iff_right (List.cons_ne_nil _ _)).symm
  | a :: b :: nodes =>
    refine ⟨fun node => iff_of_false nofun (by simp), fun others => ?_⟩
    rw [Except.ok.injEq, Found.many.injEq]
    constructor
    · rintro rfl
      exact ⟨⟨List.cons_ne_nil _ _, rfl⟩, by simp⟩
    · exact fun named => named.1.2.symm

/-- What a full name names. -/
theorem names_full (full : isSha name) :
    Names history hint (.name name) nodes ↔ ∃ node, Keyed history name node ∧ nodes = [node] := by
  constructor
  · intro named
    cases named with
    | full _ keyed => exact ⟨_, keyed, rfl⟩
    | ref short => exact absurd full short
    | abbreviation short => exact absurd full short
  · rintro ⟨node, keyed, rfl⟩
    exact .full full keyed

/-- What a ref names. -/
theorem names_ref {target : String} (short : ¬ isSha name)
    (points : refTarget history name = .ok (some target)) :
    Names history hint (.name name) nodes ↔ ∃ node, Keyed history target node ∧ nodes = [node] := by
  constructor
  · intro named
    cases named with
    | full whole => exact absurd whole short
    | ref _ points' keyed =>
      obtain rfl := Option.some.inj (Except.ok.inj (points.symm.trans points'))
      exact ⟨_, keyed, rfl⟩
    | abbreviation _ free => cases points.symm.trans free
  · rintro ⟨node, keyed, rfl⟩
    exact .ref short points keyed

/-- What is named by a text that is neither a full name nor a ref. -/
theorem names_abbreviation (short : ¬ isSha name) (free : refTarget history name = .ok none) :
    Names history hint (.name name) nodes ↔ (lower name).all hexDigit ∧
      minPrefix ≤ (lower name).length ∧ ∃ commits, nodesOf history "Commit" = .ok commits ∧
        startingWith (lower name) commits ≠ [] ∧ nodes = startingWith (lower name) commits := by
  constructor
  · intro named
    cases named with
    | full whole => exact absurd whole short
    | ref _ points => cases free.symm.trans points
    | abbreviation _ _ hex long read fits => exact ⟨hex, long, _, read, fits, rfl⟩
  · rintro ⟨hex, long, commits, read, fits, rfl⟩
    exact .abbreviation short free hex long read fits

/-- A name that cannot be looked up names nothing. -/
theorem not_names {error : Error} (short : ¬ isSha name)
    (failed : refTarget history name = .error error) : ¬ Names history hint (.name name) nodes := by
  intro named
  cases named with
  | full whole => exact short whole
  | ref _ points => cases failed.symm.trans points
  | abbreviation _ free => cases failed.symm.trans free

theorem answers_byName : Answers (byName history name) (Names history hint (.name name)) := by
  unfold byName
  by_cases full : isSha name
  · rw [if_pos full]
    exact answers_commit.congr fun nodes => (names_full full).symm
  rw [if_neg full]
  cases points : refTarget history name with
  | error e => exact Answers.congr Nowhere.error.answers fun nodes =>
    iff_of_false id (not_names full points)
  | ok target =>
    cases target with
    | some target => exact answers_commit.congr fun nodes => (names_ref full points).symm
    | none =>
      refine Answers.congr (?_ : Answers _ fun nodes => _)
        fun nodes => (names_abbreviation full points).symm
      change Answers (if ¬ (lower name).all hexDigit then _ else _) _
      by_cases hex : (lower name).all hexDigit
      · rw [if_neg (not_not.mpr hex)]
        by_cases long : minPrefix ≤ (lower name).length
        · rw [if_neg (Nat.not_lt.mpr long)]
          cases read : nodesOf history "Commit" with
          | error e => exact Nowhere.error.answers.congr fun nodes => iff_of_false id (by simp)
          | ok commits =>
            refine answers_several.congr fun nodes => ?_
            simp [hex, long]
        · rw [if_pos (Nat.lt_of_not_le long)]
          exact Nowhere.none.answers.congr fun nodes => iff_of_false id (by simp [long])
      · rw [if_pos hex]
        exact Nowhere.none.answers.congr fun nodes => iff_of_false id (by simp [hex])

theorem not_newest_zero : ¬ Newest history instant 0 start last := by
  rintro ⟨passed, -, few, -⟩
  exact Nat.not_lt_zero _ few

theorem newest_here (old : MadeBy instant start) :
    Newest history instant (n + 1) start last ↔ last = start := by
  constructor
  · rintro ⟨passed, line, -, later, -⟩
    cases line with
    | nil => rfl
    | cons => exact absurd old (later start List.mem_cons_self)
  · rintro rfl
    exact ⟨[], .nil _, Nat.succ_pos _, nofun, old⟩

theorem newest_up (young : ¬ MadeBy instant start) :
    Newest history instant (n + 1) start last ↔
      ∃ next, parent history start 1 = .ok (some next) ∧ Newest history instant n next last := by
  constructor
  · rintro ⟨passed, line, few, later, old⟩
    cases line with
    | nil => exact absurd old young
    | cons up rest =>
      exact ⟨_, up, _, rest, Nat.lt_of_succ_lt_succ few, (List.forall_mem_cons.mp later).2, old⟩
  · rintro ⟨next, up, passed, rest, few, later, old⟩
    exact ⟨start :: passed, .cons up rest, Nat.succ_lt_succ few,
      List.forall_mem_cons.mpr ⟨young, later⟩, old⟩

theorem hops_zero : Hops history order 0 start last ↔ last = start := by
  constructor
  · rintro ⟨passed, line, none⟩
    cases line with
    | nil => rfl
    | cons => cases none
  · rintro rfl
    exact ⟨[], .nil _, rfl⟩

theorem hops_succ : Hops history order (n + 1) start last ↔
    ∃ next, parent history start order = .ok (some next) ∧ Hops history order n next last := by
  constructor
  · rintro ⟨passed, line, many⟩
    cases line with
    | nil => cases many
    | cons up rest => exact ⟨_, up, _, rest, Nat.succ.inj many⟩
  · rintro ⟨next, up, passed, rest, rfl⟩
    exact ⟨start :: passed, .cons up rest, rfl⟩

/-- A walk that goes on from a parent. -/
theorem Answers.up {goes : NodeRecord → NodeRecord → Prop}
    (failed : ∀ error, parent history start order = .error error → Nowhere run)
    (absent : parent history start order = .ok none → Nowhere run)
    (each : ∀ next, parent history start order = .ok (some next) →
      Answers run fun nodes => ∃ last, goes next last ∧ nodes = [last]) :
    Answers run fun nodes =>
      ∃ last, (∃ next, parent history start order = .ok (some next) ∧ goes next last) ∧
      nodes = [last] := by
  refine (Answers.read failed absent each).congr fun nodes => ?_
  constructor
  · rintro ⟨next, up, last, newest, rfl⟩
    exact ⟨last, ⟨next, up, newest⟩, rfl⟩
  · rintro ⟨last, ⟨next, up, newest⟩, rfl⟩
    exact ⟨next, up, last, newest, rfl⟩

theorem answers_beforeWithin :
    Answers (beforeWithin history (instant / 1000) n start) fun nodes =>
      ∃ last, Newest history instant n start last ∧ nodes = [last] := by
  induction n generalizing start with
  | zero => exact Nowhere.none.answers.congr fun nodes => iff_of_false id fun ⟨_, newest, _⟩ =>
    not_newest_zero newest
  | succ n ih =>
    have made : (propInt start.properties "committed_ts").any (· ≤ instant / 1000) = true ↔
        MadeBy instant start := by
      simp [MadeBy, Option.any_eq_true]
    rw [beforeWithin]
    by_cases old : MadeBy instant start
    · rw [if_pos (made.mpr old)]
      refine Answers.here.congr fun nodes => ?_
      simp only [newest_here old, exists_eq_left]
    · rw [if_neg (mt made.mp old)]
      simp only [newest_up old]
      refine .up (fun error read => ?_) (fun read => ?_) fun next read => ?_
      all_goals rw [read]
      · exact Nowhere.error
      · exact Nowhere.none
      · exact ih

theorem answers_hop {taken : ℕ} :
    Answers (hop history order n taken start) fun nodes => ∃ last, Hops history order n start last ∧
    nodes = [last] := by
  induction n generalizing taken start with
  | zero =>
    refine Answers.here.congr fun nodes => ?_
    simp only [hops_zero, exists_eq_left]
  | succ n ih =>
    rw [hop]
    simp only [hops_succ]
    refine .up (fun error read => ?_) (fun read => ?_) fun next read => ?_
    all_goals rw [read]
    · exact Nowhere.error
    · exact Nowhere.none
    · exact ih

theorem answers_step {step : Step} :
    Answers (Ops.step history start step) fun nodes => ∃ last, Leads history start step last ∧
    nodes = [last] := by
  match step with
  | .back n =>
    refine answers_hop.congr fun nodes => exists_congr fun last =>
      and_congr_left' ⟨.back, fun leads => ?_⟩
    cases leads with
    | back line => exact line
  | .parent 0 =>
    refine Answers.here.congr fun nodes => ⟨fun same => ⟨start, .itself, same⟩, ?_⟩
    rintro ⟨last, leads, same⟩
    cases leads with
    | itself => exact same
  | .parent (order + 1) =>
    refine answers_hop.congr fun nodes => exists_congr fun last =>
      and_congr_left' ⟨.parent, fun leads => ?_⟩
    cases leads with
    | parent up => exact up

theorem answers_eval {expr : RevExpr} :
    Answers (eval history hint expr) (Names history hint expr) := by
  induction expr with
  | head => exact answers_head
  | name name => exact answers_byName
  | atDate start instant ih =>
    have answers : Answers (eval history hint (.atDate start instant)) fun nodes =>
        (∃ node, Names history hint start [node] ∧
          ∃ last, Newest history instant walkCap node last ∧ nodes = [last]) ∨
        (Names history hint start nodes ∧ 1 < nodes.length) := by
      refine ih.walk (fun nowhere => ?_) (fun node found => ?_) fun nodes found => ?_
      all_goals rw [eval]
      · obtain ⟨fault, found⟩ | ⟨why, found⟩ := nowhere.ended <;> rw [found]
        · exact Nowhere.error
        · exact Nowhere.none
      · rw [found]
        exact answers_beforeWithin
      · rw [found]
        rfl
    refine answers.congr fun nodes => ?_
    constructor
    · rintro (⟨node, base, last, newest, rfl⟩ | ⟨base, several⟩)
      · exact .atDate base newest
      · exact .severalAt base several
    · intro named
      cases named with
      | atDate base newest => exact .inl ⟨_, base, _, newest, rfl⟩
      | severalAt base several => exact .inr ⟨base, several⟩
  | ancestor start step ih =>
    have answers : Answers (eval history hint (.ancestor start step)) fun nodes =>
        (∃ node, Names history hint start [node] ∧ ∃ last, Leads history node step last ∧
          nodes = [last]) ∨
        (Names history hint start nodes ∧ 1 < nodes.length) := by
      refine ih.walk (fun nowhere => ?_) (fun node found => ?_) fun nodes found => ?_
      all_goals rw [eval]
      · obtain ⟨fault, found⟩ | ⟨why, found⟩ := nowhere.ended <;> rw [found]
        · exact Nowhere.error
        · exact Nowhere.none
      · rw [found]
        exact answers_step
      · rw [found]
        rfl
    refine answers.congr fun nodes => ?_
    constructor
    · rintro (⟨node, base, last, leads, rfl⟩ | ⟨base, several⟩)
      · exact .ancestor base leads
      · exact .severalBack base several
    · intro named
      cases named with
      | ancestor base leads => exact .inl ⟨_, base, _, leads, rfl⟩
      | severalBack base several => exact .inr ⟨base, several⟩

end

end DrStrange.Ops
