/-
**Answers as texts, and where a slice panics.**

An answer about a revision or an image is printed in one line or a few, with names of commits and
digests cut at their twelfth byte. The cut panics inside of a character. Parsing a revision never
does (`slicedRev_eq`), and the rest does not for just the planes whose texts can be cut wherever one
is: the names that lookups miss, the names of the commits that are found, the digests of images
without a revision (`answers_return_iff`).
-/

import DrStrange.Ops.Images

namespace DrStrange.Ops

open DrStrange.Graph DrStrange.Compute DrStrange.Lib

/-! ### The code -/

/-- The most candidates that an ambiguous answer lists. -/
def candidateCap : ℕ := 20

/-- One image that a thing runs, and where it came from. -/
structure Runs where
  reference : String
  through : Option String
  provenance : Provenance
  deriving DecidableEq, Repr

/-- A thing and the images it runs. -/
structure Running where
  thing : String
  kind : String
  images : List Runs
  deriving DecidableEq, Repr

def runsRow (image : NodeRecord) (through : Option String) (history : Option GraphReader) :
    Except Fault Runs := do
  return ⟨keyOf image, through, ← provenance image history⟩

/-- By the reference, and then by what the image is run through; nothing comes first. -/
def Runs.le (a b : Runs) : Bool :=
  a.reference < b.reference || (a.reference = b.reference && match a.through, b.through with
    | none, _ => true
    | some _, none => false
    | some a, some b => a ≤ b)

/-- What a node runs: itself, if it is an image, else what it names and what it names across one
hop. -/
def runsOf (ops : GraphReader) (history : Option GraphReader) (node : NodeRecord) :
    Except Fault (List Runs) := do
  if node.labels.contains "Image" then return [← runsRow node none history]
  else
    let direct ← (← reading (along ops node .out "USES_IMAGE")).mapM fun image =>
      runsRow image none history
    let across ← (← reading (along ops node .out "RUNS")).mapM fun mid => do
      (← reading (along ops mid .out "USES_IMAGE")).mapM fun image =>
        runsRow image (some (keyOf mid)) history
    return direct ++ across.flatten

/-- What one thing runs and what built each image. -/
def running (ops : GraphReader) (history : Option GraphReader) (key : String) :
    Except Fault (Option Running) := do
  match ← reading (nodeByKey ops key) with
  | none => return none
  | some node =>
    let images ← runsOf ops history node
    return some ⟨keyOf node, kindOf node, (images.mergeSort Runs.le).destutter (· ≠ ·)⟩

/-- A digest as the algorithm and the first digits; one without an algorithm as its first
characters. -/
def shortDigest (digest : String) : Except Fault String :=
  match splitOnce [':'] digest.toList with
  | some (algo, hex) => do return String.ofList algo ++ ":" ++ (← shortened (String.ofList hex))
  | none => .ok (String.ofList (digest.toList.take 12))

/-- The line that a commit is printed on. -/
def commitLine (c : CommitRef) : Except Fault String := do
  let short ← shortened c.sha
  return s!"{short}  {c.date}  \"{c.summary}\"  ({c.author})" ++
    (if c.reachable then "" else "  [a rewrite left this commit behind]")

def Provenance.stated : Provenance → Except Fault String
  | .commit c => commitLine c
  | .candidates cs => do
    let shorts ← cs.mapM fun c => shortened c.sha
    return s!"{cs.length} commits fit that revision, newest first: " ++ ", ".intercalate shorts
  | .elsewhere revision =>
    .ok <| s!"revision `{revision}` is in no commit of this history; the usual cause is an " ++
      "image built from another repository"
  | .floating tag => .ok s!"no revision: the tag `{tag}` names none"
  | .pinned digest => do
    let short ← shortDigest digest
    return s!"pinned by digest ({short}); provenance needs a registry call"
  | .untagged => .ok "no revision: the reference carries neither tag nor digest"
  | .noHistory revision => .ok s!"revision `{revision}`, with no history plane to resolve it against"

/-- The day that a revision names as a whole. -/
def bareDay (rev : String) : Option String :=
  let base := rev.toList.takeWhile (!isStep ·)
  let day := (dated base).elim base Prod.snd
  (dateEndOfDay day).run.toOption.join.map fun _ => String.ofList day

/-- The line that an answer about a commit opens with. -/
def commitHeader (c : CommitRef) (rev : String) : Except Fault String := do
  let short ← shortened c.sha
  let via := if (lower rev).isPrefixOf c.sha.toList then "" else s!"  (via {rev})"
  let lost := if c.reachable then ""
    else "note: reachable: false — a rewrite left this commit behind, and gc may prune it\n"
  let read := (bareDay rev).elim "" fun day =>
    s!"note: {day} is read as the end of that day in UTC; the date above is the committer's own\n"
  return s!"at {short}  {c.date}  {c.author}  {c.summary}{via}\n{lost}{read}"

/-- The commits that an abbreviation fits, and how to narrow them. -/
def ambiguous (rev : String) (commits : List CommitRef) : Except Fault String := do
  let lines ← (commits.take candidateCap).mapM fun c => do
    let short ← shortened c.sha
    return s!"  {short}  {c.date}  {c.summary}\n"
  let more :=
    if candidateCap < commits.length then s!"  … and {commits.length - candidateCap} more\n" else ""
  return s!"`{rev}` is ambiguous — {commits.length} commits start with it; " ++
    "call again with more of the sha:\n" ++
    String.join lines ++ more

/-- What is printed of an answer about a revision. -/
def RevAnswer.text (rev : String) : RevAnswer → Except Fault String
  | .one c => commitHeader c rev
  | .many commits => ambiguous rev commits
  | .none why => .ok why

/-! ### Parsing, slice by slice -/

/-- `&s[i..]` -/
def sliced (i : ℕ) (s : List Char) : Except Fault (List Char) :=
  (cutAt i s).elim (.error .panic) fun cut => .ok cut.2

theorem sliced_append (before after : List Char) :
    sliced (bytes before).length (before ++ after) = .ok after := by
  rw [sliced, cutAt_eq_some.mpr ⟨rfl, rfl⟩]
  rfl

theorem sliced_lt {i : ℕ} {text after : List Char} (positive : 0 < i)
    (cut : sliced i text = .ok after) :
    after.length < text.length := by
  unfold sliced at cut
  cases found : cutAt i text with
  | none =>
    rw [found] at cut
    cases cut
  | some parts =>
    rw [found] at cut
    obtain rfl := Except.ok.inj cut
    obtain ⟨same, length⟩ := cutAt_eq_some.mp found
    have some_ : parts.1 ≠ [] := by
      intro empty
      rw [empty] at length
      exact positive.ne length
    rw [same, List.length_append]
    exact Nat.lt_add_of_pos_left (List.length_pos_iff.mpr some_)

/-- The steps behind a revision, as they are sliced off. -/
def slicedSteps (expr : RevExpr) (rest : List Char) : Except Fault (Except String RevExpr) :=
  match rest with
  | [] => .ok (.ok expr)
  | op :: tail =>
    match sliced 1 (op :: tail) with
    | .error fault => .error fault
    | .ok behind =>
      match stepCount (behind.takeWhile Char.isDigit) with
      | .error why => .ok (.error why)
      | .ok n =>
        match _found : sliced (1 + (bytes (behind.takeWhile Char.isDigit)).length) (op :: tail) with
        | .error fault => .error fault
        | .ok left =>
          if left.head?.all isStep then
            slicedSteps (.ancestor expr (if op = '~' then .back n else .parent n)) left
          else .ok (.error s!"`{String.ofList left}` after a step is not `~n` or `^n` — {forms}")
termination_by rest.length
decreasing_by exact sliced_lt (by omega) _found

/-- `parse_rev`, as it slices. -/
def slicedRev (s : String) : Except Fault (Except String RevExpr) := do
  let s := trim s.toList
  let base := s.takeWhile (!isStep ·)
  let rest ← sliced (bytes base).length s
  match parseBase base with
  | .error why => return .error why
  | .ok expr => slicedSteps expr rest

variable {expr : RevExpr} {c : Char}

theorem ascii_isStep (step : isStep c = true) : Ascii c := by
  obtain rfl | rfl : c = '~' ∨ c = '^' := by simpa [isStep] using step
  · decide
  · decide

theorem ascii_isDigit (digit : c.isDigit = true) : Ascii c := by
  have range : c.val ≥ 48 ∧ c.val ≤ 57 := by simpa [Char.isDigit] using digit
  exact UInt32.lt_of_le_of_lt range.2 (by decide)

/-- Slicing off the steps never panics, and parses them. -/
theorem slicedSteps_eq {rest : List Char} (begins : rest.head?.all isStep = true) :
    slicedSteps expr rest = .ok (parseSteps expr rest) := by
  induction length : rest.length using Nat.strong_induction_on generalizing expr rest with
  | _ n ih =>
    cases rest with
    | nil =>
      rw [slicedSteps, parseSteps]
    | cons op tail =>
      have ascii : Ascii op := ascii_isStep (by simpa using begins)
      have digits : ∀ c ∈ tail.takeWhile Char.isDigit, Ascii c := fun c inside =>
        ascii_isDigit (List.mem_takeWhile_imp inside)
      have first : sliced 1 (op :: tail) = .ok tail := by
        have cut := sliced_append [op] tail
        rwa [length_bytes_ascii (by simpa using ascii)] at cut
      have second : sliced (1 + (bytes (tail.takeWhile Char.isDigit)).length) (op :: tail) =
          .ok (tail.dropWhile Char.isDigit) := by
        have cut := sliced_append (op :: tail.takeWhile Char.isDigit) (tail.dropWhile Char.isDigit)
        rwa [List.cons_append, List.takeWhile_append_dropWhile, length_bytes_cons,
          utf8Size_ascii ascii] at cut
      rw [slicedSteps, parseSteps, first]
      dsimp only
      cases stepCount (tail.takeWhile Char.isDigit) with
      | error why => rfl
      | ok count =>
        have shorter : (tail.dropWhile Char.isDigit).length < n := by
          rw [← length, List.length_cons]
          exact Nat.lt_succ_of_le (List.dropWhile_suffix Char.isDigit).length_le
        dsimp only
        split
        · rename_i panics
          cases second.symm.trans panics
        · rename_i left found
          obtain rfl := Except.ok.inj (second.symm.trans found)
          simp only [bind, Except.bind]
          by_cases again : (tail.dropWhile Char.isDigit).head?.all isStep
          · rw [if_pos again, if_pos again]
            exact ih _ shorter again rfl
          · rw [if_neg again, if_neg again]

/-- **Parsing a revision never panics.** -/
theorem slicedRev_eq (s : String) : slicedRev s = .ok (parseRev s) := by
  have rest := sliced_append ((trim s.toList).takeWhile (!isStep ·))
    ((trim s.toList).dropWhile (!isStep ·))
  rw [List.takeWhile_append_dropWhile] at rest
  unfold slicedRev parseRev
  dsimp only
  rw [rest]
  cases parseBase ((trim s.toList).takeWhile (!isStep ·)) with
  | error why => rfl
  | ok expr =>
    refine slicedSteps_eq ?_
    cases behind : (trim s.toList).dropWhile (!isStep ·) with
    | nil => rfl
    | cons op tail =>
      have some_ : (trim s.toList).dropWhile (!isStep ·) ≠ [] := behind ▸ List.cons_ne_nil op tail
      have first := List.head_dropWhile_not (!isStep ·) some_
      simp only [behind, List.head_cons] at first
      simpa using first

/-! ### What does not panic -/

/-- A computation that does not panic. -/
def Fine {α : Type} (x : Except Fault α) : Prop := x ≠ .error .panic

variable {α β : Type} {x : Except Fault α} {f : α → Except Fault β} {a : α} {xs : List α}

@[simp] theorem fine_ok : Fine (.ok a) := nofun

theorem fine_bind : Fine (x >>= f) ↔ Fine x ∧ ∀ a, x = .ok a → Fine (f a) := by
  cases x with
  | error fault =>
    constructor
    · intro fine
      exact ⟨fun same => fine (congrArg Except.error (Except.error.inj same)), nofun⟩
    · exact fun both same => both.1 (congrArg Except.error (Except.error.inj same))
  | ok a =>
    constructor
    · rintro fine
      refine ⟨nofun, fun b same => ?_⟩
      obtain rfl := Except.ok.inj same
      exact fine
    · exact fun both => both.2 a rfl

theorem fine_reading {x : Except Error α} : Fine (reading x) := by
  cases x with
  | ok a => exact nofun
  | error error => exact fun same => by cases same

theorem fine_reading_bind {x : Except Error α} :
    Fine (reading x >>= f) ↔ ∀ a, x = .ok a → Fine (f a) := by
  rw [fine_bind, and_iff_right fine_reading]
  exact forall_congr' fun a => imp_congr_left reading_eq_ok

theorem fine_mapM (each : ∀ a ∈ xs, Fine (f a)) : Fine (xs.mapM f) := by
  induction xs with
  | nil => exact nofun
  | cons a xs ih =>
    obtain ⟨here, each⟩ := List.forall_mem_cons.mp each
    rw [List.mapM_cons]
    exact fine_bind.mpr ⟨here, fun b _ => fine_bind.mpr ⟨ih each, fun bs _ => nofun⟩⟩

/-- A text that can be cut at its twelfth byte. -/
def Cuts (text : String) : Prop :=
  (cutAt (min 12 (bytes text.toList).length) text.toList).isSome = true

instance {text : String} : Decidable (Cuts text) := inferInstanceAs (Decidable (_ = true))

theorem fine_shortened {text : String} : Fine (shortened text) ↔ Cuts text := by
  unfold shortened Cuts
  cases cutAt (min 12 (bytes text.toList).length) text.toList with
  | none => simp [Fine]
  | some cut => simp

theorem shortened_cuts {text : String} (cuts : Cuts text) : ∃ short, shortened text = .ok short := by
  unfold shortened
  obtain ⟨cut, found⟩ := Option.isSome_iff_exists.mp cuts
  exact ⟨_, by rw [found]; rfl⟩

/-- A list whose texts are cut one by one. -/
theorem fine_mapM_shortened {name : α → String} {line : α → String → Except Fault β}
    (fine : ∀ a short, ∃ b, line a short = .ok b) {xs : List α} :
    Fine (xs.mapM fun a => shortened (name a) >>= line a) ↔ ∀ a ∈ xs, Cuts (name a) := by
  refine ⟨fun run => ?_, fun cuts => fine_mapM fun a among => ?_⟩
  · induction xs with
    | nil => exact nofun
    | cons a xs ih =>
      rw [List.mapM_cons, fine_bind, fine_bind] at run
      have cuts := fine_shortened.mp run.1.1
      obtain ⟨short, cut⟩ := shortened_cuts cuts
      obtain ⟨b, lined⟩ := fine a short
      have rest := run.2 b (by rw [cut]; exact lined)
      exact List.forall_mem_cons.mpr ⟨cuts, ih (fine_bind.mp rest).1⟩
  · refine fine_bind.mpr ⟨fine_shortened.mpr (cuts a among), fun short _ => ?_⟩
    obtain ⟨b, lined⟩ := fine a short
    rw [lined]
    exact fine_ok

/-! ### Resolving -/

/-- The name that an expression looks up among the commits: the tip of HEAD, a full name or what a
ref points at. -/
def asked (history : GraphReader) (hint : Option String) : RevExpr → Except Error (Option String)
  | .head => headTip history hint
  | .name name => if isSha name then .ok (some name) else refTarget history name
  | .atDate start _ => asked history hint start
  | .ancestor start _ => asked history hint start

/-- A name that no commit is keyed by can be cut. -/
def Safe (history : GraphReader) (sha : String) : Prop :=
  nodeByKey history ("commit:" ++ sha) = .ok none → Cuts sha

variable {ops history : GraphReader} {hint : Option String} {sha rev : String} {c : CommitRef}
  {image node : NodeRecord} {cap : Option ℕ} {n : ℕ}

theorem fine_commit : Fine (commit history sha) ↔ Safe history sha := by
  rw [commit, fine_reading_bind]
  constructor
  · intro fine missing
    exact fine_shortened.mp (fine_bind.mp (fine none missing)).1
  · intro safe found read
    cases found with
    | some node => exact fine_ok
    | none => exact fine_bind.mpr ⟨fine_shortened.mpr (safe read), fun short _ => fine_ok⟩

theorem fine_head : Fine (head history hint) ↔ ∀ sha, headTip history hint = .ok (some sha) →
    Safe history sha := by
  rw [head, fine_reading_bind]
  constructor
  · exact fun fine sha tip => fine_commit.mp (fine (some sha) tip)
  · intro safe found read
    cases found with
    | some sha => exact fine_commit.mpr (safe sha read)
    | none => exact fine_ok

theorem fine_byName {name : String} : Fine (byName history name) ↔
    ∀ sha, asked history hint (.name name) = .ok (some sha) → Safe history sha := by
  rw [byName, asked]
  by_cases full : isSha name
  · rw [if_pos full, if_pos full, fine_commit]
    constructor
    · intro safe sha same
      rwa [← Option.some.inj (Except.ok.inj same)]
    · exact fun safe => safe name rfl
  · rw [if_neg full, if_neg full, fine_reading_bind]
    refine ⟨fun fine sha points => fine_commit.mp (fine (some sha) points), fun safe found read => ?_⟩
    cases found with
    | some sha => exact fine_commit.mpr (safe sha read)
    | none =>
      dsimp only
      split_ifs
      · exact fine_ok
      · refine fine_reading_bind.mpr fun commits _ => ?_
        split <;> exact fine_ok
      · exact fine_ok

theorem fine_beforeWithin {limit : ℤ} : Fine (beforeWithin history limit n node) := by
  induction n generalizing node with
  | zero => exact fine_ok
  | succ n ih =>
    rw [beforeWithin]
    split_ifs
    · exact fine_ok
    · refine fine_reading_bind.mpr fun found _ => ?_
      cases found with
      | some next => exact ih
      | none => exact fine_ok

theorem fine_hop {order taken : ℕ} : Fine (hop history order n taken node) := by
  induction n generalizing node taken with
  | zero => exact fine_ok
  | succ n ih =>
    rw [hop]
    refine fine_reading_bind.mpr fun found _ => ?_
    cases found with
    | some next => exact ih
    | none => exact fine_ok

theorem fine_step {back : Step} : Fine (step history node back) := by
  match back with
  | .back n => exact fine_hop
  | .parent 0 => exact fine_ok
  | .parent (n + 1) => exact fine_hop

/-- **When a walk does not panic**: the name that it looks up can be cut if it is missed. -/
theorem fine_eval : Fine (eval history hint expr) ↔
    ∀ sha, asked history hint expr = .ok (some sha) → Safe history sha := by
  induction expr with
  | head => exact fine_head
  | name name => exact fine_byName
  | atDate start instant ih =>
    rw [eval, fine_bind, ih, asked]
    refine and_iff_left_of_imp fun _ found _ => ?_
    cases found with
    | one node => exact fine_beforeWithin
    | many nodes => exact fine_ok
    | none why => exact fine_ok
  | ancestor start back ih =>
    rw [eval, fine_bind, ih, asked]
    refine and_iff_left_of_imp fun _ found _ => ?_
    cases found with
    | one node => exact fine_step
    | many nodes => exact fine_ok
    | none why => exact fine_ok

theorem fine_commitHeader : Fine (commitHeader c rev) ↔ Cuts c.sha := by
  rw [commitHeader, fine_bind, fine_shortened]
  exact and_iff_left_of_imp fun _ short _ => fine_ok

theorem fine_ambiguous {commits : List CommitRef} :
    Fine (ambiguous rev commits) ↔ ∀ c ∈ commits.take candidateCap, Cuts c.sha := by
  rw [ambiguous, fine_bind]
  refine Iff.trans (and_iff_left_of_imp fun _ lines _ => fine_ok) ?_
  exact fine_mapM_shortened fun c short => ⟨_, rfl⟩

theorem fine_commitLine : Fine (commitLine c) ↔ Cuts c.sha := by
  rw [commitLine, fine_bind, fine_shortened]
  exact and_iff_left_of_imp fun _ short _ => fine_ok

/-- So many of a list, or all. -/
def upTo {α : Type} : Option ℕ → List α → List α
  | some n, list => list.take n
  | none, list => list

theorem upTo_singleton (some_ : cap ≠ some 0) : upTo cap [a] = [a] := by
  cases cap with
  | none => rfl
  | some n =>
    exact List.take_of_length_le (Nat.one_le_iff_ne_zero.mpr fun zero => some_ (congrArg some zero))

theorem upTo_map {f : α → β} {list : List α} : upTo cap (list.map f) = (upTo cap list).map f := by
  cases cap with
  | none => rfl
  | some n => exact List.map_take.symm

/-- The names of the commits that an expression names, as far as they are listed, can be cut. -/
def NamesCut (history : GraphReader) (hint : Option String) (expr : RevExpr) (cap : Option ℕ) :
    Prop :=
  ∀ nodes, Names history hint expr nodes → ∀ node ∈ upTo cap nodes, Cuts (commitRef node).sha

/-- A text of an answer in which the listed commits are printed by their names, and nothing else is
cut. -/
structure Prints (text : RevAnswer → Except Fault String) (cap : Option ℕ) : Prop where
  some_ : cap ≠ some 0
  one : ∀ c, Fine (text (.one c)) ↔ Cuts c.sha
  many : ∀ cs, Fine (text (.many cs)) ↔ ∀ c ∈ upTo cap cs, Cuts c.sha
  none : ∀ why, Fine (text (.none why))

variable {print : RevAnswer → Except Fault String} {cap : Option ℕ} {expr : RevExpr}
  {nodes : List NodeRecord}

theorem Prints.found (prints : Prints print cap) :
    (∀ found, eval history hint expr = .ok found → Fine (print found.answer)) ↔
    NamesCut history hint expr cap := by
  have answers := @answers_eval history hint expr
  constructor
  · intro fine nodes named
    match nodes with
    | [] =>
      intro node among
      cases cap <;> simp [upTo] at among
    | [node] =>
      rw [upTo_singleton prints.some_]
      exact List.forall_mem_singleton.mpr ((prints.one _).mp (fine _ ((answers.one node).mpr named)))
    | a :: b :: nodes =>
      have cut := (prints.many _).mp (fine _ ((answers.many (a :: b :: nodes)).mpr ⟨named, by simp⟩))
      rw [upTo_map] at cut
      exact fun node among => cut _ (List.mem_map_of_mem among)
  · intro cuts found ended
    cases found with
    | none why => exact prints.none why
    | one node =>
      refine (prints.one _).mpr (cuts [node] ((answers.one node).mp ended) node ?_)
      rw [upTo_singleton prints.some_]
      exact List.mem_singleton_self node
    | many nodes =>
      refine (prints.many _).mpr fun c among => ?_
      rw [upTo_map] at among
      obtain ⟨node, inside, rfl⟩ := List.mem_map.mp among
      exact cuts nodes ((answers.many nodes).mp ended).1 node inside

/-- The texts of a revision that are cut can be: the name that it looks up if it is missed, and the
names that it finds as far as they are listed. -/
def CleanRev (history : GraphReader) (hint : Option String) (rev : String) (cap : Option ℕ) : Prop :=
  ∀ expr, parseRev rev = .ok expr →
    (∀ sha, asked history hint expr = .ok (some sha) → Safe history sha) ∧
    NamesCut history hint expr cap

/-- **When an answer about a revision can be made and printed.** -/
theorem Prints.resolved (prints : Prints print cap) :
    Fine (resolveRev history hint rev >>= print) ↔ CleanRev history hint rev cap := by
  rw [fine_bind, CleanRev]
  cases parsed : parseRev rev with
  | error why =>
    have resolved : resolveRev history hint rev = .ok (.none why) := by
      rw [resolveRev, parsed]
      rfl
    rw [resolved]
    refine iff_of_true ⟨fine_ok, fun answer same => ?_⟩ nofun
    rw [← Except.ok.inj same]
    exact prints.none why
  | ok expr =>
    rw [resolveRev_eval parsed]
    simp only [Except.ok.injEq, forall_eq']
    rw [← prints.found, ← fine_eval]
    cases eval history hint expr with
    | error fault => simp [Fine, Except.map]
    | ok found => simp [Except.map]

theorem prints_text : Prints (RevAnswer.text rev) (some candidateCap) where
  some_ := nofun
  one _ := fine_commitHeader
  many _ := fine_ambiguous
  none _ := fine_ok

theorem prints_stated (revision : String) :
    Prints (fun answer => (answer.provenance revision).stated) none where
  some_ := nofun
  one _ := fine_commitLine
  many cs := by
    show Fine (Provenance.stated (.candidates cs)) ↔ _
    rw [Provenance.stated, fine_bind]
    refine Iff.trans (and_iff_left_of_imp fun _ shorts _ => fine_ok) ?_
    have cut := @fine_mapM_shortened CommitRef String CommitRef.sha (fun _ short => .ok short)
      (fun _ short => ⟨short, rfl⟩) cs
    refine Iff.trans ?_ cut
    refine iff_of_eq (congrArg Fine (congrArg (cs.mapM ·) (funext fun c => ?_)))
    cases shortened c.sha <;> rfl
  none _ := fine_ok

/-! ### Images -/

/-- The texts of an image that are cut can be: what its revision looks up and names, or without one
its digest. -/
def CleanImage (history : Option GraphReader) (image : NodeRecord) : Prop :=
  match propStr image.properties "revision" with
  | some revision => ∀ h ∈ history, CleanRev h none revision none
  | none => ∀ digest, propStr image.properties "digest" = some digest →
      ∀ algo hex, splitOnce [':'] digest.toList = some (algo, hex) → Cuts (String.ofList hex)

theorem fine_shortDigest {digest : String} : Fine (shortDigest digest) ↔
    ∀ algo hex, splitOnce [':'] digest.toList = some (algo, hex) → Cuts (String.ofList hex) := by
  unfold shortDigest
  cases splitOnce [':'] digest.toList with
  | none => exact iff_of_true fine_ok nofun
  | some parts =>
    obtain ⟨algo, hex⟩ := parts
    dsimp only
    rw [fine_bind, fine_shortened]
    constructor
    · intro fine algo' hex' same
      obtain ⟨-, rfl⟩ := Prod.mk.inj (Option.some.inj same)
      exact fine.1
    · exact fun cuts => ⟨cuts algo hex rfl, fun short _ => fine_ok⟩

/-- **When the provenance of an image can be found and printed.** -/
theorem fine_provenance {history : Option GraphReader} :
    Fine (provenance image history >>= Provenance.stated) ↔ CleanImage history image := by
  rw [CleanImage]
  cases carried : propStr image.properties "revision" with
  | some revision =>
    cases history with
    | none =>
      rw [provenance, carried]
      exact iff_of_true fine_ok (by rintro _ ⟨⟩)
    | some history =>
      rw [provenance_resolved carried]
      simp only [Option.mem_some_iff, forall_eq']
      rw [← (prints_stated revision).resolved]
      cases resolveRev history none revision <;> rfl
  | none =>
    rw [provenance, carried]
    dsimp only
    cases propStr image.properties "digest" with
    | none =>
      cases propStr image.properties "tag" with
      | none => exact iff_of_true fine_ok (by rintro _ ⟨⟩)
      | some tag => exact iff_of_true fine_ok (by rintro _ ⟨⟩)
    | some digest =>
      simp only [Option.some.injEq, forall_eq']
      rw [← fine_shortDigest]
      show Fine (Provenance.stated (.pinned digest)) ↔ _
      rw [Provenance.stated, fine_bind]
      exact and_iff_left_of_imp fun _ short _ => fine_ok

/-! ### Planes -/

/-- A computation that does not panic, and what it returns. -/
def calm : Outcome (Except Fault) where
  ends x post := Fine x ∧ ∀ a, x = .ok a → post a
  pure := fun holds => ⟨fine_ok, fun _ same => Except.ok.inj same ▸ holds⟩
  bind := by
    intro α β x f mid post ends next
    refine ⟨fine_bind.mpr ⟨ends.1, fun a came => (next a (ends.2 a came)).1⟩, fun b came => ?_⟩
    obtain ⟨a, first, rest⟩ := bind_eq_ok.mp came
    exact (next a (ends.2 a first)).2 b rest
  mono := fun ends weaker => ⟨ends.1, fun a came => weaker a (ends.2 a came)⟩

theorem calm_mapM {post : β → Prop} (each : ∀ a ∈ xs, calm.ends (f a) post) :
    calm.ends (xs.mapM f) fun ys => ∀ b ∈ ys, post b :=
  ⟨fine_mapM fun a among => (each a among).1, fun _ came => mapM_forall came fun a among b found =>
    (each a among).2 b found⟩

theorem calm_reading {x : Except Error α} {post : α → Prop} (read : ∀ a, x = .ok a → post a) :
    calm.ends (reading x) post :=
  ⟨fine_reading, fun a same => read a (reading_eq_ok.mp same)⟩

/-- A plane reads this node. -/
def Held (ops : GraphReader) (node : NodeRecord) : Prop := ∃ id, ops.node id = .ok (some node)

/-- The nodes that ids are read to are held. -/
theorem held_of_mapM {read : α → Except Error (Option NodeRecord)}
    {found : List (Option NodeRecord)} (mapped : xs.mapM read = .ok found)
    (each : ∀ x ∈ xs, ∀ node, read x = .ok (some node) → Held ops node) :
    ∀ node ∈ found.reduceOption, Held ops node := by
  have held : ∀ y ∈ found, ∀ node, y = some node → Held ops node :=
    mapM_forall mapped fun x among y came node same => each x among node (same ▸ came)
  exact fun node inside => held _ (List.reduceOption_mem_iff.mp inside) node rfl

theorem held_nodesOf {label : String} (read : nodesOf ops label = .ok nodes) :
    ∀ node ∈ nodes, Held ops node := by
  obtain ⟨ids, -, rest⟩ := bind_eq_ok.mp read
  obtain ⟨found, mapped, same⟩ := bind_eq_ok.mp rest
  obtain rfl := Except.ok.inj same
  exact held_of_mapM mapped fun id _ node came => ⟨id, came⟩

theorem held_along {start : NodeRecord} {dir : Dir} {ty : String}
    (read : along ops start dir ty = .ok nodes) : ∀ node ∈ nodes, Held ops node := by
  obtain ⟨nbs, -, rest⟩ := bind_eq_ok.mp read
  obtain ⟨found, mapped, same⟩ := bind_eq_ok.mp rest
  obtain rfl := Except.ok.inj same
  exact held_of_mapM mapped fun nb _ node came => ⟨nb.node, came⟩

theorem held_nodeByKey {key : String} (read : nodeByKey ops key = .ok (some node)) :
    Held ops node := by
  obtain ⟨found, -, rest⟩ := bind_eq_ok.mp read
  cases found with
  | none => cases rest
  | some id => exact ⟨id, rest⟩

/-- A provenance that can be printed. -/
def Printable (p : Provenance) : Prop := Fine p.stated

variable {history : Option GraphReader}

theorem calm_provenance (clean : CleanImage history image) :
    calm.ends (provenance image history) Printable :=
  fine_bind.mp (fine_provenance.mpr clean)

theorem calm_runsRow {through : Option String} (clean : CleanImage history image) :
    calm.ends (runsRow image through history) fun row => Printable row.provenance :=
  calm.bind (calm_provenance clean) fun _ printable => calm.pure printable

theorem calm_runsOf (clean : ∀ image, Held ops image → CleanImage history image)
    (held : Held ops node) :
    calm.ends (runsOf ops history node) fun rows => ∀ row ∈ rows, Printable row.provenance := by
  unfold runsOf
  split_ifs
  · exact calm.bind (calm_runsRow (clean node held)) fun row printable =>
      calm.pure (List.forall_mem_singleton.mpr printable)
  · refine calm.bind (calm_reading fun nodes => held_along) fun nodes held => ?_
    refine calm.bind (calm_mapM fun image among => calm_runsRow (clean image (held image among)))
      fun direct named => ?_
    refine calm.bind (calm_reading fun nodes => held_along) fun mids _ => ?_
    have across : calm.ends (mids.mapM fun mid => do
        (← reading (along ops mid .out "USES_IMAGE")).mapM fun image =>
          runsRow image (some (keyOf mid)) history)
        fun lists => ∀ rows ∈ lists, ∀ row ∈ rows, Printable row.provenance := by
      refine calm_mapM fun mid _ => calm.bind (calm_reading fun nodes => held_along)
        fun nodes held => ?_
      exact calm_mapM fun image among => calm_runsRow (clean image (held image among))
    refine calm.bind across fun lists through =>
      calm.pure (List.forall_mem_append.mpr ⟨named, fun row among => ?_⟩)
    obtain ⟨rows, member, inside⟩ := List.mem_flatten.mp among
    exact through rows member row inside

theorem calm_running (clean : ∀ image, Held ops image → CleanImage history image) (key : String) :
    calm.ends (running ops history key) fun out => ∀ run ∈ out, ∀ row ∈ run.images,
    Printable row.provenance := by
  refine calm.bind (calm_reading fun found read => (read : nodeByKey ops key = .ok found))
    fun found read => ?_
  cases found with
  | none => exact calm.pure nofun
  | some node =>
    refine calm.bind (calm_runsOf clean (held_nodeByKey read)) fun rows printable =>
      calm.pure fun run same row among => ?_
    obtain rfl := Option.some.inj same
    exact printable row (List.mem_mergeSort.mp ((List.destutter_sublist _ _).subset among))

theorem calm_images (clean : ∀ image, Held ops image → CleanImage history image)
    (sha : Option String) :
    calm.ends (images ops history sha) fun rows => ∀ row ∈ rows, Printable row.provenance := by
  have row : ∀ image, Held ops image → calm.ends (imageRow ops history image) fun row =>
    Printable row.provenance :=
    fun image held => calm.bind (calm_provenance (clean image held)) fun p printable =>
      calm.bind (calm_reading fun users _ => trivial) fun users (_ : True) => calm.pure printable
  refine calm.bind (calm_reading fun nodes => held_nodesOf) fun nodes held => ?_
  refine calm.bind (calm_mapM fun image among =>
    row image (held image (List.mem_of_mem_filter among)))
    fun rows printable => calm.pure fun row among => printable row (List.mem_mergeSort.mp among)

/-- Whatever is asked of two planes, there is an answer or an error, and a text of every answer. -/
structure NeverPanics (ops : GraphReader) (history : Option GraphReader) : Prop where
  resolve : ∀ h ∈ history, ∀ hint : Option String, (∀ sha ∈ hint, isSha sha) → ∀ rev,
    Fine (resolveRev h hint rev >>= RevAnswer.text rev)
  provenance : ∀ image, Held ops image → Fine (Ops.provenance image history >>= Provenance.stated)
  running : ∀ key, Fine (Ops.running ops history key) ∧
    ∀ run, Ops.running ops history key = .ok (some run) →
    ∀ row ∈ run.images, Fine row.provenance.stated
  images : ∀ sha, Fine (Ops.images ops history sha) ∧
    ∀ rows, Ops.images ops history sha = .ok rows → ∀ row ∈ rows, Fine row.provenance.stated

/-- The texts of two planes that are cut can be. -/
structure Clean (ops : GraphReader) (history : Option GraphReader) : Prop where
  revisions : ∀ h ∈ history, ∀ hint : Option String, (∀ sha ∈ hint, isSha sha) → ∀ rev,
    CleanRev h hint rev (some candidateCap)
  images : ∀ image, Held ops image → CleanImage history image

/-- **When provenance answers never panic.** Parsing a revision or a date never does. The answers
about two planes and their texts do not for just the planes whose texts can be cut at the twelfth
byte: the names that a revision looks up where no commit has them, the names of the commits that it
finds, and the digests of the images that have no revision. -/
theorem answers_return_iff (ops : GraphReader) (history : Option GraphReader) :
    (∀ rev, slicedRev rev = .ok (parseRev rev)) ∧
    (∀ text, (rfc3339ToEpochMs text).run ≠ .error ⟨⟩ ∧ (dateEndOfDay text).run ≠ .error ⟨⟩) ∧
    (NeverPanics ops history ↔ Clean ops history) := by
  refine ⟨slicedRev_eq, fun text => ⟨not_panic rfc3339_ends, not_panic dateEndOfDay_ends⟩,
    fun never => ?_, fun clean => ?_⟩
  · exact ⟨fun h among hint full rev => prints_text.resolved.mp (never.resolve h among hint full rev),
      fun image held => fine_provenance.mp (never.provenance image held)⟩
  · refine ⟨fun h among hint full rev =>
      prints_text.resolved.mpr (clean.revisions h among hint full rev),
      fun image held => fine_provenance.mpr (clean.images image held), fun key =>
        ?_, calm_images clean.images⟩
    obtain ⟨fine, printable⟩ := calm_running clean.images key
    exact ⟨fine, fun run came => printable _ came run rfl⟩

/-- An image with a digest whose twelfth byte is inside of a character, beside a history with a tag
that points at no commit, by such a name. -/
def cutStore : Database := (Database.new plainHost 0).run plainHost
  [(1, .createPlane "acme_git" ∅),
    (2, .write 1 [.createNodeWithKey "tag:v1" ["Tag"]
      ((text "name" "v1").insert "target" (.mk none (.str "release-v1.é")))]
      true),
    (3, .write 0 [.createNodeWithKey "acme/api" ["Image"] (text "digest" "sha256:0123456789aé")]
      true)]

def panics {α : Type} : Except Fault α → Bool
  | .error .panic => true
  | _ => false

theorem eq_panic_of_panics (panicked : panics x = true) : x = .error .panic := by
  match x with
  | .error .panic => rfl

/-- The text of the image's provenance panics, and so does resolving the tag. -/
theorem answers_panic :
    ¬ NeverPanics (plainReader cutStore.tables 0) (some (plainReader cutStore.tables 1)) ∧
    resolveRev (plainReader cutStore.tables 1) none "v1" = .error .panic := by
  obtain ⟨nodes, read, stated⟩ :=
    @exists_of_toOption _ _ (nodesOf (plainReader cutStore.tables 0) "Image")
    (fun nodes => nodes.length = 1 && nodes.all fun image =>
      panics (provenance image (some (plainReader cutStore.tables 1)) >>= Provenance.stated))
    (by decide +kernel)
  rw [Bool.and_eq_true, decide_eq_true_eq, List.all_eq_true] at stated
  obtain ⟨image, rfl⟩ := List.length_eq_one_iff.mp stated.1
  have among := List.mem_singleton_self image
  refine ⟨fun never => ?_, eq_panic_of_panics (by decide +kernel)⟩
  exact never.provenance image (held_nodesOf read image among)
    (eq_panic_of_panics (stated.2 image among))

end DrStrange.Ops
