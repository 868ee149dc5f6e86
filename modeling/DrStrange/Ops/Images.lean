/-
**Images and the commits that built them.**

Forward, the revision that an image carries is resolved like any other (`provenance`); backward, the
images of a commit are those whose revision its name starts with (`images`). The two agree for every
commit on a revision of four hex digits or more that is neither a full name nor a ref's; on any other
they agree just where what it names is what it abbreviates (`provenance_agrees`).
-/

import DrStrange.Api.Planes
import DrStrange.Compute.Walks
import DrStrange.Graph.Labels
import DrStrange.Ops.Rev

namespace DrStrange.Ops

open DrStrange.Graph DrStrange.Compute DrStrange.Lib

/-! ### The code -/

/-- Where an image comes from. -/
inductive Provenance where
  | commit (commit : CommitRef)
  | candidates (commits : List CommitRef)
  | elsewhere (revision : String)
  | floating (tag : String)
  | pinned (digest : String)
  | untagged
  | noHistory (revision : String)
  deriving DecidableEq, Repr

def provenance (image : NodeRecord) (history : Option GraphReader) : Except Fault Provenance :=
  match propStr image.properties "revision" with
  | none => .ok <| match propStr image.properties "digest", propStr image.properties "tag" with
      | some digest, _ => .pinned digest
      | none, some tag => .floating tag
      | none, none => .untagged
  | some revision =>
    match history with
    | none => .ok (.noHistory revision)
    | some history => do
      match ← resolveRev history none revision with
      | .one commit => return .commit commit
      | .many commits => return .candidates commits
      | .none _ => return .elsewhere revision

/-- One thing that runs an image. -/
structure Use where
  thing : String
  kind : String
  nameSpace : Option String
  through : Option String
  deriving DecidableEq, Repr

/-- A row of `images`. -/
structure ImageRow where
  reference : String
  provenance : Provenance
  usedBy : List Use
  deriving DecidableEq, Repr

def keyOf (node : NodeRecord) : String := node.externalKey.getD "(no key)"

def kindOf (node : NodeRecord) : String :=
  ((propStr node.properties "kind").or node.labels.head?).getD ""

/-- One hop along the edges of a type. -/
def along (ops : GraphReader) (start : NodeRecord) (dir : Dir) (ty : String) :
    Except Error (List NodeRecord) := do
  let nodes ← (← ops.neighbors start.id dir (some ty)).mapM fun nb => ops.node nb.node
  return nodes.reduceOption

/-- How one thing uses the image. -/
def useRow (ops : GraphReader) (thing : NodeRecord) (through : Option String) : Except Error Use := do
  return ⟨keyOf thing, kindOf thing, (← along ops thing .out "IN_NAMESPACE").head?.map keyOf, through⟩

/-- By the thing, and then by what it runs the image through; nothing comes first. -/
def Use.le (a b : Use) : Bool :=
  a.thing < b.thing || (a.thing = b.thing && match a.through, b.through with
    | none, _ => true
    | some _, none => false
    | some a, some b => a ≤ b)

/-- Everything that runs an image, through a container or directly. -/
def usersOf (ops : GraphReader) (image : NodeRecord) : Except Error (List Use) := do
  let uses ← (← along ops image .in "USES_IMAGE").mapM fun user => do
    let owners ← along ops user .in "RUNS"
    if owners.isEmpty then return [← useRow ops user none]
    else owners.mapM fun owner => useRow ops owner (some (keyOf user))
  return (uses.flatten.mergeSort Use.le).destutter (· ≠ ·)

def imageRow (ops : GraphReader) (history : Option GraphReader) (image : NodeRecord) :
    Except Fault ImageRow := do
  let provenance ← provenance image history
  return ⟨keyOf image, provenance, ← reading (usersOf ops image)⟩

/-- An image is wanted if the name of the commit, if there is one, starts with its revision. -/
def wanted (sha : Option String) (image : NodeRecord) : Bool :=
  sha.all fun sha => (propStr image.properties "revision").any fun revision =>
    (lower revision).isPrefixOf (lower sha)

/-- The images asked for, by reference. -/
def images (ops : GraphReader) (history : Option GraphReader) (sha : Option String) :
    Except Fault (List ImageRow) := do
  let rows ← ((← reading (nodesOf ops "Image")).filter (wanted sha)).mapM (imageRow ops history)
  return rows.mergeSort fun a b => a.reference ≤ b.reference

/-! ### Agreement -/

/-- The history has a commit of this full name. -/
def IsCommit (history : GraphReader) (sha : String) : Prop :=
  isSha sha ∧ ∃ commits, nodesOf history "Commit" = .ok commits ∧
    ∃ node ∈ commits, propStr node.properties "sha" = some sha

/-- A plane has this image. -/
def IsImage (ops : GraphReader) (image : NodeRecord) : Prop :=
  ∃ nodes, nodesOf ops "Image" = .ok nodes ∧ image ∈ nodes

/-- An image is listed under its reference. -/
def Listed (rows : List ImageRow) (reference : String) : Prop :=
  ∃ row ∈ rows, row.reference = reference

/-- A provenance is a commit, or has it among its candidates. -/
def Provenance.NamesCommit (sha : String) : Provenance → Prop
  | .commit built => built.sha = sha
  | .candidates fitting => ∃ c ∈ fitting, c.sha = sha
  | _ => False

/-- The name of a commit starts with a revision, in either case. -/
def Abbreviates (revision sha : String) : Prop := lower revision <+: sha.toList

/-- The node under the key of one name carries another. -/
def Carries (history : GraphReader) (target sha : String) : Prop :=
  ∃ node, Keyed history target node ∧ (commitRef node).sha = sha

/-- A revision that is not of hex digits is an expression that names a commit. -/
def Reaches (history : GraphReader) (revision sha : String) : Prop :=
  ∃ expr nodes, parseRev revision = .ok expr ∧ Names history none expr nodes ∧
    ∃ node ∈ nodes, (commitRef node).sha = sha

/-- What a revision has to be like for both directions to agree on a commit. -/
def Agreeable (history : GraphReader) (sha revision : String) : Prop :=
  if revision.toList.all hexDigit then
    if isSha revision then Abbreviates revision sha ↔ Carries history revision sha
    else match refTarget history revision with
      | .ok (some target) => Abbreviates revision sha ↔ Carries history target sha
      | .ok none => minPrefix ≤ revision.length ∨ ¬ Abbreviates revision sha
      | .error _ => ¬ Abbreviates revision sha
  else ¬ Reaches history revision sha

/-! ### Hexadecimal texts -/

variable {c : Char} {revision sha reference : String} {history : GraphReader} {t : ℤ}

theorem lowerHex_iff : lowerHex c ↔ 48 ≤ c.toNat ∧ c.toNat ≤ 57 ∨ 97 ≤ c.toNat ∧ c.toNat ≤ 102 := by
  simp only [lowerHex, Char.isDigit, Bool.or_eq_true, Bool.and_eq_true, decide_eq_true_eq,
    Char.le_def, ge_iff_le]
  exact Iff.rfl

theorem hexDigit_iff : hexDigit c ↔ lowerHex c ∨ 65 ≤ c.toNat ∧ c.toNat ≤ 70 := by
  simp only [hexDigit, Bool.or_eq_true, Bool.and_eq_true, decide_eq_true_eq, Char.le_def]
  exact Iff.rfl

theorem toNat_toLower : c.toLower.toNat =
    if 65 ≤ c.toNat ∧ c.toNat ≤ 90 then c.toNat + 32 else c.toNat := by
  unfold Char.toLower
  have same : (c.val ≥ 'A'.val ∧ c.val ≤ 'Z'.val) ↔ 65 ≤ c.toNat ∧ c.toNat ≤ 90 := Iff.rfl
  split_ifs with upper upper' upper'
  · have sum := UInt32.toNat_add c.val 32
    change (c.val + 32).toNat = c.val.toNat + 32
    rw [sum]
    have range : 65 ≤ c.val.toNat ∧ c.val.toNat ≤ 90 := same.mp upper
    have sum : (c.val + 32).toNat = (c.val.toNat + 32) % 2 ^ 32 := UInt32.toNat_add c.val 32
    change (c.val + 32).toNat = c.val.toNat + 32
    omega
  · exact absurd (same.mp upper) upper'
  · exact absurd (same.mpr upper') upper
  · rfl

theorem hexDigit_toLower : hexDigit c.toLower = hexDigit c := by
  rw [Bool.eq_iff_iff, hexDigit_iff, hexDigit_iff, lowerHex_iff, lowerHex_iff, toNat_toLower]
  split_ifs <;> omega

theorem toLower_lowerHex (hex : lowerHex c) : c.toLower = c := by
  have range := lowerHex_iff.mp hex
  have same : c.toLower.toNat = c.toNat := by
    rw [toNat_toLower, if_neg (by omega)]
  exact Char.toNat_inj.mp same

/-- A hex digit is none of the characters that mean something in a revision. -/
theorem hexDigit_plain (hex : hexDigit c) :
    whiteSpace c = false ∧ isStep c = false ∧ c ∉ ['}', '-', '@', 'H'] := by
  have range := hexDigit_iff.mp hex
  rw [lowerHex_iff] at range
  refine ⟨?_, ?_, ?_⟩
  · simp only [whiteSpace, Bool.or_eq_false_iff, Bool.and_eq_false_iff, decide_eq_false_iff_not]
    refine ⟨⟨by omega, ?_⟩, by omega⟩
    rw [List.elem_eq_mem, decide_eq_false_iff_not]
    simp only [List.mem_cons, List.not_mem_nil, or_false]
    omega
  · simp only [isStep, Bool.or_eq_false_iff, decide_eq_false_iff_not]
    constructor <;> (rintro rfl; revert range; decide)
  · intro special
    fin_cases special <;> (revert range; decide)

theorem all_lower : (lower revision).all hexDigit = revision.toList.all hexDigit := by
  rw [lower, List.all_map]
  exact congrArg _ (funext fun c => hexDigit_toLower)

theorem length_lower : (lower revision).length = revision.length :=
  List.length_map _

theorem lower_sha (full : isSha sha) : lower sha = sha.toList := by
  rw [isSha, Bool.and_eq_true, List.all_eq_true] at full
  exact (List.map_congr_left fun c inside => toLower_lowerHex (full.2 c inside)).trans (List.map_id _)

/-- What abbreviates a full name is of hex digits. -/
theorem Abbreviates.hex (short : Abbreviates revision sha) (full : isSha sha) :
    revision.toList.all hexDigit := by
  rw [isSha, Bool.and_eq_true, List.all_eq_true] at full
  rw [← all_lower, List.all_eq_true]
  intro c inside
  exact hexDigit_iff.mpr (.inl (full.2 c (short.subset inside)))

/-- A date has a dash. -/
theorem dash_of_checked {run : Checked ℤ} {text : List Char} {reads : ℤ → Prop}
    (ends : checked.ends run reads) (dash : ∀ t, reads t → '-' ∈ text)
    (found : run.run.toOption.join = some t) : '-' ∈ text := by
  obtain ⟨result, ended, holds⟩ := ends
  rw [ended] at found
  exact dash t (holds t found)

theorem DateWords.dash {words : DateWords} : '-' ∈ words.text := by simp [DateWords.text]

theorem instant_dash {text : List Char} (found : instant text = some t) : '-' ∈ text := by
  rcases Option.or_eq_some_iff.mp found with day | ⟨-, time⟩
  · refine dash_of_checked dateEndOfDay_ends (fun t ends => ?_) day
    obtain ⟨words, -, -, -, rfl, -⟩ := ends
    exact DateWords.dash
  · refine dash_of_checked rfc3339_ends (fun t ends => ?_) time
    obtain ⟨words, -, rfl, -⟩ := ends
    exact List.mem_append_left _ DateWords.dash

/-- Hex digits are a name as they stand. -/
theorem parseRev_hex (given : revision ≠ "") (hex : revision.toList.all hexDigit) :
    parseRev revision = .ok (.name revision) := by
  have plain : ∀ c ∈ revision.toList, whiteSpace c = false ∧ isStep c = false ∧
      c ∉ ['}', '-', '@', 'H'] :=
    fun c inside => hexDigit_plain (List.all_eq_true.mp hex c inside)
  have absent : ∀ c ∈ ['}', '-', '@', 'H'], c ∉ revision.toList :=
    fun c special inside => (plain c inside).2.2 special
  have bare : revision.toList ≠ [] := by simpa using given
  have trimmed : trim revision.toList = revision.toList := by
    have kept : ∀ text : List Char, (∀ c ∈ text, whiteSpace c = false) →
        text.dropWhile whiteSpace = text := by
      intro text black
      cases text with
      | nil => rfl
      | cons c text => rw [List.dropWhile_cons, if_neg (by simp [black c List.mem_cons_self])]
    have black : ∀ c ∈ revision.toList, whiteSpace c = false := fun c inside => (plain c inside).1
    rw [trim, kept _ black, List.rdropWhile, kept _ fun c inside =>
      black c (List.mem_reverse.mp inside),
      List.reverse_reverse]
  have whole : revision.toList.takeWhile (!isStep ·) = revision.toList :=
    List.takeWhile_eq_self_iff.mpr fun c inside => by simp [(plain c inside).2.1]
  have rest : revision.toList.dropWhile (!isStep ·) = [] :=
    List.dropWhile_eq_nil_iff.mpr fun c inside => by simp [(plain c inside).2.1]
  have undated : dated revision.toList = none := by
    unfold dated
    rw [if_neg]
    intro closed
    exact absent '}' (by simp) (List.mem_of_getLast? closed)
  have base : parseBase revision.toList = .ok (.name revision) := by
    have headless : ¬ (revision.toList = "HEAD".toList ∨ revision.toList = "@".toList) := by
      rintro (same | same)
      · exact absent 'H' (by simp) (same ▸ by simp)
      · exact absent '@' (by simp) (same ▸ by simp)
    have timeless : instant revision.toList = none :=
      Option.eq_none_iff_forall_ne_some.mpr fun t found => absent '-' (by simp) (instant_dash found)
    rw [parseBase, if_neg bare]
    split
    · rename_i name date found
      cases undated.symm.trans found
    · rw [if_neg headless, timeless]
      simp
  unfold parseRev
  dsimp only
  rw [trimmed, whole, rest, base]
  exact parseSteps.eq_1 _

/-! ### Forward -/

variable {image : NodeRecord}

/-- What an expression names is one commit, or several. -/
theorem exists_named {names : List NodeRecord → Prop} {holds : NodeRecord → Prop} :
    (∃ nodes, names nodes ∧ ∃ node ∈ nodes, holds node) ↔
      (∃ node, names [node] ∧ holds node) ∨
        ∃ nodes, (names nodes ∧ 1 < nodes.length) ∧ ∃ node ∈ nodes, holds node := by
  constructor
  · rintro ⟨nodes, named, node, inside, here⟩
    match nodes with
    | [only] => exact .inl ⟨only, named, List.mem_singleton.mp inside ▸ here⟩
    | a :: b :: nodes => exact .inr ⟨_, ⟨named, by simp⟩, node, inside, here⟩
  · rintro (⟨node, named, here⟩ | ⟨nodes, ⟨named, -⟩, here⟩)
    · exact ⟨[node], named, node, List.mem_singleton_self node, here⟩
    · exact ⟨nodes, named, here⟩

def Found.answer : Found → RevAnswer
  | .one node => .one (commitRef node)
  | .many nodes => .many (nodes.map commitRef)
  | .none why => .none why

def RevAnswer.provenance (revision : String) : RevAnswer → Provenance
  | .one commit => .commit commit
  | .many commits => .candidates commits
  | .none _ => .elsewhere revision

theorem resolveRev_eval {hint : Option String} {expr : RevExpr}
    (parsed : parseRev revision = .ok expr) :
    resolveRev history hint revision = (eval history hint expr).map Found.answer := by
  unfold resolveRev
  rw [parsed]
  dsimp only
  cases eval history hint expr with
  | error fault => rfl
  | ok found => cases found <;> rfl

theorem provenance_resolved (carried : propStr image.properties "revision" = some revision) :
    provenance image (some history) = (resolveRev history none revision).map
      (RevAnswer.provenance revision) := by
  unfold provenance
  rw [carried]
  dsimp only
  cases resolveRev history none revision with
  | error fault => rfl
  | ok answer => cases answer <;> rfl

/-- What a walk found has a commit among it, just where what is named does. -/
theorem found_names {expr : RevExpr} :
    (∃ found, eval history none expr = .ok found ∧
      (found.answer.provenance revision).NamesCommit sha) ↔
      ∃ nodes, Names history none expr nodes ∧ ∃ node ∈ nodes, (commitRef node).sha = sha := by
  have answers := @answers_eval history none expr
  rw [exists_named]
  constructor
  · rintro ⟨found, ended, names⟩
    cases found with
    | none why => exact names.elim
    | one node => exact .inl ⟨node, (answers.one node).mp ended, names⟩
    | many nodes =>
      obtain ⟨c, among, here⟩ := names
      obtain ⟨node, inside, rfl⟩ := List.mem_map.mp among
      exact .inr ⟨nodes, (answers.many nodes).mp ended, node, inside, here⟩
  · rintro (⟨node, named, here⟩ | ⟨nodes, named, node, inside, here⟩)
    · exact ⟨_, (answers.one node).mpr named, here⟩
    · exact ⟨_, (answers.many nodes).mpr named, _, List.mem_map_of_mem inside, here⟩

/-- The provenance of an image is what its revision names. -/
theorem names_iff_reaches (carried : propStr image.properties "revision" = some revision) :
    (∃ p, provenance image (some history) = .ok p ∧ p.NamesCommit sha) ↔
    Reaches history revision sha := by
  rw [provenance_resolved carried]
  unfold Reaches
  cases parsed : parseRev revision with
  | error why =>
    unfold resolveRev
    rw [parsed]
    dsimp only
    refine iff_of_false ?_ (by simp)
    rintro ⟨p, same, names⟩
    obtain rfl := Except.ok.inj same
    exact names
  | ok expr =>
    rw [resolveRev_eval parsed]
    have named := @found_names revision sha history expr
    constructor
    · rintro ⟨p, same, names⟩
      obtain ⟨answer, resolved, rfl⟩ := map_eq_ok.mp same
      obtain ⟨found, ended, rfl⟩ := map_eq_ok.mp resolved
      obtain ⟨nodes, named⟩ := named.mp ⟨found, ended, names⟩
      exact ⟨expr, nodes, rfl, named⟩
    · rintro ⟨expr', nodes, same, named'⟩
      obtain rfl := Except.ok.inj same
      obtain ⟨found, ended, names⟩ := named.mpr ⟨nodes, named'⟩
      exact ⟨_, map_eq_ok.mpr ⟨_, map_eq_ok.mpr ⟨found, ended, rfl⟩, rfl⟩, names⟩

/-! ### Backward -/

variable {ops : GraphReader} {rows : List ImageRow} {nodes : List NodeRecord} {node : NodeRecord}

/-- A row is of an image under its key. -/
theorem imageRow_reference {row : ImageRow} (made : imageRow ops (some history) image = .ok row) :
    row.reference = keyOf image := by
  obtain ⟨p, -, rest⟩ := bind_eq_ok.mp made
  obtain ⟨users, -, same⟩ := bind_eq_ok.mp rest
  obtain rfl := Except.ok.inj same
  rfl

theorem references_of_mapM {chosen : List NodeRecord}
    (mapped : chosen.mapM (imageRow ops (some history)) = .ok rows) :
    rows.map ImageRow.reference = chosen.map keyOf := by
  have made := mapM_eq_ok.mp mapped
  clear mapped
  induction made with
  | nil => rfl
  | cons here _ ih => rw [List.map_cons, List.map_cons, ih, imageRow_reference here]

/-- What is listed are the images that are wanted. -/
theorem listed_iff_wanted (read : nodesOf ops "Image" = .ok nodes)
    (ran : images ops (some history) (some sha) = .ok rows) :
    Listed rows reference ↔ ∃ image ∈ nodes, wanted (some sha) image ∧ keyOf image = reference := by
  unfold images at ran
  rw [read] at ran
  obtain ⟨nodes', found, ran⟩ := bind_eq_ok.mp ran
  obtain rfl := Except.ok.inj found
  obtain ⟨listed, mapped, same⟩ := bind_eq_ok.mp ran
  obtain rfl := Except.ok.inj same
  have among : Listed (listed.mergeSort fun a b => a.reference ≤ b.reference) reference ↔
      reference ∈ listed.map ImageRow.reference := by
    simp only [Listed, List.mem_mergeSort, List.mem_map]
  rw [among, references_of_mapM mapped, List.mem_map]
  simp only [List.mem_filter, and_assoc]

/-- An image is wanted if its revision abbreviates the name of the commit. -/
theorem wanted_iff_abbreviates (full : isSha sha)
    (carried : propStr image.properties "revision" = some revision) :
    wanted (some sha) image ↔ Abbreviates revision sha := by
  unfold wanted Abbreviates
  rw [carried, Option.all_some, Option.any_some, lower_sha full, List.isPrefixOf_iff_prefix]

/-! ### Both -/

theorem reaches_hex (given : revision ≠ "") (hex : revision.toList.all hexDigit) :
    Reaches history revision sha ↔
      ∃ nodes, Names history none (.name revision) nodes ∧
      ∃ node ∈ nodes, (commitRef node).sha = sha := by
  unfold Reaches
  rw [parseRev_hex given hex]
  constructor
  · rintro ⟨expr, nodes, same, named⟩
    obtain rfl := Except.ok.inj same
    exact ⟨nodes, named⟩
  · rintro ⟨nodes, named⟩
    exact ⟨_, nodes, rfl, named⟩

theorem carries_iff {target : String} :
    (∃ nodes, (∃ node, Keyed history target node ∧ nodes = [node]) ∧
    ∃ node ∈ nodes, (commitRef node).sha = sha) ↔ Carries history target sha := by
  constructor
  · rintro ⟨_, ⟨node, keyed, rfl⟩, other, inside, here⟩
    exact ⟨node, keyed, List.mem_singleton.mp inside ▸ here⟩
  · rintro ⟨node, keyed, here⟩
    exact ⟨_, ⟨node, keyed, rfl⟩, node, List.mem_singleton_self node, here⟩

theorem mem_startingWith {hex : List Char} {commits : List NodeRecord} :
    node ∈ startingWith hex commits ↔
      node ∈ commits ∧ ∃ name, propStr node.properties "sha" = some name ∧ hex <+: name.toList := by
  rw [startingWith, List.mem_mergeSort, List.mem_filter, Option.any_eq_true]
  simp only [List.isPrefixOf_iff_prefix]

/-- Enough digits that are no ref name the commits that they abbreviate. -/
theorem reaches_abbreviation (commit : IsCommit history sha) (short : ¬ isSha revision)
    (free : refTarget history revision = .ok none) (hex : revision.toList.all hexDigit) :
    (∃ nodes, Names history none (.name revision) nodes ∧
      ∃ node ∈ nodes, (commitRef node).sha = sha) ↔
      minPrefix ≤ revision.length ∧ Abbreviates revision sha := by
  obtain ⟨-, commits, read, node, inside, named⟩ := commit
  simp only [names_abbreviation short free, all_lower, length_lower]
  constructor
  · rintro ⟨_, ⟨-, long, commits', -, -, rfl⟩, node', among, same⟩
    obtain ⟨-, name, named', begins⟩ := mem_startingWith.mp among
    refine ⟨long, ?_⟩
    rw [commitRef, named'] at same
    obtain rfl : name = sha := same
    exact begins
  · rintro ⟨long, begins⟩
    have among := mem_startingWith.mpr ⟨inside, sha, named, begins⟩
    refine ⟨_, ⟨hex, long, commits, read, List.ne_nil_of_mem among, rfl⟩, node, among, ?_⟩
    rw [commitRef, named]
    rfl

/-- **When a revision reaches a commit just where it abbreviates it.** -/
theorem agreeable_iff (commit : IsCommit history sha) (given : revision ≠ "") :
    (Abbreviates revision sha ↔ Reaches history revision sha) ↔ Agreeable history sha revision := by
  unfold Agreeable
  by_cases hex : revision.toList.all hexDigit
  · rw [if_pos hex, reaches_hex given hex]
    by_cases full : isSha revision
    · rw [if_pos full]
      simp only [names_full full, carries_iff]
    · rw [if_neg full]
      cases points : refTarget history revision with
      | error e => simp [not_names full points]
      | ok target =>
        cases target with
        | some target => simp only [names_ref full points, carries_iff]
        | none =>
          rw [reaches_abbreviation commit full points hex]
          dsimp only
          tauto
  · rw [if_neg hex]
    have none : ¬ Abbreviates revision sha := fun short => hex (short.hex commit.1)
    exact iff_false_left none

/-! ### The images of a plane -/

variable {tables : Tables} {plane : PlaneId} {vector : VectorSearch}
  {keyword : KeywordSearch} {key : String}

/-- A node that a plane reads has the key that its row has. -/
theorem getNode_row {id : NodeId} (read : getNode tables plane id = .ok (some node)) :
    node.id = id ∧ ∃ row, tables.nodes[(plane, id)]? = some row ∧
    row.externalKey = node.externalKey := by
  obtain ⟨row, labels, found, -, rfl⟩ := getNode_found read
  exact ⟨rfl, row, found, rfl⟩

theorem propStr_ne_empty {props : Properties} {text : String}
    (found : propStr props key = some text) :
    text ≠ "" := by
  unfold propStr at found
  split at found
  · split_ifs at found with empty
    obtain rfl := Option.some.inj found
    exact empty
  · cases found

/-- The nodes of a plane with one key are one node. -/
theorem nodesOf_key_unique (exact : Graph.Exact tables) {label : String} {a b : NodeRecord}
    (read : nodesOf (planeReader tables plane vector keyword) label = .ok nodes)
    (inside : a ∈ nodes) (inside' : b ∈ nodes) (keyed : a.externalKey = some key)
    (keyed' : b.externalKey = some key) : a = b := by
  obtain ⟨ids, -, rest⟩ := bind_eq_ok.mp read
  obtain ⟨found, mapped, same⟩ := bind_eq_ok.mp rest
  obtain rfl := Except.ok.inj same
  have stored : ∀ node ∈ found.reduceOption, node.externalKey = some key →
      ∃ id, tables.extKeys[(plane, key)]? = some id ∧ getNode tables plane id = .ok (some node) := by
    intro node inside keyed
    have each : ∀ y ∈ found, ∀ node, y = some node →
        ∃ id, getNode tables plane id = .ok (some node) :=
      mapM_forall mapped fun id _ y read node same => ⟨id, same ▸ read⟩
    obtain ⟨id, read⟩ := each _ (List.reduceOption_mem_iff.mp inside) node rfl
    obtain ⟨-, row, stored, same⟩ := getNode_row read
    exact ⟨id, (exact.extKeys plane key id).mpr ⟨row, stored, same.trans keyed⟩, read⟩
  obtain ⟨id, owns, read⟩ := stored a inside keyed
  obtain ⟨id', owns', read'⟩ := stored b inside' keyed'
  obtain rfl := Option.some.inj (owns.symm.trans owns')
  exact Option.some.inj (Except.ok.inj (read.symm.trans read'))

/-- **When the two directions agree.** For an image of a plane whose images have keys, as every
reader mints them, and a commit of a history: the image is listed among those of the commit just
where its provenance names the commit, exactly if the revision that it carries, if it carries one,
is agreeable. -/
theorem provenance_agrees (exact : Graph.Exact tables)
    (minted : ∀ node, IsImage (planeReader tables plane vector keyword) node →
      node.externalKey.isSome)
    (held : IsImage (planeReader tables plane vector keyword) image) (commit : IsCommit history sha)
    (ran : images (planeReader tables plane vector keyword) (some history) (some sha) = .ok rows) :
    (Listed rows (keyOf image) ↔ ∃ p, provenance image (some history) = .ok p ∧ p.NamesCommit sha) ↔
      ∀ revision, propStr image.properties "revision" = some revision →
      Agreeable history sha revision := by
  obtain ⟨nodes, read, inside⟩ := held
  have listed : Listed rows (keyOf image) ↔ wanted (some sha) image := by
    rw [listed_iff_wanted read ran]
    constructor
    · rintro ⟨other, inside', chosen, same⟩
      obtain ⟨key, keyed⟩ := Option.isSome_iff_exists.mp (minted image ⟨nodes, read, inside⟩)
      obtain ⟨key', keyed'⟩ := Option.isSome_iff_exists.mp (minted other ⟨nodes, read, inside'⟩)
      rw [keyOf, keyOf, keyed, keyed'] at same
      obtain rfl : key' = key := same
      exact nodesOf_key_unique exact read inside' inside keyed' keyed ▸ chosen
    · exact fun chosen => ⟨image, inside, chosen, rfl⟩
  rw [listed]
  cases carried : propStr image.properties "revision" with
  | none =>
    refine iff_of_true (iff_of_false ?_ ?_) nofun
    · simp [wanted, carried]
    · rintro ⟨p, answered, names⟩
      rw [provenance, carried] at answered
      obtain rfl := Except.ok.inj answered
      split at names <;> exact names
  | some revision =>
    rw [wanted_iff_abbreviates commit.1 carried, names_iff_reaches carried,
      agreeable_iff commit (propStr_ne_empty carried)]
    simp

def soloSha : String := "abc1234ef5670099887766554433221100998877"

def text (key value : String) : Properties := (∅ : Properties).insert key (.mk none (.str value))

/-- An image whose revision is three digits, beside a history of the one commit whose name they
start. -/
def imageStore : Database := (Database.new plainHost 0).run plainHost
  [(1, .createPlane "acme_git" ∅),
    (2, .write 1 [.createNodeWithKey ("commit:" ++ soloSha) ["Commit"] (text "sha" soloSha)] true),
    (3, .write 0 [.createNodeWithKey "acme/api:abc" ["Image"] (text "revision" "abc")] true)]

/-- What holds of what was read. -/
theorem exists_of_toOption {ε α : Type} {x : Except ε α} {holds : α → Bool}
    (all : x.toOption.any holds = true) :
    ∃ a, x = .ok a ∧ holds a = true := by
  cases x with
  | error e => cases all
  | ok a => exact ⟨a, rfl, all⟩

/-- For the image the two directions agree exactly if its revision is agreeable. -/
theorem provenance_agrees_three_digits :
    ∃ image rows, IsImage (plainReader imageStore.tables 0) image ∧
    ((Listed rows (keyOf image) ↔ ∃ p, provenance image (some (plainReader imageStore.tables 1)) =
      .ok p ∧
        p.NamesCommit soloSha) ↔ ∀ revision, propStr image.properties "revision" = some revision →
      Agreeable (plainReader imageStore.tables 1) soloSha revision) := by
  have sound : imageStore.Sound := Database.new_sound.run _
  obtain ⟨nodes, read, keyed⟩ :=
    @exists_of_toOption _ _ (nodesOf (plainReader imageStore.tables 0) "Image")
    (fun nodes => nodes.length = 1 && nodes.all fun node => node.externalKey.isSome)
      (by decide +kernel)
  obtain ⟨commits, read', named⟩ :=
    @exists_of_toOption _ _ (nodesOf (plainReader imageStore.tables 1) "Commit")
    (fun commits => commits.any fun node => propStr node.properties "sha" = some soloSha)
      (by decide +kernel)
  obtain ⟨rows, ran, -⟩ := @exists_of_toOption _ _ (images (plainReader imageStore.tables 0)
    (some (plainReader imageStore.tables 1)) (some soloSha)) (fun rows => rows.length = 1)
    (by decide +kernel)
  rw [Bool.and_eq_true, decide_eq_true_eq, List.all_eq_true] at keyed
  obtain ⟨image, rfl⟩ := List.length_eq_one_iff.mp keyed.1
  obtain ⟨node, inside, here⟩ := List.any_eq_true.mp named
  have held : IsImage (plainReader imageStore.tables 0) image :=
    ⟨_, read, List.mem_singleton_self image⟩
  refine ⟨image, rows, held, provenance_agrees sound.world.tables.exact ?_ held ?_ ran⟩
  · rintro other ⟨nodes', same, inside'⟩
    obtain rfl := Except.ok.inj (same.symm.trans read)
    exact keyed.2 other inside'
  · exact ⟨by decide, commits, read', node, inside, of_decide_eq_true here⟩

/-- The image is listed under the commit, and its provenance is no commit. -/
theorem provenance_of_three_digits : IsCommit (plainReader imageStore.tables 1) soloSha ∧
    ((images (plainReader imageStore.tables 0) (some (plainReader imageStore.tables 1))
      (some soloSha)).toOption.map
      fun rows => rows.map fun row => (row.reference, row.provenance)) =
      some [("acme/api:abc", .elsewhere "abc")] := by
  obtain ⟨commits, read, named⟩ :=
    @exists_of_toOption _ _ (nodesOf (plainReader imageStore.tables 1) "Commit")
    (fun commits => commits.any fun node => propStr node.properties "sha" = some soloSha)
      (by decide +kernel)
  obtain ⟨node, inside, here⟩ := List.any_eq_true.mp named
  exact ⟨⟨by decide, commits, read, node, inside, of_decide_eq_true here⟩, by decide +kernel⟩

end DrStrange.Ops
