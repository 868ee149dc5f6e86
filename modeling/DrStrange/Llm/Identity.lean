/-
**Resolving the identity of entities.**

Keys are folded like names, and where a key contains another a model is asked whether they name one
entity. A pair is put to it as one line, `inner|outer`, and a line of its reply is read up to the
first separator, which may stand inside of a key. Nothing is lost exactly where every line that
stands is read as two keys that belong together (`resolve_keeps_iff`), so where no key has a
separator. Whatever the reply is, the count of what is left does not underflow (`resolve_counts`).
-/

import DrStrange.Lib.Pieces
import DrStrange.Llm.Reconcile

namespace DrStrange.Llm.Identity

open Std (ExtTreeMap ExtTreeSet)
open Lib

/-- The label of each key. -/
abbrev Labels := ExtTreeMap String String compare

/-! ### The code -/

structure IdentityReport where
  before : ℕ
  after : ℕ
  folded : ℕ
  merged : ℕ
  adjudicated : ℕ
  mergedRelations : ℕ
  chatRequests : ℕ
  inputTokens : ℕ
  outputTokens : ℕ
  deriving DecidableEq, Repr

/-- A key that may be another name of a longer one. -/
structure Pair where
  inner : String
  outer : String
  deriving DecidableEq, Repr

def Pair.compare : Pair → Pair → Ordering := compareLex (compareOn Pair.inner) (compareOn Pair.outer)

instance : Std.TransCmp Pair.compare :=
  inferInstanceAs (Std.TransCmp (compareLex (compareOn Pair.inner) (compareOn Pair.outer)))

instance : Std.LawfulEqCmp Pair.compare where
  eq_of_compare {a b} equal := by
    obtain ⟨inner, outer⟩ := compareLex_eq_eq.mp equal
    obtain ⟨_, _⟩ := a
    obtain ⟨_, _⟩ := b
    exact congrArg₂ Pair.mk (Std.LawfulEqCmp.compare_eq_iff_eq.mp inner)
      (Std.LawfulEqCmp.compare_eq_iff_eq.mp outer)

/-- How a pair is put to the model. -/
def Pair.line (pair : Pair) : String := pair.inner ++ "|" ++ pair.outer

def maxPerKey : ℕ := 4

def maxPairs : ℕ := 200

/-- Two labels that differ rule a pair out; an empty one is no evidence. -/
def comparable (labels : Labels) (a b : String) : Bool :=
  match labels[a]?, labels[b]? with
  | some x, some y => x.isEmpty || y.isEmpty || x.toList.map Char.toLower = y.toList.map Char.toLower
  | _, _ => true

/-- How many bytes a folded key has. -/
def foldSize (unicode : Unicode) (key : String) : ℕ := (bytes (foldKey unicode key).toList).length

/-- The keys that may name what a key names, and contain it. -/
def outers (unicode : Unicode) (labels : Labels) (keys : List String) (inner : String) :
    List String :=
  keys.filter fun outer => inner ≠ outer && comparable labels inner outer &&
    (foldSize unicode inner < foldSize unicode outer &&
      (foldKey unicode inner).toList <:+: (foldKey unicode outer).toList)

/-- So many pairs for a key, and so many in all, in order. -/
def containmentPairs (unicode : Unicode) (keys : List String) (labels : Labels) : List Pair :=
  let pairs := keys.flatMap fun inner =>
    if (foldKey unicode inner).isEmpty then []
    else ((outers unicode labels keys inner).take maxPerKey).map fun outer => ⟨inner, outer⟩
  (ExtTreeSet.ofList pairs Pair.compare).toList.take maxPairs

/-- The lines of a reply, but those that are no pair's. -/
def validLines (pairs : List Pair) (lines : List String) : List String :=
  (lines.map fun line => String.ofList (trim line.toList)).filter (pairs.map Pair.line).contains

/-- A line read up to the first separator. -/
def readLine (line : String) : Option (String × String) :=
  (splitOnce ['|'] line.toList).map fun (inner, outer) => (String.ofList inner, String.ofList outer)

/-- The keys that the model merges; a reply that is not what was asked for merges none. -/
def adjudicate {ε : Type} (chat : Except ε Reply) (parse : String → Option (List String))
    (pairs : List Pair) (report : IdentityReport) : Except ε (Renames × IdentityReport) :=
  if pairs.isEmpty then .ok (∅, report)
  else do
    let reply ← chat
    let lines := validLines pairs ((parse (extractJson reply.text)).getD [])
    return (resolveChains ((lines.filterMap readLine).foldl
      (fun renames reading => renames.insert reading.1 reading.2) ∅),
      { report with
        chatRequests := report.chatRequests + 1
        inputTokens := report.inputTokens + reply.inputTokens
        outputTokens := report.outputTokens + reply.outputTokens
        adjudicated := pairs.length })

/-- Folds the keys, and asks about those left that contain another. -/
def resolve {ε : Type} (unicode : Unicode) (chat : Except ε Reply)
    (parse : String → Option (List String))
    (counts : Counts) (labels : Labels) : Except ε (Renames × IdentityReport) :=
  let report : IdentityReport := ⟨counts.size, counts.size, 0, 0, 0, 0, 0, 0, 0⟩
  if counts.size < 2 then .ok (∅, report)
  else do
    let folded := foldKeys unicode counts
    let survivors := counts.keys.filter (· ∉ folded)
    let pairs := containmentPairs unicode survivors labels
    let (merged, report) ← adjudicate chat parse pairs { report with folded := folded.size }
    let renames := resolveChains (folded ∪ merged)
    return (renames, { report with merged := merged.size, after := counts.size - renames.size })

/-! ### What the reply says -/

section

variable (unicode : Unicode) (counts : Counts) (labels : Labels)
  (parse : String → Option (List String)) (reply : Reply)

/-- The pairs that are put to the model. -/
def proposed : List Pair :=
  containmentPairs unicode (counts.keys.filter (· ∉ foldKeys unicode counts)) labels

/-- The lines of the reply that are lines of proposed pairs. -/
def answers : List String :=
  validLines (proposed unicode counts labels) ((parse (extractJson reply.text)).getD [])

/-- Two keys that the folding rule merges, or a proposed pair that the reply names. -/
def Linked (a b : String) : Prop :=
  a ∈ counts ∧ b ∈ counts ∧ (foldKey unicode a = foldKey unicode b ∨
    ⟨a, b⟩ ∈ proposed unicode counts labels ∧
    Pair.line ⟨a, b⟩ ∈ answers unicode counts labels parse reply)

/-- Keys that belong together: a chain of links joins them. -/
def Together : String → String → Prop := Relation.EqvGen (Linked unicode counts labels parse reply)

/-- Given keys are renamed to given keys that stay, counted right, and only keys that belong
together are merged. -/
structure Keeps (renames : Renames) (after : ℕ) : Prop extends Lossless counts renames after where
  merges : ∀ a ∈ counts, ∀ b ∈ counts, canonical renames a = canonical renames b →
    Together unicode counts labels parse reply a b

end

/-- A reading that no later one of its source replaces. -/
def Standing (readings : List (String × String)) (source target : String) : Prop :=
  ∃ earlier later, readings = earlier ++ (source, target) :: later ∧
    ∀ reading ∈ later, reading.1 ≠ source

/-- Every line that stands is read as two given keys that belong together. -/
def ReadsRight (unicode : Unicode) (counts : Counts) (labels : Labels)
    (parse : String → Option (List String)) (reply : Reply) : Prop :=
  ∀ source target, Standing ((answers unicode counts labels parse reply).filterMap readLine)
    source target →
    source ∈ counts ∧ target ∈ counts ∧ Together unicode counts labels parse reply source target

/-! ### Pairs -/

variable {unicode : Unicode} {counts : Counts} {labels : Labels}
  {parse : String → Option (List String)}
  {reply : Reply} {keys lines : List String} {pairs : List Pair} {readings : List (String × String)}
  {line source target a b : String}

/-- A proposed pair: one key contains the other and is longer. -/
theorem mem_containmentPairs {pair : Pair} (among : pair ∈ containmentPairs unicode keys labels) :
    pair.inner ∈ keys ∧ pair.outer ∈ keys ∧
    foldSize unicode pair.inner < foldSize unicode pair.outer := by
  have inside := List.mem_of_mem_take among
  rw [ExtTreeSet.mem_toList, ExtTreeSet.mem_ofList, List.contains_iff_mem, List.mem_flatMap] at inside
  obtain ⟨inner, given, inside⟩ := inside
  split_ifs at inside
  · cases inside
  · obtain ⟨outer, taken, rfl⟩ := List.mem_map.mp inside
    obtain ⟨given', contains⟩ := List.mem_filter.mp (List.mem_of_mem_take taken)
    simp only [Bool.and_eq_true, decide_eq_true_eq] at contains
    exact ⟨given, given', contains.2.1⟩

theorem mem_validLines (valid : line ∈ validLines pairs lines) :
    ∃ pair ∈ pairs, line = pair.line := by
  have inside := (List.mem_filter.mp valid).2
  rw [List.contains_iff_mem] at inside
  obtain ⟨pair, among, same⟩ := List.mem_map.mp inside
  exact ⟨pair, among, same.symm⟩

/-- **How a line is read**: the source is the inner key up to its first separator, and the target
ends with the outer key. -/
theorem readLine_line {pair : Pair} (read : readLine pair.line = some (source, target)) :
    source.toList = pair.inner.toList.takeWhile (· ≠ '|') ∧
    (∃ y, target.toList = y ++ pair.outer.toList) ∧
      ('|' ∉ pair.inner.toList → source = pair.inner ∧ target = pair.outer) := by
  obtain ⟨⟨before, after⟩, parted, same⟩ := Option.map_eq_some_iff.mp read
  obtain ⟨rfl, rfl⟩ := Prod.mk.inj same
  have whole : pair.inner.toList ++ '|' :: pair.outer.toList = before ++ '|' :: after := by
    have split := splitOnce_eq parted
    rwa [Pair.line, String.toList_append, String.toList_append, List.append_assoc] at split
  have fresh : '|' ∉ before := not_mem_of_splitOnce parted
  have all : ∀ c ∈ before, decide (c ≠ '|') = true := fun c inside => by
    rw [decide_eq_true_eq]
    rintro rfl
    exact fresh inside
  rw [String.toList_ofList, String.toList_ofList]
  obtain ⟨x, rfl, rest⟩ | ⟨x, inner, rest⟩ := List.append_eq_append_iff.mp whole
  · cases x with
    | nil =>
      rw [List.append_nil] at all ⊢
      obtain rfl : pair.outer.toList = after := by simpa using rest
      exact ⟨(List.takeWhile_eq_self_iff.mpr all).symm, ⟨[], rfl⟩, fun _ =>
        ⟨String.ofList_toList, String.ofList_toList⟩⟩
    | cons c x =>
      obtain ⟨rfl, -⟩ : '|' = c ∧ _ := by simpa using rest
      exact absurd (List.mem_append_right _ List.mem_cons_self) fresh
  · cases x with
    | nil =>
      rw [List.append_nil] at inner
      obtain rfl : after = pair.outer.toList := by simpa using rest
      exact ⟨by rw [inner, List.takeWhile_eq_self_iff.mpr all], ⟨[], rfl⟩, fun _ =>
        ⟨by rw [← inner, String.ofList_toList], String.ofList_toList⟩⟩
    | cons c x =>
      obtain ⟨rfl, same⟩ : '|' = c ∧ after = x ++ '|' :: pair.outer.toList := by simpa using rest
      refine ⟨?_, ⟨x ++ ['|'], by rw [same, List.append_assoc]; rfl⟩, fun none => ?_⟩
      · rw [inner, List.takeWhile_append_of_pos all, List.takeWhile_cons_of_neg (by simp),
          List.append_nil]
      · exact absurd (inner ▸ List.mem_append_right _ List.mem_cons_self) none

theorem foldSize_append {left right : List Char} (whole : a.toList = left ++ right) :
    foldSize unicode a = foldSize unicode (String.ofList left) +
      foldSize unicode (String.ofList right) := by
  simp only [foldSize, foldKey, String.toList_ofList, whole, List.filter_append,
    List.flatMap_append, bytes_append,
    List.length_append]

/-- A reading that stands is of a proposed pair. -/
theorem Standing.pair (standing : Standing
    ((answers unicode counts labels parse reply).filterMap readLine) a b) :
    ∃ pair ∈ proposed unicode counts labels, pair.line ∈ answers unicode counts labels parse reply ∧
      readLine pair.line = some (a, b) := by
  obtain ⟨earlier, later, whole, -⟩ := standing
  have among : (a, b) ∈ (answers unicode counts labels parse reply).filterMap readLine :=
    whole ▸ List.mem_append_right _ List.mem_cons_self
  obtain ⟨line, valid, read⟩ := List.mem_filterMap.mp among
  obtain ⟨pair, asked, rfl⟩ := mem_validLines valid
  exact ⟨pair, asked, valid, read⟩

/-- A reading leads from a key to one that is longer when folded. -/
theorem Standing.foldSize_lt
    (standing : Standing ((answers unicode counts labels parse reply).filterMap readLine)
      source target) :
    foldSize unicode source < foldSize unicode target := by
  obtain ⟨pair, asked, -, read⟩ := standing.pair
  obtain ⟨-, -, longer⟩ := mem_containmentPairs asked
  obtain ⟨inner, ⟨y, outer⟩, -⟩ := readLine_line read
  have whole : pair.inner.toList = source.toList ++ pair.inner.toList.dropWhile (· ≠ '|') := by
    rw [inner, List.takeWhile_append_dropWhile]
  have left : foldSize unicode pair.inner = _ := foldSize_append whole
  have right : foldSize unicode target = _ := foldSize_append outer
  rw [String.ofList_toList] at left right
  omega

/-- What the readings leave behind: those that stand. -/
theorem getElem?_readings :
    (readings.foldl (fun renames reading => renames.insert reading.1 reading.2)
      (∅ : Renames))[source]? = some target ↔
      Standing readings source target := by
  induction readings using List.reverseRecOn with
  | nil =>
    refine iff_of_false (by simp) ?_
    rintro ⟨earlier, later, none, -⟩
    simp at none
  | append_singleton readings last ih =>
    obtain ⟨a, b⟩ := last
    rw [List.foldl_append, List.foldl_cons, List.foldl_nil, ExtTreeMap.getElem?_insert]
    split_ifs with same
    · obtain rfl := Std.LawfulEqCmp.eq_of_compare same
      constructor
      · rintro ⟨⟩
        exact ⟨readings, [], rfl, List.forall_mem_nil _⟩
      · rintro ⟨earlier, later, whole, fresh⟩
        obtain rfl | ⟨later, reading, rfl⟩ := List.eq_nil_or_concat later
        · obtain ⟨-, same⟩ := List.append_inj' whole rfl
          simpa using same
        · rw [List.concat_eq_append, ← List.cons_append, ← List.append_assoc] at whole
          obtain ⟨-, same⟩ := List.append_inj' whole rfl
          obtain rfl : (a, b) = reading := List.singleton_inj.mp same
          exact absurd rfl (fresh (a, b) (by simp))
    · rw [ih]
      have other : a ≠ source := fun equal => same (Std.LawfulEqCmp.compare_eq_iff_eq.mpr equal)
      constructor
      · rintro ⟨earlier, later, rfl, fresh⟩
        refine ⟨earlier, later ++ [(a, b)], by simp, fun reading among => ?_⟩
        obtain among | among := List.mem_append.mp among
        · exact fresh reading among
        · exact List.mem_singleton.mp among ▸ other
      · rintro ⟨earlier, later, whole, fresh⟩
        obtain rfl | ⟨later, reading, rfl⟩ := List.eq_nil_or_concat later
        · obtain ⟨-, same⟩ := List.append_inj' whole rfl
          exact absurd (congrArg Prod.fst (List.singleton_inj.mp same)) other
        · rw [List.concat_eq_append] at fresh
          rw [List.concat_eq_append, ← List.cons_append, ← List.append_assoc] at whole
          obtain ⟨rfl, -⟩ := List.append_inj' whole rfl
          exact ⟨earlier, later, rfl, fun reading among =>
            fresh reading (List.mem_append_left _ among)⟩

/-! ### Renaming by the folding and the reply -/

section

variable {said : Renames}

/-- The merges of a reply laid over the folding. -/
def layers (unicode : Unicode) (counts : Counts) (said : Renames) : Renames :=
  foldKeys unicode counts ∪ resolveChains said

/-- **No chain runs in a circle**: a merge leads to a longer fold, and a folding to a key that
survives. -/
theorem raises_layers (raises : Raises (said[·]?) (foldSize unicode)) :
    Raises ((layers unicode counts said)[·]?) fun a : String =>
      2 * foldSize unicode a + if ((foldKeys unicode counts)[a]?).isSome then 0 else 1 := by
  unfold layers
  intro a b found apart
  dsimp only
  obtain own | ⟨-, below⟩ := layers_cases found
  · obtain ⟨-, leads, -⟩ := (getElem?_resolveChains raises).mp own
    have longer := leads.lt_rank raises apart
    split_ifs <;> omega
  · have settled : (foldKeys unicode counts)[b]? = none := foldBy_settled below
    have same : foldKey unicode b = foldKey unicode a := (getElem?_foldBy.mp below).2.2.same
    rw [below, settled, foldSize, foldSize, same]
    simp

/-- A name leads to what it goes by. -/
theorem leads_canonical (raises : Raises (said[·]?) (foldSize unicode)) :
    Leads ((layers unicode counts said)[·]?) a
      (canonical (resolveChains (layers unicode counts said)) a) :=
  (canonical_resolveChains (raises_layers raises)).1

theorem getElem?_layers (raises : Raises (said[·]?) (foldSize unicode)) (leads : Leads (said[·]?) a b)
    (final : Final (said[·]?) b) (apart : a ≠ b) : (layers unicode counts said)[a]? = some b := by
  have merged : (resolveChains said)[a]? = some b :=
    (getElem?_resolveChains raises).mpr ⟨apart, leads, final⟩
  rw [layers, ExtTreeMap.getElem?_union, merged, Option.some_or]

/-- A key that the reply renames goes by what its end goes by. -/
theorem canonical_end (raises : Raises (said[·]?) (foldSize unicode)) (leads : Leads (said[·]?) a b)
    (final : Final (said[·]?) b) : canonical (resolveChains (layers unicode counts said)) a =
      canonical (resolveChains (layers unicode counts said)) b := by
  by_cases same : a = b
  · rw [same]
  · have step : (layers unicode counts said)[a]? = some b := getElem?_layers raises leads final same
    have rising : Raises ((layers unicode counts said)[·]?) _ := raises_layers raises
    obtain ⟨left, ends⟩ := canonical_resolveChains (a := a) rising
    obtain ⟨right, ends'⟩ := canonical_resolveChains (a := b) rising
    exact left.final_unique (right.head step) ends ends'

/-- **Readings of keys that belong together lose nothing.** -/
theorem keeps_of_readings (raises : Raises (said[·]?) (foldSize unicode))
    (right : ∀ a b : String, said[a]? = some b →
      a ∈ counts ∧ b ∈ counts ∧ Together unicode counts labels parse reply a b) :
    Keeps unicode counts labels parse reply (resolveChains (layers unicode counts said))
      (counts.size - (resolveChains (layers unicode counts said)).size) := by
  have given : ∀ a b : String, (layers unicode counts said)[a]? = some b →
      a ∈ counts ∧ b ∈ counts ∧ Together unicode counts labels parse reply a b := by
    intro a b found
    obtain own | ⟨-, below⟩ := layers_cases found
    · obtain ⟨apart, leads, -⟩ := (getElem?_resolveChains raises).mp own
      obtain ⟨left, right'⟩ :=
        leads_given (fun a b step => ⟨(right a b step).1, (right a b step).2.1⟩) leads apart
      exact ⟨left, right', leads.eqvGen fun a b step => (right a b step).2.2⟩
    · obtain ⟨left, -, survives⟩ := getElem?_foldBy.mp below
      exact ⟨left, survives.given, .rel a b ⟨left, survives.given, .inl survives.same.symm⟩⟩
  refine ⟨lossless_resolveChains (raises_layers raises) fun a b found =>
    ⟨(given a b found).1, (given a b found).2.1⟩,
    fun a _ b _ same => ?_⟩
  have joins : ∀ name, Together unicode counts labels parse reply name
      (canonical (resolveChains (layers unicode counts said)) name) :=
    fun name => (leads_canonical raises).eqvGen fun a b step => (given a b step).2.2
  exact (joins a).trans _ _ _ (same ▸ (joins b).symm)

/-- **Where nothing is lost, readings are of keys that belong together.** -/
theorem readings_of_keeps {after : ℕ} (raises : Raises (said[·]?) (foldSize unicode))
    (keeps : Keeps unicode counts labels parse reply
      (resolveChains (layers unicode counts said)) after)
    (read : said[a]? = some b) (apart : a ≠ b) :
    a ∈ counts ∧ b ∈ counts ∧ Together unicode counts labels parse reply a b := by
  obtain ⟨leads, final⟩ := canonical_resolveChains (a := b) raises
  generalize canonical (resolveChains said) b = stop at leads final
  have one : canonical (resolveChains (layers unicode counts said)) a =
      canonical (resolveChains (layers unicode counts said)) b :=
    (canonical_end raises (leads.head read) final).trans (canonical_end raises leads final).symm
  have later : a ≠ stop := by
    rintro rfl
    exact lt_irrefl _ ((raises a b read apart).trans (leads.lt_rank raises apart.symm))
  have step : (layers unicode counts said)[a]? = some stop :=
    getElem?_layers raises (leads.head read) final later
  have renamed : (resolveChains (layers unicode counts said))[a]? =
      some (canonical (resolveChains (layers unicode counts said)) a) :=
    renamed_of_step (raises_layers raises) step later
  have left : a ∈ counts := keeps.sources a _ renamed
  have right : b ∈ counts := by
    cases further : (resolveChains (layers unicode counts said))[b]? with
    | some c => exact keeps.sources b c further
    | none =>
      rw [one, canonical, further, Option.getD_none] at renamed
      exact keeps.targets a b renamed
  exact ⟨left, right, keeps.merges a left b right one⟩

end

/-- The readings of the reply, each replacing those before it. -/
def heard (unicode : Unicode) (counts : Counts) (labels : Labels)
    (parse : String → Option (List String)) (reply : Reply) : Renames :=
  ((answers unicode counts labels parse reply).filterMap readLine).foldl
    (fun renames reading => renames.insert reading.1 reading.2) ∅

theorem raises_heard : Raises ((heard unicode counts labels parse reply)[·]?) (foldSize unicode) :=
  fun _ _ read _ => (getElem?_readings.mp read).foldSize_lt

/-- Nothing is answered where nothing is asked. -/
theorem answers_eq_nil (unasked : proposed unicode counts labels = []) :
    answers unicode counts labels parse reply = [] := by
  rw [answers, unasked, validLines, List.map_nil]
  exact List.filter_eq_nil_iff.mpr fun line _ none => by simp at none

/-- Two keys at least make a pair. -/
theorem proposed_eq_nil (few : counts.size < 2) : proposed unicode counts labels = [] := by
  refine List.eq_nil_iff_forall_not_mem.mpr fun pair among => ?_
  obtain ⟨left, right, longer⟩ := mem_containmentPairs among
  have inner := List.mem_of_mem_filter left
  have outer := List.mem_of_mem_filter right
  rw [← ExtTreeMap.length_keys] at few
  match counts.keys, few, inner, outer with
  | [key], _, inner, outer =>
    rw [List.mem_singleton.mp inner, List.mem_singleton.mp outer] at longer
    exact lt_irrefl _ longer

/-- No more keys are renamed than are given: one for each survivor, and those that are folded. -/
theorem size_renames_le :
    (resolveChains (layers unicode counts (heard unicode counts labels parse reply))).size ≤
    counts.size := by
  let cut := fun key : String => String.ofList (key.toList.takeWhile (· ≠ '|'))
  let folded := (foldKeys unicode counts).keys.toFinset
  have given : folded ⊆ counts.keys.toFinset := by
    intro key renamed
    rw [List.mem_toFinset, ExtTreeMap.mem_keys] at renamed ⊢
    obtain ⟨into, found⟩ :=
      Option.isSome_iff_exists.mp (ExtTreeMap.mem_iff_isSome_getElem?.mp renamed)
    exact (getElem?_foldBy.mp found).1
  have sources : (resolveChains (layers unicode counts
      (heard unicode counts labels parse reply))).keys.toFinset ⊆
      (counts.keys.toFinset \ folded).image cut ∪ folded := by
    intro key renamed
    rw [List.mem_toFinset, ExtTreeMap.mem_keys] at renamed
    obtain ⟨into, found⟩ :=
      Option.isSome_iff_exists.mp (ExtTreeMap.mem_iff_isSome_getElem?.mp renamed)
    obtain ⟨apart, leads, -⟩ := (getElem?_resolveChains (raises_layers raises_heard)).mp found
    obtain same | ⟨next, step, -⟩ := leads.cases
    · exact absurd same apart
    obtain own | ⟨-, below⟩ := layers_cases step
    · obtain ⟨apart, leads, -⟩ := (getElem?_resolveChains raises_heard).mp own
      obtain same | ⟨next, read, -⟩ := leads.cases
      · exact absurd same apart
      obtain ⟨pair, asked, -, read⟩ := (getElem?_readings.mp read).pair
      obtain ⟨inner, -, -⟩ := mem_containmentPairs asked
      obtain ⟨inside, kept⟩ := List.mem_filter.mp inner
      refine Finset.mem_union_left _ (Finset.mem_image.mpr ⟨pair.inner,
        Finset.mem_sdiff.mpr ⟨?_, ?_⟩, ?_⟩)
      · exact List.mem_toFinset.mpr inside
      · simpa [folded] using kept
      · have same : String.ofList key.toList = cut pair.inner :=
          congrArg String.ofList (readLine_line read).1
        rw [← same, String.ofList_toList]
    · refine Finset.mem_union_right _ (List.mem_toFinset.mpr (ExtTreeMap.mem_keys.mpr ?_))
      exact ExtTreeMap.mem_iff_isSome_getElem?.mpr (Option.isSome_of_eq_some below)
  have few := (Finset.card_le_card sources).trans ((Finset.card_union_le _ _).trans
    (Nat.add_le_add_right Finset.card_image_le _))
  rw [Finset.card_sdiff_add_card_eq_card given, List.toFinset_card_of_nodup ExtTreeMap.nodup_keys,
    List.toFinset_card_of_nodup ExtTreeMap.nodup_keys, ExtTreeMap.length_keys,
    ExtTreeMap.length_keys] at few
  exact few

/-- A reply merges what its readings lead to. -/
theorem adjudicate_reply {ε : Type} (report : IdentityReport) : ∃ report',
    adjudicate (.ok reply : Except ε Reply) parse (proposed unicode counts labels) report =
      .ok (resolveChains (heard unicode counts labels parse reply), report') := by
  unfold adjudicate
  split_ifs with unasked
  · have silent : resolveChains (heard unicode counts labels parse reply) = ∅ := by
      rw [heard, answers_eq_nil (List.isEmpty_iff.mp unasked)]
      rfl
    exact ⟨_, by rw [silent]⟩
  · exact ⟨_, rfl⟩

/-- What two keys or more are renamed to. -/
theorem resolve_several {ε : Type} (several : ¬ counts.size < 2) : ∃ report,
    resolve unicode (.ok reply : Except ε Reply) parse counts labels =
        .ok (resolveChains (layers unicode counts (heard unicode counts labels parse reply)),
          report) ∧
      report.after =
        counts.size - (resolveChains (layers unicode counts
          (heard unicode counts labels parse reply))).size := by
  unfold resolve
  rw [if_neg several]
  dsimp only
  obtain ⟨report, ran⟩ : ∃ report, adjudicate (.ok reply : Except ε Reply) parse
      (proposed unicode counts labels)
      ⟨counts.size, counts.size, (foldKeys unicode counts).size, 0, 0, 0, 0, 0, 0⟩ =
        .ok (resolveChains (heard unicode counts labels parse reply), report) := adjudicate_reply _
  rw [proposed] at ran
  rw [ran]
  exact ⟨_, rfl, rfl⟩

/-- **When resolving loses nothing.** Whatever keys and labels are given and whatever the model
replies: given keys are renamed to given keys that stay, counted right, and only keys that belong
together are merged, exactly where every line of the reply that stands is read as two keys that
belong together. -/
theorem resolve_keeps_iff {ε : Type} : ∃ renames report,
    resolve unicode (.ok reply : Except ε Reply) parse counts labels = .ok (renames, report) ∧
      (Keeps unicode counts labels parse reply renames report.after ↔
        ReadsRight unicode counts labels parse reply) := by
  by_cases few : counts.size < 2
  · refine ⟨∅, ⟨counts.size, counts.size, 0, 0, 0, 0, 0, 0, 0⟩, if_pos few,
      iff_of_true ⟨lossless_empty, ?_⟩ ?_⟩
    · intro a _ b _ same
      have same : a = b := by simpa [canonical] using same
      exact same ▸ .refl a
    · rintro source target ⟨earlier, later, none, -⟩
      rw [answers_eq_nil (proposed_eq_nil few)] at none
      simp at none
  · obtain ⟨report, ran, after⟩ := resolve_several (ε := ε) few
    refine ⟨_, report, ran, ?_⟩
    rw [after]
    constructor
    · intro keeps source target standing
      have read : (heard unicode counts labels parse reply)[source]? = some target :=
        getElem?_readings.mpr standing
      exact readings_of_keeps raises_heard keeps read fun same =>
        lt_irrefl _ (same ▸ standing.foldSize_lt)
    · intro right
      exact keeps_of_readings raises_heard fun a b read => right a b (getElem?_readings.mp read)

/-- **The count of what is left never underflows.** Whatever keys and labels are given and whatever
the model replies, resolving succeeds, and the keys renamed and those that are left make up the keys
given. -/
theorem resolve_counts {ε : Type} : ∃ renames report,
    resolve unicode (.ok reply : Except ε Reply) parse counts labels = .ok (renames, report) ∧
      report.after + renames.size = counts.size := by
  by_cases few : counts.size < 2
  · exact ⟨∅, ⟨counts.size, counts.size, 0, 0, 0, 0, 0, 0, 0⟩, if_pos few, rfl⟩
  · obtain ⟨report, ran, after⟩ := resolve_several few
    exact ⟨_, report, ran, after ▸ Nat.sub_add_cancel size_renames_le⟩

end DrStrange.Llm.Identity
