/-
**Reconciling a vocabulary.**

The spellings of a name are folded, and a model is asked which of the names left mean the same. Its
reply may be anything: only given names count, each in the first family that has it, and chains of
renamings are followed to their end. Whatever the reply, nothing is lost (`reconcile_lossless`).
-/

import DrStrange.Lib.Chase
import DrStrange.Lib.Fallible
import DrStrange.Lib.Utf8
import DrStrange.Llm.Fold

namespace DrStrange.Llm

open Std (ExtTreeMap)
open Lib

/-! ### The code -/

/-- What a provider answered, and what it cost. -/
structure Reply where
  text : String
  inputTokens : ℕ
  outputTokens : ℕ
  deriving DecidableEq, Repr

/-- The three characters that fence a block of code. -/
def fence : List Char := List.replicate 3 (Char.ofNat 96)

/-- A text without the fences that it begins with. -/
def unfence : List Char → List Char
  | a :: b :: c :: text => if [a, b, c] = fence then unfence text else a :: b :: c :: text
  | text => text

/-- The JSON object of a reply, without fences and what is said around it. -/
def extractJson (raw : String) : String :=
  let text := trim raw.toList
  let opening := fence ++ "json".toList
  let text :=
    if opening <+: text then text.drop opening.length
    else if fence <+: text then text.drop fence.length
    else text
  let text := trim (unfence (trim text).reverse).reverse
  match text.idxOf? '{', text.reverse.idxOf? '}' with
  | some first, some behind =>
    if first < text.length - behind then String.ofList ((text.take (text.length - behind)).drop first)
    else String.ofList text
  | _, _ => String.ofList text

structure ReconcileReport where
  before : ℕ
  after : ℕ
  folded : ℕ
  merged : ℕ
  chatRequests : ℕ
  inputTokens : ℕ
  outputTokens : ℕ
  deriving DecidableEq, Repr

/-- Every renaming followed to its end; a cycle is left where it closes. -/
def resolveChains (renames : Renames) : Renames :=
  renames.filterMap fun start into =>
    let target := chase (renames[·]?) (renames.size + 1) [start] into
    if target ≠ start then some target else none

/-- A family of names takes those given that no family has taken yet; the first is the survivor. -/
def claim (names : List String) (state : Renames × List String) (group : List String) :
    Renames × List String :=
  match group.filter fun name => names.contains name && !state.2.contains name with
  | survivor :: other :: others =>
    ((other :: others).foldl (fun renames name => renames.insert name survivor) state.1,
      state.2 ++ survivor :: other :: others)
  | _ => state

/-- The families that the model finds among names; a reply that is not what was asked for names
none. -/
def adjudicate {ε : Type} (chat : Except ε Reply) (parse : String → Option (List (List String)))
    (names : List String) (report : ReconcileReport) : Except ε (Renames × ReconcileReport) :=
  if names.length < 2 then .ok (∅, report)
  else do
    let reply ← chat
    return (resolveChains (((parse (extractJson reply.text)).getD []).foldl (claim names) (∅, [])).1,
      { report with
        chatRequests := report.chatRequests + 1
        inputTokens := report.inputTokens + reply.inputTokens
        outputTokens := report.outputTokens + reply.outputTokens })

/-- Folds the spellings, and asks about what is left. -/
def reconcile {ε : Type} (unicode : Unicode) (chat : Except ε Reply)
    (parse : String → Option (List (List String)))
    (counts : Counts) : Except ε (Renames × ReconcileReport) :=
  let report : ReconcileReport := ⟨counts.size, counts.size, 0, 0, 0, 0, 0⟩
  if counts.size < 2 then .ok (∅, report)
  else do
    let folded := fold unicode counts
    let survivors := counts.keys.filter (· ∉ folded)
    let (merged, report) ← adjudicate chat parse survivors { report with folded := folded.size }
    let renames := resolveChains (folded ∪ merged)
    return (renames, { report with merged := merged.size, after := counts.size - renames.size })

/-! ### Chains -/

variable {renames merged : Renames} {rank : String → ℕ} {counts : Counts} {names : List String}
  {a b : String} {parse : String → Option (List (List String))} {state : Renames × List String}
  {report : ReconcileReport} {unicode : Unicode}

/-- **A name is renamed to the end of its chain**, where no chain runs in a circle. -/
theorem getElem?_resolveChains (raises : Raises (renames[·]?) rank) :
    (resolveChains renames)[a]? = some b ↔
    a ≠ b ∧ Leads (renames[·]?) a b ∧ Final (renames[·]?) b := by
  have defined : ∀ a b, renames[a]? = some b → a ∈ renames.keys := fun a b found =>
    ExtTreeMap.mem_keys.mpr (Std.ExtTreeMap.mem_iff_isSome_getElem?.mpr
      (Option.isSome_of_eq_some found))
  rw [resolveChains, ExtTreeMap.getElem?_filterMap', Option.bind_eq_some_iff,
    ← ExtTreeMap.length_keys]
  constructor
  · rintro ⟨into, step, found⟩
    obtain ⟨leads, final⟩ := chase_next raises defined step
    dsimp only at found
    split_ifs at found with apart
    obtain rfl := Option.some.inj found
    exact ⟨fun same => apart same.symm, leads, final⟩
  · rintro ⟨apart, leads, final⟩
    obtain same | ⟨into, step, -⟩ := leads.cases
    · exact absurd same apart
    · obtain ⟨leads', final'⟩ := chase_next raises defined step
      have ends := leads'.final_unique leads final' final
      refine ⟨into, step, ?_⟩
      dsimp only
      rw [ends, if_pos fun same => apart same.symm]

/-- What is renamed is not the target of a renaming. -/
theorem resolveChains_settled (raises : Raises (renames[·]?) rank)
    (renamed : (resolveChains renames)[a]? = some b) : (resolveChains renames)[b]? = none := by
  obtain ⟨-, -, final⟩ := (getElem?_resolveChains raises).mp renamed
  refine Option.eq_none_iff_forall_ne_some.mpr fun c found => ?_
  obtain ⟨apart, leads, -⟩ := (getElem?_resolveChains raises).mp found
  exact apart (final.eq_of_leads leads).symm

/-- A name goes by the end of its chain. -/
theorem canonical_resolveChains (raises : Raises (renames[·]?) rank) :
    Leads (renames[·]?) a (canonical (resolveChains renames) a) ∧
      Final (renames[·]?) (canonical (resolveChains renames) a) := by
  unfold canonical
  cases found : (resolveChains renames)[a]? with
  | some b => exact ((getElem?_resolveChains raises).mp found).2
  | none =>
    refine ⟨.refl, fun c step => ?_⟩
    obtain ⟨e, leads, final⟩ : ∃ e, Leads (renames[·]?) a e ∧ Final (renames[·]?) e :=
      ⟨_, chase_next raises (fun a b found => ExtTreeMap.mem_keys.mpr
        (ExtTreeMap.mem_iff_isSome_getElem?.mpr (Option.isSome_of_eq_some found))) step⟩
    by_cases same : a = e
    · exact (same ▸ final) c step
    · cases found.symm.trans ((getElem?_resolveChains raises).mpr ⟨same, leads, final⟩)

/-- A name that leads to another is renamed. -/
theorem renamed_of_step (raises : Raises (renames[·]?) rank) (step : renames[a]? = some b)
    (apart : a ≠ b) : (resolveChains renames)[a]? = some (canonical (resolveChains renames) a) := by
  have ends := (canonical_resolveChains (a := a) raises).2
  unfold canonical at ends ⊢
  cases found : (resolveChains renames)[a]? with
  | some c => rfl
  | none =>
    rw [found, Option.getD_none] at ends
    exact absurd (ends b step).symm apart

/-! ### Nothing is lost -/

/-- Given names are renamed to given names that are not renamed, and so many names are left. -/
structure Lossless (counts : Counts) (renames : Renames) (after : ℕ) : Prop where
  sources : ∀ a b : String, renames[a]? = some b → a ∈ counts
  targets : ∀ a b : String, renames[a]? = some b → b ∈ counts
  settled : ∀ a b : String, renames[a]? = some b → renames[b]? = none
  counted : after = (counts.keys.map (canonical renames)).dedup.length

theorem lossless_empty : Lossless counts ∅ counts.size := by
  refine ⟨fun a b found => ?_, fun a b found => ?_, fun a b found => ?_, ?_⟩
  · cases (ExtTreeMap.getElem?_empty).symm.trans found
  · cases (ExtTreeMap.getElem?_empty).symm.trans found
  · cases (ExtTreeMap.getElem?_empty).symm.trans found
  · have same : counts.keys.map (canonical ∅) = counts.keys :=
      List.map_id'' (fun a => by simp [canonical]) _
    rw [same, List.dedup_eq_self.mpr ExtTreeMap.nodup_keys, ExtTreeMap.length_keys]

theorem leads_given (given : ∀ a b : String, renames[a]? = some b → a ∈ counts ∧ b ∈ counts)
    (leads : Leads (renames[·]?) a b) (apart : a ≠ b) : a ∈ counts ∧ b ∈ counts := by
  obtain same | ⟨c, first, -⟩ := leads.cases
  · exact absurd same apart
  · obtain same | ⟨d, -, last⟩ := Relation.ReflTransGen.cases_tail leads
    · exact absurd same.symm apart
    · exact ⟨(given a c first).1, (given d b last).2⟩

/-- Settled renamings among the given names leave as many names as are not renamed. -/
theorem count_canonical (sources : ∀ a b : String, renames[a]? = some b → a ∈ counts)
    (targets : ∀ a b : String, renames[a]? = some b → b ∈ counts)
    (settled : ∀ a b : String, renames[a]? = some b → renames[b]? = none) :
    counts.size - renames.size = (counts.keys.map (canonical renames)).dedup.length := by
  have image : (counts.keys.map (canonical renames)).toFinset =
      counts.keys.toFinset \ renames.keys.toFinset := by
    ext name
    simp only [List.mem_toFinset, List.mem_map, Finset.mem_sdiff, ExtTreeMap.mem_keys,
      ExtTreeMap.mem_iff_isSome_getElem? (t := renames), Option.not_isSome_iff_eq_none]
    constructor
    · rintro ⟨a, given, rfl⟩
      unfold canonical
      cases found : renames[a]? with
      | none => exact ⟨given, found⟩
      | some b => exact ⟨targets a b found, settled a b found⟩
    · rintro ⟨given, kept⟩
      exact ⟨name, given, by rw [canonical, kept]; rfl⟩
  have subset : renames.keys.toFinset ⊆ counts.keys.toFinset := by
    intro name renamed
    rw [List.mem_toFinset, ExtTreeMap.mem_keys] at renamed ⊢
    obtain ⟨b, found⟩ := Option.isSome_iff_exists.mp (ExtTreeMap.mem_iff_isSome_getElem?.mp renamed)
    exact sources name b found
  rw [← List.card_toFinset, image, Finset.card_sdiff_of_subset subset,
    List.toFinset_card_of_nodup ExtTreeMap.nodup_keys,
    List.toFinset_card_of_nodup ExtTreeMap.nodup_keys,
    ExtTreeMap.length_keys, ExtTreeMap.length_keys]

theorem lossless_resolveChains (raises : Raises (renames[·]?) rank)
    (given : ∀ a b : String, renames[a]? = some b → a ∈ counts ∧ b ∈ counts) :
    Lossless counts (resolveChains renames) (counts.size - (resolveChains renames).size) := by
  have ends : ∀ a b : String, (resolveChains renames)[a]? = some b → a ∈ counts ∧ b ∈ counts := by
    intro a b renamed
    obtain ⟨apart, leads, -⟩ := (getElem?_resolveChains raises).mp renamed
    exact leads_given given leads apart
  have settled : ∀ a b : String, (resolveChains renames)[a]? = some b →
      (resolveChains renames)[b]? = none :=
    fun a b => resolveChains_settled raises
  have sources := fun a b renamed => (ends a b renamed).1
  have targets := fun a b renamed => (ends a b renamed).2
  exact ⟨sources, targets, settled, count_canonical sources targets settled⟩

/-! ### The layers -/

/-- A name that is folded into another is folded no further. -/
theorem foldBy_settled {key : String → String} (folded : (foldBy key counts)[a]? = some b) :
    (foldBy key counts)[b]? = none := by
  obtain ⟨-, -, survives⟩ := getElem?_foldBy.mp folded
  refine Option.eq_none_iff_forall_ne_some.mpr fun c again => ?_
  obtain ⟨given, apart, survives'⟩ := getElem?_foldBy.mp again
  have before : preferred counts b c = true :=
    survives.first c survives'.given (survives'.same.trans survives.same)
  have after : preferred counts c b = true := survives'.first b given rfl
  exact apart (preferred_antisymm before after)

/-- The families of a reply: given names that are taken, each leading to one that leads nowhere
else. -/
structure Families (names : List String) (state : Renames × List String) : Prop where
  given : ∀ a b : String, state.1[a]? = some b → a ∈ names ∧ b ∈ names
  taken : ∀ a b : String, state.1[a]? = some b → a ∈ state.2 ∧ b ∈ state.2
  flat : ∀ a b : String, state.1[a]? = some b → Final (state.1[·]?) b

theorem families_empty : Families names (∅, []) := by
  refine ⟨fun a b found => ?_, fun a b found => ?_, fun a b found => ?_⟩
  all_goals cases (ExtTreeMap.getElem?_empty).symm.trans found

theorem getElem?_foldl_insert {others : List String} {survivor : String} :
    (others.foldl (fun renames name => renames.insert name survivor) renames)[a]? =
      if a ∈ others then some survivor else renames[a]? := by
  induction others generalizing renames with
  | nil => rfl
  | cons other others ih =>
    rw [List.foldl_cons, ih, ExtTreeMap.getElem?_insert]
    by_cases later : a ∈ others
    · simp [later]
    · by_cases here : other = a
      · simp [here]
      · simp [later, here, Ne.symm here]

/-- **One family** more. -/
theorem Families.claim {group : List String} (families : Families names state) :
    Families names (claim names state group) := by
  unfold Llm.claim
  split
  · rename_i survivor other others members
    have fresh : ∀ name ∈ survivor :: other :: others, name ∈ names ∧ name ∉ state.2 := by
      intro name inside
      rw [← members, List.mem_filter] at inside
      simpa using inside.2
    have mine := fresh survivor List.mem_cons_self
    have apart : ∀ a b : String, state.1[a]? = some b → a ∉ other :: others ∧ b ∉ other :: others :=
      fun a b found =>
      ⟨fun inside => (fresh a (List.mem_cons_of_mem _ inside)).2 (families.taken a b found).1,
        fun inside => (fresh b (List.mem_cons_of_mem _ inside)).2 (families.taken a b found).2⟩
    have renamed : ∀ {a b : String},
        ((other :: others).foldl (fun renames name => renames.insert name survivor) state.1)[a]? =
          some b →
          (a ∈ other :: others ∧ b = survivor) ∨ (a ∉ other :: others ∧ state.1[a]? = some b) := by
      intro a b found
      rw [getElem?_foldl_insert] at found
      split_ifs at found with inside
      · exact .inl ⟨inside, (Option.some.inj found).symm⟩
      · exact .inr ⟨inside, found⟩
    refine ⟨fun a b found => ?_, fun a b found => ?_, fun a b found c again => ?_⟩
    · obtain ⟨inside, rfl⟩ | ⟨-, found⟩ := renamed found
      · exact ⟨(fresh a (List.mem_cons_of_mem _ inside)).1, mine.1⟩
      · exact families.given a b found
    · obtain ⟨inside, rfl⟩ | ⟨-, found⟩ := renamed found
      · exact ⟨List.mem_append_right _ (List.mem_cons_of_mem _ inside),
          List.mem_append_right _ List.mem_cons_self⟩
      · exact ⟨List.mem_append_left _ (families.taken a b found).1,
          List.mem_append_left _ (families.taken a b found).2⟩
    · obtain ⟨-, rfl⟩ | ⟨-, found⟩ := renamed found
      · obtain ⟨-, same⟩ | ⟨-, earlier⟩ := renamed again
        · exact same
        · exact absurd (families.taken b c earlier).1 mine.2
      · obtain ⟨inside, -⟩ | ⟨-, earlier⟩ := renamed again
        · exact absurd inside (apart a b found).2
        · exact families.flat a b found c earlier
  · exact families

theorem families_foldl {groups : List (List String)} (families : Families names state) :
    Families names (groups.foldl (Llm.claim names) state) := by
  induction groups generalizing state with
  | nil => exact families
  | cons group groups ih => exact ih families.claim

/-- In families no chain is longer than one. -/
theorem Families.raises (families : Families names state) :
    Raises (state.1[·]?) fun a : String => if (state.1[a]?).all (· == a) then 1 else 0 := by
  intro a b found apart
  have ends : (state.1[b]?).all (· == b) := by
    cases again : state.1[b]? with
    | none => rfl
    | some c => exact beq_iff_eq.mpr (families.flat a b found c again)
  change (if (state.1[a]?).all (· == a) then 1 else 0) < if (state.1[b]?).all (· == b) then 1 else 0
  have found : state.1[a]? = some b := found
  rw [if_pos ends, found, if_neg (by simpa using Ne.symm apart)]
  exact Nat.one_pos

theorem layers_cases {folded : Renames} (found : (folded ∪ merged)[a]? = some b) :
    merged[a]? = some b ∨ (merged[a]? = none ∧ folded[a]? = some b) := by
  rw [ExtTreeMap.getElem?_union] at found
  cases own : merged[a]? with
  | none => exact .inr ⟨rfl, by rwa [own, Option.none_or] at found⟩
  | some c => exact .inl (by rwa [own, Option.some_or] at found)

/-- Renamings of the survivors of a folding, laid over it. -/
theorem raises_layers {folded : Renames}
    (settled : ∀ a b : String, folded[a]? = some b → folded[b]? = none)
    (above : ∀ a b : String, merged[a]? = some b →
      folded[a]? = none ∧ folded[b]? = none ∧ merged[b]? = none) :
    Raises ((folded ∪ merged)[·]?) fun a : String =>
      if (folded[a]?).isSome then 0 else if (merged[a]?).isSome then 1 else 2 := by
  intro a b found apart
  dsimp only
  obtain own | ⟨none, below⟩ := layers_cases found
  · obtain ⟨left, right, last⟩ := above a b own
    simp [left, right, last, own]
  · have last := settled a b below
    rw [below, last]
    simp only [Option.isSome_some, if_true, Option.isSome_none, Bool.false_eq_true, if_false]
    split_ifs <;> omega

theorem adjudicate_above {ε : Type} {chat : Except ε Reply} {report' : ReconcileReport}
    (ran : adjudicate chat parse names report = .ok (merged, report')) :
    ∀ a b : String, merged[a]? = some b → a ∈ names ∧ b ∈ names ∧ merged[b]? = none := by
  intro a b found
  unfold adjudicate at ran
  split_ifs at ran
  · obtain rfl := (Prod.mk.inj (Except.ok.inj ran)).1
    cases (ExtTreeMap.getElem?_empty).symm.trans found
  · obtain ⟨reply, -, same⟩ := bind_eq_ok.mp ran
    obtain rfl := (Prod.mk.inj (Except.ok.inj same)).1
    have families : Families names (((parse (extractJson reply.text)).getD []).foldl (claim names)
        (∅, [])) :=
      families_foldl families_empty
    obtain ⟨apart, leads, -⟩ := (getElem?_resolveChains families.raises).mp found
    have given : ∀ a b : String, _ → a ∈ names ∧ b ∈ names := families.given
    obtain same | ⟨c, first, -⟩ := leads.cases
    · exact absurd same apart
    · obtain same | ⟨d, -, last⟩ := Relation.ReflTransGen.cases_tail leads
      · exact absurd same.symm apart
      · exact ⟨(given a c first).1, (given d b last).2, resolveChains_settled families.raises found⟩

/-- **Reconciling loses nothing.** Whatever names are given, however often, and whatever the model
replies: given names are renamed to given names that are not renamed themselves, and the report counts
the names that are left. -/
theorem reconcile_lossless {ε : Type} {chat : Except ε Reply}
    (ran : reconcile unicode chat parse counts = .ok (renames, report)) :
    Lossless counts renames report.after := by
  unfold reconcile at ran
  dsimp only at ran
  split_ifs at ran with few
  · obtain ⟨rfl, rfl⟩ := Prod.mk.inj (Except.ok.inj ran)
    exact lossless_empty
  · obtain ⟨⟨merged, report'⟩, asked, same⟩ := bind_eq_ok.mp ran
    obtain ⟨rfl, rfl⟩ := Prod.mk.inj (Except.ok.inj same)
    have above := adjudicate_above asked
    simp only [List.mem_filter, ExtTreeMap.mem_keys, decide_eq_true_eq,
      ExtTreeMap.mem_iff_isSome_getElem? (t := fold unicode counts),
      Option.not_isSome_iff_eq_none] at above
    refine lossless_resolveChains (raises_layers (fun a b => foldBy_settled)
      fun a b found => ⟨(above a b found).1.2, (above a b found).2.1.2, (above a b found).2.2⟩)
        fun a b found => ?_
    obtain own | ⟨-, below⟩ := layers_cases found
    · exact ⟨(above a b own).1.1, (above a b own).2.1.1⟩
    · obtain ⟨given, -, survives⟩ := getElem?_foldBy.mp below
      exact ⟨given, survives.given⟩

/-- With a reply, reconciling returns. -/
theorem reconcile_returns {ε : Type} {reply : Reply} : ∃ renames report,
      reconcile unicode (.ok reply : Except ε Reply) parse counts = .ok (renames, report) := by
  unfold reconcile adjudicate
  split_ifs
  · exact ⟨_, _, rfl⟩
  · dsimp only
    split_ifs
    · exact ⟨_, _, rfl⟩
    · exact ⟨_, _, rfl⟩

end DrStrange.Llm
