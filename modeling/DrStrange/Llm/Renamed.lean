/-
**What becomes of a key.**

Whatever was answered, keys are renamed along the readings of the reply laid over the folding
(`resolve_renames`). A key stays exactly if it is the preferred one of its spellings and no reading
starts at it (`canonical_eq_self_iff`). A key that was not given comes from a reading that starts at
a given one, and from each such reading one comes (`reading_of_minted`, `renamed_of_reading`).
-/

import DrStrange.Llm.Identity

namespace DrStrange.Llm.Identity

open Std (ExtTreeMap ExtTreeSet)
open Lib

section

variable {ε : Type} (unicode : Unicode) (counts : Counts) (labels : Labels)
  (parse : String → Option (List String))

/-- The readings of what was answered; none where nothing was. -/
def readingsFrom : Except ε Reply → List (String × String)
  | .ok reply => (answers unicode counts labels parse reply).filterMap readLine
  | .error _ => []

/-- What the answer renames. -/
def heardFrom (chat : Except ε Reply) : Renames :=
  (readingsFrom unicode counts labels parse chat).foldl
    (fun renames reading => renames.insert reading.1 reading.2) ∅

/-- What is renamed in all. -/
def renamesFrom (chat : Except ε Reply) : Renames :=
  resolveChains (layers unicode counts (heardFrom unicode counts labels parse chat))

end

variable {ε : Type} {unicode : Unicode} {counts : Counts} {labels : Labels}
  {parse : String → Option (List String)}
  {chat : Except ε Reply} {renames : Renames} {report : IdentityReport}
    {source target key a b : String}

theorem standing_answered
    (standing : Standing (readingsFrom unicode counts labels parse chat) source target) :
    ∃ reply, Standing ((answers unicode counts labels parse reply).filterMap readLine) source
      target := by
  cases chat with
  | ok reply => exact ⟨reply, standing⟩
  | error e =>
    obtain ⟨earlier, later, none, -⟩ := standing
    simp [readingsFrom] at none

theorem getElem?_heardFrom : (heardFrom unicode counts labels parse chat)[source]? = some target ↔
    Standing (readingsFrom unicode counts labels parse chat) source target := getElem?_readings

theorem reading_raises
    (standing : Standing (readingsFrom unicode counts labels parse chat) source target) :
    foldSize unicode source < foldSize unicode target := by
  obtain ⟨reply, standing⟩ := standing_answered standing
  exact standing.foldSize_lt

theorem raises_heardFrom :
    Raises ((heardFrom unicode counts labels parse chat)[·]?) (foldSize unicode) :=
  fun _ _ read _ => reading_raises (getElem?_heardFrom.mp read)

theorem raises_layersFrom :
    Raises ((layers unicode counts (heardFrom unicode counts labels parse chat))[·]?)
      fun a : String =>
    2 * foldSize unicode a + if ((foldKeys unicode counts)[a]?).isSome then 0 else 1 :=
  raises_layers raises_heardFrom

/-- A step of the layers: along the readings to their end, or to the preferred spelling. -/
theorem layersFrom_cases
    (step : (layers unicode counts (heardFrom unicode counts labels parse chat))[a]? = some b) :
    (a ≠ b ∧ Leads ((heardFrom unicode counts labels parse chat)[·]?) a b ∧
        Final ((heardFrom unicode counts labels parse chat)[·]?) b) ∨
      (a ∈ counts ∧ a ≠ b ∧ Survives (foldKey unicode) counts a b) := by
  obtain own | ⟨-, below⟩ := layers_cases step
  · exact .inl ((getElem?_resolveChains raises_heardFrom).mp own)
  · exact .inr (getElem?_foldBy.mp below)

theorem layersFrom_empty (few : counts.size < 2) :
    layers unicode counts (heardFrom unicode counts labels parse chat) = ∅ := by
  have unread : heardFrom unicode counts labels parse chat = ∅ := by
    cases chat with
    | ok reply =>
      rw [heardFrom, readingsFrom, answers_eq_nil (proposed_eq_nil few)]
      rfl
    | error e => rfl
  refine ExtTreeMap.ext_getElem? fun a => ?_
  rw [ExtTreeMap.getElem?_empty]
  refine Option.eq_none_iff_forall_ne_some.mpr fun b step => ?_
  obtain ⟨apart, leads, -⟩ | ⟨left, apart, survives⟩ := layersFrom_cases step
  · rw [unread] at leads
    obtain same | ⟨c, read, -⟩ := leads.cases
    · exact apart same
    · cases ExtTreeMap.getElem?_empty.symm.trans read
  · rw [← ExtTreeMap.length_keys] at few
    have left := ExtTreeMap.mem_keys.mpr left
    have right := ExtTreeMap.mem_keys.mpr survives.given
    match counts.keys, few, left, right with
    | [key], _, left, right =>
      exact apart ((List.mem_singleton.mp left).trans (List.mem_singleton.mp right).symm)

/-- **What resolving renames**, whatever was answered. -/
theorem resolve_renames (ran : resolve unicode chat parse counts labels = .ok (renames, report)) :
    renames = renamesFrom unicode counts labels parse chat := by
  by_cases few : counts.size < 2
  · rw [resolve, if_pos few] at ran
    rw [renamesFrom, layersFrom_empty few]
    exact (congrArg Prod.fst (Except.ok.inj ran)).symm
  · cases chat with
    | ok reply =>
      obtain ⟨report', resolved, -⟩ := resolve_several few
      exact congrArg Prod.fst (Except.ok.inj (ran.symm.trans resolved))
    | error e =>
      unfold resolve at ran
      rw [if_neg few] at ran
      obtain ⟨⟨merged, report'⟩, asked, same⟩ := bind_eq_ok.mp ran
      have silent : merged = ∅ := by
        unfold adjudicate at asked
        split_ifs at asked
        · exact (congrArg Prod.fst (Except.ok.inj asked)).symm
        · cases asked
      subst silent
      exact (congrArg Prod.fst (Except.ok.inj same)).symm

/-! ### Keys that stay -/

/-- **A key stays** exactly if it is preferred to all its spellings and no reading starts at it. -/
theorem canonical_eq_self_iff (given : a ∈ counts) :
    canonical (renamesFrom unicode counts labels parse chat) a = a ↔
    (∀ other ∈ counts, foldKey unicode other = foldKey unicode a → preferred counts a other = true) ∧
      ∀ target, ¬ Standing (readingsFrom unicode counts labels parse chat) a target := by
  constructor
  · intro stays
    have still : ∀ b, (layers unicode counts (heardFrom unicode counts labels parse chat))[a]? =
        some b → a = b := by
      intro b step
      by_contra apart
      have renamed : (renamesFrom unicode counts labels parse chat)[a]? = some _ :=
        renamed_of_step raises_layersFrom step apart
      obtain ⟨moved, -⟩ := (getElem?_resolveChains raises_layersFrom).mp renamed
      exact moved stays.symm
    have unread : ∀ target, ¬ Standing (readingsFrom unicode counts labels parse chat) a target := by
      intro target standing
      have raises : Raises ((heardFrom unicode counts labels parse chat)[·]?) _ := raises_heardFrom
      obtain ⟨leads, final⟩ := @canonical_resolveChains _ _ a raises
      have moved : a ≠ canonical (resolveChains (heardFrom unicode counts labels parse chat)) a := by
        intro same
        rw [← same] at final
        exact (reading_raises standing).ne (congrArg _
          (final target (getElem?_heardFrom.mpr standing)).symm)
      exact moved (still _ (getElem?_layers raises_heardFrom leads final moved))
    refine ⟨?_, unread⟩
    have first : Survives (foldKey unicode) counts a _ := canonical_foldBy given
    have same : canonical (foldBy (foldKey unicode) counts) a = a := by
      unfold canonical
      cases folded : (foldBy (foldKey unicode) counts)[a]? with
      | none => rfl
      | some b =>
        have silent : (resolveChains (heardFrom unicode counts labels parse chat))[a]? = none := by
          refine Option.eq_none_iff_forall_ne_some.mpr fun c found => ?_
          obtain ⟨apart, leads, -⟩ := (getElem?_resolveChains raises_heardFrom).mp found
          obtain equal | ⟨next, read, -⟩ := leads.cases
          · exact apart equal
          · exact unread next (getElem?_heardFrom.mp read)
        refine (still b ?_).symm
        rw [layers, ExtTreeMap.getElem?_union, silent, Option.none_or]
        exact folded
    rw [same] at first
    exact first.first
  · rintro ⟨first, unread⟩
    have leads : Leads ((layers unicode counts (heardFrom unicode counts labels parse chat))[·]?) a
        (canonical (renamesFrom unicode counts labels parse chat) a) :=
          leads_canonical raises_heardFrom
    obtain equal | ⟨b, step, -⟩ := leads.cases
    · exact equal.symm
    · obtain ⟨apart, leads, -⟩ | ⟨-, apart, survives⟩ := layersFrom_cases step
      · obtain equal | ⟨next, read, -⟩ := leads.cases
        · exact absurd equal apart
        · exact absurd (getElem?_heardFrom.mp read) (unread next)
      · exact absurd (preferred_antisymm (first b survives.given survives.same)
          (survives.first a given rfl)) apart

/-- Where nothing is read, keys are folded. -/
theorem renamesFrom_silent (silent : readingsFrom unicode counts labels parse chat = []) :
    renamesFrom unicode counts labels parse chat = foldKeys unicode counts := by
  have same : layers unicode counts (heardFrom unicode counts labels parse chat) =
      foldKeys unicode counts := by
    refine ExtTreeMap.ext_getElem? fun a => ?_
    rw [heardFrom, silent, layers, ExtTreeMap.getElem?_union]
    rfl
  have raises : Raises ((layers unicode counts (heardFrom unicode counts labels parse chat))[·]?)
      _ := raises_layersFrom
  rw [renamesFrom]
  rw [same] at raises ⊢
  refine ExtTreeMap.ext_getElem? fun a => Option.ext fun b => ?_
  rw [getElem?_resolveChains raises]
  constructor
  · rintro ⟨apart, leads, -⟩
    obtain equal | ⟨c, step, rest⟩ := leads.cases
    · exact absurd equal apart
    · have last : Final ((foldKeys unicode counts)[·]?) c := by
        intro d further
        cases (foldBy_settled step).symm.trans further
      rw [last.eq_of_leads rest]
      exact step
  · intro step
    refine ⟨(getElem?_foldBy.mp step).2.1, .single step, fun d further => ?_⟩
    cases (foldBy_settled step).symm.trans further

/-! ### Keys that were not given -/

/-- A line has one separator more than its pair's keys, and none before the reading's. -/
theorem separator_of_readLine {pair : Pair} (read : readLine pair.line = some (source, target)) :
    '|' ∉ source.toList ∧ ('|' ∈ pair.inner.toList → '|' ∈ target.toList) := by
  obtain ⟨⟨before, after⟩, parted, same⟩ := Option.map_eq_some_iff.mp read
  obtain ⟨rfl, rfl⟩ := Prod.mk.inj same
  have whole : pair.inner.toList ++ '|' :: pair.outer.toList = before ++ '|' :: after := by
    have split := splitOnce_eq parted
    rwa [Pair.line, String.toList_append, String.toList_append, List.append_assoc] at split
  have fresh : '|' ∉ before := not_mem_of_splitOnce parted
  rw [String.toList_ofList, String.toList_ofList]
  refine ⟨fresh, fun inside => ?_⟩
  have counted := congrArg (List.count '|') whole
  rw [List.count_append, List.count_append, List.count_cons_self, List.count_cons_self,
    List.count_eq_zero_of_not_mem fresh] at counted
  have some_ : 0 < List.count '|' pair.inner.toList := List.count_pos_iff.mpr inside
  exact List.count_pos_iff.mp (by omega)

/-- A reading starts before the first separator, and ends at a given key or behind a separator. -/
theorem reading_ends (standing : Standing (readingsFrom unicode counts labels parse chat)
    source target) :
    '|' ∉ source.toList ∧ (target ∈ counts ∨ '|' ∈ target.toList) := by
  obtain ⟨reply, standing⟩ := standing_answered standing
  obtain ⟨pair, asked, -, read⟩ := standing.pair
  obtain ⟨-, outer, -⟩ := mem_containmentPairs asked
  obtain ⟨plain, further⟩ := separator_of_readLine read
  refine ⟨plain, ?_⟩
  by_cases inside : '|' ∈ pair.inner.toList
  · exact .inr (further inside)
  · obtain ⟨-, -, same⟩ := readLine_line read
    obtain ⟨-, rfl⟩ := same inside
    exact .inl (ExtTreeMap.mem_keys.mp (List.mem_of_mem_filter outer))

/-- A path along the readings from a given key ends at one, or with a reading that starts at one. -/
theorem reading_of_leads (given : a ∈ counts)
    (leads : Leads ((heardFrom unicode counts labels parse chat)[·]?) a b) :
    b ∈ counts ∨ ∃ source ∈ counts, Standing (readingsFrom unicode counts labels parse chat)
      source b := by
  induction leads with
  | refl => exact .inl given
  | @tail c b _ step ih =>
    have read := getElem?_heardFrom.mp step
    obtain inside | ⟨source, -, before⟩ := ih
    · exact .inr ⟨c, inside, read⟩
    · exact .inr ⟨c, (reading_ends before).2.resolve_right (reading_ends read).1, read⟩

/-- **A key that was not given** comes from a reading that starts at a given one. -/
theorem reading_of_minted (given : a ∈ counts)
    (renamed : (renamesFrom unicode counts labels parse chat)[a]? = some b)
    (new : b ∉ counts) : ∃ source ∈ counts, Standing (readingsFrom unicode counts labels parse chat)
      source b := by
  obtain ⟨-, leads, -⟩ := (getElem?_resolveChains raises_layersFrom).mp renamed
  suffices reached : b ∈ counts ∨ ∃ source ∈ counts,
      Standing (readingsFrom unicode counts labels parse chat) source b from
    reached.resolve_left new
  clear renamed new
  induction leads with
  | refl => exact .inl given
  | @tail c b _ step ih =>
    obtain ⟨apart, leads, -⟩ | ⟨-, -, survives⟩ := layersFrom_cases step
    · obtain inside | ⟨source, -, before⟩ := ih
      · exact reading_of_leads inside leads
      · obtain equal | ⟨next, read, -⟩ := leads.cases
        · exact absurd equal apart
        · have plain := (reading_ends (getElem?_heardFrom.mp read)).1
          exact reading_of_leads ((reading_ends before).2.resolve_right plain) leads
    · exact .inl survives.given

/-- **A reading that ends at no given key** renames what it starts at to its end. -/
theorem renamed_of_reading (standing : Standing (readingsFrom unicode counts labels parse chat) a b)
    (new : b ∉ counts) : (renamesFrom unicode counts labels parse chat)[a]? = some b := by
  have apart : a ≠ b := fun same => (reading_raises standing).ne (congrArg _ same)
  have behind : '|' ∈ b.toList := (reading_ends standing).2.resolve_left new
  have last : Final ((heardFrom unicode counts labels parse chat)[·]?) b := by
    intro c read
    exact absurd behind (reading_ends (getElem?_heardFrom.mp read)).1
  have step : (layers unicode counts (heardFrom unicode counts labels parse chat))[a]? = some b :=
    getElem?_layers raises_heardFrom (.single (getElem?_heardFrom.mpr standing)) last apart
  refine (getElem?_resolveChains raises_layersFrom).mpr ⟨apart, .single step, fun c further => ?_⟩
  obtain ⟨different, leads, -⟩ | ⟨inside, -⟩ := layersFrom_cases further
  · exact absurd (last.eq_of_leads leads).symm different
  · exact absurd inside new

end DrStrange.Llm.Identity
