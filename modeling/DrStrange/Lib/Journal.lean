/-
**A keyed store that notes what it does, and what the notes add up to.**

A store holds a value or none for each key. Each step notes at most one key: it made it, rewrote it
or took it out; taking one key out may take others along that are not noted. A key is made only once
and never after it was held. The notes on a key add up to one note or none (`net`), which is read as
the difference between the first value and the last (`became`).

`Journal.Kept.net_iff` says when that is right: what was noted as taken out was held and is
gone, what went along was noted too, and what was only rewritten is not what it was.
-/

import Mathlib

namespace DrStrange.Lib

/-- What is noted about a key. -/
inductive Note where
  | created
  | updated
  | deleted
  deriving DecidableEq, Repr

variable {κ υ : Type}

/-! ### Notes and differences -/

/-- What the notes on a key add up to: a key made and taken out again never was there. -/
def net [DecidableEq κ] (notes : List (κ × Note)) (key : κ) : Option Note :=
  if (key, .created) ∈ notes then
    if (key, .deleted) ∈ notes then none else some .created
  else if (key, .deleted) ∈ notes then some .deleted
  else if (key, .updated) ∈ notes then some .updated
  else none

/-- What became of a key between two values. -/
inductive Became : Option υ → Option υ → Note → Prop where
  | created {value : υ} : Became none (some value) .created
  | updated {old new : υ} (apart : old ≠ new) : Became (some old) (some new) .updated
  | deleted {value : υ} : Became (some value) none .deleted

/-- Nothing becomes of a key that keeps its value, and one thing of every other. -/
theorem exists_became_iff {before after : Option υ} :
    (∃ note, Became before after note) ↔ before ≠ after := by
  constructor
  · rintro ⟨note, became⟩ rfl
    cases became with
    | updated apart => exact apart rfl
  · intro differ
    cases before with
    | none =>
      cases after with
      | none => exact absurd rfl differ
      | some value => exact ⟨_, .created⟩
    | some old =>
      cases after with
      | none => exact ⟨_, .deleted⟩
      | some new => exact ⟨_, .updated fun same => differ (congrArg some same)⟩

/-! ### Steps -/

/-- A store, the keys it has held, those that went along with another, and the notes so far. -/
structure Journal (κ υ : Type) where
  values : κ → Option υ
  held : Set κ
  lost : Set κ
  notes : List (κ × Note)

/-- A store before its first step. -/
def Journal.start (values : κ → Option υ) : Journal κ υ :=
  ⟨values, {key | values key ≠ none}, ∅, []⟩

/-- One step of the store, from its values to others. -/
inductive Journal.Step (journal : Journal κ υ) (values : κ → Option υ) : Journal κ υ → Prop where
  | quiet (same : values = journal.values) : Step journal values journal
  | create {key : κ} {value : υ} (fresh : key ∉ journal.held) (made : values key = some value)
      (rest : ∀ other ≠ key, values other = journal.values other) :
      Step journal values ⟨values, insert key journal.held, journal.lost,
        journal.notes ++ [(key, .created)]⟩
  | update {key : κ} {old new : υ} (found : journal.values key = some old)
      (rewritten : values key = some new)
      (rest : ∀ other ≠ key, values other = journal.values other) :
      Step journal values ⟨values, journal.held, journal.lost, journal.notes ++ [(key, .updated)]⟩
  | delete {key : κ} {along : Set κ} (gone : values key = none)
      (held : ∀ other ∈ along, journal.values other ≠ none)
      (gone' : ∀ other ∈ along, values other = none)
      (rest : ∀ other, other ≠ key → other ∉ along → values other = journal.values other) :
      Step journal values ⟨values, journal.held, journal.lost ∪ along,
        journal.notes ++ [(key, .deleted)]⟩

/-! ### What every run keeps -/

/-- What the notes say of the values, from a first state on. -/
structure Journal.Kept (first : κ → Option υ) (journal : Journal κ υ) : Prop where
  present : ∀ key, journal.values key ≠ none → key ∈ journal.held
  held : ∀ key, key ∈ journal.held ↔ first key ≠ none ∨ (key, .created) ∈ journal.notes
  created : ∀ key, (key, .created) ∈ journal.notes → first key = none
  updated : ∀ key, (key, .updated) ∈ journal.notes → key ∈ journal.held
  deleted : ∀ key, (key, .deleted) ∈ journal.notes → first key ≠ none → journal.values key = none
  gone : ∀ key ∈ journal.lost, key ∈ journal.held ∧ journal.values key = none
  still : ∀ key ∈ journal.held, key ∉ journal.lost → (key, .deleted) ∉ journal.notes →
    journal.values key ≠ none
  same : ∀ key, (∀ note, (key, note) ∉ journal.notes) → key ∉ journal.lost →
    journal.values key = first key

variable {first values : κ → Option υ} {journal next : Journal κ υ} {key : κ}

theorem Journal.start_kept : Journal.Kept first (.start first) where
  present _ member := member
  held key := by simp [Journal.start]
  created _ member := nomatch member
  updated _ member := nomatch member
  deleted _ member := nomatch member
  gone _ member := nomatch member
  still _ member _ _ := member
  same _ _ _ := rfl

theorem Journal.Kept.step (kept : journal.Kept first) (step : journal.Step values next) :
    next.Kept first := by
  cases step with
  | quiet same => exact kept
  | @create made value fresh some rest =>
    have absent : journal.values made = none := by
      by_contra here
      exact fresh (kept.present made here)
    have unborn : first made = none := by
      by_contra here
      exact fresh ((kept.held made).mpr (.inl here))
    refine ⟨?_, ?_, ?_, ?_, ?_, ?_, ?_, ?_⟩
    · intro key here
      by_cases this : key = made
      · exact .inl this
      · exact .inr (kept.present key (rest key this ▸ here))
    · intro key
      have old := kept.held key
      simp only [Set.mem_insert_iff, List.mem_append, List.mem_singleton, Prod.mk.injEq, and_true]
      rw [old]
      tauto
    · intro key noted
      rcases List.mem_append.mp noted with old | new
      · exact kept.created key old
      · obtain ⟨rfl, -⟩ := Prod.mk.inj (List.mem_singleton.mp new)
        exact unborn
    · intro key noted
      exact .inr (kept.updated key (by simpa using noted))
    · intro key noted here
      have apart : key ≠ made := fun this => here (this ▸ unborn)
      exact (rest key apart).trans (kept.deleted key (by simpa using noted) here)
    · intro key lost
      obtain ⟨held, gone⟩ := kept.gone key lost
      have apart : key ≠ made := fun this => fresh (this ▸ held)
      exact ⟨.inr held, (rest key apart).trans gone⟩
    · intro key held clear unnoted
      show values key ≠ none
      by_cases this : key = made
      · rw [this, some]
        exact nofun
      · rw [rest key this]
        exact kept.still key (held.resolve_left this) clear (by simpa using unnoted)
    · intro key unnoted clear
      have apart : key ≠ made := fun this => unnoted .created (by simp [this])
      refine (rest key apart).trans ?_
      exact kept.same key (fun note noted => unnoted note (List.mem_append_left _ noted)) clear
  | @update written old new found rewritten rest =>
    have held : written ∈ journal.held := kept.present written (by simp [found])
    refine ⟨?_, ?_, ?_, ?_, ?_, ?_, ?_, ?_⟩
    · intro key here
      by_cases this : key = written
      · exact this ▸ held
      · exact kept.present key (rest key this ▸ here)
    · intro key
      rw [kept.held key]
      simp
    · intro key noted
      exact kept.created key (by simpa using noted)
    · intro key noted
      rcases List.mem_append.mp noted with old | new
      · exact kept.updated key old
      · obtain ⟨rfl, -⟩ := Prod.mk.inj (List.mem_singleton.mp new)
        exact held
    · intro key noted here
      have gone := kept.deleted key (by simpa using noted) here
      have apart : key ≠ written := by
        rintro rfl
        exact nomatch found.symm.trans gone
      exact (rest key apart).trans gone
    · intro key lost
      obtain ⟨inside, gone⟩ := kept.gone key lost
      have apart : key ≠ written := by
        rintro rfl
        exact nomatch found.symm.trans gone
      exact ⟨inside, (rest key apart).trans gone⟩
    · intro key inside clear unnoted
      show values key ≠ none
      by_cases this : key = written
      · rw [this, rewritten]
        exact nofun
      · rw [rest key this]
        exact kept.still key inside clear (by simpa using unnoted)
    · intro key unnoted clear
      have apart : key ≠ written := fun this => unnoted .updated (by simp [this])
      refine (rest key apart).trans ?_
      exact kept.same key (fun note noted => unnoted note (List.mem_append_left _ noted)) clear
  | @delete taken along gone held gone' rest =>
    -- a key that is gone stays gone, whether it is taken, goes along, or neither
    have stays : ∀ key, journal.values key = none → values key = none := by
      intro key absent
      by_cases this : key = taken
      · exact this ▸ gone
      · by_cases inside : key ∈ along
        · exact gone' key inside
        · exact (rest key this inside).trans absent
    refine ⟨?_, ?_, ?_, ?_, ?_, ?_, ?_, ?_⟩
    · intro key here
      exact kept.present key fun absent => here (stays key absent)
    · intro key
      rw [kept.held key]
      simp
    · intro key noted
      exact kept.created key (by simpa using noted)
    · intro key noted
      exact kept.updated key (by simpa using noted)
    · intro key noted here
      rcases List.mem_append.mp noted with old | new
      · exact stays key (kept.deleted key old here)
      · obtain ⟨rfl, -⟩ := Prod.mk.inj (List.mem_singleton.mp new)
        exact gone
    · rintro key (lost | inside)
      · exact ⟨(kept.gone key lost).1, stays key (kept.gone key lost).2⟩
      · exact ⟨kept.present key (held key inside), gone' key inside⟩
    · intro key inside clear unnoted
      have apart : key ≠ taken := fun this => unnoted (by simp [this])
      have clear' : key ∉ along := fun here => clear (.inr here)
      show values key ≠ none
      rw [rest key apart clear']
      exact kept.still key inside (fun here => clear (.inl here))
        fun noted => unnoted (List.mem_append_left _ noted)
    · intro key unnoted clear
      have apart : key ≠ taken := fun this => unnoted .deleted (by simp [this])
      refine (rest key apart fun here => clear (.inr here)).trans ?_
      exact kept.same key (fun note noted => unnoted note (List.mem_append_left _ noted))
        fun here => clear (.inl here)

/-! ### When the notes add up to the difference -/

/-- The conditions under which the notes add up to the difference. -/
structure Journal.Exact (first : κ → Option υ) (journal : Journal κ υ) : Prop where
  deleted : ∀ key, (key, .deleted) ∈ journal.notes → key ∈ journal.held ∧ journal.values key = none
  lost : ∀ key ∈ journal.lost, (key, .deleted) ∈ journal.notes
  updated : ∀ key value, (key, .updated) ∈ journal.notes → first key = some value →
    journal.values key ≠ some value

theorem Journal.Kept.exact_of_net [DecidableEq κ] (kept : journal.Kept first)
    (right : ∀ key note, net journal.notes key = some note ↔
      Became (first key) (journal.values key) note) : journal.Exact first := by
  refine ⟨?_, ?_, ?_⟩
  · intro key deleted
    by_cases created : (key, .created) ∈ journal.notes
    · refine ⟨(kept.held key).mpr (.inr created), ?_⟩
      by_contra here
      obtain ⟨value, found⟩ := Option.ne_none_iff_exists'.mp here
      have made : Became (first key) (journal.values key) .created := by
        rw [kept.created key created, found]
        exact .created
      have wrong := (right key .created).mpr made
      simp [net, created, deleted] at wrong
    · have gone := (right key .deleted).mp (by simp [net, created, deleted])
      generalize journal.values key = after at gone
      generalize before : first key = old at gone
      cases gone
      exact ⟨(kept.held key).mpr (.inl (by simp [before])), rfl⟩
  · intro key lost
    obtain ⟨held, gone⟩ := kept.gone key lost
    by_contra unnoted
    by_cases created : (key, .created) ∈ journal.notes
    · have made := (right key .created).mp (by simp [net, created, unnoted])
      rw [gone, kept.created key created] at made
      cases made
    · have here := ((kept.held key).mp held).resolve_right created
      obtain ⟨value, found⟩ := Option.ne_none_iff_exists'.mp here
      have deleted : Became (first key) (journal.values key) .deleted := by
        rw [found, gone]
        exact .deleted
      have wrong := (right key .deleted).mpr deleted
      simp [net, created, unnoted] at wrong
  · intro key value updated found same
    have unmade : (key, .created) ∉ journal.notes := fun created =>
      nomatch found.symm.trans (kept.created key created)
    have undeleted : (key, .deleted) ∉ journal.notes := fun deleted =>
      nomatch same.symm.trans (kept.deleted key deleted (by simp [found]))
    have changed := (right key .updated).mp (by simp [net, unmade, undeleted, updated])
    rw [found, same] at changed
    cases changed with
    | updated apart => exact apart rfl

theorem Journal.Exact.net [DecidableEq κ] (exact : journal.Exact first) (kept : journal.Kept first)
    (key : κ) (note : Note) :
    net journal.notes key = some note ↔ Became (first key) (journal.values key) note := by
  by_cases created : (key, .created) ∈ journal.notes
  · have unborn := kept.created key created
    have held := (kept.held key).mpr (.inr created)
    by_cases deleted : (key, .deleted) ∈ journal.notes
    · rw [unborn, (exact.deleted key deleted).2]
      simp only [Lib.net, created, deleted, if_true]
      exact ⟨nofun, nofun⟩
    · have clear : key ∉ journal.lost := fun lost => deleted (exact.lost key lost)
      obtain ⟨value, found⟩ := Option.ne_none_iff_exists'.mp (kept.still key held clear deleted)
      rw [unborn, found]
      simp only [Lib.net, created, deleted, if_true, if_false, Option.some.injEq]
      exact ⟨fun same => same ▸ .created, fun became => by cases became; rfl⟩
  · by_cases deleted : (key, .deleted) ∈ journal.notes
    · obtain ⟨held, gone⟩ := exact.deleted key deleted
      obtain ⟨value, found⟩ := Option.ne_none_iff_exists'.mp
        (((kept.held key).mp held).resolve_right created)
      rw [found, gone]
      simp only [Lib.net, created, deleted, if_true, if_false, Option.some.injEq]
      exact ⟨fun same => same ▸ .deleted, fun became => by cases became; rfl⟩
    · have clear : key ∉ journal.lost := fun lost => deleted (exact.lost key lost)
      by_cases updated : (key, .updated) ∈ journal.notes
      · have held := kept.updated key updated
        obtain ⟨old, found⟩ := Option.ne_none_iff_exists'.mp
          (((kept.held key).mp held).resolve_right created)
        obtain ⟨new, found'⟩ := Option.ne_none_iff_exists'.mp (kept.still key held clear deleted)
        have apart : old ≠ new := fun same =>
          exact.updated key old updated found (same ▸ found')
        rw [found, found']
        simp only [Lib.net, created, deleted, updated, if_true, if_false, Option.some.injEq]
        exact ⟨fun same => same ▸ .updated apart, fun became => by cases became; rfl⟩
      · have unnoted : ∀ note, (key, note) ∉ journal.notes := by
          intro note
          cases note <;> assumption
        rw [kept.same key unnoted clear]
        simp only [Lib.net, created, deleted, updated, if_false]
        exact ⟨nofun, fun became => absurd rfl (exists_became_iff.mp ⟨_, became⟩)⟩

/-- The notes add up to the difference just in case nothing went along unnoted, nothing was noted as
taken out that was not, and nothing as rewritten that is what it was. -/
theorem Journal.Kept.net_iff [DecidableEq κ] (kept : journal.Kept first) :
    (∀ key note, Lib.net journal.notes key = some note ↔
      Became (first key) (journal.values key) note) ↔ journal.Exact first :=
  ⟨kept.exact_of_net, fun exact => exact.net kept⟩

end DrStrange.Lib
