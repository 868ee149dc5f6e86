/-
**Versioned sources: what a snapshot reads from a stack of them.**

A source holds, for every key, the value written at each sequence. A snapshot reads the newest
version at or below it (`visible`). A stack of sources is read newest source first, and the first
one that has a visible version answers (`firstVisible`).

The first answer is the newest version of the whole stack as soon as every source is `Layered`
over the ones below it: whatever a lower source holds at or above a version of the upper one, the
upper one holds too. Layering is weaker than "all sequences of the upper source are larger": it
admits a source that repeats versions of the ones below, as a replayed log does.

A source is `Reclaimed` down to a floor when it has lost, key by key, what no snapshot from the floor
on can see, and the whole of a key whose newest version is a tombstone there.

A log is the list of the batches written so far, oldest first. `recorded` reads a log as a source,
and `Recent` says that a source is what some final stretch of the log wrote.
-/

import Mathlib.Data.Nat.Find
import Mathlib.Data.List.Pairwise

namespace Versioned

variable {κ α β : Type*} {snapshot seq last : ℕ} {key : κ} {a : α} {batch : ℕ × (κ → Option α)}

/-- For every key, the value written at each sequence. -/
abbrev Source (κ α : Type*) := κ → ℕ → Option α

/-- The newest version of `key` at or below `snapshot`. -/
def visible (source : Source κ α) (key : κ) (snapshot : ℕ) : Option α :=
  source key (Nat.findGreatest (fun seq => (source key seq).isSome) snapshot)

theorem visible_eq_some {source : Source κ α} (low : seq ≤ snapshot)
    (found : source key seq = some a)
    (newest : ∀ later, seq < later → later ≤ snapshot → source key later = none) :
    visible source key snapshot = some a := by
  have greatest : Nat.findGreatest (fun q => (source key q).isSome) snapshot = seq := by
    rw [Nat.findGreatest_eq_iff]
    refine ⟨low, fun _ => by simp [found], fun later above below => ?_⟩
    simp [newest later above below]
  rw [visible, greatest, found]

theorem exists_of_visible {source : Source κ α} (seen : visible source key snapshot = some a) :
    ∃ seq, seq ≤ snapshot ∧ source key seq = some a ∧
      ∀ later, seq < later → later ≤ snapshot → source key later = none := by
  refine ⟨_, Nat.findGreatest_le snapshot, seen, fun later above below => ?_⟩
  have missing := Nat.findGreatest_is_greatest above below
  simpa using missing

theorem visible_eq_none_iff {source : Source κ α} :
    visible source key snapshot = none ↔ ∀ seq, seq ≤ snapshot → source key seq = none := by
  constructor
  · intro unseen seq low
    by_contra present
    have isSome : (source key seq).isSome = true := by
      cases found : source key seq with
      | none => exact absurd found present
      | some a => rfl
    have greatest := Nat.findGreatest_spec (P := fun q => (source key q).isSome = true) low isSome
    rw [visible] at unseen
    rw [unseen] at greatest
    cases greatest
  · intro missing
    exact missing _ (Nat.findGreatest_le snapshot)

/-- Two sources that agree on a key up to the snapshot read the same there. -/
theorem visible_congr {first second : Source κ α}
    (same : ∀ seq, seq ≤ snapshot → first key seq = second key seq) :
    visible first key snapshot = visible second key snapshot := by
  cases seen : visible second key snapshot with
  | none =>
    rw [visible_eq_none_iff] at seen ⊢
    exact fun seq low => (same seq low).trans (seen seq low)
  | some a =>
    obtain ⟨seq, low, found, newest⟩ := exists_of_visible seen
    exact visible_eq_some low ((same seq low).trans found)
      fun later above below => (same later below).trans (newest later above below)

/-- Past the last version every snapshot reads the same. -/
theorem visible_of_le {source : Source κ α} (past : last ≤ snapshot)
    (bounded : ∀ seq, last < seq → source key seq = none) :
    visible source key snapshot = visible source key last := by
  cases seen : visible source key last with
  | none =>
    rw [visible_eq_none_iff] at seen ⊢
    intro seq _
    by_cases low : seq ≤ last
    · exact seen seq low
    · exact bounded seq (Nat.not_le.mp low)
  | some a =>
    obtain ⟨seq, low, found, newest⟩ := exists_of_visible seen
    refine visible_eq_some (Nat.le_trans low past) found fun later above _ => ?_
    by_cases inside : later ≤ last
    · exact newest later above inside
    · exact bounded later (Nat.not_le.mp inside)

/-! ### Stacks of sources -/

/-- Read a stack of sources, newest first: the first visible version answers. -/
def firstVisible : List (Source κ α) → κ → ℕ → Option α
  | [], _, _ => none
  | source :: older, key, snapshot =>
    (visible source key snapshot).or (firstVisible older key snapshot)

theorem firstVisible_cons_of_none {source : Source κ α} {older : List (Source κ α)}
    (unseen : visible source key snapshot = none) :
    firstVisible (source :: older) key snapshot = firstVisible older key snapshot := by
  rw [firstVisible, unseen, Option.none_or]

theorem firstVisible_cons_of_some {source : Source κ α} {older : List (Source κ α)}
    (seen : visible source key snapshot = some a) :
    firstVisible (source :: older) key snapshot = some a := by
  rw [firstVisible, seen, Option.some_or]

theorem firstVisible_append (newer older : List (Source κ α)) (key : κ) (snapshot : ℕ) :
    firstVisible (newer ++ older) key snapshot =
      (firstVisible newer key snapshot).or (firstVisible older key snapshot) := by
  induction newer with
  | nil => rw [List.nil_append, firstVisible, Option.none_or]
  | cons source newer ih => rw [List.cons_append, firstVisible, firstVisible, ih, Option.or_assoc]

theorem firstVisible_eq_none_iff {sources : List (Source κ α)} :
    firstVisible sources key snapshot = none ↔
      ∀ source ∈ sources, visible source key snapshot = none := by
  induction sources with
  | nil => simp [firstVisible]
  | cons source older ih => simp [firstVisible, ih]

theorem exists_of_firstVisible {sources : List (Source κ α)}
    (seen : firstVisible sources key snapshot = some a) :
    ∃ source ∈ sources, visible source key snapshot = some a := by
  induction sources with
  | nil => cases seen
  | cons source older ih =>
    rw [firstVisible, Option.or_eq_some_iff] at seen
    rcases seen with here | ⟨-, below⟩
    · exact ⟨source, List.mem_cons_self, here⟩
    · obtain ⟨other, member, holds⟩ := ih below
      exact ⟨other, List.mem_cons_of_mem _ member, holds⟩

/-- Past the last version of every source, every snapshot reads the same from the stack. -/
theorem firstVisible_of_le {sources : List (Source κ α)} (past : last ≤ snapshot)
    (bounded : ∀ source ∈ sources, ∀ seq, last < seq → source key seq = none) :
    firstVisible sources key snapshot = firstVisible sources key last := by
  induction sources with
  | nil => rfl
  | cons source older ih =>
    rw [firstVisible, firstVisible, visible_of_le past (bounded source List.mem_cons_self),
      ih fun other member => bounded other (List.mem_cons_of_mem _ member)]

/-- Everything `source` holds, `whole` holds too. -/
def Within (source whole : Source κ α) : Prop :=
  ∀ key seq a, source key seq = some a → whole key seq = some a

/-- `newer` repeats whatever `older` holds at or above one of its own versions. -/
def Layered (older newer : Source κ α) : Prop :=
  ∀ key seq later a, (newer key seq).isSome → seq ≤ later → older key later = some a →
    newer key later = some a

theorem Layered.mono {older smaller newer : Source κ α} (layered : Layered older newer)
    (within : Within smaller older) : Layered smaller newer :=
  fun key seq later a upper above found => layered key seq later a upper above (within _ _ _ found)

/-- What a part of a source shows that is layered over it, the source shows. -/
theorem visible_of_within_layered {source whole : Source κ α} (within : Within source whole)
    (layered : Layered whole source) (seen : visible source key snapshot = some a) :
    visible whole key snapshot = some a := by
  obtain ⟨seq, low, found, newest⟩ := exists_of_visible seen
  refine visible_eq_some low (within _ _ _ found) fun later above below => ?_
  cases deeper : whole key later with
  | none => rfl
  | some b =>
    have repeated := layered key seq later b (by rw [found]; rfl) (Nat.le_of_lt above) deeper
    rw [newest later above below] at repeated
    cases repeated

/-- The union of two sources; `newer` answers where both hold a version. -/
def overlay (newer older : Source κ α) : Source κ α :=
  fun key seq => (newer key seq).or (older key seq)

/-- The union of a stack. -/
def merged (sources : List (Source κ α)) : Source κ α :=
  sources.foldr overlay fun _ _ => none

theorem merged_cons (source : Source κ α) (older : List (Source κ α)) :
    merged (source :: older) = overlay source (merged older) := rfl

theorem exists_of_merged {sources : List (Source κ α)} (found : merged sources key seq = some a) :
    ∃ source ∈ sources, source key seq = some a := by
  induction sources with
  | nil => cases found
  | cons source older ih =>
    rw [merged_cons, overlay, Option.or_eq_some_iff] at found
    rcases found with here | ⟨-, below⟩
    · exact ⟨source, List.mem_cons_self, here⟩
    · obtain ⟨other, member, holds⟩ := ih below
      exact ⟨other, List.mem_cons_of_mem _ member, holds⟩

theorem merged_isSome_of_mem {sources : List (Source κ α)} {source : Source κ α}
    (member : source ∈ sources) (held : (source key seq).isSome) :
    (merged sources key seq).isSome := by
  induction sources with
  | nil => cases member
  | cons first older ih =>
    rw [merged_cons, overlay, Option.isSome_or, Bool.or_eq_true]
    rcases List.mem_cons.mp member with rfl | below
    · exact Or.inl held
    · exact Or.inr (ih below)

theorem visible_overlay {newer older : Source κ α} (layered : Layered older newer) (key : κ)
    (snapshot : ℕ) :
    visible (overlay newer older) key snapshot =
      (visible newer key snapshot).or (visible older key snapshot) := by
  cases seen : visible newer key snapshot with
  | none =>
    rw [Option.none_or]
    refine visible_congr fun seq low => ?_
    rw [overlay, visible_eq_none_iff.mp seen seq low, Option.none_or]
  | some a =>
    obtain ⟨seq, low, found, newest⟩ := exists_of_visible seen
    refine visible_eq_some low (by rw [overlay, found, Option.some_or]) fun later above below => ?_
    have hidden := newest later above below
    rw [overlay, hidden, Option.none_or]
    cases deeper : older key later with
    | none => rfl
    | some b =>
      have repeated := layered key seq later b (by rw [found]; rfl) (Nat.le_of_lt above) deeper
      rw [hidden] at repeated
      cases repeated

/-- **The first answer is the newest version.** A layered stack reads as its union. -/
theorem visible_merged {sources : List (Source κ α)}
    (layered : sources.Pairwise fun newer older => Layered older newer) (key : κ) (snapshot : ℕ) :
    visible (merged sources) key snapshot = firstVisible sources key snapshot := by
  induction sources with
  | nil => rfl
  | cons source older ih =>
    rw [List.pairwise_cons] at layered
    have below : Layered (merged older) source := by
      intro key seq later a upper above found
      obtain ⟨other, member, holds⟩ := exists_of_merged found
      exact layered.1 other member key seq later a upper above holds
    rw [merged_cons, visible_overlay below, ih layered.2, firstVisible]

/-! ### Reclaiming dead versions -/

/-- The newest version of the key is a tombstone at or below the floor. -/
def Dead (gone : α) (source : Source κ α) (floor : ℕ) (key : κ) : Prop :=
  visible source key floor = some gone ∧ ∀ seq, floor < seq → source key seq = none

/-- `kept` holds the versions of `source` down to the newest at or below the floor, and nothing of
a dead key. -/
def Reclaimed (gone : α) (floor : ℕ) (source kept : Source κ α) : Prop :=
  ∀ key seq a, kept key seq = some a ↔ source key seq = some a ∧ ¬ Dead gone source floor key ∧
    ∀ newer, seq < newer → newer ≤ floor → source key newer = none

section Reclaimed

variable {gone : α} {floor : ℕ} {source kept : Source κ α}

/-- Reclaiming looks at one key at a time. -/
theorem Reclaimed.of_forall_key
    (local_ : ∀ key, ∃ part rest, Reclaimed gone floor part rest ∧ source key = part key ∧
      kept key = rest key) : Reclaimed gone floor source kept := by
  intro key seq a
  obtain ⟨part, rest, reclaimed, whole, left⟩ := local_ key
  have same := reclaimed key seq a
  simp only [Dead, visible] at same ⊢
  rw [whole, left]
  exact same

theorem Reclaimed.within (reclaimed : Reclaimed gone floor source kept) : Within kept source :=
  fun key seq a found => ((reclaimed key seq a).mp found).1

/-- Versions are dropped from the oldest on. -/
theorem Reclaimed.layered (reclaimed : Reclaimed gone floor source kept) : Layered source kept := by
  intro key seq later a upper above found
  obtain ⟨b, held⟩ := Option.isSome_iff_exists.mp upper
  obtain ⟨-, alive, newest⟩ := (reclaimed key seq b).mp held
  exact (reclaimed key later a).mpr ⟨found, alive, fun newer past => newest newer
    (Nat.lt_of_le_of_lt above past)⟩

theorem Reclaimed.visible_of_dead (reclaimed : Reclaimed gone floor source kept)
    (dead : Dead gone source floor key) (snapshot : ℕ) : visible kept key snapshot = none := by
  rw [visible_eq_none_iff]
  intro seq _
  cases held : kept key seq with
  | none => rfl
  | some a => exact absurd dead ((reclaimed key seq a).mp held).2.1

/-- From the floor on, a key that is not dead reads as before. -/
theorem Reclaimed.visible_of_not_dead (reclaimed : Reclaimed gone floor source kept)
    (alive : ¬ Dead gone source floor key) (above : floor ≤ snapshot) :
    visible kept key snapshot = visible source key snapshot := by
  cases seen : visible source key snapshot with
  | none =>
    rw [visible_eq_none_iff] at seen ⊢
    intro seq low
    cases held : kept key seq with
    | none => rfl
    | some a =>
      have found := reclaimed.within key seq a held
      rw [seen seq low] at found
      cases found
  | some a =>
    obtain ⟨seq, low, found, newest⟩ := exists_of_visible seen
    have kept' : kept key seq = some a := (reclaimed key seq a).mpr
      ⟨found, alive, fun newer past upto => newest newer past (Nat.le_trans upto above)⟩
    refine visible_eq_some low kept' fun later past below => ?_
    cases held : kept key later with
    | none => rfl
    | some b =>
      have there := reclaimed.within key later b held
      rw [newest later past below] at there
      cases there

/-- From the floor on, a dead key reads as its tombstone. -/
theorem Dead.visible_eq (dead : Dead gone source floor key) (above : floor ≤ snapshot) :
    visible source key snapshot = some gone := by
  obtain ⟨seq, low, found, newest⟩ := exists_of_visible dead.1
  refine visible_eq_some (Nat.le_trans low above) found fun later past _ => ?_
  by_cases upto : later ≤ floor
  · exact newest later past upto
  · exact dead.2 later (Nat.not_le.mp upto)

end Reclaimed

/-! ### Logs -/

/-- One batch of a log: its sequence and what it writes. -/
abbrev Log (κ α : Type*) := List (ℕ × (κ → Option α))

/-- A log read as a source. -/
def recorded (log : Log κ α) : Source κ α :=
  fun key seq => (log.find? fun batch => batch.1 = seq).bind fun batch => batch.2 key

/-- Sequences only advance. -/
def Ascending (log : Log κ α) : Prop := log.Pairwise fun first second => first.1 < second.1

theorem recorded_eq_none_of_forall_ne {log : Log κ α} (other : ∀ batch ∈ log, batch.1 ≠ seq)
    (key : κ) : recorded log key seq = none := by
  have missing : log.find? (fun batch => batch.1 = seq) = none := by
    rw [List.find?_eq_none]
    intro batch member
    simpa using other batch member
  rw [recorded, missing, Option.bind_none]

theorem exists_of_recorded {log : Log κ α} (found : recorded log key seq = some a) :
    ∃ batch ∈ log, batch.1 = seq ∧ batch.2 key = some a := by
  rw [recorded, Option.bind_eq_some_iff] at found
  obtain ⟨batch, hit, wrote⟩ := found
  exact ⟨batch, List.mem_of_find?_eq_some hit, by simpa using List.find?_some hit, wrote⟩

theorem recorded_append (first second : Log κ α) (key : κ) (seq : ℕ)
    (apart : ∀ batch ∈ first, ∀ other ∈ second, batch.1 ≠ other.1) :
    recorded (first ++ second) key seq = (recorded first key seq).or (recorded second key seq) := by
  by_cases here : ∃ batch ∈ first, batch.1 = seq
  · obtain ⟨batch, member, same⟩ := here
    have missing : recorded second key seq = none :=
      recorded_eq_none_of_forall_ne (fun other inside equal =>
        apart batch member other inside (same.trans equal.symm)) key
    have hit : (first.find? fun batch => batch.1 = seq).isSome := by
      rw [List.find?_isSome]
      exact ⟨batch, member, by simpa using same⟩
    rw [missing, Option.or_none, recorded, recorded, List.find?_append]
    rw [Option.or_of_isSome hit]
  · have missing : first.find? (fun batch => batch.1 = seq) = none := by
      rw [List.find?_eq_none]
      intro batch member
      simpa using fun equal => here ⟨batch, member, equal⟩
    rw [recorded, recorded, recorded, List.find?_append, missing, Option.none_or, Option.bind_none,
      Option.none_or]

theorem recorded_singleton (batch : ℕ × (κ → Option α)) (key : κ) (seq : ℕ) :
    recorded [batch] key seq = if batch.1 = seq then batch.2 key else none := by
  unfold recorded
  by_cases same : batch.1 = seq
  · simp [same]
  · simp [same]

theorem Ascending.recorded_of_mem {log : Log κ α} (ascending : Ascending log) (member : batch ∈ log)
    (key : κ) :
    recorded log key batch.1 = batch.2 key := by
  induction log with
  | nil => cases member
  | cons first log ih =>
    rw [Ascending, List.pairwise_cons] at ascending
    rw [recorded, List.find?_cons]
    rcases List.mem_cons.mp member with rfl | later
    · rw [decide_eq_true rfl]
      rfl
    · rw [decide_eq_false (Nat.ne_of_lt (ascending.1 batch later))]
      exact ih ascending.2 later

theorem Ascending.apart {first second : Log κ α} (ascending : Ascending (first ++ second)) :
    ∀ batch ∈ first, ∀ other ∈ second, batch.1 ≠ other.1 :=
  fun batch member other inside =>
    Nat.ne_of_lt ((List.pairwise_append.mp ascending).2.2 batch member other inside)

/-- A batch past the end of the log is read before everything else, from its sequence on. -/
theorem visible_recorded_concat {log : Log κ α} (ascending : Ascending (log ++ [batch])) (key : κ)
    (snapshot : ℕ) :
    visible (recorded (log ++ [batch])) key snapshot =
      if batch.1 ≤ snapshot then (batch.2 key).or (visible (recorded log) key snapshot)
      else visible (recorded log) key snapshot := by
  have older : ∀ other ∈ log, other.1 < batch.1 := fun other member =>
    (List.pairwise_append.mp ascending).2.2 other member batch (List.mem_singleton.mpr rfl)
  have split : ∀ seq, recorded (log ++ [batch]) key seq =
      (recorded log key seq).or (if batch.1 = seq then batch.2 key else none) := fun seq => by
    rw [recorded_append _ _ _ _ ascending.apart, recorded_singleton]
  have unwritten : ∀ seq, batch.1 ≤ seq → recorded log key seq = none := fun seq above =>
    recorded_eq_none_of_forall_ne (fun other member => Nat.ne_of_lt
      (Nat.lt_of_lt_of_le (older other member) above)) key
  by_cases reached : batch.1 ≤ snapshot
  · rw [if_pos reached]
    cases wrote : batch.2 key with
    | some a =>
      rw [Option.some_or]
      refine visible_eq_some reached ?_ fun later above _ => ?_
      · rw [split, unwritten _ le_rfl, if_pos rfl, Option.none_or, wrote]
      · rw [split, unwritten _ (Nat.le_of_lt above), if_neg (Nat.ne_of_lt above), Option.none_or]
    | none =>
      rw [Option.none_or]
      refine visible_congr fun seq _ => ?_
      rw [split, wrote, ite_self, Option.or_none]
  · rw [if_neg reached]
    refine visible_congr fun seq low => ?_
    have different : batch.1 ≠ seq := fun same => reached (same ▸ low)
    rw [split, if_neg different, Option.or_none]

/-- `source` is what a final stretch of `log` wrote. -/
def Recent (source : Source κ α) (log : Log κ α) : Prop :=
  ∃ before after, log = before ++ after ∧ source = recorded after

theorem Recent.within {source : Source κ α} {log : Log κ α} (recent : Recent source log)
    (ascending : Ascending log) : Within source (recorded log) := by
  obtain ⟨before, after, rfl, rfl⟩ := recent
  intro key seq a found
  obtain ⟨batch, member, same, -⟩ := exists_of_recorded found
  have missing : recorded before key seq = none :=
    recorded_eq_none_of_forall_ne (fun other inside equal =>
      ascending.apart other inside batch member (equal.trans same.symm)) key
  rw [recorded_append _ _ _ _ ascending.apart, missing, Option.none_or, found]

/-- A final stretch of the log is layered over everything the log holds. -/
theorem Recent.layered {source : Source κ α} {log : Log κ α} (recent : Recent source log)
    (ascending : Ascending log) : Layered (recorded log) source := by
  obtain ⟨before, after, rfl, rfl⟩ := recent
  intro key seq later a upper above found
  rw [recorded_append _ _ _ _ ascending.apart, Option.or_eq_some_iff] at found
  rcases found with early | ⟨-, late⟩
  · obtain ⟨written, wrote⟩ := Option.isSome_iff_exists.mp upper
    obtain ⟨batch, member, rfl, -⟩ := exists_of_recorded wrote
    obtain ⟨other, inside, rfl, -⟩ := exists_of_recorded early
    have before' := (List.pairwise_append.mp ascending).2.2 other inside batch member
    exact absurd above (Nat.not_le.mpr before')
  · exact late

/-- What a final stretch of the log shows, the whole log shows. -/
theorem Recent.visible_eq {source : Source κ α} {log : Log κ α} (recent : Recent source log)
    (ascending : Ascending log) (seen : visible source key snapshot = some a) :
    visible (recorded log) key snapshot = some a :=
  visible_of_within_layered (recent.within ascending) (recent.layered ascending) seen

theorem Recent.nil (log : Log κ α) : Recent (fun _ _ => none) log :=
  ⟨log, [], (List.append_nil log).symm, rfl⟩

end Versioned
