/-
**The rules of a `robots.txt` and what they mean.**

A pattern is matched piece by piece, each at its first place, and the end anchor is tested once the
last piece has been placed. Without an anchor that is what the pattern means. With one it is too,
unless the path meets the pattern and one of its beginnings already does (`patternMatches_iff`).
-/

import DrStrange.Lib.Pieces

namespace DrStrange.Web

open Lib

/-! ### The code -/

structure Rule where
  allow : Bool
  pattern : String
  deriving DecidableEq, Repr

/-- The rules that apply to one user agent on one host. -/
structure Robots where
  rules : List Rule

/-- `strip_suffix('$')`, and whether there was one. -/
def stripAnchor (pattern : List Char) : List Char × Bool :=
  if pattern.getLast? = some '$' then (pattern.dropLast, true) else (pattern, false)

/-- One piece of a pattern with its number, from where the last one ended. Only the first is bound to
its place. -/
def place (path : List Char) (pos : ℕ) (part : List Char × ℕ) : Option ℕ :=
  if part.1 = [] then some pos
  else
    let hay := path.drop pos
    let found := if part.2 = 0 then (if part.1 <+: hay then some 0 else none) else find part.1 hay
    found.map fun idx => pos + (idx + part.1.length)

/-- `matches`: a prefix match with `*` for any run of characters and a last `$` for the end. -/
def patternMatches (pattern path : String) : Bool :=
  let (body, anchored) := stripAnchor pattern.toList
  match (body.splitOn '*').zipIdx.foldlM (place path.toList) 0 with
  | none => false
  | some pos => !anchored || pos = path.toList.length || body.getLast? = some '*'

/-- The longest rule so far against one that matches. Of equally long ones, `Allow` wins. -/
def longer (best : Option (ℕ × Bool)) (rule : Rule) : Option (ℕ × Bool) :=
  let len := rule.pattern.utf8ByteSize
  match best with
  | some (bestLen, bestAllow) =>
    if len < bestLen then some (bestLen, bestAllow)
    else if bestLen = len then some (len, bestAllow || rule.allow)
    else some (len, rule.allow)
  | none => some (len, rule.allow)

/-- Whether a path may be fetched. -/
def Robots.allows (robots : Robots) (path : String) : Bool :=
  (robots.rules.foldl (fun best rule =>
    if patternMatches rule.pattern path then longer best rule else best) none).all Prod.snd

/-! ### What a pattern means -/

/-- The word is split so that each `*` stands for some run of characters and every other character for
itself. -/
inductive Fits : List Char → List Char → Prop
  | nil : Fits [] []
  | star {pattern word : List Char} (run : List Char) (fits : Fits pattern word) :
      Fits ('*' :: pattern) (run ++ word)
  | char {pattern word : List Char} {c : Char} (plain : c ≠ '*') (fits : Fits pattern word) :
      Fits (c :: pattern) (c :: word)

/-- All of the path if the pattern ends in `$`, and some beginning of it otherwise. -/
def Meets (pattern path : String) : Prop :=
  let (body, anchored) := stripAnchor pattern.toList
  if anchored then Fits body path.toList else ∃ stop, stop <+: path.toList ∧ Fits body stop

/-- The longest of the rules that the path meets permits it; of equally long ones, one of them. -/
def Permitted (rules : List Rule) (meets : Rule → Prop) : Prop :=
  (∀ rule ∈ rules, ¬ meets rule) ∨
    ∃ rule ∈ rules, meets rule ∧ rule.allow = true ∧
      ∀ other ∈ rules, meets other → other.pattern.utf8ByteSize ≤ rule.pattern.utf8ByteSize

/-- An anchored pattern that ends in no `*` fits the path, and a shorter beginning of it. -/
def EndsEarly (pattern path : String) : Prop :=
  let (body, anchored) := stripAnchor pattern.toList
  anchored = true ∧ body.getLast? ≠ some '*' ∧ Fits body path.toList ∧
    ∃ stop, stop <+: path.toList ∧ stop ≠ path.toList ∧ Fits body stop

/-! ### Pieces -/

variable {pattern word stop path : List Char} {parts : List (List Char)} {part : List Char}
  {pos k : ℕ}

/-- The first piece stands at the start, the others behind it. -/
def Stands : List (List Char) → List Char → Prop
  | [], _ => False
  | part :: parts, word => ∃ rest, word = part ++ rest ∧ Within parts rest

/-- Pieces that stand somewhere stand at the start of what is left. -/
theorem within_iff : Within (part :: parts) word ↔
    ∃ gap rest, word = gap ++ rest ∧ Stands (part :: parts) rest := by
  constructor
  · rintro ⟨gap, rest, rfl, within⟩
    exact ⟨gap, part ++ rest, rfl, rest, rfl, within⟩
  · rintro ⟨gap, _, rfl, rest, rfl, within⟩
    exact ⟨gap, rest, rfl, within⟩

theorem splitOn_cons {c : Char} :
    (c :: pattern).splitOn '*' = if c = '*' then [] :: pattern.splitOn '*'
      else (pattern.splitOn '*').modifyHead (List.cons c) := by
  rw [List.splitOn, List.splitOnP_cons_eq_if_modifyHead]
  simp [List.splitOn]

theorem splitOn_eq_cons : ∃ part parts, pattern.splitOn '*' = part :: parts :=
  List.exists_cons_of_ne_nil (List.splitOn_ne_nil _ _)

/-- **A pattern fits a word if its pieces stand in it.** -/
theorem fits_iff : Fits pattern word ↔ Stands (pattern.splitOn '*') word := by
  induction pattern generalizing word with
  | nil =>
    constructor
    · rintro ⟨⟩
      exact ⟨[], rfl, rfl⟩
    · rintro ⟨rest, rfl, rfl⟩
      exact .nil
  | cons c pattern ih =>
    obtain ⟨part, parts, pieces⟩ := @splitOn_eq_cons pattern
    rw [splitOn_cons, pieces]
    rw [pieces] at ih
    split
    · rename_i star
      subst star
      constructor
      · intro fits
        cases fits with
        | star run fits => exact ⟨_, rfl, within_iff.mpr ⟨run, _, rfl, ih.mp fits⟩⟩
        | char plain => exact absurd rfl plain
      · rintro ⟨_, rfl, within⟩
        obtain ⟨run, rest, rfl, stands⟩ := within_iff.mp within
        exact .star run (ih.mpr stands)
    · rename_i plain
      constructor
      · intro fits
        cases fits with
        | star => exact absurd rfl plain
        | char _ fits =>
          obtain ⟨rest, rfl, within⟩ := ih.mp fits
          exact ⟨rest, rfl, within⟩
      · rintro ⟨rest, rfl, within⟩
        exact .char plain (ih.mpr ⟨rest, rfl, within⟩)

/-! ### Placing the pieces -/

theorem find_nil {hay : List Char} : find [] hay = some 0 := by
  cases hay with
  | nil => rfl
  | cons c hay => rw [find, if_pos List.nil_prefix]

/-- The pieces behind the first are placed from left to right. -/
theorem place_rest : (parts.zipIdx (k + 1)).foldlM (place path) pos =
    (leftmost parts (path.drop pos)).map (pos + ·) := by
  induction parts generalizing pos k with
  | nil => rfl
  | cons part parts ih =>
    rw [List.zipIdx_cons, List.foldlM_cons, leftmost, place]
    have found : (if part = [] then some pos else
        (find part (path.drop pos)).map fun idx => pos + (idx + part.length)) =
          (find part (path.drop pos)).map fun idx => pos + (idx + part.length) := by
      split
      · rename_i empty
        rw [empty, find_nil]
        rfl
      · rfl
    simp only [Nat.succ_ne_zero, if_false, found]
    cases find part (path.drop pos) with
    | none => rfl
    | some idx =>
      simp only [Option.map_some, Option.bind_eq_bind, Option.bind_some, ih, List.drop_drop]
      cases leftmost parts (path.drop (pos + (idx + part.length))) with
      | none => rfl
      | some n => exact congrArg some (Nat.add_assoc pos _ n)

theorem place_all : ((part :: parts).zipIdx).foldlM (place path) 0 =
    if part <+: path then (leftmost parts (path.drop part.length)).map (part.length + ·)
    else none := by
  rw [List.zipIdx_cons, List.foldlM_cons, place]
  have found : (if part = [] then some 0 else
      (if part <+: path then some 0 else none).map fun idx => 0 + (idx + part.length)) =
        if part <+: path then some part.length else none := by
    split
    · rename_i empty
      rw [empty, if_pos List.nil_prefix]
      rfl
    · split <;> simp
  simp only [List.drop_zero, if_true, found]
  split
  · exact place_rest
  · rfl

/-- **Where the pieces are placed, the pattern fits, and no earlier end does.** -/
theorem placed_fits (placed : ((pattern.splitOn '*').zipIdx).foldlM (place path) 0 = some pos) :
    pos ≤ path.length ∧ Fits pattern (path.take pos) ∧
      ∀ stop, stop <+: path → Fits pattern stop → pos ≤ stop.length := by
  obtain ⟨part, parts, pieces⟩ := @splitOn_eq_cons pattern
  simp only [fits_iff, pieces] at placed ⊢
  rw [place_all] at placed
  split at placed
  · rename_i starts
    obtain ⟨n, reached, rfl⟩ := Option.map_eq_some_iff.mp placed
    have own : path.take part.length = part := (List.prefix_iff_eq_take.mp starts).symm
    refine ⟨?_, ⟨(path.drop part.length).take n, ?_, leftmost_within reached⟩, ?_⟩
    · have inside := leftmost_le_length reached
      have length := starts.length_le
      rw [List.length_drop] at inside
      omega
    · rw [List.take_add, own]
    · rintro stop reaches ⟨rest, rfl, within⟩
      have behind : rest <+: path.drop part.length := by
        obtain ⟨tail, rfl⟩ := reaches
        rw [List.append_assoc, List.drop_left]
        exact List.prefix_append _ _
      obtain ⟨m, le, reached'⟩ := leftmost_le behind within
      obtain rfl := Option.some.inj (reached.symm.trans reached')
      rw [List.length_append]
      omega
  · cases placed

/-- A pattern that fits a beginning of the path is placed. -/
theorem placed_of_fits (reaches : stop <+: path) (fits : Fits pattern stop) :
    ∃ pos, ((pattern.splitOn '*').zipIdx).foldlM (place path) 0 = some pos := by
  obtain ⟨part, parts, pieces⟩ := @splitOn_eq_cons pattern
  rw [fits_iff, pieces] at fits
  obtain ⟨rest, rfl, within⟩ := fits
  obtain ⟨tail, rfl⟩ := reaches
  rw [pieces, place_all, if_pos (by rw [List.append_assoc]; exact List.prefix_append _ _),
    List.append_assoc, List.drop_left]
  obtain ⟨n, -, reached⟩ := leftmost_le (List.prefix_append rest tail) within
  exact ⟨_, by rw [reached]; rfl⟩

/-! ### The meaning -/

/-- A last `*` takes in whatever follows. -/
theorem fits_extend (last : pattern.getLast? = some '*') {more : List Char}
    (fits : Fits pattern word) :
    Fits pattern (word ++ more) := by
  induction fits with
  | nil => cases last
  | @star pattern word run fits ih =>
    cases pattern with
    | nil =>
      cases fits
      rw [List.append_nil]
      simpa using Fits.star (run ++ more) .nil
    | cons c pattern =>
      rw [List.append_assoc]
      exact .star run (ih (by simpa using last))
  | @char pattern word c plain fits ih =>
    cases pattern with
    | nil => exact absurd (Option.some.inj last) plain
    | cons d pattern => exact .char plain (ih (by simpa using last))

/-- **What is matched is what the pattern means, but where the path ends early.** -/
theorem patternMatches_iff {pattern path : String} :
    (patternMatches pattern path = true ↔ Meets pattern path) ↔ ¬ EndsEarly pattern path := by
  unfold patternMatches Meets EndsEarly
  generalize stripAnchor pattern.toList = stripped
  generalize path.toList = path
  obtain ⟨body, anchored⟩ := stripped
  dsimp only
  cases placed : ((body.splitOn '*').zipIdx).foldlM (place path) 0 with
  | none =>
    have nowhere : ∀ stop, stop <+: path → ¬ Fits body stop := by
      intro stop reaches fits
      obtain ⟨pos, found⟩ := placed_of_fits reaches fits
      rw [placed] at found
      cases found
    have never := nowhere path List.prefix_rfl
    cases anchored <;> simp [never]
    exact nowhere
  | some pos =>
    obtain ⟨inside, fits, earliest⟩ := placed_fits placed
    cases anchored with
    | false => simpa using ⟨_, List.take_prefix pos path, fits⟩
    | true =>
      have reached : pos = path.length → Fits body path := fun all =>
        List.take_of_length_le all.ge ▸ fits
      by_cases last : body.getLast? = some '*'
      · have whole : Fits body path := List.take_append_drop pos path ▸ fits_extend last fits
        simp [last, whole]
      · have met : (pos = path.length ↔ Fits body path) ↔
            ¬ (Fits body path ∧ ∃ stop, stop <+: path ∧ stop ≠ path ∧ Fits body stop) := by
          constructor
          · rintro same ⟨whole, stop, reaches, shorter, early⟩
            refine shorter (reaches.eq_of_length_le ?_)
            exact same.mpr whole ▸ earliest stop reaches early
          · intro alone
            refine ⟨reached, fun whole => ?_⟩
            by_contra other
            refine alone ⟨whole, path.take pos, List.take_prefix pos path, fun same => other ?_, fits⟩
            exact inside.antisymm (List.take_eq_self_iff path |>.mp same)
        simpa [last] using met

/-! ### The verdict -/

/-- The length of the longest of the rules, and whether one of that length permits. -/
def Longest (rules : List Rule) : Option (ℕ × Bool) → Prop
  | none => rules = []
  | some (len, allow) =>
    (∀ rule ∈ rules, rule.pattern.utf8ByteSize ≤ len) ∧
    (∃ rule ∈ rules, rule.pattern.utf8ByteSize = len) ∧
    (allow = true ↔ ∃ rule ∈ rules, rule.pattern.utf8ByteSize = len ∧ rule.allow = true)

theorem longer_longest {rules : List Rule} {best : Option (ℕ × Bool)} {rule : Rule}
    (longest : Longest rules best) : Longest (rules ++ [rule]) (longer best rule) := by
  cases best with
  | none =>
    obtain rfl : rules = [] := longest
    simp [longer, Longest]
  | some best =>
    obtain ⟨len, allow⟩ := best
    obtain ⟨most, ⟨first, among, own⟩, permits⟩ := longest
    simp only [longer]
    split_ifs with shorter same
    · refine ⟨?_, ⟨first, List.mem_append_left _ among, own⟩, permits.trans ?_⟩
      · exact List.forall_mem_append.mpr ⟨most, List.forall_mem_singleton.mpr shorter.le⟩
      · simp only [List.mem_append, List.mem_singleton, or_and_right, exists_or, exists_eq_left]
        exact ⟨.inl, fun either => either.resolve_right fun last => shorter.ne last.1⟩
    · subst same
      refine ⟨?_, ⟨rule, List.mem_append_right _ List.mem_cons_self, rfl⟩, ?_⟩
      · exact List.forall_mem_append.mpr ⟨most, List.forall_mem_singleton.mpr le_rfl⟩
      · simp only [List.mem_append, List.mem_singleton, or_and_right, exists_or, exists_eq_left,
          Bool.or_eq_true, permits, true_and]
    · have less : len < rule.pattern.utf8ByteSize := by omega
      refine ⟨?_, ⟨rule, List.mem_append_right _ List.mem_cons_self, rfl⟩, ?_⟩
      · refine List.forall_mem_append.mpr ⟨fun other member =>
          ?_, List.forall_mem_singleton.mpr le_rfl⟩
        exact (most other member).trans less.le
      · simp only [List.mem_append, List.mem_singleton, or_and_right, exists_or, exists_eq_left,
          true_and]
        refine ⟨.inr, fun either => either.resolve_left ?_⟩
        rintro ⟨other, member, equal, -⟩
        exact absurd (most other member) (by omega)

theorem longest_all {rules before : List Rule} {best : Option (ℕ × Bool)}
    (longest : Longest before best) : Longest (before ++ rules) (rules.foldl longer best) := by
  induction rules generalizing before best with
  | nil => exact (List.append_nil before).symm ▸ longest
  | cons rule rules ih =>
    rw [List.foldl_cons, ← List.singleton_append, ← List.append_assoc]
    exact ih (longer_longest longest)

/-- The longest of the rules that match decides, whatever their order. -/
theorem allows_iff {robots : Robots} {path : String} : robots.allows path = true ↔
    Permitted robots.rules fun rule => patternMatches rule.pattern path = true := by
  have longest := @longest_all (robots.rules.filter fun rule =>
    patternMatches rule.pattern path) [] none
    rfl
  rw [List.nil_append, List.foldl_filter] at longest
  rw [Robots.allows, Permitted]
  cases read : robots.rules.foldl (fun best rule =>
      if patternMatches rule.pattern path then longer best rule else best) none with
  | none =>
    rw [read] at longest
    have no := List.filter_eq_nil_iff.mp longest
    exact iff_of_true rfl (.inl no)
  | some best =>
    rw [read] at longest
    obtain ⟨len, allow⟩ := best
    simp only [Longest, List.mem_filter] at longest
    obtain ⟨most, ⟨first, ⟨among, own⟩, length⟩, permits⟩ := longest
    have some : ¬ ∀ rule ∈ robots.rules, ¬ patternMatches rule.pattern path = true :=
      fun no => no first among own
    rw [Option.all_some, permits, or_iff_right some]
    constructor
    · rintro ⟨rule, ⟨member, meets⟩, same, allow⟩
      exact ⟨rule, member, meets, allow, fun other member meets => same ▸ most other ⟨member, meets⟩⟩
    · rintro ⟨rule, member, meets, allow, longest⟩
      refine ⟨rule, ⟨member, meets⟩, ?_, allow⟩
      exact (most rule ⟨member, meets⟩).antisymm (length ▸ longest first among own)

/-- **When the rules mean what they say.** Every rule is matched by its meaning, and the verdict is
that of the longest rule that the path meets, exactly where the path ends early for none of them. -/
theorem allows_meaning (robots : Robots) (path : String) :
    ((∀ rule ∈ robots.rules, (patternMatches rule.pattern path = true ↔ Meets rule.pattern path)) ∧
      (robots.allows path = true ↔ Permitted robots.rules fun rule => Meets rule.pattern path)) ↔
      ∀ rule ∈ robots.rules, ¬ EndsEarly rule.pattern path := by
  constructor
  · exact fun meant rule member => patternMatches_iff.mp (meant.1 rule member)
  · intro late
    have meant := fun rule member => patternMatches_iff.mpr (late rule member)
    refine ⟨meant, allows_iff.trans (or_congr ?_ ?_)⟩
    · exact forall₂_congr fun rule member => not_congr (meant rule member)
    · refine exists_congr fun rule => and_congr_right fun member => and_congr (meant rule member) ?_
      exact and_congr_right fun _ => forall₂_congr fun other member =>
        imp_congr_left (meant other member)

/-- `/*b$` means `/abcb`, whose last `b` is not its first. -/
theorem patternMatches_early :
    ¬ (patternMatches "/*b$" "/abcb" = true ↔ Meets "/*b$" "/abcb") ∧
      (Robots.mk [⟨false, "/*b$"⟩]).allows "/abcb" = true ∧
      ¬ Permitted [⟨false, "/*b$"⟩] fun rule => Meets rule.pattern "/abcb" := by
  have meets : Meets "/*b$" "/abcb" :=
    Fits.char (by decide) (Fits.star ['a', 'b', 'c'] (.char (by decide) .nil))
  refine ⟨fun same => ?_, by decide, ?_⟩
  · exact absurd (same.mpr meets) (by decide)
  · rintro (none | ⟨rule, member, -, allow, -⟩)
    · exact none _ List.mem_cons_self meets
    · obtain rfl := List.mem_singleton.mp member
      cases allow

end DrStrange.Web
