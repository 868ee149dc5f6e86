/-
**What a table of mounts serves.**

A name is looked up in the host and then in each mount, and each database is asked for it anew; the
names that are listed were put down when the mount was made. The two agree on a table that is
`Sound`: each listed name is answered by the mount it is listed under, and every name that is
answered is listed. A mount may be added to a sound table (`Sound.push`), and one be taken out
(`Sound.remove`), under conditions that are needed (`Sound.mayPush`, `Sound.mayRemove`): what the
added one lists is free and none of its listed names is the bare prefix, and the default plane of a
prefixed mount, which its own mount does not list, is listed by another.
-/

import DrStrange.Graph.Types

namespace DrStrange.Api

/-! ### Databases and mounts -/

def startupName : String := "startup"

/-- The planes of a database that do not change: ids and names are unique, and the default plane is
one of them. -/
structure Db where
  planes : List (ℕ × String)
  ids : (planes.map Prod.fst).Nodup
  names : (planes.map Prod.snd).Nodup
  startup : (0, startupName) ∈ planes

def Db.plane (db : Db) (name : String) : Option (ℕ × String) :=
  db.planes.find? fun plane => plane.2 = name

def prefixSep : String := "/"

/-- `strip_prefix`. -/
def stripPrefix (head name : String) : Option String :=
  if head.toList.isPrefixOf name.toList then some
    (String.ofList (name.toList.drop head.toList.length)) else none

/-- The name under which a plane is served. -/
def shown (mount : String) (prefixed : Bool) (plane : String) : String :=
  if prefixed then mount ++ prefixSep ++ plane else plane

/-- The planes of a database that a mount lists: the default one is skipped. -/
def shownPlanes (mount : String) (prefixed : Bool) (db : Db) : List String :=
  (db.planes.filter fun plane => !(plane.1 = 0 || plane.2 = startupName)).map fun plane =>
    shown mount prefixed plane.2

/-- A path as it is shown, and its components. -/
structure Path where
  text : String
  components : List String

/-- A mount, with the names that were listed when it was made. -/
structure Mount where
  name : String
  path : Path
  prefixed : Bool
  db : Db
  planes : List String
  listed : planes = shownPlanes name prefixed db

/-- The name a mount's own database knows a served name by. -/
def Mount.serves (m : Mount) (served : String) : Option String :=
  if m.prefixed then (stripPrefix (m.name ++ prefixSep) served).filter fun inner => !inner.isEmpty
  else if served = startupName then none
  else some served

structure Serving where
  db : Db
  plane : String
  mount : Option String

structure Served where
  plane : String
  mount : Option String
  deriving DecidableEq

/-- What one mount answers. -/
def Mount.answer (m : Mount) (plane : String) : Option Serving :=
  (m.serves plane).bind fun inner => if (m.db.plane inner).isSome then some ⟨m.db, inner,
    some m.name⟩ else none

/-- The database that serves a plane: the host is asked first. -/
def serving (host : Db) (mounts : List Mount) (plane : String) : Option Serving :=
  if (host.plane plane).isSome then some ⟨host, plane, none⟩ else mounts.findSome? fun m =>
    m.answer plane

/-- Every plane that is served, the host's first. -/
def planes (host : Db) (mounts : List Mount) : List Served :=
  (host.planes.map fun plane => ⟨plane.2, none⟩) ++
    mounts.flatMap fun m => m.planes.map fun plane => ⟨plane, some m.name⟩

/-! ### Sound tables -/

/-- One served name, one database. -/
structure Sound (host : Db) (mounts : List Mount) : Prop where
  names : (mounts.map Mount.name).Nodup
  once : ((planes host mounts).map Served.plane).Nodup
  own : ∀ m ∈ mounts, ∀ plane ∈ m.planes, ∃ inner,
    serving host mounts plane = some ⟨m.db, inner, some m.name⟩
  answered : ∀ plane, (serving host mounts plane).isSome →
    plane ∈ (planes host mounts).map Served.plane
  host : ∀ plane ∈ host.planes, serving host mounts plane.2 = some ⟨host, plane.2, none⟩

/-- A mount that may be added: its names are free, none is the prefix alone, and its default plane is
listed if the prefix lets it through. -/
structure MayPush (host : Db) (mounts : List Mount) (m : Mount) : Prop where
  name : m.name ∉ mounts.map Mount.name
  free : ∀ plane ∈ m.planes, plane ∉ (planes host mounts).map Served.plane
  named : m.prefixed → m.db.plane "" = none
  startup : m.prefixed → shown m.name true startupName ∈ (planes host mounts).map Served.plane

/-- What is left of the table lists the default planes that it lets through. -/
def MayRemove (host : Db) (left : List Mount) : Prop :=
  ∀ m ∈ left, m.prefixed → shown m.name true startupName ∈ (planes host left).map Served.plane

/-! ### Names -/

variable {inner name : String} {db : Db}

theorem stripPrefix_eq_some {head : String} :
    stripPrefix head name = some inner ↔ name = head ++ inner := by
  have text : name = head ++ inner ↔ name.toList = head.toList ++ inner.toList := by
    rw [← String.toList_append, String.toList_inj]
  rw [stripPrefix, text]
  constructor
  · intro stripped
    split_ifs at stripped with starts
    obtain ⟨rest, same⟩ := List.isPrefixOf_iff_prefix.mp starts
    obtain rfl := Option.some.inj stripped
    rw [String.toList_ofList, ← same, List.drop_left]
  · intro same
    have starts : head.toList.isPrefixOf name.toList = true :=
      List.isPrefixOf_iff_prefix.mpr (same ▸ List.prefix_append _ _)
    rw [if_pos starts, same, List.drop_left, String.ofList_toList]

theorem Db.plane_isSome : (db.plane name).isSome ↔ name ∈ db.planes.map Prod.snd := by
  rw [Db.plane, List.find?_isSome, List.mem_map]
  simp only [decide_eq_true_eq]

theorem shown_injective {mount : String} {prefixed : Bool} :
    Function.Injective (shown mount prefixed) := by
  intro a b same
  cases prefixed with
  | false => exact same
  | true => exact (String.append_right_inj _).mp same

/-- A plane is the default one by its name, as by its id. -/
theorem Db.skipped_iff {plane : ℕ × String} (inside : plane ∈ db.planes) :
    plane.1 = 0 ↔ plane.2 = startupName := by
  constructor
  · intro id
    have same := List.inj_on_of_nodup_map db.ids inside db.startup id
    rw [same]
  · intro name
    have same := List.inj_on_of_nodup_map db.names inside db.startup name
    rw [same]

variable {host : Db} {mounts before after : List Mount} {m : Mount} {plane : String} {s : Serving}

/-- A mount lists its planes but for the default one. -/
theorem Mount.mem_planes : plane ∈ m.planes ↔
    ∃ inner ∈ m.db.planes.map Prod.snd, inner ≠ startupName ∧
    plane = shown m.name m.prefixed inner := by
  rw [m.listed, shownPlanes, List.mem_map]
  constructor
  · rintro ⟨row, kept, rfl⟩
    obtain ⟨inside, kept⟩ := List.mem_filter.mp kept
    refine ⟨row.2, List.mem_map_of_mem inside, fun name => ?_, rfl⟩
    simp [name] at kept
  · rintro ⟨_, among, other, rfl⟩
    obtain ⟨row, inside, rfl⟩ := List.mem_map.mp among
    refine ⟨row, List.mem_filter.mpr ⟨inside, ?_⟩, rfl⟩
    simp [Db.skipped_iff inside, other]

theorem Mount.nodup_planes : m.planes.Nodup := by
  rw [m.listed, shownPlanes]
  have names : ((m.db.planes.filter fun plane => !(plane.1 = 0 || plane.2 = startupName)).map
      Prod.snd).Nodup :=
    m.db.names.sublist (List.filter_sublist.map _)
  have shown_ := names.map (@shown_injective m.name m.prefixed)
  rwa [List.map_map] at shown_

theorem Mount.serves_eq_some : m.serves plane = some inner ↔
    plane = shown m.name m.prefixed inner ∧ (m.prefixed → inner ≠ "") ∧
      (m.prefixed = false → inner ≠ startupName) := by
  unfold Mount.serves shown
  cases m.prefixed with
  | true =>
    rw [if_pos rfl, if_pos rfl, Option.filter_eq_some_iff, stripPrefix_eq_some]
    simp
  | false =>
    simp only [Bool.false_eq_true, if_false, false_imp_iff, forall_const, true_and]
    constructor
    · intro same
      split_ifs at same with default
      obtain rfl := Option.some.inj same
      exact ⟨rfl, default⟩
    · rintro ⟨rfl, other⟩
      rw [if_neg other]

/-- A mount answers for its planes: with a prefix for all that have a name, and without one for all
but the default one. -/
theorem Mount.answer_eq_some : m.answer plane = some s ↔
    ∃ inner ∈ m.db.planes.map Prod.snd, plane = shown m.name m.prefixed inner ∧
      (m.prefixed → inner ≠ "") ∧ (m.prefixed = false → inner ≠ startupName) ∧
      s = ⟨m.db, inner, some m.name⟩ := by
  rw [Mount.answer, Option.bind_eq_some_iff]
  constructor
  · rintro ⟨inner, served, found⟩
    split_ifs at found with held
    obtain ⟨same, named, other⟩ := Mount.serves_eq_some.mp served
    exact ⟨inner, Db.plane_isSome.mp held, same, named, other, (Option.some.inj found).symm⟩
  · rintro ⟨inner, held, same, named, other, rfl⟩
    exact ⟨inner, Mount.serves_eq_some.mpr ⟨same, named, other⟩, if_pos (Db.plane_isSome.mpr held)⟩

/-- A listed plane is answered, but for the bare prefix. -/
theorem Mount.answer_of_listed (listed : plane ∈ m.planes)
    (named : m.prefixed → m.db.plane "" = none) :
    ∃ inner, m.answer plane = some ⟨m.db, inner, some m.name⟩ := by
  obtain ⟨inner, inside, other, rfl⟩ := Mount.mem_planes.mp listed
  refine ⟨inner, Mount.answer_eq_some.mpr ⟨inner, inside, rfl, fun pre empty => ?_, fun _ =>
    other, rfl⟩⟩
  have held := Db.plane_isSome.mpr inside
  rw [empty, named pre] at held
  cases held

/-- An answered plane is listed, but for the default one behind a prefix. -/
theorem Mount.listed_of_answer (answered : m.answer plane = some s) :
    plane ∈ m.planes ∨ m.prefixed = true ∧ plane = shown m.name true startupName := by
  obtain ⟨inner, inside, rfl, named, other, rfl⟩ := Mount.answer_eq_some.mp answered
  by_cases default : inner = startupName
  · subst default
    cases pre : m.prefixed with
    | true => exact .inr ⟨rfl, rfl⟩
    | false => exact absurd rfl (other pre)
  · exact .inl (Mount.mem_planes.mpr ⟨inner, inside, default, rfl⟩)

/-- The bare prefix is not answered, and listed where there is a plane without a name. -/
theorem Mount.bare_prefix (pre : m.prefixed) : m.answer (shown m.name true "") = none := by
  rw [Option.eq_none_iff_forall_ne_some]
  intro s answered
  obtain ⟨inner, -, same, named, -⟩ := Mount.answer_eq_some.mp answered
  rw [pre] at same
  exact named pre (shown_injective same).symm

theorem Mount.answer_startup (pre : m.prefixed) :
    (m.answer (shown m.name true startupName)).isSome := by
  have inside : startupName ∈ m.db.planes.map Prod.snd := List.mem_map.mpr ⟨_, m.db.startup, rfl⟩
  have named : startupName ≠ "" := by decide
  have unprefixed : ¬ m.prefixed = false := by simp [pre]
  have held : m.answer (shown m.name true startupName) = some ⟨m.db, startupName, some m.name⟩ :=
    Mount.answer_eq_some.mpr ⟨startupName, inside, by rw [pre], fun _ => named, fun other =>
      (unprefixed other).elim, rfl⟩
  rw [held]
  rfl

theorem Mount.startup_unlisted (pre : m.prefixed) : shown m.name true startupName ∉ m.planes := by
  intro listed
  obtain ⟨inner, -, other, same⟩ := Mount.mem_planes.mp listed
  rw [pre] at same
  exact other (shown_injective same).symm

/-! ### Lookup -/

theorem answer_mount (answered : m.answer plane = some s) : s.mount = some m.name ∧ s.db = m.db := by
  obtain ⟨inner, -, -, -, -, rfl⟩ := Mount.answer_eq_some.mp answered
  exact ⟨rfl, rfl⟩

theorem mem_listed : plane ∈ (planes host mounts).map Served.plane ↔
    plane ∈ host.planes.map Prod.snd ∨ ∃ m ∈ mounts, plane ∈ m.planes := by
  simp [planes, List.map_flatMap, List.mem_flatMap, Function.comp_def]

theorem listed_eq : (planes host mounts).map Served.plane =
    host.planes.map Prod.snd ++ mounts.flatMap Mount.planes := by
  simp [planes, List.map_flatMap, Function.comp_def]

theorem serving_host (held : plane ∈ host.planes.map Prod.snd) :
    serving host mounts plane = some ⟨host, plane, none⟩ := if_pos (Db.plane_isSome.mpr held)

theorem serving_mounts (other : plane ∉ host.planes.map Prod.snd) :
    serving host mounts plane = mounts.findSome? fun m => m.answer plane :=
  if_neg fun held => other (Db.plane_isSome.mp held)

/-- A mount that is found is one of the table, and the first to answer. -/
theorem findSome_split (answered : (mounts.findSome? fun m => m.answer plane) = some s) :
    ∃ m ∈ mounts, m.answer plane = some s :=
  List.exists_of_findSome?_eq_some answered

/-! ### A mount is added -/

theorem planes_push : (planes host (mounts ++ [m])).map Served.plane =
    (planes host mounts).map Served.plane ++ m.planes := by
  rw [listed_eq, listed_eq, List.flatMap_append, List.flatMap_singleton, List.append_assoc]

/-- Who answers already goes on to; the new mount answers the rest. -/
theorem serving_push :
    serving host (mounts ++ [m]) plane = (serving host mounts plane).or (m.answer plane) := by
  unfold serving
  split_ifs
  · rfl
  · rw [List.findSome?_append]
    simp

theorem Sound.push (sound : Sound host mounts) (may : MayPush host mounts m) :
    Sound host (mounts ++ [m]) where
  names := by
    rw [List.map_append, List.map_singleton]
    exact List.nodup_append.mpr ⟨sound.names, List.nodup_singleton _, by
      rintro _ inside _ again rfl
      exact may.name (List.mem_singleton.mp again ▸ inside)⟩
  once := by
    rw [planes_push]
    refine List.nodup_append.mpr ⟨sound.once, m.nodup_planes, ?_⟩
    rintro plane inside _ again rfl
    exact may.free plane again inside
  own := by
    intro m' inside plane listed
    rw [serving_push]
    obtain old | new := List.mem_append.mp inside
    · obtain ⟨inner, answered⟩ := sound.own m' old plane listed
      exact ⟨inner, by rw [answered, Option.some_or]⟩
    · obtain rfl := List.mem_singleton.mp new
      have silent : serving host mounts plane = none := by
        by_contra answered
        exact may.free plane listed (sound.answered plane (Option.isSome_iff_ne_none.mpr answered))
      obtain ⟨inner, answered⟩ := Mount.answer_of_listed listed may.named
      exact ⟨inner, by rw [silent, Option.none_or, answered]⟩
  answered := by
    intro plane answered
    rw [planes_push, List.mem_append]
    rw [serving_push, Option.isSome_or, Bool.or_eq_true] at answered
    obtain old | new := answered
    · exact .inl (sound.answered plane old)
    · obtain ⟨s, answered⟩ := Option.isSome_iff_exists.mp new
      obtain listed | ⟨pre, rfl⟩ := Mount.listed_of_answer answered
      · exact .inr listed
      · exact .inl (may.startup pre)
  host := by
    intro plane inside
    rw [serving_push, sound.host plane inside, Option.some_or]

/-- The conditions are needed. -/
theorem Sound.mayPush (sound : Sound host mounts) (after : Sound host (mounts ++ [m])) :
    MayPush host mounts m := by
  have once := after.once
  rw [planes_push] at once
  obtain ⟨-, -, apart⟩ := List.nodup_append.mp once
  have here : m ∈ mounts ++ [m] := List.mem_append_right _ List.mem_cons_self
  refine ⟨?_, fun plane listed old => apart plane old plane listed rfl, fun pre => ?_, fun pre => ?_⟩
  · have names := after.names
    rw [List.map_append, List.map_singleton] at names
    obtain ⟨-, -, apart⟩ := List.nodup_append.mp names
    exact fun inside => apart m.name inside m.name List.mem_cons_self rfl
  · by_contra held
    have inside := Db.plane_isSome.mp (Option.isSome_iff_ne_none.mpr held)
    have listed : shown m.name true "" ∈ m.planes :=
      Mount.mem_planes.mpr ⟨"", inside, by decide, by rw [pre]⟩
    have free : serving host mounts (shown m.name true "") = none := by
      by_contra answered
      exact apart _ (sound.answered _ (Option.isSome_iff_ne_none.mpr answered)) _ listed rfl
    obtain ⟨inner, answered⟩ := after.own m here _ listed
    rw [serving_push, free, Option.none_or, Mount.bare_prefix pre] at answered
    cases answered
  · have answered : (serving host (mounts ++ [m]) (shown m.name true startupName)).isSome := by
      rw [serving_push, Option.isSome_or, Mount.answer_startup pre, Bool.or_true]
    have listed := after.answered _ answered
    rw [planes_push, List.mem_append] at listed
    exact listed.resolve_right (Mount.startup_unlisted pre)

/-! ### A mount is taken out -/

theorem serving_isSome (inside : m ∈ mounts) (answered : (m.answer plane).isSome) :
    (serving host mounts plane).isSome := by
  unfold serving
  split_ifs
  · rfl
  · rw [List.findSome?_isSome_iff]
    exact ⟨m, inside, answered⟩

/-- What another mount answers it goes on to. -/
theorem serving_remove (answered : serving host (before ++ m :: after) plane = some s)
    (other : s.mount ≠ some m.name) : serving host (before ++ after) plane = some s := by
  unfold serving at answered ⊢
  split_ifs at answered ⊢ with held
  · exact answered
  · rw [List.findSome?_append, List.findSome?_cons] at answered
    rw [List.findSome?_append]
    cases first : before.findSome? fun m => m.answer plane with
    | some found =>
      rw [first] at answered
      exact answered
    | none =>
      rw [first, Option.none_or] at answered
      rw [Option.none_or]
      cases own : m.answer plane with
      | some found =>
        rw [own] at answered
        obtain rfl := Option.some.inj answered
        exact absurd (answer_mount own).1 other
      | none =>
        rw [own] at answered
        exact answered

theorem Sound.remove (sound : Sound host (before ++ m :: after))
    (may : MayRemove host (before ++ after)) : Sound host (before ++ after) where
  names := sound.names.sublist ((List.Sublist.refl before).append
    (List.sublist_cons_self m after) |>.map _)
  once := by
    have once := sound.once
    rw [listed_eq, List.flatMap_append, List.flatMap_cons] at once
    rw [listed_eq, List.flatMap_append]
    refine once.sublist ((List.Sublist.refl _).append ((List.Sublist.refl _).append ?_))
    exact List.sublist_append_right _ _
  own := by
    intro m' inside plane listed
    have there : m' ∈ before ++ m :: after :=
      ((List.Sublist.refl before).append (List.sublist_cons_self m after)).subset inside
    obtain ⟨inner, answered⟩ := sound.own m' there plane listed
    refine ⟨inner, serving_remove answered fun same => ?_⟩
    have names := sound.names
    rw [List.map_append, List.map_cons, List.nodup_middle, ← List.map_append] at names
    rw [← Option.some.inj same] at names
    exact (List.nodup_cons.mp names).1 (List.mem_map_of_mem inside)
  answered := by
    intro plane answered
    by_cases held : plane ∈ host.planes.map Prod.snd
    · exact mem_listed.mpr (.inl held)
    · obtain ⟨s, found⟩ := Option.isSome_iff_exists.mp answered
      rw [serving_mounts held] at found
      obtain ⟨m', inside, own⟩ := findSome_split found
      obtain listed | ⟨pre, rfl⟩ := Mount.listed_of_answer own
      · exact mem_listed.mpr (.inr ⟨m', inside, listed⟩)
      · exact may m' inside pre
  host := fun _ inside => serving_host (List.mem_map_of_mem inside)

theorem Sound.mayRemove {left : List Mount} (sound : Sound host left) : MayRemove host left :=
  fun _ inside pre =>
  sound.answered _ (serving_isSome inside (Mount.answer_startup pre))

theorem sound_nil : Sound host [] where
  names := List.nodup_nil
  once := by
    rw [listed_eq, List.flatMap_nil, List.append_nil]
    exact host.names
  own := nofun
  answered := by
    intro plane answered
    by_cases held : plane ∈ host.planes.map Prod.snd
    · exact mem_listed.mpr (.inl held)
    · rw [serving_mounts held] at answered
      cases answered
  host := fun _ inside => serving_host (List.mem_map_of_mem inside)

end DrStrange.Api
