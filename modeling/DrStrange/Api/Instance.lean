/-
**Mounting and unmounting, in steps.**

A mount checks its name, opens the database, looks up each plane that it would list, records itself
and is pushed; an unmount takes the first mount of its name out and forgets it. Calls go on at the
same time, and the locks are held for one step each, so what a mount has checked may no longer hold
when it is pushed. A run keeps the table sound if and only if each push and each unmount finds it in
a state that bears it (`sound_iff_meets`).
-/

import DrStrange.Api.Mounts
import DrStrange.Api.PlaneEdits

namespace DrStrange.Api

open DrStrange.Graph

/-! ### The calls -/

/-- What the calls ask of the file system. -/
structure Files where
  there : Path → Bool
  canonical : Path → Option (List String)
  opened : Path → Except String Db

structure Mounting where
  path : Path
  asPrefix : Option String
  grant : Option Path
  remember : Bool

inductive MountError where
  | notFound (text : String)
  | invalidArgument (text : String)
  | conflict (text : String)
  | store (text : String)

structure Unmounted where
  name : String
  path : Path
  planes : List String
  freed : Bool

/-- How far a call is. -/
inductive Stage where
  | mount (req : Mounting)
  | opening (req : Mounting) (name : String)
  | checking (mount : Mount) (remember : Bool) (skipped todo clashes : List String)
  | recording (mount : Mount) (skipped : List String)
  | pushing (mount : Mount) (skipped : List String)
  | mounted (mount : Mount) (skipped : List String)
  | unmount (name : String)
  | forgetting (gone : Mount)
  | unmounted (what : Option Unmounted)
  | failed (error : MountError)

/-- Whether `dir` is `root` or beneath it, both with their links resolved. -/
def dirWithin (files : Files) (root dir : Path) : Bool :=
  match files.canonical root, files.canonical dir with
  | some root, some dir => root.isPrefixOf dir
  | _, _ => false

def fileName (components : List String) : Option String :=
  components.getLast?.filter fun last => last ≠ ".."

def stripSuffix (tail name : String) : Option String :=
  if tail.toList.isSuffixOf name.toList then
    some (String.ofList (name.toList.take (name.toList.length - tail.toList.length)))
  else none

/-- The name a mount takes from its own path: of a database that is called after its repository, the
repository's. -/
def mountName (path : Path) : Except MountError String :=
  match fileName path.components with
  | none => .error (.invalidArgument s!"{path.text} names no directory")
  | some name =>
    match stripSuffix ".drsg" name with
    | none => .ok name
    | some stem =>
      match (fileName path.components.dropLast).filter fun parent =>
        stem = "graph" && !parent.isEmpty with
      | some parent => .ok parent
      | none => .ok stem

/-- The checks before a database is opened. -/
def checkName (files : Files) (mounts : List Mount) (req : Mounting) : Except MountError String := do
  if !files.there req.path then
    throw (.notFound s!"no database at {req.path.text} — mounting opens one, it does not create it")
  if let some grant := req.grant then
    if !dirWithin files grant req.path then
      throw (.invalidArgument
        (s!"{req.path.text} is not under {grant.text}, the directory this server may mount from — " ++
        "set `[server] mount_root` to widen it"))
  let name ← match req.asPrefix with
    | some name => pure name
    | none => mountName req.path
  if name.isEmpty || name.toList.contains '/' then
    throw (.invalidArgument
      s!"'{name}' is not a mount name: it must be non-empty and hold no '{prefixSep}'")
  if mounts.any fun m => m.name = name then
    throw (.conflict s!"this instance already mounts '{name}'")
  return name

/-- The error that names every clash. -/
def clashError (clashes : List String) : MountError :=
  let who := if clashes.length = 1 then "this instance" else "this instance already"
  .conflict (who ++ " already serves " ++ ", ".intercalate clashes ++
    ": mount it under a prefix with `--as <name>`")

/-- The mount of an opened database, and the planes it skips. -/
def openedMount (req : Mounting) (name : String) (db : Db) : Mount × List String :=
  (⟨name, req.path, req.asPrefix.isSome, db, shownPlanes name req.asPrefix.isSome db, rfl⟩,
    (db.planes.filter fun plane => plane.1 = 0 || plane.2 = startupName).map Prod.snd)

/-- What is the store's and the clock's to decide in a step: a refusal, and whether the lock came
free. -/
structure Turn where
  call : ℕ
  refused : Option String
  freed : Bool

structure Instance where
  mounts : List Mount
  /-- The properties of the host's default plane. -/
  props : Properties
  calls : List Stage

def Mount.record (m : Mount) : Remembered := ⟨m.name, m.path.text, m.prefixed⟩

section

variable (files : Files) (host : Db)

/-- The next step of a call. -/
def advance (turn : Turn) (mounts : List Mount) (props : Properties) :
    Stage → List Mount × Properties × Stage
  | .mount req =>
    match checkName files mounts req with
    | .error error => (mounts, props, .failed error)
    | .ok name => (mounts, props, .opening req name)
  | .opening req name =>
    match turn.refused, files.opened req.path with
    | some text, _ | none, .error text => (mounts, props, .failed (.store text))
    | none, .ok db =>
      let (mount, skipped) := openedMount req name db
      (mounts, props, .checking mount req.remember skipped mount.planes [])
  | .checking mount remember skipped (plane :: todo) clashes =>
    let clashes := if (serving host mounts plane).isSome then clashes ++ [plane] else clashes
    (mounts, props, .checking mount remember skipped todo clashes)
  | .checking mount remember skipped [] clashes =>
    if !clashes.isEmpty then (mounts, props, .failed (clashError clashes))
    else if remember then (mounts, props, .recording mount skipped)
    else (mounts, props, .pushing mount skipped)
  | .recording mount skipped =>
    match turn.refused with
    | some text => (mounts, props, .failed (.store text))
    | none => (mounts, Api.remember mount.record props, .pushing mount skipped)
  | .pushing mount skipped => (mounts ++ [mount], props, .mounted mount skipped)
  | .unmount name =>
    match mounts.find? fun m => m.name = name with
    | some gone => (mounts.eraseP fun m => m.name = name, props, .forgetting gone)
    | none =>
      match turn.refused with
      | some text => (mounts, props, .failed (.store text))
      | none => (mounts, Api.forget name props, .unmounted none)
  | .forgetting gone =>
    match turn.refused with
    | some text => (mounts, props, .failed (.store text))
    | none =>
      (mounts, Api.forget gone.name props, .unmounted (some ⟨gone.name, gone.path, gone.planes,
        turn.freed⟩))
  | stage => (mounts, props, stage)

def Instance.step (s : Instance) (turn : Turn) : Instance :=
  match s.calls[turn.call]? with
  | none => s
  | some stage =>
    let (mounts, props, stage) := advance files host turn s.mounts s.props stage
    ⟨mounts, props, s.calls.set turn.call stage⟩

/-- A new instance, on which calls have been made that have not begun. -/
def Instance.start (props : Properties) (calls : List Stage) : Instance := ⟨[], props, calls⟩

def EveryState (holds : Instance → Prop) : Instance → List Turn → Prop
  | s, [] => holds s
  | s, turn :: turns => holds s ∧ EveryState holds (s.step files host turn) turns

def EveryStep (meets : Instance → Turn → Prop) : Instance → List Turn → Prop
  | _, [] => True
  | s, turn :: turns => meets s turn ∧ EveryStep meets (s.step files host turn) turns

/-- The table bears the push or the unmount, if the step is one. -/
def Meets (s : Instance) (turn : Turn) : Prop :=
  match s.calls[turn.call]? with
  | some (.pushing mount _) => MayPush host s.mounts mount
  | some (.unmount name) => MayRemove host (s.mounts.eraseP fun m => m.name = name)
  | _ => True

end

/-! ### Runs -/

variable {files : Files} {host : Db} {s : Instance} {turn : Turn}

/-- The table after a step of one call. -/
def tableAfter (mounts : List Mount) : Stage → List Mount
  | .pushing mount _ => mounts ++ [mount]
  | .unmount name => mounts.eraseP fun m => m.name = name
  | _ => mounts

/-- Only a push and an unmount change the table. -/
theorem advance_mounts (turn : Turn) (mounts : List Mount) (props : Properties) (stage : Stage) :
    (advance files host turn mounts props stage).1 = tableAfter mounts stage := by
  cases stage with
  | mount req =>
    rw [advance]
    cases checkName files mounts req <;> rfl
  | opening req name =>
    rw [advance]
    cases turn.refused with
    | some text => rfl
    | none => cases files.opened req.path <;> rfl
  | checking mount remember skipped todo clashes =>
    cases todo with
    | cons plane todo => rfl
    | nil =>
      rw [advance]
      split_ifs <;> rfl
  | recording mount skipped =>
    rw [advance]
    cases turn.refused <;> rfl
  | pushing mount skipped => rfl
  | mounted mount skipped => rfl
  | unmount name =>
    rw [advance, tableAfter]
    cases found : mounts.find? fun m => m.name = name with
    | some gone => rfl
    | none =>
      have absent : mounts.eraseP (fun m => m.name = name) = mounts :=
        List.eraseP_of_forall_not fun m inside => List.find?_eq_none.mp found m inside
      rw [absent]
      cases turn.refused <;> rfl
  | forgetting gone =>
    rw [advance]
    cases turn.refused <;> rfl
  | unmounted what => rfl
  | failed error => rfl

/-- A step keeps a sound table sound if and only if the table bears it. -/
theorem sound_step_iff (sound : Sound host s.mounts) :
    Sound host (s.step files host turn).mounts ↔ Meets host s turn := by
  unfold Instance.step Meets
  cases s.calls[turn.call]? with
  | none => exact iff_of_true sound trivial
  | some stage =>
    change Sound host (advance files host turn s.mounts s.props stage).1 ↔ _
    rw [advance_mounts]
    cases stage with
    | pushing mount skipped => exact ⟨sound.mayPush, sound.push⟩
    | unmount name =>
      refine ⟨Sound.mayRemove, fun may => ?_⟩
      rw [tableAfter]
      obtain same | ⟨gone, before, after, -, -, split, left⟩ :=
        List.exists_or_eq_self_of_eraseP (fun m : Mount => m.name = name) s.mounts
      · rwa [same]
      · have bears : MayRemove host (s.mounts.eraseP fun m => m.name = name) := may
        rw [left] at bears ⊢
        rw [split] at sound
        exact sound.remove bears
    | _ => exact iff_of_true sound trivial

/-- **One served name, one database**: at every point of a run the table is sound, if and only if
every push and every unmount of the run finds it so that it bears the step. -/
theorem sound_iff_meets (files : Files) (host : Db) (props : Properties) (calls : List Stage)
    (turns : List Turn) :
    EveryState files host (fun s => Sound host s.mounts) (.start props calls) turns ↔
      EveryStep files host (Meets host) (.start props calls) turns := by
  have sound : Sound host (Instance.start props calls).mounts := sound_nil
  revert sound
  generalize Instance.start props calls = s
  induction turns generalizing s with
  | nil => exact fun sound => iff_of_true sound trivial
  | cons turn turns ih =>
    intro sound
    constructor
    · rintro ⟨-, rest⟩
      have next : Sound host (s.step files host turn).mounts := by
        cases turns with
        | nil => exact rest
        | cons turn' turns => exact rest.1
      exact ⟨(sound_step_iff sound).mp next, (ih _ next).mp rest⟩
    · rintro ⟨meets, rest⟩
      have next : Sound host (s.step files host turn).mounts := (sound_step_iff sound).mpr meets
      exact ⟨sound, (ih _ next).mpr rest⟩

/-- A database with one plane besides the default one. -/
def noteDb : Db where
  planes := [(0, "startup"), (1, "notes")]
  ids := by decide
  names := by decide
  startup := by decide

def noteFiles : Files where
  there _ := true
  canonical path := some path.components
  opened _ := .ok noteDb

def emptyDb : Db where
  planes := [(0, "startup")]
  ids := by decide
  names := by decide
  startup := by decide

/-- Two mounts at once, each of which lists a plane called `notes`. -/
def twoMounts : List Stage :=
  [.mount ⟨⟨"/a", ["a"]⟩, none, none, false⟩, .mount ⟨⟨"/b", ["b"]⟩, none, none, false⟩]

/-- Both have made their checks before one is pushed. -/
def bothChecked : List Turn :=
  [0, 0, 0, 0, 1, 1, 1, 1, 0, 1].map fun call => ⟨call, none, true⟩

/-- A mount under a prefix, without another call. -/
def onePrefixed : List Stage := [.mount ⟨⟨"/a", ["a"]⟩, some "a", none, false⟩]

def alone : List Turn := [0, 0, 0, 0, 0].map fun call => ⟨call, none, true⟩

/-- What holds at every point holds at the end. -/
theorem EveryState.last {holds : Instance → Prop} {turns : List Turn}
    (every : EveryState files host holds s turns) :
    holds (turns.foldl (Instance.step files host) s) := by
  induction turns generalizing s with
  | nil => exact every
  | cons turn turns ih => exact ih every.2

/-- The plane is listed twice, and the default plane is answered behind a prefix where it is not
listed. -/
theorem table_unsound :
    ¬ EveryState noteFiles emptyDb (fun s => Sound emptyDb s.mounts)
      (.start ∅ twoMounts) bothChecked ∧
      ¬ EveryState noteFiles emptyDb (fun s => Sound emptyDb s.mounts)
      (.start ∅ onePrefixed) alone := by
  constructor
  · intro every
    have once := every.last.once
    have twice : ((planes emptyDb (bothChecked.foldl (Instance.step noteFiles emptyDb)
        (.start ∅ twoMounts)).mounts).map Served.plane) = ["startup", "notes", "notes"] := by
      decide
    rw [twice] at once
    exact absurd once (by decide)
  · intro every
    have listed := every.last.answered "a/startup" (by decide)
    have missing : ((planes emptyDb (alone.foldl (Instance.step noteFiles emptyDb)
        (.start ∅ onePrefixed)).mounts).map Served.plane) = ["startup", "a/notes"] := by
      decide
    rw [missing] at listed
    exact absurd listed (by decide)

end DrStrange.Api
