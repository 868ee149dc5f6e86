/-
**The property map of a plane, edited by many.**

The attachments of a plane, the mounts of an instance and the account of an ingest are all properties
of one map. Most are edited in one transaction (`update_properties`). Two calls read the map in one
transaction and replace it in another, and lose what is written in between (`edits_lose_attachment`);
where the map is still as they read it, the calls have the effect of some serial order
(`edits_serial`).
-/

import DrStrange.Graph.Runs
import DrStrange.Lib.Commits

namespace DrStrange.Api

open Std DrStrange.Graph Lib

/-! ### Attachments -/

structure Attachment where
  name : String
  plane : String
  url : Option String
  deriving DecidableEq

/-- `PropDesc::new`. -/
def bare (value : PropValue) : PropDesc := .mk none value

/-- `PropDesc::described`. -/
def described (desc : String) (value : PropValue) : PropDesc := .mk (some desc) value

/-- An entry of a record that is a text, and not an empty one. -/
def entryText (entries : List (String × PropDesc)) (key : String) : Option String :=
  match entries.lookup key with
  | some (.mk _ (.str text)) => if text.isEmpty then none else some text
  | _ => none

def Attachment.new (name : String) (plane url : Option String) : Attachment :=
  ⟨name, plane.getD name, url⟩

def Attachment.toProp (a : Attachment) : PropValue :=
  .map <| [("name", bare (.str a.name)), ("plane", bare (.str a.plane))] ++
    a.url.toList.map fun url => ("url", bare (.str url))

def Attachment.fromProp : PropValue → Option Attachment
  | .map entries => (entryText entries "name").map fun name =>
    .new name (entryText entries "plane") (entryText entries "url")
  | _ => none

def attachmentsProp : String := "attachments"

/-- The items of a property that is a list. -/
def items (props : Properties) (key : String) : Option (List PropValue) :=
  match props[key]? with
  | some (.mk _ (.list items)) => some items
  | _ => none

/-- `Attachments::read`; the entries that are no attachment are not kept. -/
def readAttachments (props : Properties) : List Attachment :=
  ((items props attachmentsProp).getD []).filterMap Attachment.fromProp

def writeAttachments (recorded : List Attachment) (props : Properties) : Properties :=
  props.insert attachmentsProp (described
    ("the planes this one may ask — a name, the plane it names there, and a URL when it is " ++
      "served elsewhere")
    (.list (recorded.map Attachment.toProp)))

/-- The first element that `same` holds of is replaced, or `x` goes to the end. -/
def replaceOrPush {α : Type} (same : α → Bool) (x : α) : List α → List α
  | [] => [x]
  | y :: ys => if same y then x :: ys else y :: replaceOrPush same x ys

def attach (a : Attachment) (props : Properties) : Properties :=
  writeAttachments (replaceOrPush (fun have_ => have_.name = a.name) a (readAttachments props)) props

def detach (name : String) (props : Properties) : Properties :=
  let recorded := readAttachments props
  if recorded.any fun a => a.name = name then
    writeAttachments (recorded.eraseP fun a => a.name = name) props
  else props

/-! ### Mounts -/

structure Remembered where
  name : String
  path : String
  prefixed : Bool
  deriving DecidableEq

def Remembered.toProp (r : Remembered) : PropValue :=
  .map <| [("name", bare (.str r.name)), ("path", bare (.str r.path))] ++
    if r.prefixed then [("prefixed", bare (.bool true))] else []

def Remembered.fromProp : PropValue → Option Remembered
  | .map entries => do
    let name ← entryText entries "name"
    let path ← entryText entries "path"
    let prefixed := match entries.lookup "prefixed" with
      | some (.mk _ (.bool true)) => true
      | _ => false
    return ⟨name, path, prefixed⟩
  | _ => none

def mountsProp : String := "mounts"

def readMounts (props : Properties) : List Remembered :=
  ((items props mountsProp).getD []).filterMap Remembered.fromProp

/-- `Remembered::write`. -/
def writeMounts (edit : List Remembered → List Remembered) (props : Properties) : Properties :=
  props.insert mountsProp (described
    ("the databases this process also serves — a name, the directory it was opened from, and " ++
      "whether its planes carry the name as a prefix")
    (.list ((edit (readMounts props)).map Remembered.toProp)))

def remember (record : Remembered) : Properties → Properties :=
  writeMounts (replaceOrPush (fun have_ => have_.name = record.name) record)

def forget (name : String) : Properties → Properties :=
  writeMounts fun have_ => have_.filter fun record => record.name ≠ name

/-! ### The account of an ingest -/

structure Manifest where
  name : String
  version : String
  build : Option String
  source : Option String

def Manifest.stamp (m : Manifest) : String :=
  match m.build with
  | some build => s!"{m.name}@{m.version}+{build}"
  | none => s!"{m.name}@{m.version}"

structure PreprocessReport where
  handlers : List (String × ℕ)
  skipped : ℕ
  collisions : List String
  unclaimed : List String
  notes : List String

/-- `list` of the ledger. -/
def texts (items : List String) : PropValue := .list (items.map .str)

/-- An entry with a description, unless there is nothing to list. -/
def listed (key desc : String) (items : List String) : List (String × PropDesc) :=
  if items.isEmpty then [] else [(key, described desc (texts items))]

/-- The stamps of what ran, with the artifact of each. -/
def ranPlugins (report : PreprocessReport) (plugins : List Manifest) : List String :=
  (plugins.filter fun m => report.handlers.any fun handler => handler.1 = m.stamp).map fun m =>
    match m.build, m.source with
    | some _, some source => s!"{m.stamp} ← {source}"
    | _, _ => m.stamp

/-- The entries of the ledger, in the order of their keys. -/
def ledgerEntries (time : ℤ) (report : PreprocessReport) (plugins : List Manifest) :
    List (String × PropDesc) :=
  [("at", described "when this ingest ran, epoch seconds" (.int time))] ++
  listed "collisions" "keys two handlers both produced — a plugin bug, kept visible"
    report.collisions ++
  listed "handlers" "what each handler contributed"
    (report.handlers.map fun (who, facts) => s!"{who} = {facts} fact(s)") ++
  listed "notes" "what the parsers said about their own limits on this tree" report.notes ++
  listed "plugins"
    ("the plugin builds that produced these facts, and the artifact each came from — " ++
    "what turns a node's `_generated_by` hash back into a release") (ranPlugins report plugins) ++
  [("skipped", described
    ("files no handler claimed, that held nothing readable, or that the handler which " ++
    "claimed them could not get through — a miss in this plane may be one of these")
      (.int report.skipped))] ++
  listed "unclaimed" "extensions no installed plugin claims, read as prose instead of parsed"
    report.unclaimed

def ledgerProp : String := "ledger"

def recordLedger (time : ℤ) (report : PreprocessReport) (plugins : List Manifest)
    (props : Properties) :
    Properties :=
  props.insert ledgerProp (described "what the ingest that wrote this plane could and could not read"
    (.map (ledgerEntries time report plugins)))

/-! ### What built a plane -/

def builtByProp : String := "built_by"

def driftProp : String := "plugin_drift"

/-- The stamps of what is installed, sorted and each once. -/
def marks (installed : List Manifest) : List String :=
  ((installed.map Manifest.stamp).mergeSort fun a b => a ≤ b).destutter (· ≠ ·)

/-- The map that `record_built_by` writes back. -/
def recordBuiltBy (installed : List Manifest) (props : Properties) : Option Properties :=
  some (props.insert builtByProp (described
    ("the plugin builds installed when this plane was built — compare with what is " ++
      "installed now to know whether the graph predates a plugin change")
    (texts (marks installed))))

/-- The texts of a list that is recorded. -/
def builtBy (props : Properties) : Option (List String) :=
  (items props builtByProp).map fun items => items.filterMap fun item => match item with
    | .str text => some text
    | _ => none

/-- The marks on one side alone, under a heading. -/
def driftPart (heading : String) (side : List String) : List String :=
  if side.isEmpty then [] else [heading ++ ", ".intercalate side]

/-- The map that `note_plugin_drift` writes back, if it writes one. -/
def notePluginDrift (installed : List Manifest) (props : Properties) : Option Properties :=
  (builtBy props).bind fun built =>
    let now := marks installed
    if now = built then
      if driftProp ∈ props then some (props.erase driftProp) else none
    else
      let parts := driftPart "added since: " (now.filter fun m => !built.contains m) ++
        driftPart "no longer installed: " (built.filter fun m => !now.contains m)
      some (props.insert driftProp (described
        ("the installed plugins no longer match the set this plane was built under, so files " ++
          "the difference claims are parsed only where a later commit touched them — rebuild to " ++
          "make the graph whole")
        (.str ("; ".intercalate parts))))

/-! ### The calls -/

inductive Call where
  | updateProperties (f : Properties → Properties)
  | attach (a : Attachment)
  | detach (name : String)
  | remember (record : Remembered)
  | forget (name : String)
  | recordLedger (time : ℤ) (report : PreprocessReport) (plugins : List Manifest)
  | recordBuiltBy (installed : List Manifest)
  | notePluginDrift (installed : List Manifest)

/-- The transactions of a call. -/
def Call.program : Call → Commits.Program Properties
  | .updateProperties f => .edit f
  | .attach a => .edit (Api.attach a)
  | .detach name => .edit (Api.detach name)
  | .remember record => .edit (Api.remember record)
  | .forget name => .edit (Api.forget name)
  | .recordLedger time report plugins => .edit (Api.recordLedger time report plugins)
  | .recordBuiltBy installed => .readThenWrite (Api.recordBuiltBy installed)
  | .notePluginDrift installed => .readThenWrite (Api.notePluginDrift installed)

/-! ### What comes of them -/

theorem eq_or_swap_of_perm {α : Type} {order : List α} {a b : α} (perm : order.Perm [a, b]) :
    order = [a, b] ∨ order = [b, a] := by
  obtain ⟨x, y, rfl⟩ := List.length_eq_two.mp perm.length_eq
  have first : x = a ∨ x = b := by
    simpa using perm.mem_iff.mp List.mem_cons_self
  obtain rfl | rfl := first
  · exact .inl (congrArg (x :: ·) (List.perm_singleton.mp perm.cons_inv))
  · exact .inr (congrArg (x :: ·) (List.perm_singleton.mp (perm.trans (.swap x a [])).cons_inv))

/-- Where every map that is written back is the one that was read, the map is at every point that of
the calls that have returned, one after the other, and in the end that of all calls. -/
theorem edits_serial (props : Properties) (calls : List Call) (schedule : List ℕ)
    (undisturbed : Commits.UndisturbedRun Call.program (Commits.start props calls) schedule) :
    Commits.Serial Call.program props (Commits.run Call.program (Commits.start props calls)
      schedule) ∧
    (Commits.Returned (Commits.run Call.program (Commits.start props calls) schedule) →
      ∃ order, order.Perm calls ∧
        (Commits.run Call.program (Commits.start props calls) schedule).value =
          Commits.serial Call.program props order) :=
  ⟨Commits.run_serial undisturbed, (Commits.run_serial undisturbed).all⟩

/-- A build is recorded and an attachment made. -/
def buildAndAttach : List Call := [.recordBuiltBy [], .attach (.new "docs" none none)]

theorem edits_serial_two : ∃ order, order.Perm buildAndAttach ∧
    (Commits.run Call.program (Commits.start ∅ buildAndAttach) [0, 0, 1]).value =
      Commits.serial Call.program ∅ order := by
  refine (edits_serial ∅ buildAndAttach [0, 0, 1] ⟨?_, ?_, ?_, trivial⟩).2 ?_
  · rintro call seen ⟨⟩
  · rintro call seen ⟨⟩
    rfl
  · rintro call seen ⟨⟩
  · have both : ∀ call ∈ [(Call.recordBuiltBy [], Commits.Status.returned),
        (Call.attach (.new "docs" none none), Commits.Status.returned)],
        Commits.done (σ := Properties) call = some call.1 := by
      simp [Commits.done]
    exact both

theorem mem_attach (a : Attachment) (props : Properties) : attachmentsProp ∈ attach a props :=
  ExtTreeMap.mem_insert_self

theorem mem_recordBuiltBy (installed : List Manifest) (props : Properties) (key : String) :
    key ∈ (Call.recordBuiltBy installed).program.alone props ↔ builtByProp = key ∨ key ∈ props := by
  refine ExtTreeMap.mem_insert.trans ?_
  rw [LawfulEqCmp.compare_eq_iff_eq]

/-- An attachment made between the read and the write of `record_built_by` is lost. -/
theorem edits_lose_attachment :
    Commits.Returned (Commits.run Call.program (Commits.start ∅ buildAndAttach) [0, 1, 0]) ∧
    ¬ ∃ order, order.Perm buildAndAttach ∧
      (Commits.run Call.program (Commits.start ∅ buildAndAttach) [0, 1, 0]).value =
        Commits.serial Call.program ∅ order := by
  refine ⟨?_, ?_⟩
  · have both : ∀ call ∈ [(Call.recordBuiltBy [], Commits.Status.returned),
        (Call.attach (.new "docs" none none), Commits.Status.returned)],
        Commits.done (σ := Properties) call = some call.1 := by
      simp [Commits.done]
    exact both
  · rintro ⟨order, perm, same⟩
    have lost : attachmentsProp ∉ (Commits.run Call.program (Commits.start ∅ buildAndAttach) [0, 1,
        0]).value := by
      have left : (Commits.run Call.program (Commits.start ∅ buildAndAttach) [0, 1, 0]).value =
          (Call.recordBuiltBy []).program.alone ∅ := rfl
      rw [left, mem_recordBuiltBy]
      rintro (same | inside)
      · exact absurd same (by decide)
      · exact ExtTreeMap.not_mem_empty inside
    rw [same] at lost
    obtain rfl | rfl := eq_or_swap_of_perm perm
    · exact lost (mem_attach (.new "docs" none none) _)
    · exact lost ((mem_recordBuiltBy [] _ _).mpr (.inr (mem_attach (.new "docs" none none) ∅)))

end DrStrange.Api
