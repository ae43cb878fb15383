import TypeInliner.Failure
import TypeInliner.Json.Reader

/-! # Package manifests

The fields of a package's manifest that say where its declarations are and on which packages it
depends. -/

namespace TypeInliner

structure Manifest where
  name : Option Text
  version : Option Text
  main : Option Text
  moduleEntry : Option Text
  types : Option Text
  /-- The older name of `types`. -/
  typings : Option Text
  /-- The export map as it stands. -/
  exports : Option Json
  dependencies : Table Text Text
  devDependencies : Table Text Text
  peerDependencies : Table Text Text

namespace Manifest

def empty : Manifest := ⟨none, none, none, none, none, none, none, [], [], []⟩

/-- The names of the fields in the order in which a manifest without names lists them. -/
def fieldNames : List Text :=
  ["name".toList, "version".toList, "main".toList, "module".toList, "types".toList,
    "typings".toList, "exports".toList, "dependencies".toList, "devDependencies".toList,
    "peerDependencies".toList]

/-- The manifest of a raw JSON. The export map may nest one level less than a whole text, because
the manifest stands around it. -/
def ofRaw? (raw : Json.Raw) : Option Manifest := do
  match ← raw.fields? fieldNames with
  | [name, version, main, moduleEntry, types, typings, exports, dependencies, dev, peer] =>
    return {
      name := ← Json.Raw.nullable? Json.Raw.text? name
      version := ← Json.Raw.nullable? Json.Raw.text? version
      main := ← Json.Raw.nullable? Json.Raw.text? main
      moduleEntry := ← Json.Raw.nullable? Json.Raw.text? moduleEntry
      types := ← Json.Raw.nullable? Json.Raw.text? types
      typings := ← Json.Raw.nullable? Json.Raw.text? typings
      exports := ← Json.Raw.nullable? (Json.Raw.value? (Json.nestingLimit - 1)) exports
      dependencies := ← Json.Raw.orDefault [] Json.Raw.textTable? dependencies
      devDependencies := ← Json.Raw.orDefault [] Json.Raw.textTable? dev
      peerDependencies := ← Json.Raw.orDefault [] Json.Raw.textTable? peer }
  | _ => none

def ofText? (t : Text) : Option Manifest := do ofRaw? (← Json.Raw.ofText? t)

/-- The export map and the dependencies of a manifest are read from fields of its text. -/
theorem exists_fields_of_ofText? {t : Text} {m : Manifest} (h : ofText? t = some m) :
    ∃ exports dependencies dev peer,
      Json.Raw.nullable? (Json.Raw.value? (Json.nestingLimit - 1)) exports = some m.exports ∧
      Json.Raw.orDefault [] Json.Raw.textTable? dependencies = some m.dependencies ∧
      Json.Raw.orDefault [] Json.Raw.textTable? dev = some m.devDependencies ∧
      Json.Raw.orDefault [] Json.Raw.textTable? peer = some m.peerDependencies := by
  unfold ofText? ofRaw? at h
  simp only [Option.bind_eq_bind, Option.bind_eq_some_iff] at h
  obtain ⟨raw, _, fields, _, h⟩ := h
  split at h
  · simp only [Option.bind_eq_some_iff] at h
    -- These are the last four of ten fields.
    obtain ⟨_, _, _, _, _, _, _, _, _, _, _, _, _, hexports, _, hdirect, _, hdev, _, hpeer, hm⟩ := h
    obtain rfl := Option.some.inj hm
    exact ⟨_, _, _, _, hexports, hdirect, hdev, hpeer⟩
  · simp at h

/-- All dependencies with their references. Direct ones win over those of peers, and these over
those for development, but a name keeps the place of its first appearance. -/
def mergedDependencies (m : Manifest) : Table Text Text :=
  (Table.insertAll [] m.devDependencies |>.insertAll m.peerDependencies).insertAll m.dependencies

/-- The declaration file that the manifest names without an export map. -/
def entryTypes (m : Manifest) : Option Text := m.types.or m.typings

/-- Whether the manifest names an entry point without an export map. -/
def namesEntry (m : Manifest) : Bool :=
  m.main.isSome || m.moduleEntry.isSome || m.entryTypes.isSome

def pathIn (folder : Path) : Path := folder.join (.ofString "package.json")

def read (d : Disk) (folder : Path) : Except Failure Manifest :=
  let path := pathIn folder
  match d.read path with
  | .error fault => .error (.inaccessible path fault)
  | .ok text =>
    match ofText? text with
    | some manifest => .ok manifest
    | none => .error (.malformedManifest path)

/-- The manifest of a folder; one that cannot be read counts as empty. -/
def load (d : Disk) (folder : Path) : Manifest :=
  match read d folder with
  | .ok manifest => manifest
  | .error _ => empty

end Manifest

end TypeInliner
