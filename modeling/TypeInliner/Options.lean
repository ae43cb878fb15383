import TypeInliner.Failure
import TypeInliner.Json.Reader

/-! # Options of a run -/

namespace TypeInliner

structure Options where
  /-- The folder of the project, with its manifest and installed packages. -/
  root : Path
  /-- Whether imports of files next to the importing file are resolved. -/
  nearby : Bool
  /-- The folder whose installed packages are used for dependencies within the workspace. -/
  workspace : Option Path

namespace Options

def default : Options := ⟨.ofString ".", false, none⟩

def fieldNames : List Text :=
  ["root".toList, "includeNearbyFiles".toList, "workspaceRoot".toList]

def pathOf? (raw : Json.Raw) : Option Path := raw.text?.map Path.ofText

def ofRaw? (raw : Json.Raw) : Option Options := do
  match ← raw.fields? fieldNames with
  | [root, nearby, workspace] =>
    return {
      root := ← Json.Raw.orDefault default.root pathOf? root
      nearby := ← Json.Raw.orDefault default.nearby Json.Raw.bool? nearby
      workspace := ← Json.Raw.nullable? pathOf? workspace }
  | _ => none

/-- The options with relative paths taken from a folder. -/
def relativeTo (options : Options) (folder : Path) : Options :=
  { options with
    root := folder.join options.root
    workspace := options.workspace.map folder.join }

/-- Reads an options file. Relative paths in it start at its folder. -/
def read (d : Disk) (path : Path) : Except Failure Options :=
  match d.read path with
  | .error fault => .error (.inaccessible path fault)
  | .ok text =>
    match (Json.Raw.ofText? text).bind ofRaw? with
    | none => .error (.malformedOptions path)
    | some options => .ok (options.relativeTo (path.parent?.getD (.ofString ".")))

end Options

end TypeInliner
