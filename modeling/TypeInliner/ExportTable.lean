import TypeInliner.Location
import TypeInliner.Manifest
import TypeInliner.Specifier

/-! # Export maps of packages

The export map of a manifest becomes a table of entries in the order of the manifest. A subpath of
the package is looked up at the first entry whose key, read as a pattern, matches it. -/

namespace TypeInliner

structure ExportEntry where
  /-- The key as it is written, a pattern for subpaths. -/
  key : Text
  /-- The declaration file, in which each star stands for what the star of the key stands for. -/
  types : Option Text
  deriving DecidableEq, Repr

abbrev ExportTable := List ExportEntry

namespace ExportTable

def declarationSuffix : Text := ".d.ts".toList

/-- The keys that tell conditions from subpaths. -/
def conditionKeys : List Text :=
  ["types".toList, "typings".toList, "import".toList, "require".toList, "default".toList,
    "node".toList]

/-- Whether the members of an object are conditions: none of them is a subpath and at least one is a
condition that has a meaning. -/
def isConditionMap (members : Table Text Json) : Bool :=
  members.all (fun member => member.1.head? ≠ some '.') &&
    members.any (fun member => conditionKeys.contains member.1)

mutual

/-- The declaration file that an export value names: the first one met when the members for types
are searched before the others. -/
def typesOf? : Json → Option Text
  | .string path => if declarationSuffix.isSuffixOf path then some path else none
  | .array items => typesOfItems? items
  | .object members =>
    (typesOfMember? "types".toList members).or
      ((typesOfMember? "typings".toList members).or (typesOfOthers? members))
  | _ => none

def typesOfItems? : List Json → Option Text
  | [] => none
  | item :: items => (typesOf? item).or (typesOfItems? items)

/-- The declaration file that the member with a key names. -/
def typesOfMember? (key : Text) : List (Text × Json) → Option Text
  | [] => none
  | (k, value) :: members => if k = key then typesOf? value else typesOfMember? key members

/-- The first declaration file that a member with another key than those for types names. -/
def typesOfOthers? : List (Text × Json) → Option Text
  | [] => none
  | (k, value) :: members =>
    if k = "types".toList ∨ k = "typings".toList then typesOfOthers? members
    else (typesOf? value).or (typesOfOthers? members)

end

def ofExports : Option Json → ExportTable
  | some (.object members) =>
    if isConditionMap members then [⟨Specifier.rootSubpath, typesOf? (.object members)⟩]
    else members.map fun (key, value) => ⟨key, typesOf? value⟩
  | some (.string path) => [⟨Specifier.rootSubpath, typesOf? (.string path)⟩]
  | some (.array items) => [⟨Specifier.rootSubpath, typesOf? (.array items)⟩]
  | _ => []

/-- The entries of a manifest. An entry point named outside of the export map comes last, if the map
has none. -/
def entries (m : Manifest) : ExportTable :=
  let entries := ofExports m.exports
  if entries.any (·.key = Specifier.rootSubpath) || !m.namesEntry then entries
  else entries ++ [⟨Specifier.rootSubpath, m.entryTypes⟩]

/-- The first key of some entries that is refused as a pattern, with the reason. -/
def refused? [PatternCompiler] (entries : ExportTable) : Option (Text × Text) :=
  entries.findSome? fun entry => (PatternCompiler.refusal? entry.key).map (entry.key, ·)

/-- The entries of a manifest, if all their keys can be patterns; else the first key that cannot. -/
def ofManifest [PatternCompiler] (m : Manifest) : Except Failure ExportTable :=
  match refused? (entries m) with
  | some (key, reason) => .error (.refusedPattern key reason)
  | none => .ok (entries m)

def entry? (table : ExportTable) (subpath : Text) : Option ExportEntry :=
  table.find? fun entry => Glob.accepts entry.key subpath

/-- The declaration file of a subpath, relative to the package's folder. -/
def resolve (table : ExportTable) (package subpath : Text) : Except Failure Text :=
  match table.entry? subpath with
  | none => .error (.exportNotFound (Specifier.join package subpath))
  | some entry =>
    match entry.types with
    | none => .error (.noDeclarationPath package entry.key)
    | some template => .ok (Glob.fill ((Glob.captures? entry.key subpath).getD []) template)

/-- The declaration file of a subpath of the package that a folder holds. -/
def resolveIn [PatternCompiler] (d : Disk) (folder : Path) (package subpath : Text) :
    Except Failure Path := do
  let table ← ofManifest (Manifest.load d folder)
  let relative ← table.resolve package subpath
  return (folder.join (.ofText relative)).normalize d.home

end ExportTable

end TypeInliner
