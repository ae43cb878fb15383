import TypeInliner.Context
import TypeInliner.ExportTable
import TypeInliner.Options

/-! # From specifiers to files

A specifier names a dependency of the project, an installed package, or a file next to the importing
one. Functions that need the dependencies of the project answer with the context in which these have
been read. -/

namespace TypeInliner

/-- What a specifier names. -/
inductive Target
  /-- A dependency, installed below a folder. -/
  | package (name : Text) (root : Path)
  /-- Anything else. -/
  | other

namespace Resolution

/-- The longest dependency that a specifier belongs to, with its reference. -/
def longestDependency? (dependencies : Table Text Text) (specifier : Text) : Option (Text × Text) :=
  dependencies.foldl (fun best entry =>
    if Specifier.belongsTo specifier entry.1 then
      match best with
      | none => some entry
      | some other => if Text.bytes other.1 ≤ Text.bytes entry.1 then some entry else best
    else best) none

def workspaceProtocol : Text := "workspace".toList

/-- What a specifier names, given the dependencies of the project. -/
def target (options : Options) (dependencies : Table Text Text) (specifier : Text) : Target :=
  match longestDependency? dependencies specifier with
  | none => .other
  | some (name, reference) =>
    match options.workspace with
    | some workspace =>
      .package name (if workspaceProtocol.isPrefixOf reference then workspace else options.root)
    | none => .package name options.root

def classify (d : Disk) (options : Options) (ctx : Context) (specifier : Text) : Target × Context :=
  let ctx := ctx.loadDependencies d options.root
  (target options ctx.knownDependencies specifier, ctx)

def packageFolder (root : Path) (name : Text) : Path :=
  (root.join (.ofString "node_modules")).join (.ofText name)

/-- The declaration file of a specifier inside a package installed below a folder. -/
def resolvePackage [PatternCompiler] (d : Disk) (name : Text) (root : Path) (specifier : Text) :
    Except Failure Path :=
  let folder := packageFolder root name
  if d.isFolder folder then
    (ExportTable.resolveIn d folder name (Specifier.subpath specifier name)).map d.locate
  else .error (.packageNotFound name)

/-- The file that an import statement means; none if the specifier is no dependency and files next
to the importing one are not resolved or there is no importing file. -/
def resolveSource [PatternCompiler] (d : Disk) (options : Options) (ctx : Context)
    (specifier : Text) (importer : Option Path) : Except Failure (Option Path) × Context :=
  match classify d options ctx specifier with
  | (.package name root, ctx) => ((resolvePackage d name root specifier).map some, ctx)
  | (.other, ctx) =>
    match importer with
    | some importer =>
      if options.nearby then
        (.ok (some (d.locate (Path.resolveRelative d.home specifier importer))), ctx)
      else (.ok none, ctx)
    | none => (.ok none, ctx)

/-- The nearest folder above a path, at most a number of steps away, below which a package is
installed. -/
def installedAbove? (d : Disk) (package : Text) : Nat → Path → Option Path
  | 0, _ => none
  | steps + 1, p =>
    match p.parent? with
    | none => none
    | some folder =>
      if d.isFolder (packageFolder folder package) then some folder
      else installedAbove? d package steps folder

/-- The file of a type that a declaration in a file mentions. -/
def resolveReference [PatternCompiler] (d : Disk) (options : Options) (ctx : Context)
    (specifier : Text) (file : Path) : Except Failure Path × Context :=
  if Path.isAbsolute (.ofText specifier) then (.ok (d.locate (.ofText specifier)), ctx)
  else if specifier.head? = some '.' then
    (.ok (d.locate (Path.resolveRelative d.home specifier file)), ctx)
  else
    match classify d options ctx specifier with
    | (.package name root, ctx) => (resolvePackage d name root specifier, ctx)
    | (.other, ctx) =>
      let name := (Specifier.split specifier).1
      let root := (installedAbove? d name (file.segments.length + 1) file).getD options.root
      (resolvePackage d name root specifier, ctx)

end Resolution

end TypeInliner
