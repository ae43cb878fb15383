import TypeInliner.CommandLine

/-! # The files that a run can look at

A run takes the files it reads from a disk that is known in advance. `Footprint.ofInvocation` lists
the paths that matter as far as the files known so far tell; when all of them are known, the run is
the same as with all files of the system. The list may hold paths that the run never looks at. -/

namespace TypeInliner.Footprint

/-- The paths that are looked at to find the file that a path means. -/
def ofPath (d : Disk) (p : Path) : List Path :=
  let normalized := p.normalize d.home
  normalized :: Disk.candidates normalized

/-- The folders above a path, at most a number of them. -/
def foldersAbove : Nat → Path → List Path
  | 0, _ => []
  | steps + 1, p =>
    match p.parent? with
    | none => []
    | some folder => folder :: foldersAbove steps folder

/-- The beginnings of a specifier that can be the name of a package: the whole of it and what stands
in front of a slash, behind a beginning that is given in reverse. -/
def packageNames (before : Text) : Text → List Text
  | [] => [before.reverse]
  | c :: t =>
    if c = '/' then before.reverse :: packageNames (c :: before) t else packageNames (c :: before) t

variable [PatternCompiler]

/-- What is looked at in a package installed below a folder. -/
def ofPackage (d : Disk) (root : Path) (specifier name : Text) : List Path :=
  let folder := Resolution.packageFolder root name
  folder :: Manifest.pathIn folder ::
    match ExportTable.resolveIn d folder name (Specifier.subpath specifier name) with
    | .ok p => ofPath d p
    | .error _ => []

def ofSpecifier (d : Disk) (options : Options) (file : Path) (specifier : Text) : List Path :=
  let roots := options.root :: (options.workspace.toList ++
    foldersAbove (file.segments.length + 1) file)
  ofPath d (Path.resolveRelative d.home specifier file) ++
    roots.flatMap fun root => (packageNames [] specifier).flatMap (ofPackage d root specifier)

def ofSource (d : Disk) (options : Options) (file : Path) (source : Text) : List Path :=
  ((Token.ofText source).filter (·.kind = .string)).flatMap fun t =>
    ofSpecifier d options file t.value

/-- What is looked at for the modules that the known files name. -/
def ofFiles (d : Disk) (options : Options) : List Path :=
  d.nodes.flatMap fun (place, node) =>
    match node with
    | .file (some text) =>
      if place.getLast? = some (Utf8.ofString "package.json") then []
      else ofSource d options (Path.ofPlace place) text
    | _ => []

def ofFile (d : Disk) (options : Options) (path : Path) : List Path :=
  match d.read path with
  | .ok source => path :: ofSource d options (path.normalize d.home) source
  | .error _ => [path]

def ofFolder (d : Disk) (options : Options) (folder : Path) : List Path :=
  match d.list folder with
  | .ok names => folder :: names.flatMap fun name => ofFile d options (folder.join ⟨name⟩)
  | .error _ => [folder]

/-- What a command itself looks at. -/
def ofCommand (d : Disk) (options : Options) (input : Text) : CommandLine.Command → List Path
  | .file path => ofFile d options path
  | .folder source target =>
    options.root.join target :: ofFolder d options (options.root.join source)
  | .code path => ofSource d options (path.getD ⟨[]⟩) input
  | .parseImport _ => []

/-- What a run looks at, as far as the known files tell. -/
def ofInvocation (d : Disk) (input : Text) (i : CommandLine.Invocation) : List Path :=
  match CommandLine.optionsOf d i with
  | .error _ => i.config.toList
  | .ok options =>
    i.config.toList ++ Manifest.pathIn options.root :: ofCommand d options input i.command ++
      ofFiles d options

end TypeInliner.Footprint
