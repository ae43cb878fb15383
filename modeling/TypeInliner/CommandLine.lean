import TypeInliner.CommandLine.Arguments
import TypeInliner.Inliner
import TypeInliner.Json.Printer

/-! # A run from the command line

`CommandLine.run` turns arguments, standard input and a disk into what a run prints, its exit code
and the disk it leaves. -/

namespace TypeInliner.CommandLine

structure Outcome where
  exitCode : Nat
  output : Text
  errors : Text

def succeed (output : Text) : Outcome := ⟨0, output ++ ['\n'], []⟩

def failWith (message : Text) : Outcome := ⟨1, [], message ++ ['\n']⟩

def failFor (failure : Failure) : Outcome := failWith ("Error: ".toList ++ failure.message)

def helpText : Text :=
  "Inline imported TypeScript types into self-contained schema sources

Usage: genx [OPTIONS] <COMMAND>

Commands:
  file <INPUT>              Generate one file and print the result
  dir <INPUT> <OUTPUT>      Generate every .ts file of a directory into another directory
  code [--path <PATH>]      Generate source read from stdin
  parse-import <STATEMENT>  Parse one import statement and print it as JSON
  help                      Print this message

Options:
      --root <ROOT>                      Project root holding package.json and node_modules
      --workspace-root <WORKSPACE_ROOT>  Root used for dependencies referenced as workspace:
      --nearby                           Resolve relative imports next to the importing file
      --config <CONFIG>                  JSON options file
  -v, --verbose                          Enable verbose output
  -h, --help                             Print help
  -V, --version                          Print version".toList

def versionText : Text := "genx 0.1.0".toList

def itemJson (item : NamedImport) : Json :=
  .object [("isExplicitType".toList, .bool item.explicitType),
    ("alias".toList, .string (item.rename.getD [])), ("content".toList, .string item.content)]

def specJson : ImportSpec → Json
  | .default name source =>
    .object [("type".toList, .string "default".toList), ("alias".toList, .string name),
      ("from".toList, .string source)]
  | .whole name source =>
    .object [("type".toList, .string "namespaceAll".toList), ("alias".toList, .string name),
      ("from".toList, .string source)]
  | .named items source =>
    .object [("type".toList, .string "named".toList),
      ("items".toList, .array (items.map itemJson)), ("from".toList, .string source)]

def parseImport (statement : Text) : Outcome :=
  match ImportSpec.ofText statement with
  | .ok spec => succeed (specJson spec).pretty
  | .error e =>
    failWith ("[E0100] Error: Invalid import statement\n  ".toList ++ e.cause.message)

/-- The options of a run: those of the options file, replaced by those of the arguments. -/
def optionsOf (d : Disk) (i : Invocation) : Except Failure Options := do
  let options ← match i.config with
    | some path => Options.read d path
    | none => .ok .default
  return {
    root := i.root.getD options.root
    nearby := options.nearby || i.nearby
    workspace := i.workspaceRoot.or options.workspace }

def outcomeOf : Except Failure Text → Outcome
  | .ok text => succeed text
  | .error failure => failFor failure

/-- The lines about a folder: how many files succeeded and failed, then why each one failed. -/
def reportLines (report : FolderReport) : List Text :=
  ("Generated ".toList ++ Text.ofNat report.written.length ++ " file(s), ".toList ++
      Text.ofNat report.failed.length ++ " failed".toList) ::
    report.failed.map fun (path, failure) =>
      "  ".toList ++ path.text ++ ": ".toList ++ failure.message

def folderOutcome : Except Failure FolderReport → Outcome
  | .ok report =>
    ⟨if report.failed.isEmpty then 0 else 1, [],
      Text.join ['\n'] (reportLines report) ++ ['\n']⟩
  | .error failure => failFor failure

variable [PatternCompiler]

/-- What an invocation does. Standard input that is no text can only be refused. -/
def invoke (d : Disk) (input : Option Text) (i : Invocation) : Outcome × Disk :=
  match i.command with
  | .parseImport statement => (parseImport statement, d)
  | command =>
    match optionsOf d i with
    | .error failure => (failFor failure, d)
    | .ok options =>
      let inliner := Inliner.ofOptions options
      match command with
      | .parseImport statement => (parseImport statement, d)
      | .file path => (outcomeOf (inliner.generateFile d .empty path).1, d)
      | .code path =>
        match input with
        | none => (failWith ("Error reading stdin: ".toList ++ Fault.notText.message), d)
        | some code => (outcomeOf (inliner.generate d .empty code path).1, d)
      | .folder source target =>
        match inliner.generateFolder d .empty source target with
        | (report, _, d) => (folderOutcome report, d)

/-- What a run with some arguments does. -/
def run (d : Disk) (input : Option Text) (arguments : List Bytes) : Outcome × Disk :=
  match request arguments with
  | .error e => (⟨2, [], "error: ".toList ++ e.message ++ ['\n']⟩, d)
  | .ok .help => (succeed helpText, d)
  | .ok .version => (succeed versionText, d)
  | .ok (.run i) => invoke d input i

end TypeInliner.CommandLine
