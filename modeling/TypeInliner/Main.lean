import TypeInliner.Footprint
import TypeInliner.Glob.Size
import Std.Data.HashSet.Basic

/-! # The program

Learns the files that a run can look at, runs it, and then writes what it has changed. -/

namespace TypeInliner.Program

instance : PatternCompiler := Glob.sizeLimited

def textOf (t : Text) : String := String.ofList t

/-- The place of an absolute path as the system spells it. -/
def placeOf (path : String) : Place := (Path.ofString path).place []

def pathOf (place : Place) : String := textOf (Path.ofPlace place).text

/-- What stands at a place that is no link. -/
def observeNode (place : Place) : IO Node := do
  let real ← IO.FS.realPath (pathOf place)
  if (← real.metadata).type == .dir then return .folder
  return .file ((String.fromUTF8? (← IO.FS.readBinFile (pathOf place))).map String.toList)

/-- Learns what stands on the way from a place along some names, and where links on it lead. -/
partial def observe (d : Disk) (base : Place) : Place → IO Disk
  | [] => return d
  | name :: rest => do
    let here := base ++ [name]
    try
      let real := placeOf (← IO.FS.realPath (pathOf here)).toString
      if real = here then
        if (d.node? here).isSome then observe d here rest
        else observe (d.set here (← observeNode here)) here rest
      else
        let d ← observe (d.set here (.link (Path.ofPlace real).bytes)) [] real
        observe d real rest
    catch _ => return d

/-- Learns paths until no file learned makes another one matter. -/
partial def explore (input : Text) (i : CommandLine.Invocation) (asked : Std.HashSet String)
    (d : Disk) : IO Disk := do
  let wanted := (Footprint.ofInvocation d input i).map fun p => pathOf (p.place d.home)
  let new := wanted.filter (!asked.contains ·)
  if new.isEmpty then return d
  let d ← new.foldlM (fun d path => observe d [] (placeOf path)) d
  explore input i (asked.insertMany new) d

/-- Learns the files directly in the folder that an invocation goes through. -/
def exploreFolder (i : CommandLine.Invocation) (d : Disk) : IO Disk := do
  match i.command, CommandLine.optionsOf d i with
  | .folder source _, .ok options =>
    match d.find (options.root.join source) with
    | .ok place =>
      let folder ← IO.FS.realPath (pathOf place)
      (← folder.readDir).foldlM (fun d entry => observe d place [Utf8.ofString entry.fileName]) d
    | .error _ => return d
  | _, _ => return d

/-- Writes the folders and files in which a disk differs from an earlier one. -/
def save (before after : Disk) : IO Unit :=
  after.nodes.forM fun (place, node) => do
    if before.node? place ≠ some node then
      match node with
      | .folder => IO.FS.createDirAll (pathOf place)
      | .file (some text) => IO.FS.writeFile (pathOf place) (textOf text)
      | _ => pure ()

/-- Standard input, where a command reads it. -/
def inputFor (i : CommandLine.Invocation) : IO (Option Text) := do
  match i.command with
  | .code _ =>
    let bytes ← (← IO.getStdin).readBinToEnd
    return (String.fromUTF8? bytes).map String.toList
  | _ => return some []

/-- The part of the system's files that matters for some arguments, and standard input. -/
def prepare (arguments : List Bytes) : IO (Disk × Option Text) := do
  let home := placeOf (← IO.currentDir).toString
  let d ← observe (Disk.empty home) [] home
  match CommandLine.request arguments with
  | .ok (.run i) =>
    let input ← inputFor i
    let known := input.getD []
    let d ← explore known i ∅ d
    let d ← exploreFolder i d
    return (← explore known i ∅ d, input)
  | _ => return (d, some [])

/-- Runs the program and answers its exit code. -/
def run (arguments : List Bytes) : IO Nat := do
  let (before, input) ← prepare arguments
  let (outcome, after) := CommandLine.run before input arguments
  save before after
  (← IO.getStdout).putStr (textOf outcome.output)
  (← IO.getStderr).putStr (textOf outcome.errors)
  return outcome.exitCode

end TypeInliner.Program

def main (arguments : List String) : IO UInt32 := do
  return UInt32.ofNat (← TypeInliner.Program.run (arguments.map TypeInliner.Utf8.ofString))
