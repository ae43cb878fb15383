import TypeInliner.SourceFile

/-! # Asking for type declarations

An introspector answers which declaration a file offers under a name. `Introspector.sources` reads
the files of a disk; `Introspector.ofTable` answers from a fixed list. -/

namespace TypeInliner

structure Introspector where
  /-- The declaration that a file offers under a name. -/
  declaration? : Disk → Path → Text → Option DeclaredType
  /-- At most this many pairs of a file and a name have a declaration. -/
  bound : Disk → Nat

namespace Introspector

/-- How many export statements are followed in search of a declaration. -/
def hopLimit : Nat := 8

/-- The declaration that a file offers under a name, itself or through a number of export
statements. -/
def declarationWithin (d : Disk) (name : Text) : Nat → Path → Option DeclaredType
  | 0, file =>
    match d.read file with
    | .error _ => none
    | .ok source => (SourceFile.ofText d.home file source).declaration? name
  | hops + 1, file =>
    match d.read file with
    | .error _ => none
    | .ok source =>
      let f := SourceFile.ofText d.home file source
      match f.declaration? name with
      | some declaration => some declaration
      | none => (f.forwards d name).findSome? (declarationWithin d name hops)

def textSize (d : Disk) : Nat :=
  (d.nodes.flatMap fun (_, node) =>
    match node with
    | .file (some text) => text
    | _ => []).length

/-- Reads declarations from the files of the disk. A path that can be read is shorter than the limit
for paths, and a name that is declared stands in one of the files. -/
def sources : Introspector where
  declaration? d file name := declarationWithin d name hopLimit file
  bound d := Nat.pow 2 (9 * Disk.pathLimit) * (textSize d + 1)

/-- Answers from a list of files, names and declarations. -/
def ofTable (table : List (Path × Text × DeclaredType)) : Introspector where
  declaration? _ file name :=
    (table.find? fun entry => entry.1 == file && entry.2.1 = name).map (·.2.2)
  bound _ := table.length

end Introspector

end TypeInliner
