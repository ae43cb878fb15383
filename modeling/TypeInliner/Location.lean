import TypeInliner.Disk

/-! # The file that an import path means

An import path may leave out the ending of the file, or name a folder whose index file is meant. -/

namespace TypeInliner.Disk

/-- The folded path, without links if something stands there. -/
def canonicalize (d : Disk) (p : Path) : Path :=
  let normalized := p.normalize d.home
  match d.realPath normalized with
  | .ok real => real
  | .error _ => normalized

/-- The files that a path without an ending can mean, the preferred one first. An ending is put
behind the path as it is shown. -/
def candidates (p : Path) : List Path :=
  [.ofText (p.text ++ ".ts".toList), .ofText (p.text ++ ".d.ts".toList),
    p.join (.ofString "index.ts"), p.join (.ofString "index.d.ts")]

/-- The file that a path means. A path with the ending of a source file means itself; where no
candidate is a file, so does any other. -/
def locate (d : Disk) (p : Path) : Path :=
  let normalized := p.normalize d.home
  if normalized.hasSourceSuffix then d.canonicalize normalized
  else
    match (candidates normalized).find? d.isFile with
    | some file => d.canonicalize file
    | none => normalized

end TypeInliner.Disk
