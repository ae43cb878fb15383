import TypeInliner.Utf8

/-! # Paths

A path keeps the bytes it was given, which need not be text. Two paths are the same (`==`) if they
have the same components, so doubled separators, a separator at the end and inner `.` make no
difference, while `..` and a leading `.` do. `Path.normalize` folds these as well, without looking
at any file. -/

namespace TypeInliner

/-- The names from the root down to a file or folder. -/
abbrev Place := List Bytes

def Place.ofNames (names : List String) : Place := names.map Utf8.ofString

structure Path where
  bytes : Bytes
  deriving Repr

/-- The byte between two names. -/
abbrev slash : UInt8 := 0x2F

abbrev dot : UInt8 := 0x2E

@[simp] theorem dot_ne_slash : dot ≠ slash := by decide

@[simp] theorem nul_ne_slash : (0 : UInt8) ≠ slash := by decide

@[simp] theorem nul_ne_dot : (0 : UInt8) ≠ dot := by decide

namespace Path

def ofText (t : Text) : Path := ⟨Utf8.encode t⟩

def ofString (s : String) : Path := ofText s.toList

/-- The path as it is shown: replacement characters stand for what is no text. -/
def text (p : Path) : Text := Utf8.decode p.bytes

inductive Component
  | root
  /-- A `.` at the beginning of a relative path. -/
  | current
  | parent
  | name (bytes : Bytes)
  deriving DecidableEq, Repr

/-- Whether a segment between separators is empty or `.`, which stand for no component. -/
def isVoid (segment : Bytes) : Bool := segment = [] || segment = [dot]

/-- The component that a segment between separators stands for. -/
def Component.ofSegment? (segment : Bytes) : Option Component :=
  if isVoid segment then none
  else if segment = [dot, dot] then some parent
  else some (name segment)

def isAbsolute (p : Path) : Bool := p.bytes.head? = some slash

def segments (p : Path) : List Bytes := Text.splitAt slash p.bytes

def components (p : Path) : List Component :=
  match p.segments with
  | [] => []
  | first :: rest =>
    (if p.isAbsolute then [.root]
      else if first = [dot] then [.current]
      else (Component.ofSegment? first).toList) ++ rest.filterMap Component.ofSegment?

instance : BEq Path := ⟨fun p q => p.components == q.components⟩

/-- Appends a path, which replaces the first one if it is absolute. -/
def join (base p : Path) : Path :=
  if p.isAbsolute then p
  else if base.bytes = [] ∨ base.bytes.getLast? = some slash then ⟨base.bytes ++ p.bytes⟩
  else ⟨base.bytes ++ slash :: p.bytes⟩

def dropVoidEnd (segments : List Bytes) : List Bytes := (segments.reverse.dropWhile isVoid).reverse

/-- The segments in front of the last component, or nothing if there is no component. -/
def parentSegments? (segments : List Bytes) : Option (List Bytes) :=
  match (dropVoidEnd segments).reverse with
  | [] => none
  | _ :: before => some (dropVoidEnd before.reverse)

/-- The path without its last component. The root and the empty path have no parent. -/
def parent? (p : Path) : Option Path :=
  match p.segments with
  | [] => none
  | first :: rest =>
    if p.isAbsolute then
      (parentSegments? rest).map fun before => ⟨slash :: Text.join [slash] before⟩
    else if first = [dot] then
      match parentSegments? rest with
      | none => some ⟨[]⟩
      | some before => some ⟨Text.join [slash] ([dot] :: before)⟩
    else
      (parentSegments? (first :: rest)).map fun before => ⟨Text.join [slash] before⟩

/-- The path of a place, which is absolute and has no `.` and no `..`. -/
def ofPlace (place : Place) : Path := ⟨slash :: Text.join [slash] place⟩

/-- One step of folding: `..` leads one name up, but not out of the root. -/
def foldStep (place : Place) : Component → Place
  | .root => []
  | .current => place
  | .parent => place.dropLast
  | .name bytes => place ++ [bytes]

/-- The place that a path means from a current folder, if no link is on the way. -/
def place (home : Place) (p : Path) : Place :=
  ((ofPlace home).join p).components.foldl foldStep []

/-- The absolute path without `.` and `..`. -/
def normalize (home : Place) (p : Path) : Path := ofPlace (place home p)

/-- The ending of source files and of declaration files. -/
def sourceSuffix : Text := ".ts".toList

def hasSourceSuffix (p : Path) : Bool := sourceSuffix.isSuffixOf p.text

/-- Joins a relative specifier to the location that imports it: to the folder of a source file, or
to anything else as a folder. -/
def resolveRelative (home : Place) (specifier : Text) (importer : Path) : Path :=
  let base := if importer.hasSourceSuffix then importer.parent?.getD importer else importer
  normalize home (base.join (ofText specifier))

end Path

end TypeInliner
