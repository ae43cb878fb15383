import TypeInliner.Path
import TypeInliner.Table

/-! # A tree of files

A disk is a table of what stands at each place, together with the current folder. Looking up a path
walks through its names, follows symbolic links on the way, and fails with a fault that says why. -/

namespace TypeInliner

inductive Node
  /-- A file with its text, or with bytes that are no text. -/
  | file (content : Option Text)
  | folder
  /-- A symbolic link to a path, relative to the folder that holds the link. -/
  | link (target : Bytes)
  deriving DecidableEq, Repr

structure Disk where
  /-- The current folder. -/
  home : Place
  nodes : Table Place Node

/-- Why a path cannot be accessed. -/
inductive Fault
  | missing
  | occupied
  | notFolder
  | isFolder
  | nameTooLong
  | tooManyLinks
  /-- The path holds a byte that no path can hold. -/
  | nulCharacter
  /-- The file's bytes are no text. -/
  | notText
  deriving DecidableEq, Repr

/-- The wording of a fault, with the number that the system gives it. -/
def Fault.message : Fault → Text
  | missing => "No such file or directory (os error 2)".toList
  | occupied => "File exists (os error 17)".toList
  | notFolder => "Not a directory (os error 20)".toList
  | isFolder => "Is a directory (os error 21)".toList
  | nameTooLong => "File name too long (os error 36)".toList
  | tooManyLinks => "Too many levels of symbolic links (os error 40)".toList
  | nulCharacter => "file name contained an unexpected NUL byte".toList
  | notText => "stream did not contain valid UTF-8".toList

namespace Disk

/-- A disk that holds only the folders down to the current one. -/
def empty (home : Place) : Disk :=
  ⟨home, (List.range home.length).map fun n => (home.take (n + 1), .folder)⟩

/-- What stands at a place; the root is always a folder. -/
def node? (d : Disk) (place : Place) : Option Node :=
  if place = [] then some .folder else d.nodes.find? place

def isFolderAt (d : Disk) (place : Place) : Bool := d.node? place = some .folder

/-- Where a path leads. -/
inductive Arrival
  | found (place : Place)
  /-- Nothing stands there, but the folder around it exists. -/
  | vacant (place : Place)
  deriving DecidableEq, Repr

/-- The largest number of links that are followed on the way to a place. -/
def linkLimit : Nat := 40

def nameLimit : Nat := 255

/-- A path must have fewer bytes than this. -/
def pathLimit : Nat := 4096

/-- Walks from a place along segments of a path. At a link the walk goes on with a target and what
follows the link. A link at the very end is followed only if asked for. -/
def walkTo (d : Disk) (follow : Bool) (goOn : Place → List Bytes → Except Fault Arrival)
    (place : Place) : List Bytes → Except Fault Arrival
  | [] => .ok (.found place)
  | segment :: rest =>
    if ¬ d.isFolderAt place then .error .notFolder
    else if Path.isVoid segment then walkTo d follow goOn place rest
    else if segment = [dot, dot] then walkTo d follow goOn place.dropLast rest
    else if nameLimit < segment.length then .error .nameTooLong
    else
      match d.node? (place ++ [segment]) with
      | none => if rest = [] then .ok (.vacant (place ++ [segment])) else .error .missing
      | some (.link target) =>
        if rest = [] ∧ ¬ follow then .ok (.found (place ++ [segment]))
        else
          goOn (if target.head? = some slash then [] else place) (Text.splitAt slash target ++ rest)
      | some _ => walkTo d follow goOn (place ++ [segment]) rest

/-- Walks from a place along segments of a path. The number says how many links may be followed. -/
def walk (d : Disk) (follow : Bool) : Nat → Place → List Bytes → Except Fault Arrival
  | 0 => walkTo d follow fun _ _ => .error .tooManyLinks
  | links + 1 => walkTo d follow (walk d follow links)

/-- Where a path leads, if it can be a path at all. -/
def arrive (d : Disk) (follow : Bool) (p : Path) : Except Fault Arrival :=
  if p.bytes.contains 0 then .error .nulCharacter
  else if p.bytes = [] then .error .missing
  else if pathLimit ≤ p.bytes.length then .error .nameTooLong
  else d.walk follow linkLimit (if p.isAbsolute then [] else d.home) p.segments

def find (d : Disk) (p : Path) : Except Fault Place :=
  match d.arrive true p with
  | .ok (.found place) => .ok place
  | .ok (.vacant _) => .error .missing
  | .error fault => .error fault

def read (d : Disk) (p : Path) : Except Fault Text := do
  match d.node? (← d.find p) with
  | some (.file (some text)) => return text
  | some (.file none) => throw .notText
  | some .folder => throw .isFolder
  | _ => throw .missing

def isFile (d : Disk) (p : Path) : Bool :=
  match d.find p with
  | .ok place => match d.node? place with
    | some (.file _) => true
    | _ => false
  | .error _ => false

def isFolder (d : Disk) (p : Path) : Bool :=
  match d.find p with
  | .ok place => d.isFolderAt place
  | .error _ => false

/-- The path without links of what a path leads to. -/
def realPath (d : Disk) (p : Path) : Except Fault Path := (d.find p).map Path.ofPlace

def namesIn (d : Disk) (place : Place) : List Bytes :=
  d.nodes.filterMap fun (other, _) =>
    if other ≠ [] ∧ other.dropLast = place then other.getLast? else none

/-- The names in the folder that a path leads to, in no particular order. -/
def list (d : Disk) (p : Path) : Except Fault (List Bytes) := do
  let place ← d.find p
  if d.isFolderAt place then return d.namesIn place
  throw .notFolder

end Disk

end TypeInliner
