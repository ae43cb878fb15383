import TypeInliner.Disk

/-! # Changing a tree of files

Writing and removing files, making folders and links. An operation that fails leaves the tree alone,
but making a folder with all folders around it may make some of them before it fails. -/

namespace TypeInliner.Disk

def set (d : Disk) (place : Place) (node : Node) : Disk :=
  { d with nodes := d.nodes.insert place node }

/-- Whether the last segment of a path names nothing by itself: it is empty, `.` or `..`. -/
def endsInFolder (p : Path) : Bool :=
  match p.segments.getLast? with
  | some segment => Path.isVoid segment || segment = [dot, dot]
  | none => true

/-- Writes a file; a link at the end of the path is followed, also to where nothing stands yet. -/
def write (d : Disk) (p : Path) (content : Option Text) : Except Fault Disk :=
  if endsInFolder p then
    match d.find p with
    | .ok _ => .error .isFolder
    | .error fault => .error fault
  else
    match d.arrive true p with
    | .ok (.vacant place) => .ok (d.set place (.file content))
    | .ok (.found place) =>
      if d.isFolderAt place then .error .isFolder else .ok (d.set place (.file content))
    | .error fault => .error fault

def remove (d : Disk) (p : Path) : Except Fault Disk :=
  if endsInFolder p then .error .isFolder
  else
    match d.arrive false p with
    | .ok (.found place) =>
      if d.isFolderAt place then .error .isFolder
      else .ok { d with nodes := d.nodes.erase place }
    | .ok (.vacant _) => .error .missing
    | .error fault => .error fault

/-- Makes a link where nothing stands. Its target must be a possible path, but need not exist. -/
def addLink (d : Disk) (p : Path) (target : Bytes) : Except Fault Disk :=
  if target.contains 0 then .error .nulCharacter
  else if target = [] then .error .missing
  else if pathLimit ≤ target.length then .error .nameTooLong
  else
    match d.arrive false p with
    | .ok (.vacant place) => .ok (d.set place (.link target))
    | .ok (.found _) => .error .occupied
    | .error fault => .error fault

def withoutEndSlash (p : Path) : Path :=
  match Text.trimEnd (· = slash) p.bytes with
  | [] => ⟨p.bytes.take 1⟩
  | bytes => ⟨bytes⟩

/-- Makes one folder where nothing stands. Slashes at the end of the path do not matter to where the
folder is made, but they count against the limit for paths. -/
def makeFolder (d : Disk) (p : Path) : Except Fault Disk :=
  if pathLimit ≤ p.bytes.length ∧ ¬ p.bytes.contains 0 then .error .nameTooLong
  else
    match d.arrive false (withoutEndSlash p) with
    | .ok (.vacant place) => .ok (d.set place .folder)
    | .ok (.found _) => .error .occupied
    | .error fault => .error fault

/-- Makes a folder after the folders around it, which the first argument counts. What is a folder
already is left as it is. -/
def makeFoldersWithin : Nat → Disk → Path → Disk × Except Fault Unit
  | bound, d, p =>
    if p.bytes = [] then (d, .ok ())
    else
      match d.makeFolder p with
      | .ok d => (d, .ok ())
      | .error .missing =>
        match bound, p.parent? with
        | bound + 1, some parent =>
          match makeFoldersWithin bound d parent with
          | (d, .error fault) => (d, .error fault)
          | (d, .ok ()) =>
            match d.makeFolder p with
            | .ok d => (d, .ok ())
            | .error fault => (d, if d.isFolder p then .ok () else .error fault)
        | _, _ => (d, .error .missing)
      | .error fault => (d, if d.isFolder p then .ok () else .error fault)

/-- Makes a folder and all folders around it that are missing. -/
def makeFolders (d : Disk) (p : Path) : Disk × Except Fault Unit :=
  makeFoldersWithin p.segments.length d p

end TypeInliner.Disk
