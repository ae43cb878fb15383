import TypeInliner.Text.Letters

/-! # References to types of other modules

A type of another module is written into a type text as a marker, `import("module").Name`, and all
markers of a text can be read back in order. -/

namespace TypeInliner

/-- A type that another module declares. -/
structure TypeReference where
  source : Text
  name : Text
  deriving DecidableEq, Repr

namespace TypeReference

def opening : Text := "import(\x22".toList

def closing : Text := "\x22).".toList

def marker (r : TypeReference) : Text := opening ++ r.source ++ closing ++ r.name

def startsName (c : Char) : Bool := Text.isAsciiLetter c || c = '_' || c = '$'

def continuesName (c : Char) : Bool := Text.isWordCharacter c || c = '$'

/-- The reference whose marker a text begins with. The name takes as many characters as it can. -/
def ofFront? (t : Text) : Option TypeReference := do
  let t ← opening.isPrefixOf? t
  let source := t.takeWhile (· ≠ '\x22')
  if source = [] then none
  else
    match ← closing.isPrefixOf? (t.drop source.length) with
    | [] => none
    | c :: rest => if startsName c then some ⟨source, c :: rest.takeWhile continuesName⟩ else none

/-- The references of a text behind a number of characters that belong to an earlier marker. -/
def findAfter : Nat → Text → List TypeReference
  | _, [] => []
  | skipped + 1, _ :: t => findAfter skipped t
  | 0, c :: t =>
    match ofFront? (c :: t) with
    | some r => r :: findAfter (r.marker.length - 1) t
    | none => findAfter 0 t

def find (t : Text) : List TypeReference := findAfter 0 t

end TypeReference

end TypeInliner
