import TypeInliner.Text

/-! # Module specifiers

Cutting specifiers into the name of a package and a path inside it, and putting them together. -/

namespace TypeInliner.Specifier

def isRelative (specifier : Text) : Bool :=
  specifier = ".".toList || specifier = "..".toList || "./".toList.isPrefixOf specifier ||
    "../".toList.isPrefixOf specifier

/-- Whether a specifier imports a package or something inside it. -/
def belongsTo (specifier package : Text) : Bool :=
  match package.isPrefixOf? specifier with
  | some [] => true
  | some ('/' :: _) => true
  | _ => false

def rootSubpath : Text := ['.']

/-- The part of a specifier behind the package, written from `.`. -/
def subpath (specifier package : Text) : Text :=
  match package.isPrefixOf? specifier with
  | some (c :: rest) => '.' :: c :: rest
  | _ => rootSubpath

def join (package subpath : Text) : Text :=
  match subpath with
  | '.' :: rest => package ++ rest
  | _ => package ++ '/' :: subpath

/-- Cuts a text at a slash, given how many slashes before it are kept. -/
def cut : Nat → Text → Text × Option Text
  | _, [] => ([], none)
  | kept, c :: t =>
    if c = '/' ∧ kept = 0 then ([], some t)
    else
      let (name, rest) := cut (if c = '/' then kept - 1 else kept) t
      (c :: name, rest)

/-- The package name of a specifier and what follows it. A scoped name has two parts. -/
def split (specifier : Text) : Text × Option Text :=
  cut (if specifier.head? = some '@' then 1 else 0) specifier

end TypeInliner.Specifier
