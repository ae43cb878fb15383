import TypeInliner.Path
import TypeInliner.Reference

/-! # Type declarations as found in a source

A declaration is described by its text, its properties and the types it builds on. In the types of
properties and in the base types, the names of known types are written as reference markers. -/

namespace TypeInliner

structure Property where
  name : Text
  type : Text
  deriving DecidableEq, Repr

structure DeclaredType where
  name : Text
  /-- The file that holds the declaration, which need not be the file that was asked. -/
  file : Path
  /-- The declaration exactly as it is written. -/
  text : Text
  properties : List Property
  /-- The types that are extended, and the members of a union or intersection that list no
  properties. -/
  bases : List Text
  deriving Repr

namespace DeclaredType

/-- The texts in which a declaration can mention other types. -/
def typeTexts (d : DeclaredType) : List Text := d.properties.map Property.type ++ d.bases

/-- The types that a declaration mentions, in the order of their markers. -/
def references (d : DeclaredType) : List TypeReference :=
  (d.typeTexts.map TypeReference.find).flatten

end DeclaredType

end TypeInliner
