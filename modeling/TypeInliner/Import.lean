import TypeInliner.Text

/-! # Import descriptions

What one import statement binds. A statement binds a default, a whole module or a list of named
items, never a mixture; a statement that binds nothing has no description. -/

namespace TypeInliner

/-- One item of a named import. -/
structure NamedImport where
  /-- Whether `type` stands before the item or the clause. The item may be a type without it. -/
  explicitType : Bool
  /-- The name given behind `as`. -/
  rename : Option Text
  /-- The name under which the other module exports the item. -/
  content : Text
  deriving DecidableEq, Repr

/-- The name under which the importing file knows an item. -/
def NamedImport.localName (item : NamedImport) : Text := item.rename.getD item.content

inductive ImportSpec
  /-- A binding of the module's default export. -/
  | default (name : Text) (source : Text)
  /-- A binding of the module as a whole. -/
  | whole (name : Text) (source : Text)
  /-- Bindings of single exports. -/
  | named (items : List NamedImport) (source : Text)
  deriving DecidableEq, Repr

namespace ImportSpec

def source : ImportSpec → Text
  | default _ source => source
  | whole _ source => source
  | named _ source => source

/-- The word by which messages speak of the shape of a statement. -/
def kindName : ImportSpec → Text
  | default .. => "default".toList
  | whole .. => "namespace".toList
  | named .. => "named".toList

/-- The items of a named import; other imports have none. -/
def items : ImportSpec → List NamedImport
  | named items _ => items
  | _ => []

end ImportSpec

end TypeInliner
