import TypeInliner.Disk
import TypeInliner.Glob
import TypeInliner.Import.Parser

/-! # Why resolving or generating fails -/

namespace TypeInliner

inductive Failure
  | malformedImport (e : ParseError)
  /-- The statement can be read, but only named imports are resolved. -/
  | unsupportedImport (spec : ImportSpec)
  | exportNotFound (specifier : Text)
  /-- The entry of an export map that matches has no declaration file. -/
  | noDeclarationPath (package key : Text)
  /-- A key of an export map is refused as a pattern. -/
  | refusedPattern (key reason : Text)
  | packageNotFound (name : Text)
  | malformedManifest (path : Path)
  | malformedOptions (path : Path)
  | inaccessible (path : Path) (fault : Fault)
  /-- The emitter refuses a source. -/
  | refused (reason : Text)
  deriving Repr

def Failure.message : Failure → Text
  | malformedImport e => e.message
  | unsupportedImport spec =>
    spec.kindName ++ " imports are not implemented yet (from \x22".toList ++ spec.source ++
      "\x22)".toList
  | exportNotFound specifier => "Not found export from ".toList ++ specifier
  | noDeclarationPath package key =>
    "Not found type file for ".toList ++ key ++ " export of ".toList ++ package
  | refusedPattern key reason =>
    "Invalid export pattern ".toList ++ key ++ ": ".toList ++ reason
  | packageNotFound name => "Package for ".toList ++ name ++ " is not installed".toList
  | malformedManifest path => "Failed to parse manifest ".toList ++ path.text
  | malformedOptions path => "Invalid options file ".toList ++ path.text
  | inaccessible path fault =>
    "Failed to access ".toList ++ path.text ++ ": ".toList ++ fault.message
  | refused reason => "Schema emitter failed: ".toList ++ reason

end TypeInliner
