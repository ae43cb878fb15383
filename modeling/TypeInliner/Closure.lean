import TypeInliner.Introspector
import TypeInliner.Resolution

/-! # Declarations with everything they mention

`Closure.resolve` stores the declaration of a key and of every key it leads to in the context.
`Closure.resolveImport` does so for the items of a named import and answers the keys with a
declaration. A key is stored before what it mentions is resolved, so the search ends on cycles. -/

namespace TypeInliner.Closure

variable [PatternCompiler]

/-- Follows a reference in the declaration of a key: records where it leads and goes on from there.
A reference that cannot be resolved is passed over. -/
def follow (d : Disk) (options : Options) (goOn : Context → Key → Context) (declared : Key)
    (ctx : Context) (r : TypeReference) : Context :=
  match Resolution.resolveReference d options ctx r.source declared.file with
  | (.error _, ctx) => ctx
  | (.ok file, ctx) =>
    let mentioned : Key := ⟨file, r.name⟩
    goOn (if mentioned == declared then ctx else ctx.addEdge declared mentioned) mentioned

/-- Stores the declaration of a key and what it mentions. The first number bounds the depth; every
step down resolves one more key for which there is a declaration. -/
def resolveWithin (introspector : Introspector) (d : Disk) (options : Options) :
    Nat → Context → Key → Context
  | 0, ctx, _ => ctx
  | depth + 1, ctx, key =>
    if ctx.isResolved key then ctx
    else
      match introspector.declaration? d key.file key.symbol with
      | none => ctx
      | some declaration =>
        let declared : Key := ⟨declaration.file, key.symbol⟩
        let ctx := if declared == key then ctx else ctx.addForwarder key declared
        if !(declared == key) && ctx.isResolved declared then ctx
        else
          declaration.references.foldl
            (follow d options (resolveWithin introspector d options depth) declared)
            (ctx.insert declared declaration.text)

/-- Stores the declaration of a key and everything it leads to. -/
def resolve (introspector : Introspector) (d : Disk) (options : Options) (ctx : Context)
    (key : Key) : Context :=
  resolveWithin introspector d options (introspector.bound d) ctx key

/-- Resolves imported items against a file, one after another, and collects what they lead to. -/
def resolveItems (introspector : Introspector) (d : Disk) (options : Options) (file : Path)
    (ctx : Context) (items : List NamedImport) : Context × List Key :=
  items.foldl (fun (ctx, keys) item =>
    let key : Key := ⟨file, item.content⟩
    let ctx := resolve introspector d options ctx key
    (ctx, addNew keys (ctx.closure key))) (ctx, [])

/-- The keys of the declarations that an import from a file needs, each once. -/
def resolveImport (introspector : Introspector) (d : Disk) (options : Options) (ctx : Context)
    (spec : ImportSpec) (file : Path) : Except Failure (List Key) × Context :=
  match spec with
  | .named items _ =>
    let (ctx, keys) := resolveItems introspector d options file ctx items
    (.ok (keys.filter ctx.contains), ctx)
  | spec => (.error (.unsupportedImport spec), ctx)

end TypeInliner.Closure
