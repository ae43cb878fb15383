import TypeInliner.DeclarationOrder
import TypeInliner.Manifest

/-! # What has been resolved so far

A context holds the texts of declarations by file and name, which of them mention which others,
which keys only forward to a declaration in another file, and the dependencies of the project. It
only grows until it is cleared. -/

namespace TypeInliner

/-- A declaration by its file and name. -/
structure Key where
  file : Path
  symbol : Text
  deriving Repr

instance : BEq Key := ⟨fun a b => a.symbol = b.symbol && a.file == b.file⟩

structure Context where
  declarations : Table Path (Table Text Text)
  /-- The keys that a key leads to: those a declaration mentions, or where it is forwarded to. -/
  edges : Table Key (List Key)
  forwarders : List Key
  rootDependencies : Option (Table Text Text)

namespace Context

def empty : Context := ⟨[], [], [], none⟩

def text? (ctx : Context) (key : Key) : Option Text :=
  (ctx.declarations.find? key.file).bind fun symbols => symbols.find? key.symbol

def contains (ctx : Context) (key : Key) : Bool := (ctx.text? key).isSome

/-- Whether a key has a declaration or forwards to one. -/
def isResolved (ctx : Context) (key : Key) : Bool :=
  ctx.contains key || ctx.forwarders.contains key

/-- Stores the text of a declaration; one that is stored already keeps its text. -/
def insert (ctx : Context) (key : Key) (text : Text) : Context :=
  if ctx.contains key then ctx
  else
    let symbols := (ctx.declarations.find? key.file).getD []
    { ctx with declarations := ctx.declarations.insert key.file (symbols.insert key.symbol text) }

def dependencies (ctx : Context) (key : Key) : List Key := (ctx.edges.find? key).getD []

def addEdge (ctx : Context) (source target : Key) : Context :=
  { ctx with edges := ctx.edges.insert source (addNew (ctx.dependencies source) [target]) }

/-- Records that a key forwards to a declaration in another file. -/
def addForwarder (ctx : Context) (source target : Key) : Context :=
  { ctx with forwarders := addNew ctx.forwarders [source] }.addEdge source target

def edgeCount (ctx : Context) : Nat := (ctx.edges.flatMap (·.2)).length

/-- Visits the keys of a stack, topmost first, and what they lead to, each key once. The first
argument bounds the number of keys taken from the stack. -/
def visit (ctx : Context) : Nat → List Key → List Key → List Key
  | 0, _, seen => seen
  | _, [], seen => seen
  | steps + 1, key :: stack, seen =>
    if seen.contains key then visit ctx steps stack seen
    else
      let seen := seen ++ [key]
      visit ctx steps ((ctx.dependencies key).filter (!seen.contains ·) ++ stack) seen

/-- A key and everything it leads to, depth first, each key once. Every edge puts at most one key on
the stack. -/
def closure (ctx : Context) (key : Key) : List Key := ctx.visit (ctx.edgeCount + 1) [key] []

/-- The context after the dependencies of the project have been read, which happens once. -/
def loadDependencies (ctx : Context) (d : Disk) (root : Path) : Context :=
  match ctx.rootDependencies with
  | some _ => ctx
  | none => { ctx with rootDependencies := some (Manifest.load d root).mergedDependencies }

/-- The dependencies of the project; none before they have been read. -/
def knownDependencies (ctx : Context) : Table Text Text := ctx.rootDependencies.getD []

/-- All declarations of a file in order. -/
def renderFile (ctx : Context) (file : Path) : Text :=
  Declaration.render (((ctx.declarations.find? file).getD []).map fun (name, text) => ⟨name, text⟩)

/-- The declarations of some keys in order; keys without one are left out. -/
def render (ctx : Context) (keys : List Key) : Text :=
  Declaration.render (keys.filterMap fun key => (ctx.text? key).map fun text => ⟨key.symbol, text⟩)

def isEmpty (ctx : Context) : Bool := ctx.declarations.isEmpty

end Context

end TypeInliner
