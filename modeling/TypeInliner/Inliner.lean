import TypeInliner.Closure
import TypeInliner.Disk.Change
import TypeInliner.Import.Statement

/-! # Inlining imports

`Inliner.inline` takes the import statements out of a source and puts the declarations they need in
front of what remains. Statements that cannot be resolved are handed back. The results of one file
or of all source files of a folder are built on it. -/

namespace TypeInliner

structure Inliner where
  options : Options
  introspector : Introspector
  /-- What becomes of a source whose imports are inlined. -/
  emit : Text → Except Failure Text

/-- A source with its imports inlined. -/
structure InlinedSource where
  source : Text
  /-- The import statements that could not be resolved, in order. -/
  preserved : List Text

/-- What has been collected from the import statements so far. -/
structure Harvest where
  keys : List Key
  /-- Lines that give declarations the names under which they are imported. -/
  renames : List Text
  preserved : List Text

structure FolderReport where
  written : List Path
  failed : List (Path × Failure)

namespace Inliner

/-- An inliner that reads declarations from files and emits inlined sources as they are. -/
def ofOptions (options : Options) : Inliner := ⟨options, .sources, .ok⟩

/-- A line that gives a declaration another name. -/
def renameLine (item : NamedImport) : Text :=
  "type ".toList ++ item.localName ++ " = ".toList ++ item.content ++ ";".toList

/-- The lines for the items of an import that are found and imported under another name. -/
def renameLines (spec : ImportSpec) (found : List Key) : List Text :=
  (spec.items.filter fun item =>
    item.localName ≠ item.content && found.any (·.symbol = item.content)).map renameLine

/-- The declarations with the lines that rename them. -/
def block (declarations : Text) (renames : List Text) : Text :=
  Text.join ['\n'] (if declarations = [] then renames else declarations :: renames)

/-- A block is made of the texts of its declarations and of its lines, one below the other. -/
theorem block_render (ds : List Declaration) (lines : List Text) :
    block (Declaration.render ds) lines =
      Text.join ['\n'] (((Declaration.order ds).map (·.text)).filter (· ≠ []) ++ lines) := by
  have htexts : ((Declaration.order ds).map (·.text)).filter (!·.isEmpty) =
      ((Declaration.order ds).map (·.text)).filter (· ≠ []) :=
    List.filter_congr fun t _ => by cases t <;> rfl
  unfold block Declaration.render
  rw [htexts]
  generalize htexts' : ((Declaration.order ds).map (·.text)).filter (· ≠ []) = texts
  by_cases hnone : texts = []
  · subst hnone
    rfl
  · have hfilled : ∀ t ∈ texts, t ≠ [] := by
      intro t ht
      rw [← htexts'] at ht
      simpa using (List.mem_filter.mp ht).2
    rw [if_neg (Text.join_ne_nil hnone hfilled), Text.join_join_cons hnone]

/-- A block above the text it is for. -/
def putAbove (block remainder : Text) : Text :=
  if block = [] then remainder else block ++ '\n' :: remainder

variable [PatternCompiler]

/-- The declarations that an import needs; none if its module is not looked up. -/
def resolveSpec (inliner : Inliner) (d : Disk) (ctx : Context) (spec : ImportSpec)
    (file : Option Path) : Except Failure (List Key) × Context :=
  match Resolution.resolveSource d inliner.options ctx spec.source file with
  | (.error failure, ctx) => (.error failure, ctx)
  | (.ok none, ctx) => (.ok [], ctx)
  | (.ok (some source), ctx) =>
    Closure.resolveImport inliner.introspector d inliner.options ctx spec source

def resolveImport (inliner : Inliner) (d : Disk) (ctx : Context) (statement : Text)
    (file : Option Path) : Except Failure (List Key) × Context :=
  match ImportSpec.ofText statement with
  | .error e => (.error (.malformedImport e), ctx)
  | .ok spec => inliner.resolveSpec d ctx spec file

/-- The text of the declarations that an import statement needs; nothing if it fails. -/
def importContent (inliner : Inliner) (d : Disk) (ctx : Context) (statement : Text)
    (file : Option Path) : Text × Context :=
  match inliner.resolveImport d ctx statement file with
  | (.ok keys, ctx) => (ctx.render keys, ctx)
  | (.error _, ctx) => ([], ctx)

/-- What an import statement of a source needs. -/
def resolveStatement (inliner : Inliner) (d : Disk) (file : Option Path) (ctx : Context)
    (s : ImportStatement) : Except Failure (List Key) × Context :=
  match s.outcome with
  | .ok spec => inliner.resolveSpec d ctx spec file
  | .error e => (.error (.malformedImport e), ctx)

/-- Adds what one statement needs to what has been collected. -/
def gather (inliner : Inliner) (d : Disk) (file : Option Path) (state : Context × Harvest)
    (s : ImportStatement) : Context × Harvest :=
  let (ctx, harvest) := state
  match inliner.resolveStatement d file ctx s with
  | (.ok (key :: keys), ctx) =>
    let found := key :: keys
    let lines := match s.outcome with
      | .ok spec => renameLines spec found
      | .error _ => []
    (ctx, { harvest with
      keys := addNew harvest.keys found
      renames := addNew harvest.renames lines })
  | (_, ctx) => (ctx, { harvest with preserved := harvest.preserved ++ [s.text] })

/-- What the import statements of a source need, collected in their order. -/
def harvest (inliner : Inliner) (d : Disk) (ctx : Context) (statements : List ImportStatement)
    (file : Option Path) : Context × Harvest :=
  statements.foldl (inliner.gather d file) (ctx, ⟨[], [], []⟩)

/-- Puts the import statements of a source aside and the declarations they need in front of it. -/
def inline (inliner : Inliner) (d : Disk) (ctx : Context) (code : Text) (file : Option Path) :
    InlinedSource × Context :=
  let pieces := ImportStatement.pieces (Token.ofText code)
  let (ctx, harvest) :=
    inliner.harvest d ctx (pieces.filterMap ImportStatement.Piece.statement?) file
  let block := block (ctx.render harvest.keys) harvest.renames
  (⟨putAbove block (ImportStatement.remainder pieces), harvest.preserved⟩, ctx)

/-- What inlining makes of a source, with the block written out. -/
theorem inline_fst_eq (inliner : Inliner) (d : Disk) (ctx : Context) (code : Text)
    (file : Option Path) :
    let collected := (inliner.harvest d ctx (ImportStatement.ofText code) file).2
    let last := (inliner.inline d ctx code file).2
    let declarations : List Declaration := collected.keys.filterMap fun key =>
      (last.text? key).map fun text => ⟨key.symbol, text⟩
    let texts := ((Declaration.order declarations).map (·.text)).filter (· ≠ [])
    let above := Text.join ['\n'] (texts ++ collected.renames)
    let remaining := ImportStatement.remainder (ImportStatement.pieces (Token.ofText code))
    (inliner.inline d ctx code file).1 =
      ⟨if above = [] then remaining else above ++ '\n' :: remaining, collected.preserved⟩ := by
  intro collected last declarations texts above remaining
  exact congrArg (fun block => (⟨putAbove block remaining, _⟩ : InlinedSource))
    (block_render declarations collected.renames)

/-- The result for a source: what is emitted for it, behind the statements that were put aside. -/
def generate (inliner : Inliner) (d : Disk) (ctx : Context) (code : Text) (file : Option Path) :
    Except Failure Text × Context :=
  let (inlined, ctx) := inliner.inline d ctx code file
  match inliner.emit inlined.source with
  | .error failure => (.error failure, ctx)
  | .ok emitted =>
    if inlined.preserved = [] then (.ok emitted, ctx)
    else (.ok (Text.join ['\n'] inlined.preserved ++ "\n\n".toList ++ emitted), ctx)

def generateFile (inliner : Inliner) (d : Disk) (ctx : Context) (path : Path) :
    Except Failure Text × Context :=
  match d.read path with
  | .error fault => (.error (.inaccessible path fault), ctx)
  | .ok code => inliner.generate d ctx code (some (path.normalize d.home))

/-- Writes the result for one file of a folder under the same name into another folder. -/
def generateInto (inliner : Inliner) (input output : Path)
    (state : Disk × Context × FolderReport) (name : Bytes) : Disk × Context × FolderReport :=
  let (d, ctx, report) := state
  let file := input.join ⟨name⟩
  let target := output.join ⟨name⟩
  let failed (failure : Failure) : FolderReport :=
    { report with failed := report.failed ++ [(file, failure)] }
  match inliner.generateFile d ctx file with
  | (.error failure, ctx) => (d, ctx, failed failure)
  | (.ok code, ctx) =>
    match d.write target (some code) with
    | .error fault => (d, ctx, failed (.inaccessible target fault))
    | .ok d => (d, ctx, { report with written := report.written ++ [target] })

/-- The names of the source files directly in a folder, in increasing order. -/
def sourceNames (d : Disk) (folder : Path) (names : List Bytes) : List Bytes :=
  (names.filter fun name =>
    d.isFile (folder.join ⟨name⟩) && (folder.join ⟨name⟩).hasSourceSuffix).mergeSort
      fun a b => !decide (b < a)

/-- Writes the results for all source files of a folder into another folder, both taken from the
root of the project. A file that fails does not stop the others. -/
def generateFolder (inliner : Inliner) (d : Disk) (ctx : Context) (input output : Path) :
    Except Failure FolderReport × Context × Disk :=
  let input := inliner.options.root.join input
  let output := inliner.options.root.join output
  match d.list input with
  | .error fault => (.error (.inaccessible input fault), ctx, d)
  | .ok names =>
    let files := sourceNames d input names
    match d.makeFolders output with
    | (d, .error fault) => (.error (.inaccessible output fault), ctx, d)
    | (d, .ok ()) =>
      let (d, ctx, report) := files.foldl (inliner.generateInto input output) (d, ctx, ⟨[], []⟩)
      (.ok report, ctx, d)

end Inliner

end TypeInliner
