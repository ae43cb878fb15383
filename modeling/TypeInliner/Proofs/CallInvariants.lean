import TypeInliner.Proofs.WarmContext

/-! # What every call keeps

A call changes the context in two ways only: it reads the dependencies of the project, and it
resolves keys. A property of contexts that both keep is kept by every call, and by working off the
files of a folder. -/

namespace TypeInliner

variable [PatternCompiler]

/-- Reading the dependencies of the project and resolving any key keep a property of contexts. -/
structure KeptByResolving (inliner : Inliner) (d : Disk) (P : Context → Prop) : Prop where
  load {ctx : Context} : P ctx → P (ctx.loadDependencies d inliner.options.root)
  resolve {ctx : Context} (key : Key) : P ctx →
    P (Closure.resolve inliner.introspector d inliner.options ctx key)

namespace KeptByResolving

variable {inliner : Inliner} {d : Disk} {P : Context → Prop} {ctx : Context}

theorem resolveItems (h : KeptByResolving inliner d P) (file : Path) (hctx : P ctx)
    (items : List NamedImport) :
    P (Closure.resolveItems inliner.introspector d inliner.options file ctx items).1 := by
  unfold Closure.resolveItems
  induction items using List.reverseRecOn with
  | nil => exact hctx
  | append_singleton items item ih =>
    rw [List.foldl_append]
    exact h.resolve _ ih

theorem closure (h : KeptByResolving inliner d P) (hctx : P ctx) (spec : ImportSpec)
    (file : Path) :
    P (Closure.resolveImport inliner.introspector d inliner.options ctx spec file).2 := by
  unfold Closure.resolveImport
  split
  · exact h.resolveItems file hctx _
  · exact hctx

theorem resolveSpec (h : KeptByResolving inliner d P) (hctx : P ctx) (spec : ImportSpec)
    (file : Option Path) : P (inliner.resolveSpec d ctx spec file).2 := by
  have hloaded := h.load hctx
  rw [← ReferenceGraph.resolveSource_context d inliner.options ctx spec.source file] at hloaded
  unfold Inliner.resolveSpec
  split
  · next hsource =>
    rw [hsource] at hloaded
    exact hloaded
  · next hsource =>
    rw [hsource] at hloaded
    exact hloaded
  · next source after hsource =>
    rw [hsource] at hloaded
    exact h.closure hloaded spec source

theorem resolveStatement (h : KeptByResolving inliner d P) (hctx : P ctx) (file : Option Path)
    (s : ImportStatement) : P (inliner.resolveStatement d file ctx s).2 := by
  unfold Inliner.resolveStatement
  split
  · exact h.resolveSpec hctx _ file
  · exact hctx

theorem resolveImport (h : KeptByResolving inliner d P) (hctx : P ctx) (statement : Text)
    (file : Option Path) : P (inliner.resolveImport d ctx statement file).2 := by
  unfold Inliner.resolveImport
  split
  · exact hctx
  · exact h.resolveSpec hctx _ file

theorem importContent (h : KeptByResolving inliner d P) (hctx : P ctx) (statement : Text)
    (file : Option Path) : P (inliner.importContent d ctx statement file).2 := by
  have hresolved := h.resolveImport hctx statement file
  unfold Inliner.importContent
  split <;> next hresult =>
    rw [hresult] at hresolved
    exact hresolved

theorem gather (h : KeptByResolving inliner d P) (file : Option Path)
    {state : Context × Harvest} (hstate : P state.1) (s : ImportStatement) :
    P (inliner.gather d file state s).1 := by
  have hresolved := h.resolveStatement hstate file s
  unfold Inliner.gather
  dsimp only
  split <;> next hresult =>
    rw [hresult] at hresolved
    exact hresolved

theorem harvest (h : KeptByResolving inliner d P) (hctx : P ctx)
    (statements : List ImportStatement) (file : Option Path) :
    P (inliner.harvest d ctx statements file).1 := by
  unfold Inliner.harvest
  induction statements using List.reverseRecOn with
  | nil => exact hctx
  | append_singleton statements s ih =>
    rw [List.foldl_append]
    exact h.gather file ih s

theorem inline (h : KeptByResolving inliner d P) (hctx : P ctx) (code : Text)
    (file : Option Path) : P (inliner.inline d ctx code file).2 :=
  h.harvest hctx _ file

theorem generate (h : KeptByResolving inliner d P) (hctx : P ctx) (code : Text)
    (file : Option Path) : P (inliner.generate d ctx code file).2 := by
  have hinlined := h.inline hctx code file
  unfold Inliner.generate
  dsimp only
  split
  · exact hinlined
  · split <;> exact hinlined

theorem generateFile (h : KeptByResolving inliner d P) (hctx : P ctx) (path : Path) :
    P (inliner.generateFile d ctx path).2 := by
  unfold Inliner.generateFile
  split
  · exact hctx
  · exact h.generate hctx _ _

theorem perform (h : KeptByResolving inliner d P) (hctx : P ctx) (call : Call) :
    P (call.perform inliner d ctx).2 := by
  cases call with
  | resolveImport statement file => exact h.resolveImport hctx statement file
  | importContent statement file => exact h.importContent hctx statement file
  | inline code file => exact h.inline hctx code file
  | generate code file => exact h.generate hctx code file
  | generateFile path => exact h.generateFile hctx path

/-! ## Folders

The files of a folder are worked off one after the other, and each result is written before the next
file is read. -/

theorem generateInto (h : ∀ d, KeptByResolving inliner d P) (input output : Path)
    {state : Disk × Context × FolderReport} (hstate : P state.2.1) (name : Bytes) :
    P (inliner.generateInto input output state name).2.1 := by
  have hgenerated := (h state.1).generateFile hstate (input.join ⟨name⟩)
  unfold Inliner.generateInto
  dsimp only
  split
  · next hresult =>
    rw [hresult] at hgenerated
    exact hgenerated
  · next hresult =>
    rw [hresult] at hgenerated
    split <;> exact hgenerated

theorem foldl_generateInto (h : ∀ d, KeptByResolving inliner d P) (input output : Path)
    {state : Disk × Context × FolderReport} (hstate : P state.2.1) (names : List Bytes) :
    P (names.foldl (inliner.generateInto input output) state).2.1 := by
  induction names using List.reverseRecOn with
  | nil => exact hstate
  | append_singleton names name ih =>
    rw [List.foldl_append]
    exact generateInto h input output ih name

theorem generateFolder (h : ∀ d, KeptByResolving inliner d P) (hctx : P ctx) (d : Disk)
    (input output : Path) : P (inliner.generateFolder d ctx input output).2.1 := by
  unfold Inliner.generateFolder
  dsimp only
  split
  · exact hctx
  split
  · exact hctx
  · next d' _ =>
    have hstart : P (d', ctx, (⟨[], []⟩ : FolderReport)).2.1 := hctx
    exact foldl_generateInto h _ _ hstart _

end KeptByResolving

end TypeInliner
