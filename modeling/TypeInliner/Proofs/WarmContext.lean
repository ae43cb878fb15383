import TypeInliner.Proofs.SourceCoherence
import TypeInliner.Proofs.StatementAnswers

/-! # A warm context is invisible

Calls of an inliner share one context. On an unchanged disk, every call that is made after others,
whether they succeeded or failed, is answered as if it were the first one. -/

namespace TypeInliner

/-- What can be asked of an inliner. -/
inductive Call
  | resolveImport (statement : Text) (file : Option Path)
  | importContent (statement : Text) (file : Option Path)
  | inline (code : Text) (file : Option Path)
  | generate (code : Text) (file : Option Path)
  | generateFile (path : Path)

inductive Answer
  | keys (result : Except Failure (List Key))
  | content (text : Text)
  | inlined (result : InlinedSource)
  | generated (result : Except Failure Text)

variable [PatternCompiler]

/-- The answer to a call, and the context behind it. -/
def Call.perform (inliner : Inliner) (d : Disk) (ctx : Context) : Call → Answer × Context
  | resolveImport statement file =>
    let (result, ctx) := inliner.resolveImport d ctx statement file
    (.keys result, ctx)
  | importContent statement file =>
    let (text, ctx) := inliner.importContent d ctx statement file
    (.content text, ctx)
  | inline code file =>
    let (result, ctx) := inliner.inline d ctx code file
    (.inlined result, ctx)
  | generate code file =>
    let (result, ctx) := inliner.generate d ctx code file
    (.generated result, ctx)
  | generateFile path =>
    let (result, ctx) := inliner.generateFile d ctx path
    (.generated result, ctx)

/-- The context behind some calls, one after another. -/
def Call.performAll (inliner : Inliner) (d : Disk) (ctx : Context) (calls : List Call) : Context :=
  calls.foldl (fun ctx call => (call.perform inliner d ctx).2) ctx

variable {g : ReferenceGraph} {asked : Path → Prop} {inliner : Inliner} {d : Disk}

/-- What is made of a steady answer alone is steady. -/
theorem Steady.map {α β : Type} {operation : Context → α × Context}
    (h : Steady g asked operation) (f : α → β) :
    Steady g asked fun ctx => (f (operation ctx).1, (operation ctx).2) where
  answer hc := congrArg f (h.answer hc)
  complete := h.complete
  kept := h.kept

theorem Steady.congr {α : Type} {operation other : Context → α × Context}
    (h : Steady g asked other) (same : ∀ ctx, operation ctx = other ctx) :
    Steady g asked operation := by
  rwa [funext same]

namespace Inliner

theorem importContent_steady (hg : (inliner.graph d).Coherent asked) (statement : Text)
    (file : Option Path) : Steady (inliner.graph d) asked fun ctx =>
      inliner.importContent d ctx statement file := by
  have supplies := resolveText_supplies hg statement file
  have hempty := complete_empty (inliner.graph d) asked
  -- The text is rendered from the context, which holds what the answer speaks of.
  have hcontent : ∀ ctx, Complete (inliner.graph d) asked ctx →
      inliner.importContent d ctx statement file =
        ((inliner.graph d).render (needs (inliner.resolveImport d ctx statement file).1),
          (inliner.resolveImport d ctx statement file).2) := by
    intro ctx h
    have hcomplete := supplies.complete h
    have hheld : ∀ keys, (inliner.resolveImport d ctx statement file).1 = .ok keys →
        Held asked (inliner.resolveImport d ctx statement file).2 keys := fun _ => supplies.held h
    unfold importContent
    rcases hres : inliner.resolveImport d ctx statement file with ⟨result, after⟩
    simp only [hres] at hcomplete hheld
    cases result with
    | error failure => rfl
    | ok keys => simp only [hcomplete.toSound.render (hheld keys rfl), needs]
  refine ⟨?_, ?_, ?_⟩
  · intro ctx h
    rw [hcontent ctx h, hcontent .empty hempty]
    simp only [supplies.answer h]
  · intro ctx h
    rw [hcontent ctx h]
    exact supplies.complete h
  · intro ctx k h hk
    rw [hcontent ctx h]
    exact supplies.kept h hk

/-- What is emitted for an inlined source, below the imports that are left in place. -/
def emitInlined (inliner : Inliner) (inlined : InlinedSource) : Except Failure Text :=
  match inliner.emit inlined.source with
  | .error failure => .error failure
  | .ok emitted =>
    if inlined.preserved = [] then .ok emitted
    else .ok (Text.join ['\n'] inlined.preserved ++ "\n\n".toList ++ emitted)

theorem generate_steady (hg : (inliner.graph d).Coherent asked) (code : Text)
    (file : Option Path) : Steady (inliner.graph d) asked fun ctx =>
      inliner.generate d ctx code file := by
  apply ((inline_steady hg code file).map inliner.emitInlined).congr
  intro ctx
  simp only [generate, emitInlined]
  cases inliner.emit (inliner.inline d ctx code file).1.source with
  | error failure => rfl
  | ok emitted =>
    dsimp only
    split <;> rfl

theorem generateFile_steady (hg : (inliner.graph d).Coherent asked) (path : Path) :
    Steady (inliner.graph d) asked fun ctx => inliner.generateFile d ctx path := by
  cases hread : d.read path with
  | error fault =>
    apply (Steady.of_const (.error (.inaccessible path fault))).congr
    intro ctx
    simp only [generateFile, hread]
  | ok code =>
    apply (generate_steady hg code (some (path.normalize d.home))).congr
    intro ctx
    simp only [generateFile, hread]

end Inliner

/-- Every call is steady. -/
theorem Call.perform_steady (hg : (inliner.graph d).Coherent asked) (call : Call) :
    Steady (inliner.graph d) asked fun ctx => call.perform inliner d ctx := by
  cases call with
  | resolveImport statement file =>
    exact (Inliner.resolveText_supplies hg statement file).toSteady.map Answer.keys
  | importContent statement file =>
    exact (Inliner.importContent_steady hg statement file).map Answer.content
  | inline code file => exact (Inliner.inline_steady hg code file).map Answer.inlined
  | generate code file => exact (Inliner.generate_steady hg code file).map Answer.generated
  | generateFile path => exact (Inliner.generateFile_steady hg path).map Answer.generated

/-- Between calls a context is complete. -/
theorem Call.performAll_complete (hg : (inliner.graph d).Coherent asked) {ctx : Context}
    (h : Complete (inliner.graph d) asked ctx) (calls : List Call) :
    Complete (inliner.graph d) asked (Call.performAll inliner d ctx calls) := by
  induction calls generalizing ctx with
  | nil => exact h
  | cons call calls ih => exact ih ((call.perform_steady hg).complete h)

/-- After any calls of an inliner that reads declarations from files, every further call gets the
answer that it gets from an empty context. -/
theorem Call.answer_of_any_history (options : Options) (emit : Text → Except Failure Text)
    (d : Disk) (calls : List Call) (call : Call) :
    (call.perform ⟨options, .sources, emit⟩ d
        (performAll ⟨options, .sources, emit⟩ d .empty calls)).1 =
      (call.perform ⟨options, .sources, emit⟩ d .empty).1 := by
  have hg : ((⟨options, .sources, emit⟩ : Inliner).graph d).Coherent Path.IsFolded :=
    sources_coherent d options
  have hcomplete := performAll_complete hg (complete_empty _ _) calls
  exact (call.perform_steady hg).answer hcomplete

end TypeInliner
