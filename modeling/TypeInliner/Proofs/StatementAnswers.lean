import TypeInliner.Inliner
import TypeInliner.Proofs.ClosureExactness

/-! # What an import statement is answered

The answer to an import statement does not depend on what has been resolved before: every complete
context gives the answer of the empty one and becomes another complete context. What the statements
of a source need together is therefore put together from what each of them needs alone. -/

namespace TypeInliner

variable {g : ReferenceGraph} {asked : Path → Prop}

/-- Keys that are asked about and whose declarations a context holds. -/
def Held (asked : Path → Prop) (ctx : Context) (keys : List Key) : Prop :=
  ∀ key ∈ keys, asked key.file ∧ ctx.contains key = true

/-- The declarations of some keys with their texts. -/
def ReferenceGraph.declarations (g : ReferenceGraph) (keys : List Key) : List Declaration :=
  keys.filterMap fun key =>
    (g.declaration? key).map fun declaration => ⟨key.symbol, declaration.text⟩

/-- The texts of some declarations, in their order of mention. -/
def ReferenceGraph.render (g : ReferenceGraph) (keys : List Key) : Text :=
  Declaration.render (g.declarations keys)

theorem Sound.render {ctx : Context} (h : Sound g asked ctx) {keys : List Key}
    (held : Held asked ctx keys) : ctx.render keys = g.render keys := by
  unfold Context.render ReferenceGraph.render ReferenceGraph.declarations
  refine congrArg Declaration.render (List.filterMap_congr fun key hkey => ?_)
  obtain ⟨ha, hc⟩ := held key hkey
  rw [h.text_eq ha hc, Option.map_map]
  rfl

theorem Held.mono {ctx ctx' : Context} (h : Sound g asked ctx) (h' : Sound g asked ctx')
    (kept : ∀ {k : Key}, ctx.isResolved k = true → ctx'.isResolved k = true) {keys : List Key}
    (held : Held asked ctx keys) : Held asked ctx' keys := by
  intro key hkey
  obtain ⟨ha, hc⟩ := held key hkey
  have hr : ctx.isResolved key = true := ctx.isResolved_iff.mpr (Or.inl hc)
  rw [h.contains_eq_isWritten ha (Or.inl hr)] at hc
  rw [h'.contains_eq_isWritten ha (Or.inl (kept hr))]
  exact ⟨ha, hc⟩

variable [PatternCompiler]

/-- An operation that completes what it begins, and whose answer does not depend on what has been
resolved before. -/
structure Steady (g : ReferenceGraph) (asked : Path → Prop) {α : Type}
    (operation : Context → α × Context) : Prop where
  answer {ctx : Context} : Complete g asked ctx → (operation ctx).1 = (operation .empty).1
  complete {ctx : Context} : Complete g asked ctx → Complete g asked (operation ctx).2
  kept {ctx : Context} {k : Key} : Complete g asked ctx → ctx.isResolved k = true →
    (operation ctx).2.isResolved k = true

/-- An operation that says what it is given. -/
theorem Steady.of_const {α : Type} (answer : α) : Steady g asked fun ctx => (answer, ctx) where
  answer := fun _ => rfl
  complete := id
  kept := fun _ => id

/-- A steady operation that answers keys, which the context holds afterwards. -/
structure Supplies (g : ReferenceGraph) (asked : Path → Prop)
    (operation : Context → Except Failure (List Key) × Context) : Prop
    extends Steady g asked operation where
  held {ctx : Context} {keys : List Key} : Complete g asked ctx →
    (operation ctx).1 = .ok keys → Held asked (operation ctx).2 keys

theorem Supplies.of_const (answer : Except Failure (List Key))
    (h : ∀ keys, answer = .ok keys → keys = []) :
    Supplies g asked fun ctx => (answer, ctx) where
  toSteady := .of_const answer
  held := by
    intro ctx keys _ hk
    rw [h keys hk]
    simp [Held]

theorem Supplies.congr {operation other : Context → Except Failure (List Key) × Context}
    (h : Supplies g asked other)
    (same : ∀ ctx, Complete g asked ctx → operation ctx = other ctx) :
    Supplies g asked operation where
  answer hc := by rw [same _ hc, same _ (complete_empty g asked), h.answer hc]
  complete hc := by rw [same _ hc]; exact h.complete hc
  kept hc hk := by rw [same _ hc]; exact h.kept hc hk
  held hc hk := by
    rw [same _ hc] at hk ⊢
    exact h.held hc hk

/-- Going on in the context with the dependencies of the project. -/
theorem Supplies.after_loading {operation : Context → Except Failure (List Key) × Context}
    (h : Supplies g asked operation) :
    Supplies g asked fun ctx => operation (ctx.loadDependencies g.disk g.options.root) where
  answer hc := by
    rw [h.answer hc.loadDependencies, h.answer (complete_empty g asked).loadDependencies]
  complete hc := h.complete hc.loadDependencies
  kept hc hk := h.kept hc.loadDependencies (by simpa using hk)
  held hc hk := h.held hc.loadDependencies hk

theorem resolveImport_supplies (hg : g.Coherent asked) {file : Path} (ha : asked file)
    (spec : ImportSpec) : Supplies g asked fun ctx =>
      Closure.resolveImport g.introspector g.disk g.options ctx spec file := by
  cases spec with
  | default name source => exact .of_const _ (by simp)
  | whole name source => exact .of_const _ (by simp)
  | named items specifier =>
    have hempty := complete_empty g asked
    refine ⟨⟨?_, ?_, ?_⟩, ?_⟩
    · intro ctx h
      obtain ⟨order, after, hresult, hwalk⟩ := resolveImport_named hg ha h items specifier
      obtain ⟨order', after', hresult', hwalk'⟩ := resolveImport_named hg ha hempty items specifier
      rw [hresult, hresult', hwalk.walk.unique hwalk'.walk]
    · intro ctx h
      obtain ⟨order, after, hresult, hwalk⟩ := resolveImport_named hg ha h items specifier
      rw [hresult]
      exact hwalk.complete
    · intro ctx k h hk
      obtain ⟨order, after, hresult, hwalk⟩ := resolveImport_named hg ha h items specifier
      rw [hresult]
      exact hwalk.kept hk
    · intro ctx keys h hkeys
      obtain ⟨order, after, hresult, hwalk⟩ := resolveImport_named hg ha h items specifier
      rw [hresult] at hkeys ⊢
      obtain rfl := Except.ok.inj hkeys
      intro key hkey
      have hmem := (List.mem_filter.mp hkey).1
      rw [← hwalk.filter_contains hg] at hkey
      exact ⟨hwalk.walk.among_found (ReferenceGraph.enclosed hg) hwalk.asks key hmem,
        (List.mem_filter.mp hkey).2⟩

namespace Inliner

variable {inliner : Inliner} {d : Disk}

/-- The graph from which an inliner takes declarations. -/
def graph (inliner : Inliner) (d : Disk) : ReferenceGraph :=
  ⟨inliner.introspector, d, inliner.options⟩

theorem resolveSpec_supplies (hg : (inliner.graph d).Coherent asked) (spec : ImportSpec)
    (file : Option Path) : Supplies (inliner.graph d) asked fun ctx =>
      inliner.resolveSpec d ctx spec file := by
  have hsource := fun ctx (h : Complete (inliner.graph d) asked ctx) =>
    h.current.resolveSource spec.source file
  simp only [graph] at hsource
  cases hr : (Resolution.resolveSource d inliner.options .empty spec.source file).1 with
  | error failure =>
    refine .congr (.after_loading (.of_const (.error failure) (by simp))) ?_
    intro ctx h
    simp only [resolveSpec, hsource ctx h, hr, graph]
  | ok source =>
    cases source with
    | none =>
      refine .congr (.after_loading (.of_const (.ok []) (by simp))) ?_
      intro ctx h
      simp only [resolveSpec, hsource ctx h, hr, graph]
    | some target =>
      obtain ⟨p, rfl⟩ := ReferenceGraph.resolveSource_locates hr
      refine .congr (.after_loading (resolveImport_supplies hg (hg.located p) spec)) ?_
      intro ctx h
      simp only [resolveSpec, hsource ctx h, hr, graph]

theorem resolveText_supplies (hg : (inliner.graph d).Coherent asked) (statement : Text)
    (file : Option Path) : Supplies (inliner.graph d) asked fun ctx =>
      inliner.resolveImport d ctx statement file := by
  cases hspec : ImportSpec.ofText statement with
  | error e =>
    refine .congr (.of_const (.error (.malformedImport e)) (by simp)) fun ctx _ => ?_
    simp only [resolveImport, hspec]
  | ok spec =>
    refine .congr (resolveSpec_supplies hg spec file) fun ctx _ => ?_
    simp only [resolveImport, hspec]

theorem resolveStatement_supplies (hg : (inliner.graph d).Coherent asked) (file : Option Path)
    (s : ImportStatement) : Supplies (inliner.graph d) asked fun ctx =>
      inliner.resolveStatement d file ctx s := by
  cases hspec : s.outcome with
  | error e =>
    refine .congr (.of_const (.error (.malformedImport e)) (by simp)) fun ctx _ => ?_
    simp only [resolveStatement, hspec]
  | ok spec =>
    refine .congr (resolveSpec_supplies hg spec file) fun ctx _ => ?_
    simp only [resolveStatement, hspec]

/-! ## All statements of a source -/

/-- The keys of an answer; none if it is a failure. -/
def needs : Except Failure (List Key) → List Key
  | .ok keys => keys
  | .error _ => []

/-- The keys that a statement is answered on its own. -/
def foundAlone (inliner : Inliner) (d : Disk) (file : Option Path) (s : ImportStatement) :
    List Key :=
  needs (inliner.resolveStatement d file .empty s).1

/-- The lines that rename what a statement finds on its own. -/
def renamesAlone (inliner : Inliner) (d : Disk) (file : Option Path) (s : ImportStatement) :
    List Text :=
  match s.outcome with
  | .ok spec => renameLines spec (inliner.foundAlone d file s)
  | .error _ => []

/-- What statements need, put together from what each of them needs alone. -/
def harvestAlone (inliner : Inliner) (d : Disk) (file : Option Path)
    (statements : List ImportStatement) : Harvest where
  keys := addNew [] (statements.flatMap (inliner.foundAlone d file))
  renames := addNew [] (statements.flatMap (inliner.renamesAlone d file))
  preserved := (statements.filter fun s => inliner.foundAlone d file s = []).map (·.text)

/-- A context after statements have been worked off, with what has been collected from them. -/
structure Harvested (inliner : Inliner) (d : Disk) (asked : Path → Prop) (file : Option Path)
    (start : Context) (statements : List ImportStatement) (state : Context × Harvest) : Prop where
  complete : Complete (inliner.graph d) asked state.1
  kept {k : Key} : start.isResolved k = true → state.1.isResolved k = true
  collected : state.2 = inliner.harvestAlone d file statements
  held : Held asked state.1 state.2.keys

/-- A statement that finds nothing renames nothing. -/
theorem renamesAlone_of_foundAlone {file : Option Path} {s : ImportStatement}
    (h : inliner.foundAlone d file s = []) : inliner.renamesAlone d file s = [] := by
  unfold renamesAlone
  split
  · simp [renameLines, h]
  · rfl

/-- A statement that finds something adds its keys and its lines. -/
private theorem harvestAlone_append_of_found {file : Option Path} {s : ImportStatement}
    (statements : List ImportStatement) (h : inliner.foundAlone d file s ≠ []) :
    inliner.harvestAlone d file (statements ++ [s]) =
      { inliner.harvestAlone d file statements with
        keys := addNew (inliner.harvestAlone d file statements).keys (inliner.foundAlone d file s)
        renames := addNew (inliner.harvestAlone d file statements).renames
          (inliner.renamesAlone d file s) } := by
  simp [harvestAlone, addNew_append, h]

/-- A statement that finds nothing is put aside. -/
private theorem harvestAlone_append_of_not_found {file : Option Path} {s : ImportStatement}
    (statements : List ImportStatement) (h : inliner.foundAlone d file s = []) :
    inliner.harvestAlone d file (statements ++ [s]) =
      { inliner.harvestAlone d file statements with
        preserved := (inliner.harvestAlone d file statements).preserved ++ [s.text] } := by
  simp [harvestAlone, h, renamesAlone_of_foundAlone h]

/-- One more statement adds what it needs alone. -/
theorem Harvested.gather (hg : (inliner.graph d).Coherent asked) {file : Option Path}
    {start : Context} {statements : List ImportStatement} {state : Context × Harvest}
    (h : Harvested inliner d asked file start statements state) (s : ImportStatement) :
    Harvested inliner d asked file start (statements ++ [s]) (inliner.gather d file state s) := by
  obtain ⟨ctx, harvest⟩ := state
  obtain ⟨complete, kept, collected, held⟩ := h
  dsimp only at complete kept collected held
  have supplies := resolveStatement_supplies hg file s
  have hanswer := supplies.answer complete
  have hcomplete := supplies.complete complete
  have hkept := fun {k : Key} => supplies.kept (k := k) complete
  have hheld : ∀ keys, (inliner.resolveStatement d file ctx s).1 = .ok keys →
      Held asked (inliner.resolveStatement d file ctx s).2 keys := fun _ => supplies.held complete
  rcases hres : inliner.resolveStatement d file ctx s with ⟨result, after⟩
  simp only [hres] at hanswer hcomplete hkept hheld
  have hold := held.mono complete.toSound hcomplete.toSound hkept
  have aside : inliner.foundAlone d file s = [] →
      Harvested inliner d asked file start (statements ++ [s])
        (after, { harvest with preserved := harvest.preserved ++ [s.text] }) := by
    intro hnone
    refine ⟨hcomplete, fun hk => hkept (kept hk), ?_, hold⟩
    rw [harvestAlone_append_of_not_found statements hnone, ← collected]
  cases result with
  | error failure =>
    simp only [Inliner.gather, hres]
    exact aside (by simp only [foundAlone, ← hanswer, needs])
  | ok keys =>
    cases keys with
    | nil =>
      simp only [Inliner.gather, hres]
      exact aside (by simp only [foundAlone, ← hanswer, needs])
    | cons key keys =>
      have hfound : inliner.foundAlone d file s = key :: keys := by
        simp only [foundAlone, ← hanswer, needs]
      simp only [Inliner.gather, hres]
      refine ⟨hcomplete, fun hk => hkept (kept hk), ?_, ?_⟩
      · rw [harvestAlone_append_of_found statements (by simp [hfound]), ← collected]
        cases hspec : s.outcome <;> simp [renamesAlone, hfound, hspec]
      · intro k hk
        rcases mem_addNew hk with hk | hk
        · exact hold k hk
        · exact hheld _ rfl k hk

theorem harvest_harvested (hg : (inliner.graph d).Coherent asked) (file : Option Path)
    {ctx : Context} (h : Complete (inliner.graph d) asked ctx) (statements : List ImportStatement) :
    Harvested inliner d asked file ctx statements (inliner.harvest d ctx statements file) := by
  unfold harvest
  induction statements using List.reverseRecOn with
  | nil => exact ⟨h, id, rfl, by simp [Held]⟩
  | append_singleton statements s ih =>
    rw [List.foldl_append]
    exact ih.gather hg s

/-- Inlining puts the declarations that the statements need, each of them alone, above what remains
of the source. -/
theorem inline_eq (hg : (inliner.graph d).Coherent asked) {ctx : Context}
    (h : Complete (inliner.graph d) asked ctx) (code : Text) (file : Option Path) :
    let pieces := ImportStatement.pieces (Token.ofText code)
    let alone := inliner.harvestAlone d file (ImportStatement.ofText code)
    (inliner.inline d ctx code file).1 =
      ⟨putAbove (block ((inliner.graph d).render alone.keys) alone.renames)
        (ImportStatement.remainder pieces), alone.preserved⟩ := by
  have harvested := harvest_harvested hg file h (ImportStatement.ofText code)
  have hrender := harvested.complete.toSound.render harvested.held
  rw [harvested.collected] at hrender
  simp only [ImportStatement.ofText, ImportStatement.ofTokens] at harvested hrender ⊢
  simp only [inline, harvested.collected, hrender]

theorem inline_steady (hg : (inliner.graph d).Coherent asked) (code : Text) (file : Option Path) :
    Steady (inliner.graph d) asked fun ctx => inliner.inline d ctx code file where
  answer h := by
    have hwarm := inline_eq hg h code file
    have hcold := inline_eq hg (complete_empty _ asked) code file
    exact hwarm.trans hcold.symm
  complete h := (harvest_harvested hg file h (ImportStatement.ofText code)).complete
  kept h := (harvest_harvested hg file h (ImportStatement.ofText code)).kept

end Inliner

end TypeInliner
