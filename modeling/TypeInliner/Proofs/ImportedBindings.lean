import TypeInliner.Proofs.ForwardedKeys
import TypeInliner.Proofs.CallInvariants

/-! # Imported bindings that are offered are kept

A statement is dropped when anything at all is found for it. Its items are then not all found: one
that its file does not offer is passed over. Every item that is offered, or is resolved already, is
found, and gets its line if it is imported under another name. -/

namespace TypeInliner

/-- A key whose declaration can be found: it is resolved, or the introspector knows it. -/
def Offered (introspector : Introspector) (d : Disk) (ctx : Context) (key : Key) : Prop :=
  ctx.isResolved key = true ∨ (introspector.declaration? d key.file key.symbol).isSome = true

/-- Some keys have the declaration of a key: its own, or the one that it forwards to. -/
def FoundAmong (ctx : Context) (keys : List Key) (key : Key) : Prop :=
  ∃ k, LeadsTo ctx key k ∧ keys.contains k = true

theorem FoundAmong.mono {ctx ctx' : Context} {keys keys' : List Key} {key : Key}
    (h : FoundAmong ctx keys key) (develops : Develops ctx ctx')
    (more : ∀ k, keys.contains k = true → keys'.contains k = true) : FoundAmong ctx' keys' key := by
  obtain ⟨k, hk, hmem⟩ := h
  exact ⟨k, develops.leadsTo hk, more k hmem⟩

/-! ## The items of one import -/

/-- The closure of a key has the declaration that the key leads to. -/
theorem closure_contains {ctx : Context} {key k : Key} (h : LeadsTo ctx key k) :
    (ctx.closure key).contains k = true := by
  have enclosed : Enclosed ctx.dependencies fun _ => True :=
    ⟨fun _ _ => trivial, fun _ _ hsame => ctx.dependencies_congr hsame⟩
  have hpath : Relation.ReflTransGen (fun a b => b ∈ ctx.dependencies a) key k :=
    Relation.ReflTransGen.mono (fun a _ hb => ctx.forwards_subset a hb) _ _ h.path
  exact ((ctx.closure_depthFirst key).contains_iff_reaches enclosed (by simp) k).mpr
    ⟨key, List.mem_singleton_self key, k, hpath, BEq.rfl⟩

/-- The closure of a key that is not resolved is the key alone. -/
theorem mem_closure_of_unresolved {ctx : Context} (h : Anchored ctx) {key k : Key}
    (hr : ctx.isResolved key = false) (hk : k ∈ ctx.closure key) : k = key := by
  rcases (ctx.closure_depthFirst key).reached k hk with hnone | ⟨a, ha, hpath⟩
  · simp at hnone
  · rw [List.mem_singleton.mp ha] at hpath
    rcases Relation.ReflTransGen.cases_head hpath with rfl | ⟨b, hb, _⟩
    · rfl
    · rw [h.loose hr] at hb
      simp at hb

variable {introspector : Introspector} {d : Disk} {options : Options} {file : Path}

/-- Some items of an import have been resolved, and what they lead to has been collected. -/
structure Collected (introspector : Introspector) (d : Disk) (file : Path) (start : Context)
    (passed : List NamedImport) (state : Context × List Key) : Prop where
  develops : Develops start state.1
  found : ∀ item ∈ passed, Offered introspector d start (item.key file) →
    FoundAmong state.1 state.2 (item.key file)
  origin : ∀ k ∈ state.2, ∃ item ∈ passed,
    k = item.key file ∨ FoundAmong state.1 state.2 (item.key file)

section

variable [PatternCompiler]

/-- One more item is resolved. -/
theorem Collected.item (hpos : 0 < introspector.bound d) {start : Context}
    {passed : List NamedImport} {state : Context × List Key}
    (h : Collected introspector d file start passed state) (item : NamedImport) :
    let ctx := Closure.resolve introspector d options state.1 (item.key file)
    Collected introspector d file start (passed ++ [item])
      (ctx, addNew state.2 (ctx.closure (item.key file))) := by
  intro ctx
  obtain ⟨hstep, hresolves⟩ := resolveWithin_develops d options introspector
    (introspector.bound d) state.1 (item.key file) h.develops.anchored
  have hmore : ∀ k, state.2.contains k = true →
      (addNew state.2 (ctx.closure (item.key file))).contains k = true := by
    intro k hk
    rw [contains_addNew, hk, Bool.true_or]
  have hnew : ctx.isResolved (item.key file) = true →
      FoundAmong ctx (addNew state.2 (ctx.closure (item.key file))) (item.key file) := by
    intro hr
    obtain ⟨k, hk⟩ := hstep.anchored.leads hr
    have hmem : (ctx.closure (item.key file)).contains k = true := closure_contains hk
    exact ⟨k, hk, by rw [contains_addNew, hmem, Bool.or_true]⟩
  refine ⟨h.develops.trans hstep, ?_, ?_⟩
  · intro other hother hoffered
    rcases List.mem_append.mp hother with hother | hother
    · exact (h.found other hother hoffered).mono hstep hmore
    · obtain rfl := List.mem_singleton.mp hother
      apply hnew
      rcases hoffered with hr | hsome
      · exact hstep.resolved (h.develops.resolved hr)
      · exact hresolves hpos hsome
  · intro k hk
    rcases mem_addNew hk with hk | hk
    · obtain ⟨other, hother, horigin⟩ := h.origin k hk
      refine ⟨other, List.mem_append_left _ hother, horigin.imp_right fun hfound => ?_⟩
      exact hfound.mono hstep hmore
    · refine ⟨item, List.mem_append_right _ (List.mem_singleton_self item), ?_⟩
      cases hr : ctx.isResolved (item.key file) with
      | true => exact Or.inr (hnew hr)
      | false => exact Or.inl (mem_closure_of_unresolved hstep.anchored hr hk)

theorem resolveItems_collected (options : Options) (file : Path)
    (hpos : 0 < introspector.bound d) {ctx : Context} (h : Anchored ctx)
    (items : List NamedImport) : Collected introspector d file ctx items
      (Closure.resolveItems introspector d options file ctx items) := by
  unfold Closure.resolveItems
  induction items using List.reverseRecOn with
  | nil => exact ⟨.refl h, by simp, by simp⟩
  | append_singleton items item ih =>
    rw [List.foldl_append]
    exact ih.item hpos item

end

/-- For the items of an import from a file, what is offered has been found, and something has. -/
structure Served (introspector : Introspector) (d : Disk) (file : Path) (start : Context)
    (items : List NamedImport) (ctx : Context) (keys : List Key) : Prop where
  found : ∀ item ∈ items, Offered introspector d start (item.key file) →
    FoundAmong ctx keys (item.key file)
  some : ∃ item ∈ items, FoundAmong ctx keys (item.key file)

theorem Served.mono {start ctx ctx' : Context} {items : List NamedImport} {keys keys' : List Key}
    (h : Served introspector d file start items ctx keys) (develops : Develops ctx ctx')
    (more : ∀ k, keys.contains k = true → keys'.contains k = true) :
    Served introspector d file start items ctx' keys' where
  found item hitem hoffered := (h.found item hitem hoffered).mono develops more
  some := by
    obtain ⟨item, hitem, hfound⟩ := h.some
    exact ⟨item, hitem, hfound.mono develops more⟩

/-- The stored ones of some keys have the declarations that they have together. -/
theorem FoundAmong.filter {ctx : Context} {keys : List Key} {key : Key}
    (h : FoundAmong ctx keys key) : FoundAmong ctx (keys.filter ctx.contains) key := by
  obtain ⟨k, hk, hmem⟩ := h
  obtain ⟨c, hc, hkc⟩ := List.contains_iff_exists_mem_beq.mp hmem
  have hstored : ctx.contains c = true := by rw [← ctx.contains_congr hkc, hk.stored]
  exact ⟨k, hk, List.contains_iff_exists_mem_beq.mpr ⟨c, List.mem_filter.mpr ⟨hc, hstored⟩, hkc⟩⟩

/-- A named import that finds anything serves its items. -/
theorem Collected.served {start : Context} {items : List NamedImport} {state : Context × List Key}
    (h : Collected introspector d file start items state)
    (hne : state.2.filter state.1.contains ≠ []) :
    Served introspector d file start items state.1 (state.2.filter state.1.contains) where
  found item hitem hoffered := (h.found item hitem hoffered).filter
  some := by
    obtain ⟨k, hk⟩ := List.exists_mem_of_ne_nil _ hne
    obtain ⟨hmem, hstored⟩ := List.mem_filter.mp hk
    obtain ⟨item, hitem, rfl | hfound⟩ := h.origin k hmem
    · exact ⟨item, hitem, item.key file, ⟨.refl, hstored, rfl⟩, contains_of_mem hk⟩
    · exact ⟨item, hitem, hfound.filter⟩

/-! ## The statements of a source -/

namespace Inliner

/-- What has been collected from statements is kept while further ones are worked off. -/
structure Continues (state state' : Context × Harvest) : Prop where
  develops : Develops state.1 state'.1
  keys (k : Key) : state.2.keys.contains k = true → state'.2.keys.contains k = true
  renames : state.2.renames ⊆ state'.2.renames

theorem Continues.trans {state state' state'' : Context × Harvest} (h : Continues state state')
    (h' : Continues state' state'') : Continues state state'' where
  develops := h.develops.trans h'.develops
  keys k hk := h'.keys k (h.keys k hk)
  renames := List.Subset.trans h.renames h'.renames

/-- The line of a renamed item that has been found is among the lines of its statement. -/
theorem renameLine_mem {ctx : Context} {found : List Key} {target : Path} {items : List NamedImport}
    {item : NamedImport} (specifier : Text) (hitem : item ∈ items)
    (h : FoundAmong ctx found (item.key target)) (hname : item.localName ≠ item.content) :
    renameLine item ∈ renameLines (.named items specifier) found := by
  obtain ⟨k, hk, hmem⟩ := h
  obtain ⟨c, hc, hkc⟩ := List.contains_iff_exists_mem_beq.mp hmem
  have hsymbol : c.symbol = item.content := by
    rw [← (Key.beq_iff.mp hkc).1]
    exact hk.symbol
  refine List.mem_map_of_mem (List.mem_filter.mpr ⟨hitem, ?_⟩)
  have hany : found.any (·.symbol = item.content) = true :=
    List.any_eq_true.mpr ⟨c, hc, by simpa using hsymbol⟩
  rw [hany, Bool.and_true]
  exact decide_eq_true hname

section

variable [PatternCompiler] {inliner : Inliner}

/-- Whatever an inliner does to a context develops the context. -/
theorem keptByResolving_develops (inliner : Inliner) (d : Disk) (start : Context) :
    KeptByResolving inliner d (Develops start) where
  load h := h.trans (h.anchored.loadDependencies d inliner.options.root)
  resolve key h := h.trans (resolveWithin_develops d inliner.options inliner.introspector
    (inliner.introspector.bound d) _ key h.anchored).1

/-- A statement that finds anything is a named import of a file, and serves its items. -/
theorem resolveSpec_served {ctx after : Context} (h : Anchored ctx)
    (hpos : 0 < inliner.introspector.bound d) {spec : ImportSpec} {file : Option Path}
    {found : List Key} (hresult : inliner.resolveSpec d ctx spec file = (.ok found, after))
    (hne : found ≠ []) : ∃ items specifier target, spec = .named items specifier ∧
      (Resolution.resolveSource d inliner.options ctx specifier file).1 = .ok (some target) ∧
      Served inliner.introspector d target ctx items after found := by
  have hloaded := h.loadDependencies d inliner.options.root
  have hcontext := ReferenceGraph.resolveSource_context d inliner.options ctx spec.source file
  unfold resolveSpec at hresult
  split at hresult
  · simp at hresult
  · obtain ⟨hnone, _⟩ := Prod.mk.inj hresult
    exact absurd (Except.ok.inj hnone).symm hne
  · next target start hsource =>
    rw [hsource] at hcontext
    obtain rfl : start = ctx.loadDependencies d inliner.options.root := hcontext
    unfold Closure.resolveImport at hresult
    split at hresult
    · next items specifier =>
      have hcollected := resolveItems_collected inliner.options target hpos hloaded.anchored items
      obtain ⟨hfound, rfl⟩ := Prod.mk.inj hresult
      obtain rfl := Except.ok.inj hfound
      obtain ⟨hserved, hsome⟩ := hcollected.served hne
      refine ⟨items, specifier, target, rfl, congrArg Prod.fst hsource, ?_, hsome⟩
      intro item hitem hoffered
      refine hserved item hitem (hoffered.imp_left fun hr => ?_)
      rw [ctx.isResolved_loadDependencies, hr]
    · simp at hresult

theorem gather_continues (inliner : Inliner) (d : Disk) (file : Option Path)
    {state : Context × Harvest} (h : Anchored state.1) (s : ImportStatement) :
    Continues state (inliner.gather d file state s) := by
  have hdevelops := (keptByResolving_develops inliner d state.1).gather file (.refl h) s
  refine ⟨hdevelops, ?_, ?_⟩ <;> unfold gather <;> dsimp only <;> split
  · intro k hk
    rw [contains_addNew, hk, Bool.true_or]
  · exact fun _ => id
  · exact (prefix_addNew _ _).subset
  · exact List.Subset.refl _

theorem foldl_gather_continues (inliner : Inliner) (d : Disk) (file : Option Path)
    (state : Context × Harvest) (h : Anchored state.1) (statements : List ImportStatement) :
    Continues state (statements.foldl (inliner.gather d file) state) := by
  induction statements generalizing state with
  | nil => exact ⟨.refl h, fun _ => id, List.Subset.refl _⟩
  | cons s statements ih =>
    have hfirst := gather_continues inliner d file h s
    exact hfirst.trans (ih _ hfirst.develops.anchored)

theorem harvest_continues (inliner : Inliner) (d : Disk) (file : Option Path) {ctx : Context}
    (h : Anchored ctx) (statements : List ImportStatement) :
    Continues (ctx, ⟨[], [], []⟩) (inliner.harvest d ctx statements file) :=
  foldl_gather_continues inliner d file (ctx, ⟨[], [], []⟩) h statements

/-- A statement that is not put aside is a named import of a file. What its items are offered is
collected, with the lines for those that get another name. -/
theorem gather_served (hpos : 0 < inliner.introspector.bound d) {file : Option Path}
    {state : Context × Harvest} (h : Anchored state.1) {s : ImportStatement}
    (hkept : (inliner.gather d file state s).2.preserved = state.2.preserved) :
    ∃ items specifier target, s.outcome = .ok (.named items specifier) ∧
      (Resolution.resolveSource d inliner.options state.1 specifier file).1 = .ok (some target) ∧
      Served inliner.introspector d target state.1 items (inliner.gather d file state s).1
        (inliner.gather d file state s).2.keys ∧
      ∀ item ∈ items, Offered inliner.introspector d state.1 (item.key target) →
        item.localName ≠ item.content →
          renameLine item ∈ (inliner.gather d file state s).2.renames := by
  obtain ⟨ctx, harvest⟩ := state
  cases houtcome : s.outcome with
  | error e => simp [gather, resolveStatement, houtcome] at hkept
  | ok spec =>
    rcases hresult : inliner.resolveSpec d ctx spec file with ⟨result, after⟩
    cases result with
    | error failure => simp [gather, resolveStatement, houtcome, hresult] at hkept
    | ok found =>
      cases found with
      | nil => simp [gather, resolveStatement, houtcome, hresult] at hkept
      | cons key keys =>
        obtain ⟨items, specifier, target, rfl, hsource, hserved⟩ :=
          resolveSpec_served h hpos hresult (by simp)
        have hgather : inliner.gather d file (ctx, harvest) s = (after, { harvest with
            keys := addNew harvest.keys (key :: keys)
            renames := addNew harvest.renames
              (renameLines (.named items specifier) (key :: keys)) }) := by
          simp only [gather, resolveStatement, houtcome, hresult]
        rw [hgather]
        refine ⟨items, specifier, target, rfl, hsource, ?_, ?_⟩
        · refine hserved.mono (.refl ?_) fun k hk => by rw [contains_addNew, hk, Bool.or_true]
          have hdevelops := (keptByResolving_develops inliner d ctx).resolveSpec (.refl h)
            (.named items specifier) file
          rw [hresult] at hdevelops
          exact hdevelops.anchored
        · intro item hitem hoffered hname
          have hline := renameLine_mem specifier hitem (hserved.found item hitem hoffered) hname
          have hmem : (addNew harvest.renames (renameLines (.named items specifier)
              (key :: keys))).contains (renameLine item) = true := by
            rw [contains_addNew, contains_of_mem hline, Bool.or_true]
          exact List.contains_iff_mem.mp hmem

/-! ## The contexts of an inliner -/

/-- The contexts that the calls of an inliner leave behind. The files may change from one call to
the next. -/
inductive Reachable (inliner : Inliner) : Context → Prop
  | empty : Reachable inliner .empty
  | call {ctx : Context} (h : Reachable inliner ctx) (d : Disk) (call : Call) :
      Reachable inliner (call.perform inliner d ctx).2
  | folder {ctx : Context} (h : Reachable inliner ctx) (d : Disk) (input output : Path) :
      Reachable inliner (inliner.generateFolder d ctx input output).2.1

/-- Between calls every resolved key leads to a stored declaration. -/
theorem Reachable.anchored {ctx : Context} (h : inliner.Reachable ctx) : Anchored ctx := by
  induction h with
  | empty => exact anchored_empty
  | @call ctx _ d call ih =>
    exact ((keptByResolving_develops inliner d ctx).perform (.refl ih) call).anchored
  | @folder ctx _ d input output ih =>
    have hkept (d : Disk) := keptByResolving_develops inliner d ctx
    exact (KeptByResolving.generateFolder hkept (.refl ih) d input output).anchored

/-- A statement that inlining neither keeps nor puts aside is a named import of a file, of which at
least one item has been found. Each of its items whose declaration is cached or offered by the file
has its declaration, or the one it is forwarded to, among those whose texts make up the block, and
if it is imported under another name, the block has the line that says so. -/
theorem offered_bindings_are_kept (options : Options) (emit : Text → Except Failure Text)
    {ctx : Context} (hctx : Reachable ⟨options, .sources, emit⟩ ctx) (d : Disk) (code : Text)
    (file : Option Path) {before after : List ImportStatement} {s : ImportStatement}
    (hs : ImportStatement.ofText code = before ++ s :: after)
    (hkept : (harvest ⟨options, .sources, emit⟩ d ctx (before ++ [s]) file).2.preserved =
      (harvest ⟨options, .sources, emit⟩ d ctx before file).2.preserved) :
    let inliner : Inliner := ⟨options, .sources, emit⟩
    let start := (inliner.harvest d ctx before file).1
    let collected := (inliner.harvest d ctx (ImportStatement.ofText code) file).2
    let (inlined, last) := inliner.inline d ctx code file
    let declarations : List Declaration := collected.keys.filterMap fun key =>
      (last.text? key).map fun text => ⟨key.symbol, text⟩
    let texts := ((Declaration.order declarations).map (·.text)).filter (· ≠ [])
    let above := Text.join ['\n'] (texts ++ collected.renames)
    let remaining := ImportStatement.remainder (ImportStatement.pieces (Token.ofText code))
    inlined = ⟨if above = [] then remaining else above ++ '\n' :: remaining,
        collected.preserved⟩ ∧
      ∃ items specifier target, s.outcome = .ok (.named items specifier) ∧
        (Resolution.resolveSource d options start specifier file).1 = .ok (some target) ∧
        (∃ item ∈ items, FoundAmong last collected.keys (item.key target)) ∧
        ∀ item ∈ items, Offered .sources d start (item.key target) →
          FoundAmong last collected.keys (item.key target) ∧
            (item.localName ≠ item.content →
              "type ".toList ++ item.localName ++ " = ".toList ++ item.content ++ ";".toList ∈
                collected.renames) := by
  intro inliner start collected
  have hpow (n : Nat) : 0 < Nat.pow 2 n := Nat.two_pow_pos n
  have hpos : ∀ d, 0 < inliner.introspector.bound d := fun _ =>
    Nat.mul_pos (hpow _) (Nat.succ_pos _)
  refine ⟨inline_fst_eq inliner d ctx code file, ?_⟩
  have hstart := harvest_continues inliner d file hctx.anchored before
  have hsplit : inliner.harvest d ctx (before ++ [s]) file =
      inliner.gather d file (inliner.harvest d ctx before file) s := by
    simp only [harvest, List.foldl_append, List.foldl_cons, List.foldl_nil]
  rw [hsplit] at hkept
  obtain ⟨items, specifier, target, houtcome, hsource, hserved, hlines⟩ :=
    gather_served (hpos d) hstart.develops.anchored hkept
  have hnext := gather_continues inliner d file hstart.develops.anchored s
  have hrest := foldl_gather_continues inliner d file _ hnext.develops.anchored after
  have hlast : inliner.harvest d ctx (ImportStatement.ofText code) file =
      after.foldl (inliner.gather d file)
        (inliner.gather d file (inliner.harvest d ctx before file) s) := by
    rw [hs]
    simp only [harvest, List.foldl_append, List.foldl_cons]
  have hall := hserved.mono hrest.develops hrest.keys
  have hrenames := hrest.renames
  rw [← hlast] at hall hrenames
  refine ⟨items, specifier, target, houtcome, hsource, hall.some, fun item hitem hoffered => ?_⟩
  refine ⟨hall.found item hitem hoffered, fun hname => hrenames ?_⟩
  exact hlines item hitem hoffered hname

end

/-- A project with one file, which declares `A` only. -/
def smallDisk : Disk :=
  ⟨.ofNames ["p"], [(.ofNames ["p"], .folder),
    (.ofNames ["p", "a.ts"], .file (some "export type A = 1;".toList))]⟩

/-- An inliner for the project. -/
def smallInliner : Inliner := .ofOptions ⟨.ofString "/p", true, none⟩

/-- The importing file. -/
def smallFile : Option Path := some (.ofString "/p/main.ts")

/-- Imports `A` under another name, and a type that is not declared. -/
def smallCode : Text := "import \x7b A as B, Nope \x7d from './a'\nlet x: B;".toList

open scoped PatternCompiler

/-- The statement of the source, what of it is handed back, and the file that it means. -/
theorem smallCode_evaluates :
    (ImportStatement.ofText smallCode).map (·.outcome.toOption) = [some (.named
        [⟨false, some "B".toList, "A".toList⟩, ⟨false, none, "Nope".toList⟩] "./a".toList)] ∧
      (smallInliner.harvest smallDisk .empty (ImportStatement.ofText smallCode)
        smallFile).2.preserved = [] ∧
      ((Resolution.resolveSource smallDisk smallInliner.options .empty "./a".toList
        smallFile).1.toOption.map fun source => source.map (·.bytes)) =
          some (some (Utf8.ofString "/p/a.ts")) := by
  decide +kernel

theorem ofText_smallCode : ∃ s, ImportStatement.ofText smallCode = [s] ∧ s.outcome = .ok (.named
    [⟨false, some "B".toList, "A".toList⟩, ⟨false, none, "Nope".toList⟩] "./a".toList) := by
  obtain ⟨s, _, hs, hspec, hnone⟩ := List.map_eq_cons_iff.mp smallCode_evaluates.1
  rw [List.map_eq_nil_iff.mp hnone] at hs
  refine ⟨s, hs, ?_⟩
  cases houtcome : s.outcome with
  | error e => simp [houtcome, Except.toOption] at hspec
  | ok spec =>
    rw [houtcome] at hspec
    exact congrArg Except.ok (Option.some.inj hspec)

theorem preserved_smallCode : (smallInliner.harvest smallDisk .empty
    (ImportStatement.ofText smallCode) smallFile).2.preserved = [] :=
  smallCode_evaluates.2.1

theorem resolveSource_smallCode : (Resolution.resolveSource smallDisk smallInliner.options .empty
    "./a".toList smallFile).1 = .ok (some (.ofString "/p/a.ts")) := by
  have hbytes := smallCode_evaluates.2.2
  generalize (Resolution.resolveSource smallDisk smallInliner.options .empty "./a".toList
    smallFile).1 = answer at hbytes ⊢
  match answer, hbytes with
  | .ok (some ⟨bytes⟩), hbytes =>
    have hsame : bytes = Utf8.ofString "/p/a.ts" := Option.some.inj (Option.some.inj hbytes)
    rw [hsame]
    rfl

/-- The import of `A` is dropped, its declaration is found, and the block has a line for `B`. -/
theorem renamed_binding_is_kept :
    let statements := ImportStatement.ofText smallCode
    let collected := smallInliner.harvest smallDisk .empty statements smallFile
    ∃ target, FoundAmong collected.1 collected.2.keys ⟨target, "A".toList⟩ ∧
      "type B = A;".toList ∈ collected.2.renames := by
  obtain ⟨s, hs, houtcome⟩ := ofText_smallCode
  have hkept : (smallInliner.harvest smallDisk .empty ([] ++ [s]) smallFile).2.preserved = [] := by
    rw [List.nil_append, ← hs, preserved_smallCode]
  obtain ⟨_, items, specifier, target, hspec, hsource, _, hall⟩ :=
    @offered_bindings_are_kept _ ⟨.ofString "/p", true, none⟩ .ok .empty .empty smallDisk smallCode
      smallFile [] [] s hs hkept
  rw [houtcome] at hspec
  obtain ⟨rfl, rfl⟩ := ImportSpec.named.inj (Except.ok.inj hspec)
  obtain rfl := Option.some.inj (Except.ok.inj (resolveSource_smallCode.symm.trans hsource))
  have hoffered : (Introspector.sources.declaration? smallDisk (.ofString "/p/a.ts")
      "A".toList).isSome = true := by decide +kernel
  obtain ⟨hfound, hline⟩ := hall _ List.mem_cons_self (Or.inr hoffered)
  exact ⟨_, hfound, hline (by decide)⟩

/-- The same import binds `Nope`, for which nothing is found, and yet it is not put aside. -/
theorem missing_binding_is_dropped :
    let statements := ImportStatement.ofText smallCode
    let collected := smallInliner.harvest smallDisk .empty statements smallFile
    ∃ s items specifier target, statements = [s] ∧
      s.outcome = .ok (.named items specifier) ∧
      (Resolution.resolveSource smallDisk smallInliner.options .empty specifier smallFile).1 =
        .ok (some target) ∧
      (smallInliner.inline smallDisk .empty smallCode smallFile).1.preserved = [] ∧
      ∃ item ∈ items, ¬ FoundAmong collected.1 collected.2.keys (item.key target) := by
  intro statements collected
  obtain ⟨s, hs, houtcome⟩ := ofText_smallCode
  refine ⟨s, _, _, _, hs, houtcome, resolveSource_smallCode, preserved_smallCode,
    ⟨false, none, "Nope".toList⟩, by simp, ?_⟩
  rintro ⟨k, hk, hmem⟩
  have hsymbols : collected.2.keys.map (·.symbol) = ["A".toList] := by decide +kernel
  obtain ⟨c, hc, hkc⟩ := List.contains_iff_exists_mem_beq.mp hmem
  have hA : c.symbol ∈ ["A".toList] := hsymbols ▸ List.mem_map_of_mem hc
  have hNope : c.symbol = "Nope".toList := (Key.beq_iff.mp hkc).1.symm.trans hk.symbol
  rw [hNope] at hA
  exact absurd hA (by decide)

end Inliner

end TypeInliner
