import TypeInliner.Proofs.RecordedReferences

/-! # The closure of an import is what its items reach

Between two calls a context is complete: the references of every key in it are recorded, as far as
they lead. In a complete context the walk along recorded edges is the walk along the references, so
an import gets exactly the declarations that its items reach, in the order of that walk. -/

namespace TypeInliner

variable {g : ReferenceGraph} {asked : Path → Prop}

section

variable [PatternCompiler]

/-- A sound context in which no reference is left to be followed. -/
structure Complete (g : ReferenceGraph) (asked : Path → Prop) (ctx : Context) : Prop
    extends Sound g asked ctx where
  recorded {key : Key} : asked key.file → ctx.isResolved key = true → Recorded g ctx key

/-- The key of an item of an import from a file. -/
def NamedImport.key (file : Path) (item : NamedImport) : Key := ⟨file, item.content⟩

theorem complete_empty (g : ReferenceGraph) (asked : Path → Prop) : Complete g asked .empty where
  toSound := sound_empty g asked
  recorded := by intro key _ h; simp at h

theorem Complete.loadDependencies {ctx : Context} (h : Complete g asked ctx) :
    Complete g asked (ctx.loadDependencies g.disk g.options.root) where
  toSound := h.toSound.loadDependencies
  recorded ha hr := (h.recorded ha (by simpa using hr)).mono (by simp) (by simp)

/-- Resolving a key leaves no reference behind. -/
theorem Outcome.complete {ctx ctx' : Context} {key : Key} (ho : Outcome g asked ctx key ctx')
    (h : Complete g asked ctx) : Complete g asked ctx' where
  toSound := ho.sound
  recorded ha hr := by
    rcases ho.recorded ha hr with hr | hr
    · exact (h.recorded ha hr).mono ho.kept (ho.dependencies hr)
    · exact hr

namespace Complete

variable {ctx : Context}

/-- Where a settled key leads, everything is settled. -/
theorem settled_next (h : Complete g asked ctx) {a b : Key} (ha : asked a.file)
    (hs : Settled g ctx a) (hb : b ∈ g.next a) : Settled g ctx b := by
  rcases hs with hs | hs
  · exact (h.recorded ha hs).settled b hb
  · simp [ReferenceGraph.next, hs] at hb

theorem settled_of_reaches (hg : g.Coherent asked) (h : Complete g asked ctx) {a b : Key}
    (ha : asked a.file) (hs : Settled g ctx a)
    (hr : Relation.ReflTransGen (fun x y => y ∈ g.next x) a b) : Settled g ctx b := by
  induction hr with
  | refl => exact hs
  | tail hr hstep ih =>
    exact h.settled_next ((ReferenceGraph.enclosed hg).reaches ha hr) ih hstep

/-- The closure of a settled key is the walk along the references from it. -/
theorem closure_walk (hg : g.Coherent asked) (h : Complete g asked ctx) {key : Key}
    (ha : asked key.file) (hs : Settled g ctx key) :
    DepthFirst g.next [] [key] (ctx.closure key) := by
  have inside : ∀ a : Key, asked a.file ∧ Settled g ctx a →
      ∀ b ∈ g.next a, asked b.file ∧ Settled g ctx b := by
    intro a ⟨ha, hs⟩ b hb
    exact ⟨(ReferenceGraph.enclosed hg).inside ha hb, h.settled_next ha hs hb⟩
  refine DepthFirst.of_tidied inside ?_ ?_ (ctx.closure_depthFirst key)
  · intro k ⟨ha, hs⟩
    cases hr : ctx.isResolved k with
    | true => exact (h.recorded ha hr).dependencies
    | false =>
      rcases hs with hs | hs
      · rw [hs] at hr
        exact absurd hr (by simp)
      · simp [h.loose hr, ReferenceGraph.next, hs, tidy]
  · intro k hk
    rw [List.mem_singleton.mp hk]
    exact ⟨ha, hs⟩

end Complete

end

/-- Of the settled keys, the context holds those whose declaration is written in their own file. -/
theorem Sound.contains_eq_isWritten {ctx : Context} (h : Sound g asked ctx) {key : Key}
    (ha : asked key.file) (hs : Settled g ctx key) : ctx.contains key = g.isWritten key := by
  cases hc : ctx.contains key with
  | true =>
    obtain ⟨text, ht⟩ := ctx.contains_iff.mp hc
    obtain ⟨declaration, hd, hf, _⟩ := h.text ha ht
    simp [ReferenceGraph.isWritten, hd, hf]
  | false =>
    rcases hs with hs | hs
    · rcases ctx.isResolved_iff.mp hs with hr | hr
      · rw [hr] at hc
        exact absurd hc (by simp)
      · obtain ⟨declaration, hd, hf⟩ := h.forwarded ha hr
        simp [ReferenceGraph.isWritten, hd, hf]
    · simp [ReferenceGraph.isWritten, hs]

/-- A declaration that is held has the text that the introspector gives. -/
theorem Sound.text_eq {ctx : Context} (h : Sound g asked ctx) {key : Key} (ha : asked key.file)
    (hc : ctx.contains key = true) :
    ctx.text? key = (g.declaration? key).map DeclaredType.text := by
  obtain ⟨text, ht⟩ := ctx.contains_iff.mp hc
  obtain ⟨declaration, hd, _, rfl⟩ := h.text ha ht
  rw [ht, hd]
  rfl

/-! ## Item after item -/

section

variable [PatternCompiler]

/-- From the context `start`, some keys have been resolved one after another and what they lead to
has been collected. -/
structure Gathered (g : ReferenceGraph) (asked : Path → Prop) (start : Context) (passed : List Key)
    (ctx : Context) (keys : List Key) : Prop where
  complete : Complete g asked ctx
  walk : DepthFirst g.next [] passed keys
  asks : ∀ key ∈ passed, asked key.file
  settled : ∀ key ∈ passed, Settled g ctx key
  kept {k : Key} : start.isResolved k = true → ctx.isResolved k = true
  reached {k : Key} : ctx.isResolved k = true →
    start.isResolved k = true ∨ ∃ key ∈ passed, Reaches g.next key k

theorem Gathered.start {ctx : Context} (h : Complete g asked ctx) :
    Gathered g asked ctx [] ctx [] where
  complete := h
  walk := .done []
  asks := by simp
  settled := by simp
  kept := id
  reached := Or.inl

/-- One more key adds what it reaches beyond what has been collected. -/
theorem Gathered.step (hg : g.Coherent asked) {start ctx ctx' : Context} {passed keys : List Key}
    (h : Gathered g asked start passed ctx keys) {key : Key} (ha : asked key.file)
    (ho : Outcome g asked ctx key ctx') :
    Gathered g asked start (passed ++ [key]) ctx' (addNew keys (ctx'.closure key)) := by
  have complete := ho.complete h.complete
  have hwalk := complete.closure_walk hg ha ho.settled
  have hclosed := fun k (hk : asked k.file) =>
    h.walk.closed_found (ReferenceGraph.enclosed hg) h.asks (k := k) hk
  have hbeyond := hwalk.beyond (ReferenceGraph.enclosed hg) hclosed (by
    intro k hk
    rw [List.mem_singleton.mp hk]
    exact ha)
  refine ⟨complete, h.walk.append hbeyond, ?_, ?_, fun hk => ho.kept (h.kept hk), ?_⟩
  · intro k hk
    rcases List.mem_append.mp hk with hk | hk
    · exact h.asks k hk
    · rw [List.mem_singleton.mp hk]
      exact ha
  · intro k hk
    rcases List.mem_append.mp hk with hk | hk
    · exact (h.settled k hk).mono ho.kept
    · rw [List.mem_singleton.mp hk]
      exact ho.settled
  · intro k hk
    rcases ho.reached hk with hk | hk
    · apply (h.reached hk).imp_right
      rintro ⟨a, hmem, hr⟩
      exact ⟨a, List.mem_append_left _ hmem, hr⟩
    · exact Or.inr ⟨key, by simp, hk⟩

/-- What has been collected and is held is what is reached and written in its own file. -/
theorem Gathered.filter_contains (hg : g.Coherent asked) {start ctx : Context}
    {passed keys : List Key} (h : Gathered g asked start passed ctx keys) :
    keys.filter ctx.contains = keys.filter g.isWritten := by
  apply List.filter_congr
  intro k hk
  rcases h.walk.reached k hk with hs | ⟨key, hkey, hr⟩
  · simp at hs
  · have ha := h.asks key hkey
    exact h.complete.contains_eq_isWritten ((ReferenceGraph.enclosed hg).reaches ha hr)
      (h.complete.settled_of_reaches hg ha (h.settled key hkey) hr)

/-- Resolving the items of an import walks from their keys, one after another. -/
theorem resolveItems_gathered (hg : g.Coherent asked) {file : Path} (ha : asked file)
    {ctx : Context} (h : Complete g asked ctx) (items : List NamedImport) :
    Gathered g asked ctx (items.map (·.key file))
      (Closure.resolveItems g.introspector g.disk g.options file ctx items).1
      (Closure.resolveItems g.introspector g.disk g.options file ctx items).2 := by
  unfold Closure.resolveItems
  induction items using List.reverseRecOn with
  | nil => exact .start h
  | append_singleton items item ih =>
    rw [List.map_append, List.foldl_append]
    have hkey : asked (item.key file).file := ha
    exact ih.step hg hkey (resolve_outcome hg hkey ih.complete.toSound)

/-- A named import answers the walk from its items, less the keys that are only forwarded or have no
declaration. -/
theorem resolveImport_named (hg : g.Coherent asked) {file : Path} (ha : asked file) {ctx : Context}
    (h : Complete g asked ctx) (items : List NamedImport) (specifier : Text) :
    ∃ order ctx', Closure.resolveImport g.introspector g.disk g.options ctx
        (.named items specifier) file = (.ok (order.filter g.isWritten), ctx') ∧
      Gathered g asked ctx (items.map (·.key file)) ctx' order := by
  have hitems := resolveItems_gathered hg ha h items
  refine ⟨_, _, ?_, hitems⟩
  rw [← hitems.filter_contains hg]
  rfl

/-- Keys of the walk keep their sameness through the selection of the written ones. -/
theorem Gathered.contains_filter_isWritten (hg : g.Coherent asked) {start ctx : Context}
    {passed keys : List Key} (h : Gathered g asked start passed ctx keys) {k : Key}
    (hk : asked k.file) : (keys.filter g.isWritten).contains k = true ↔
      (∃ key ∈ passed, Reaches g.next key k) ∧ g.isWritten k = true := by
  have enclosed := ReferenceGraph.enclosed hg
  have hfound := h.walk.among_found enclosed h.asks
  rw [← h.walk.contains_iff_reaches enclosed h.asks]
  simp only [List.contains_iff_exists_mem_beq, List.mem_filter]
  constructor
  · rintro ⟨c, ⟨hc, hw⟩, hkc⟩
    rw [ReferenceGraph.isWritten_congr hg hk (hfound c hc) hkc]
    exact ⟨⟨c, hc, hkc⟩, hw⟩
  · rintro ⟨⟨c, hc, hkc⟩, hw⟩
    rw [ReferenceGraph.isWritten_congr hg hk (hfound c hc) hkc] at hw
    exact ⟨c, ⟨hc, hw⟩, hkc⟩

/-- Of the keys of an import the context holds what the introspector gives, and after a start from
nothing it holds no others. -/
theorem Gathered.holds (hg : g.Coherent asked) {ctx : Context} {passed keys : List Key}
    (h : Gathered g asked .empty passed ctx keys) :
    (∀ k ∈ keys.filter g.isWritten, ∃ declaration, g.declaration? k = some declaration ∧
        ctx.text? k = some declaration.text) ∧
      ∀ k, ctx.contains k = true → (keys.filter g.isWritten).contains k = true := by
  have enclosed := ReferenceGraph.enclosed hg
  constructor
  · intro k hk
    have hc : ctx.contains k = true := by
      rw [← h.filter_contains hg] at hk
      exact (List.mem_filter.mp hk).2
    have ha := h.walk.among_found enclosed h.asks k (List.mem_filter.mp hk).1
    obtain ⟨text, ht⟩ := ctx.contains_iff.mp hc
    obtain ⟨declaration, hd, _, rfl⟩ := h.complete.text ha ht
    exact ⟨declaration, hd, ht⟩
  · intro k hc
    rcases h.reached (ctx.isResolved_iff.mpr (Or.inl hc)) with hr | ⟨key, hkey, c, hr, hkc⟩
    · simp at hr
    · have ha := enclosed.reaches (h.asks key hkey) hr
      have hs := h.complete.settled_of_reaches hg (h.asks key hkey) (h.settled key hkey) hr
      rw [ctx.contains_congr hkc, h.complete.contains_eq_isWritten ha hs] at hc
      rw [List.contains_congr hkc, h.contains_filter_isWritten hg ha]
      exact ⟨⟨key, hkey, c, hr, BEq.rfl⟩, hc⟩

/-- Resolving a named import from nothing answers exactly the keys that its items reach and whose
declaration is written in the key's own file: each once, in the order of a depth-first walk from one
item after another. Afterwards the context holds the introspector's text for each of them and no
other declaration. -/
theorem resolveImport_exact (hg : g.Coherent asked) {file : Path} (ha : asked file)
    (items : List NamedImport) (specifier : Text) :
    ∃ keys ctx order, Closure.resolveImport g.introspector g.disk g.options .empty
        (.named items specifier) file = (.ok keys, ctx) ∧
      DepthFirst g.next [] (items.map (·.key file)) order ∧ keys = order.filter g.isWritten ∧
      Distinct keys ∧
      (∀ k, asked k.file → (keys.contains k = true ↔
        (∃ item ∈ items, Reaches g.next (item.key file) k) ∧ g.isWritten k = true)) ∧
      (∀ k ∈ keys, ∃ declaration, g.declaration? k = some declaration ∧
        ctx.text? k = some declaration.text) ∧
      ∀ k, ctx.contains k = true → keys.contains k = true := by
  obtain ⟨order, ctx, hresult, h⟩ :=
    resolveImport_named hg ha (complete_empty g asked) items specifier
  obtain ⟨htexts, honly⟩ := h.holds hg
  have hdistinct : Distinct (order.filter g.isWritten) :=
    (h.walk.distinct List.Pairwise.nil).filter _
  refine ⟨_, ctx, order, hresult, h.walk, rfl, hdistinct, ?_, htexts, honly⟩
  intro k hk
  rw [h.contains_filter_isWritten hg hk]
  simp

end

/-- Two declarations that mention each other, one of them also itself and the other one a type that
no file declares, and an index file that forwards both. -/
def linkedTypes : List (Path × Text × DeclaredType) :=
  let mentioning (name file text : String) (mentions : List TypeReference) : DeclaredType :=
    ⟨name.toList, .ofString file, text.toList, mentions.map fun r => ⟨r.name, r.marker⟩, []⟩
  let node := mentioning "Node" "/p/node.ts" "type Node = { edge: Edge; up: Node };"
    [⟨"/p/index.ts".toList, "Edge".toList⟩, ⟨"/p/node.ts".toList, "Node".toList⟩]
  let edge := mentioning "Edge" "/p/edge.ts" "type Edge = { gone: Gone; to: Node };"
    [⟨"/p/gone.ts".toList, "Gone".toList⟩, ⟨"/p/node.ts".toList, "Node".toList⟩]
  [(.ofString "/p/index.ts", node.name, node), (.ofString "/p/index.ts", edge.name, edge),
    (node.file, node.name, node), (edge.file, edge.name, edge)]

def linkedGraph : ReferenceGraph := ⟨.ofTable linkedTypes, .empty [], .default⟩

theorem linkedGraph_coherent : linkedGraph.Coherent fun _ => True := by
  apply ReferenceGraph.coherent_ofTable
  intro entry h
  simp only [linkedTypes, List.mem_cons, List.not_mem_nil, or_false] at h
  rcases h with rfl | rfl | rfl | rfl <;> rfl

open scoped PatternCompiler in
/-- Importing `Edge` and a missing item from the index file needs the two declarations, under the
files they are written in. -/
theorem closure_of_linkedGraph :
    ∃ keys ctx, Closure.resolveImport linkedGraph.introspector linkedGraph.disk
        linkedGraph.options .empty
        (.named [⟨false, none, "Edge".toList⟩, ⟨false, none, "Nope".toList⟩] "./index".toList)
        (.ofString "/p/index.ts") = (.ok keys, ctx) ∧
      Distinct keys ∧ keys.map (fun k => (k.file.text, k.symbol)) =
        [("/p/edge.ts".toList, "Edge".toList), ("/p/node.ts".toList, "Node".toList)] ∧
      ∀ k, ctx.contains k = true → keys.contains k = true := by
  obtain ⟨keys, ctx, order, hresult, _, _, hdistinct, _, _, honly⟩ :=
    @resolveImport_exact _ _ _ linkedGraph_coherent (.ofString "/p/index.ts") trivial
      [⟨false, none, "Edge".toList⟩, ⟨false, none, "Nope".toList⟩] "./index".toList
  have hfound : (Closure.resolveImport linkedGraph.introspector linkedGraph.disk
      linkedGraph.options .empty
      (.named [⟨false, none, "Edge".toList⟩, ⟨false, none, "Nope".toList⟩] "./index".toList)
      (.ofString "/p/index.ts")).1.toOption.map
        (fun keys => keys.map fun k => (k.file.text, k.symbol)) =
      some [("/p/edge.ts".toList, "Edge".toList), ("/p/node.ts".toList, "Node".toList)] := by
    decide +kernel
  rw [hresult] at hfound
  exact ⟨keys, ctx, hresult, hdistinct, Option.some.inj hfound, honly⟩

end TypeInliner
