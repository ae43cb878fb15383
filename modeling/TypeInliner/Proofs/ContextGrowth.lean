import TypeInliner.Proofs.CallInvariants

/-! # A context only grows

Resolving stores texts and records edges for keys alone that are not resolved yet. While the
references of a declaration are followed, edges are added to a key that is resolved by then, but it
was not when the call began. What a context holds at the beginning of a call is therefore left as it
is, whatever the introspector answers; and a call that fails has not begun to resolve anything. -/

namespace TypeInliner

/-- What a context held at the start has not been changed: keys that were resolved then have the
same text or none, the same edges, and are forwarded or not as before. -/
structure Keeps (start ctx : Context) : Prop where
  text {key : Key} : start.isResolved key = true → ctx.text? key = start.text? key
  forwarded {key : Key} : start.isResolved key = true →
    ctx.forwarders.contains key = start.forwarders.contains key
  dependencies {key : Key} : start.isResolved key = true →
    ctx.dependencies key = start.dependencies key
  rootDependencies {known : Table Text Text} : start.rootDependencies = some known →
    ctx.rootDependencies = some known

namespace Keeps

variable {start ctx : Context}

theorem refl (ctx : Context) : Keeps ctx ctx := ⟨fun _ => rfl, fun _ => rfl, fun _ => rfl, id⟩

theorem contains (h : Keeps start ctx) {key : Key} (hk : start.isResolved key = true) :
    ctx.contains key = start.contains key := by
  rw [Context.contains, Context.contains, h.text hk]

/-- A key that is not resolved was not resolved at the start either. -/
theorem unresolved (h : Keeps start ctx) {key : Key} (hk : ctx.isResolved key = false) :
    start.isResolved key = false := by
  cases hs : start.isResolved key with
  | false => rfl
  | true =>
    rw [Context.isResolved, h.contains hs, h.forwarded hs, ← Context.isResolved, hs] at hk
    exact hk

private theorem other_key {key k : Key} (hnew : start.isResolved key = false)
    (hk : start.isResolved k = true) : (key == k) = false := by
  cases hsame : key == k with
  | false => rfl
  | true =>
    rw [start.isResolved_congr hsame, hk] at hnew
    exact hnew

theorem insert (h : Keeps start ctx) {key : Key} (hnew : start.isResolved key = false)
    (text : Text) : Keeps start (ctx.insert key text) where
  text hk := by
    rw [ctx.text?_insert, other_key hnew hk, if_neg Bool.false_ne_true, ite_self, h.text hk]
  forwarded hk := by rw [ctx.forwarders_insert, h.forwarded hk]
  dependencies hk := by rw [ctx.dependencies_insert, h.dependencies hk]
  rootDependencies hk := by rw [ctx.rootDependencies_insert, h.rootDependencies hk]

theorem addEdge (h : Keeps start ctx) {source : Key} (hnew : start.isResolved source = false)
    (target : Key) : Keeps start (ctx.addEdge source target) where
  text hk := h.text hk
  forwarded hk := h.forwarded hk
  dependencies hk := by
    rw [ctx.dependencies_addEdge, other_key hnew hk, if_neg Bool.false_ne_true, h.dependencies hk]
  rootDependencies hk := h.rootDependencies hk

theorem addForwarder (h : Keeps start ctx) {source : Key}
    (hnew : start.isResolved source = false) (target : Key) :
    Keeps start (ctx.addForwarder source target) where
  text hk := h.text hk
  forwarded hk := by
    rw [ctx.forwarders_addForwarder, BEq.comm, other_key hnew hk, Bool.or_false, h.forwarded hk]
  dependencies hk := by
    rw [ctx.dependencies_addForwarder, other_key hnew hk, if_neg Bool.false_ne_true,
      h.dependencies hk]
  rootDependencies hk := h.rootDependencies hk

theorem loadDependencies (h : Keeps start ctx) (d : Disk) (root : Path) :
    Keeps start (ctx.loadDependencies d root) where
  text hk := by rw [ctx.text?_loadDependencies, h.text hk]
  forwarded hk := by rw [ctx.forwarders_loadDependencies, h.forwarded hk]
  dependencies hk := by rw [ctx.dependencies_loadDependencies, h.dependencies hk]
  rootDependencies hk := by
    have hknown := h.rootDependencies hk
    rw [Context.loadDependencies, hknown]
    exact hknown

variable (d : Disk) (options : Options)

variable [PatternCompiler]

/-- Following a reference of a declaration that was not resolved at the start. -/
theorem follow {goOn : Context → Key → Context}
    (hgo : ∀ ctx key, Keeps start ctx → Keeps start (goOn ctx key)) (h : Keeps start ctx)
    {declared : Key} (hnew : start.isResolved declared = false) (r : TypeReference) :
    Keeps start (Closure.follow d options goOn declared ctx r) := by
  have hafter : Keeps start
      (Resolution.resolveReference d options ctx r.source declared.file).2 := by
    rcases ReferenceGraph.resolveReference_context d options ctx r.source declared.file with
      hsame | hloaded
    · rw [hsame]
      exact h
    · rw [hloaded]
      exact h.loadDependencies d options.root
  unfold Closure.follow
  split
  · next hresult =>
    rw [hresult] at hafter
    exact hafter
  · next hresult =>
    rw [hresult] at hafter
    dsimp only
    split
    · exact hgo _ _ hafter
    · exact hgo _ _ (hafter.addEdge hnew _)

theorem follow_all {goOn : Context → Key → Context}
    (hgo : ∀ ctx key, Keeps start ctx → Keeps start (goOn ctx key)) (h : Keeps start ctx)
    {declared : Key} (hnew : start.isResolved declared = false)
    (references : List TypeReference) :
    Keeps start (references.foldl (Closure.follow d options goOn declared) ctx) := by
  induction references generalizing ctx with
  | nil => exact h
  | cons r references ih => exact ih (h.follow d options hgo hnew r)

/-- Resolving a key keeps what was resolved at the start, whatever the introspector answers. -/
theorem resolveWithin (introspector : Introspector) (depth : Nat) (key : Key)
    (h : Keeps start ctx) :
    Keeps start (Closure.resolveWithin introspector d options depth ctx key) := by
  induction depth generalizing ctx key with
  | zero => exact h
  | succ depth ih =>
    rw [Closure.resolveWithin]
    split
    · exact h
    next hr =>
    have hkey : start.isResolved key = false := h.unresolved (by simpa using hr)
    split
    · exact h
    next declaration _ =>
    dsimp only
    generalize (⟨declaration.file, key.symbol⟩ : Key) = declared
    have hgo := fun ctx key (hctx : Keeps start ctx) => ih key hctx
    by_cases hsame : declared == key
    · have hdeclared : start.isResolved declared = false := by
        rw [start.isResolved_congr hsame, hkey]
      simp only [hsame, ↓reduceIte, Bool.not_true, Bool.false_and, Bool.false_eq_true]
      exact (h.insert hdeclared _).follow_all d options hgo hdeclared _
    · have hlinked := h.addForwarder hkey declared
      simp only [hsame, ↓reduceIte, Bool.not_false, Bool.true_and, Bool.false_eq_true]
      split
      · exact hlinked
      · next hd =>
        have hdeclared : start.isResolved declared = false := hlinked.unresolved (by simpa using hd)
        exact (hlinked.insert hdeclared _).follow_all d options hgo hdeclared _

end Keeps

/-! ## Calls -/

variable {inliner : Inliner} {d : Disk}

variable [PatternCompiler]

theorem keptByResolving_keeps (inliner : Inliner) (d : Disk) (start : Context) :
    KeptByResolving inliner d (Keeps start) where
  load h := h.loadDependencies d inliner.options.root
  resolve key h := h.resolveWithin d inliner.options inliner.introspector _ key

/-- An import that fails has read the dependencies of the project at most. -/
theorem Inliner.resolveImport_failure {ctx after : Context} {statement : Text}
    {file : Option Path} {failure : Failure}
    (h : inliner.resolveImport d ctx statement file = (.error failure, after)) :
    after = ctx ∨ after = ctx.loadDependencies d inliner.options.root := by
  unfold resolveImport at h
  split at h
  · exact Or.inl (Prod.mk.inj h).2.symm
  next spec _ =>
  have hloaded := ReferenceGraph.resolveSource_context d inliner.options ctx spec.source file
  right
  unfold resolveSpec at h
  split at h
  · next hsource =>
    rw [hsource] at hloaded
    rw [← hloaded, ← (Prod.mk.inj h).2]
  · simp at h
  · next hsource =>
    rw [hsource] at hloaded
    -- Items are resolved one by one without failing; only another kind of import fails here.
    unfold Closure.resolveImport at h
    split at h
    · simp at h
    · rw [← hloaded, ← (Prod.mk.inj h).2]

/-- A call leaves what the context holds as it is: stored texts, the edges of keys that are resolved
and whether these have a declaration or are forwarded, and the dependencies of the project once they
have been read. An import that fails leaves all declarations, edges and forwarders as they are. -/
theorem Call.perform_only_adds (inliner : Inliner) (d : Disk) (ctx : Context) :
    (∀ call : Call,
      (∀ key text, ctx.text? key = some text →
        (call.perform inliner d ctx).2.text? key = some text) ∧
      (∀ key, ctx.isResolved key = true →
        (call.perform inliner d ctx).2.dependencies key = ctx.dependencies key ∧
        (call.perform inliner d ctx).2.forwarders.contains key = ctx.forwarders.contains key ∧
        (call.perform inliner d ctx).2.contains key = ctx.contains key) ∧
      ∀ known, ctx.rootDependencies = some known →
        (call.perform inliner d ctx).2.rootDependencies = some known) ∧
    ∀ statement file failure after,
      inliner.resolveImport d ctx statement file = (.error failure, after) →
        after.declarations = ctx.declarations ∧ after.edges = ctx.edges ∧
          after.forwarders = ctx.forwarders := by
  refine ⟨fun call => ?_, fun statement file failure after h => ?_⟩
  · have hkeeps := (keptByResolving_keeps inliner d ctx).perform (.refl ctx) call
    refine ⟨fun key text htext => ?_, fun key hk => ?_, fun _ => hkeeps.rootDependencies⟩
    · have hk : ctx.isResolved key = true :=
        ctx.isResolved_iff.mpr (Or.inl (ctx.contains_iff.mpr ⟨text, htext⟩))
      rw [hkeeps.text hk, htext]
    · exact ⟨hkeeps.dependencies hk, hkeeps.forwarded hk, hkeeps.contains hk⟩
  · rcases Inliner.resolveImport_failure h with rfl | rfl
    · exact ⟨rfl, rfl, rfl⟩
    · unfold Context.loadDependencies
      split <;> exact ⟨rfl, rfl, rfl⟩

end TypeInliner
