import TypeInliner.Proofs.ReferenceGraph

/-! # Forwarding ends at a declaration

A context forwards a key only when the declaration that it forwards to is stored, or was forwarded
before. Nothing is assumed of the introspector or of the files, which may change from one call to
the next: following the forwarders of a resolved key always ends at a stored declaration of the same
name. -/

namespace TypeInliner

namespace Context

/-- Where a key is forwarded. -/
def forwards (ctx : Context) (key : Key) : List Key :=
  if ctx.forwarders.contains key then ctx.dependencies key else []

theorem forwards_subset (ctx : Context) (key : Key) : ctx.forwards key ⊆ ctx.dependencies key := by
  unfold forwards
  split
  · exact List.Subset.refl _
  · exact List.nil_subset _

end Context

/-- A key forwards, in any number of steps, to a stored declaration of the same name. -/
structure LeadsTo (ctx : Context) (key k : Key) : Prop where
  path : Relation.ReflTransGen (fun a b => b ∈ ctx.forwards a) key k
  stored : ctx.contains k = true
  symbol : k.symbol = key.symbol

/-- Every resolved key leads to a stored declaration. -/
structure Anchored (ctx : Context) : Prop where
  /-- A key that is not resolved leads nowhere. -/
  loose {key : Key} : ctx.isResolved key = false → ctx.dependencies key = []
  /-- A key that is forwarded has no declaration of its own. -/
  apart {key : Key} : ctx.forwarders.contains key = true → ctx.contains key = false
  leads {key : Key} : ctx.isResolved key = true → ∃ k, LeadsTo ctx key k

/-- An anchored context that keeps what another one holds. -/
structure Develops (ctx ctx' : Context) : Prop where
  anchored : Anchored ctx'
  stored {key : Key} : ctx.contains key = true → ctx'.contains key = true
  resolved {key : Key} : ctx.isResolved key = true → ctx'.isResolved key = true
  forwards {a b : Key} : b ∈ ctx.forwards a → b ∈ ctx'.forwards a

theorem anchored_empty : Anchored .empty where
  loose := fun _ => rfl
  apart := by simp [Context.empty]
  leads := by simp

namespace Develops

variable {ctx ctx' ctx'' : Context}

theorem refl (h : Anchored ctx) : Develops ctx ctx where
  anchored := h
  stored := id
  resolved := id
  forwards := id

theorem trans (h : Develops ctx ctx') (h' : Develops ctx' ctx'') : Develops ctx ctx'' where
  anchored := h'.anchored
  stored hk := h'.stored (h.stored hk)
  resolved hk := h'.resolved (h.resolved hk)
  forwards hb := h'.forwards (h.forwards hb)

theorem leadsTo (h : Develops ctx ctx') {key k : Key} (hk : LeadsTo ctx key k) :
    LeadsTo ctx' key k where
  path := Relation.ReflTransGen.mono (fun _ _ hb => h.forwards hb) _ _ hk.path
  stored := h.stored hk.stored
  symbol := hk.symbol

/-- What single steps do, a row of steps does. -/
theorem foldl {α : Type} {step : Context → α → Context} (as : List α)
    (hstep : ∀ ctx, Anchored ctx → ∀ a ∈ as, Develops ctx (step ctx a)) (h : Anchored ctx) :
    Develops ctx (as.foldl step ctx) := by
  induction as generalizing ctx with
  | nil => exact refl h
  | cons a as ih =>
    have hfirst := hstep ctx h a List.mem_cons_self
    have hothers := fun c hc b hb => hstep c hc b (List.mem_cons_of_mem a hb)
    exact hfirst.trans (ih hothers hfirst.anchored)

end Develops

namespace Anchored

variable {ctx : Context}

/-- Changes that leave the declarations and the forwarded keys as they are. -/
theorem of_same {ctx' : Context} (h : Anchored ctx)
    (stored : ∀ k, ctx'.contains k = ctx.contains k) (forwarders : ctx'.forwarders = ctx.forwarders)
    (same : ∀ k, ctx.contains k = false → ctx'.dependencies k = ctx.dependencies k) :
    Develops ctx ctx' := by
  have hresolved : ∀ k, ctx'.isResolved k = ctx.isResolved k := by
    intro k
    rw [Context.isResolved, stored, forwarders]
    rfl
  have hforwards : ∀ a, ctx'.forwards a = ctx.forwards a := by
    intro a
    unfold Context.forwards
    rw [forwarders]
    split
    · next hf => rw [same a (h.apart hf)]
    · rfl
  have hleads : ∀ {key k : Key}, LeadsTo ctx key k → LeadsTo ctx' key k := by
    intro key k hk
    exact ⟨by simpa only [hforwards] using hk.path, by rw [stored, hk.stored], hk.symbol⟩
  refine ⟨⟨?_, ?_, ?_⟩, ?_, ?_, ?_⟩
  · intro key hr
    rw [hresolved] at hr
    rw [same key, h.loose hr]
    cases hc : ctx.contains key with
    | false => rfl
    | true => simp [Context.isResolved, hc] at hr
  · intro key hf
    rw [forwarders] at hf
    rw [stored, h.apart hf]
  · intro key hr
    rw [hresolved] at hr
    obtain ⟨k, hk⟩ := h.leads hr
    exact ⟨k, hleads hk⟩
  · exact fun hk => by rw [stored, hk]
  · exact fun hk => by rw [hresolved, hk]
  · exact fun hb => by rwa [hforwards]

theorem loadDependencies (h : Anchored ctx) (d : Disk) (root : Path) :
    Develops ctx (ctx.loadDependencies d root) :=
  h.of_same (by simp [Context.contains]) (by simp) (by simp)

/-- An edge of a declaration forwards nothing. -/
theorem addEdge (h : Anchored ctx) {source : Key} (hs : ctx.contains source = true)
    (target : Key) : Develops ctx (ctx.addEdge source target) := by
  refine h.of_same (fun _ => rfl) rfl fun k hk => ?_
  rw [ctx.dependencies_addEdge, if_neg]
  intro hsame
  rw [← ctx.contains_congr hsame, hs] at hk
  simp at hk

/-- A new declaration is where its key leads. -/
theorem insert (h : Anchored ctx) {key : Key} (hr : ctx.isResolved key = false) (text : Text) :
    Develops ctx (ctx.insert key text) := by
  have hstored : ∀ {k : Key}, ctx.contains k = true → (ctx.insert key text).contains k = true := by
    intro k hk
    rw [ctx.contains_insert, hk, Bool.true_or]
  have hforwards : ∀ a, (ctx.insert key text).forwards a = ctx.forwards a := by
    intro a
    simp [Context.forwards]
  refine ⟨⟨?_, ?_, ?_⟩, hstored, ?_, ?_⟩
  · intro k hk
    rw [ctx.isResolved_insert, Bool.or_eq_false_iff] at hk
    rw [ctx.dependencies_insert, h.loose hk.1]
  · intro k hf
    rw [ctx.forwarders_insert] at hf
    have hnew : (key == k) = false := by
      cases hk : key == k with
      | false => rfl
      | true =>
        rw [ctx.isResolved_congr hk, Context.isResolved, hf, Bool.or_true] at hr
        simp at hr
    rw [ctx.contains_insert, h.apart hf, hnew, Bool.or_false]
  · intro k hk
    rw [ctx.isResolved_insert, Bool.or_eq_true] at hk
    rcases hk with hk | hk
    · obtain ⟨c, hc⟩ := h.leads hk
      exact ⟨c, by simpa only [hforwards] using hc.path, hstored hc.stored, hc.symbol⟩
    · exact ⟨k, .refl, by rw [ctx.contains_insert, hk, Bool.or_true], rfl⟩
  · exact fun hk => by rw [ctx.isResolved_insert, hk, Bool.true_or]
  · exact fun hb => by rwa [hforwards]

/-- A key may be forwarded to one that leads to a declaration already. -/
theorem addForwarder (h : Anchored ctx) {key declared : Key} (hr : ctx.isResolved key = false)
    (hd : ctx.isResolved declared = true) (hs : declared.symbol = key.symbol) :
    Develops ctx (ctx.addForwarder key declared) := by
  have hnew : ∀ {k : Key}, ctx.isResolved k = true → ¬(key == k) = true := by
    intro k hk hsame
    rw [ctx.isResolved_congr hsame, hk] at hr
    simp at hr
  have hstored : ∀ k, (ctx.addForwarder key declared).contains k = ctx.contains k := fun _ => rfl
  have hforwards : ∀ {a b : Key}, b ∈ ctx.forwards a →
      b ∈ (ctx.addForwarder key declared).forwards a := by
    intro a b hb
    unfold Context.forwards at hb ⊢
    split at hb
    · next hf =>
      have ha : ctx.isResolved a = true := by rw [Context.isResolved, hf, Bool.or_true]
      rw [ctx.forwarders_addForwarder, hf, Bool.true_or, if_pos rfl, ctx.dependencies_addForwarder,
        if_neg (hnew ha)]
      exact hb
    · simp at hb
  have hleads : ∀ {k c : Key}, LeadsTo ctx k c → LeadsTo (ctx.addForwarder key declared) k c := by
    intro k c hc
    have hpath := Relation.ReflTransGen.mono (fun _ _ hb => hforwards hb) _ _ hc.path
    exact ⟨hpath, hc.stored, hc.symbol⟩
  refine ⟨⟨?_, ?_, ?_⟩, fun hk => hk, ?_, hforwards⟩
  · intro k hk
    rw [ctx.isResolved_addForwarder, Bool.or_eq_false_iff] at hk
    have hother : ¬(key == k) = true := fun hsame => by simp [BEq.symm hsame] at hk
    rw [ctx.dependencies_addForwarder, if_neg hother, h.loose hk.1]
  · intro k hf
    rw [ctx.forwarders_addForwarder, Bool.or_eq_true] at hf
    rw [hstored]
    rcases hf with hf | hsame
    · exact h.apart hf
    · rw [Context.isResolved, Bool.or_eq_false_iff] at hr
      rw [ctx.contains_congr hsame, hr.1]
  · intro k hk
    rw [ctx.isResolved_addForwarder, Bool.or_eq_true] at hk
    rcases hk with hk | hsame
    · obtain ⟨c, hc⟩ := h.leads hk
      exact ⟨c, hleads hc⟩
    · obtain ⟨c, hc⟩ := h.leads hd
      have hstep : declared ∈ (ctx.addForwarder key declared).forwards k := by
        unfold Context.forwards
        rw [ctx.forwarders_addForwarder, hsame, Bool.or_true, if_pos rfl,
          ctx.dependencies_addForwarder, if_pos (BEq.symm hsame), h.loose hr]
        simp [addNew]
      have hsymbol : k.symbol = key.symbol := (Key.beq_iff.mp hsame).1
      exact ⟨c, .head hstep (hleads hc).path, hc.stored, by rw [hc.symbol, hs, hsymbol]⟩
  · exact fun hk => by rw [ctx.isResolved_addForwarder, hk, Bool.true_or]

end Anchored

/-! ## Resolving -/

variable (d : Disk) (options : Options)

variable [PatternCompiler]

/-- Following a reference of a stored declaration develops the context. -/
private theorem follow_develops {goOn : Context → Key → Context}
    (hgo : ∀ ctx key, Anchored ctx → Develops ctx (goOn ctx key)) {ctx : Context}
    (h : Anchored ctx) {declared : Key} (hs : ctx.contains declared = true) (r : TypeReference) :
    Develops ctx (Closure.follow d options goOn declared ctx r) := by
  have hafter : Develops ctx
      (Resolution.resolveReference d options ctx r.source declared.file).2 := by
    rcases ReferenceGraph.resolveReference_context d options ctx r.source declared.file with
      hsame | hloaded
    · rw [hsame]
      exact .refl h
    · rw [hloaded]
      exact h.loadDependencies d options.root
  unfold Closure.follow
  split
  · next hres =>
    rw [hres] at hafter
    exact hafter
  · next file after hres =>
    rw [hres] at hafter
    dsimp only
    split
    · exact hafter.trans (hgo _ _ hafter.anchored)
    · have hedge := hafter.anchored.addEdge (hafter.stored hs) ⟨file, r.name⟩
      exact (hafter.trans hedge).trans (hgo _ _ hedge.anchored)

omit [PatternCompiler] in
/-- A forwarder and the declaration that it forwards to may be stored in any order. -/
theorem insert_addForwarder (ctx : Context) (key declared : Key) (text : Text) :
    (ctx.addForwarder key declared).insert declared text =
      (ctx.insert declared text).addForwarder key declared := by
  have hstored : (ctx.addForwarder key declared).contains declared = ctx.contains declared := rfl
  unfold Context.insert
  rw [hstored]
  split <;> rfl

private theorem follow_all_develops {goOn : Context → Key → Context}
    (hgo : ∀ ctx key, Anchored ctx → Develops ctx (goOn ctx key)) {ctx : Context}
    (h : Anchored ctx) {declared : Key} (hs : ctx.contains declared = true)
    (references : List TypeReference) :
    Develops ctx (references.foldl (Closure.follow d options goOn declared) ctx) := by
  induction references generalizing ctx with
  | nil => exact .refl h
  | cons r references ih =>
    have hfirst := follow_develops d options hgo h hs r
    exact hfirst.trans (ih hfirst.anchored (hfirst.stored hs))

omit [PatternCompiler] in
/-- Storing a declaration under a key that forwards to it anchors both. -/
theorem Anchored.forward_insert {ctx : Context} (h : Anchored ctx) {key declared : Key}
    (hk : ctx.isResolved key = false) (hd : ctx.isResolved declared = false)
    (hne : (declared == key) = false) (hs : declared.symbol = key.symbol) (text : Text) :
    Develops ctx ((ctx.addForwarder key declared).insert declared text) := by
  rw [insert_addForwarder]
  have hstore := h.insert hd text
  refine hstore.trans (hstore.anchored.addForwarder ?_ ?_ hs)
  · rw [ctx.isResolved_insert, hk, hne, Bool.or_self]
  · rw [ctx.isResolved_insert, BEq.rfl, Bool.or_true]

/-- A key is resolved when its declaration has been stored, before its references are followed. -/
private theorem stored_develops {goOn : Context → Key → Context}
    (hgo : ∀ ctx key, Anchored ctx → Develops ctx (goOn ctx key)) {ctx base : Context}
    (hstore : Develops ctx base) {key declared : Key} (hs : base.contains declared = true)
    (hk : base.isResolved key = true) (references : List TypeReference) :
    Develops ctx (references.foldl (Closure.follow d options goOn declared) base) ∧
      (references.foldl (Closure.follow d options goOn declared) base).isResolved key = true := by
  have hall := follow_all_develops d options hgo hstore.anchored hs references
  exact ⟨hstore.trans hall, hall.resolved hk⟩

/-- Resolving a key develops the context, whatever the introspector answers. Where it answers with a
declaration, the key is resolved afterwards. -/
theorem resolveWithin_develops (introspector : Introspector) (depth : Nat) (ctx : Context)
    (key : Key) (h : Anchored ctx) :
    Develops ctx (Closure.resolveWithin introspector d options depth ctx key) ∧
      (0 < depth → (introspector.declaration? d key.file key.symbol).isSome = true →
        (Closure.resolveWithin introspector d options depth ctx key).isResolved key = true) := by
  -- The induction is on the bound of the depth; the key of a forwarder is anchored by the
  -- declaration that is stored before anything else is resolved.
  induction depth generalizing ctx key with
  | zero => exact ⟨.refl h, fun hpos => absurd hpos (Nat.lt_irrefl 0)⟩
  | succ depth ih =>
    rw [Closure.resolveWithin]
    by_cases hk : ctx.isResolved key = true
    · rw [if_pos hk]
      exact ⟨.refl h, fun _ _ => hk⟩
    rw [if_neg hk]
    replace hk : ctx.isResolved key = false := by simpa using hk
    cases hd : introspector.declaration? d key.file key.symbol with
    | none => exact ⟨.refl h, fun _ hsome => by simp at hsome⟩
    | some declaration =>
      generalize hdeclared : (⟨declaration.file, key.symbol⟩ : Key) = declared
      have hsymbol : declared.symbol = key.symbol := by rw [← hdeclared]
      have hgo := fun ctx key hctx => (ih ctx key hctx).1
      by_cases hsame : declared == key
      · have hnew : ctx.isResolved declared = false := by rw [ctx.isResolved_congr hsame, hk]
        have hstored : (ctx.insert declared declaration.text).contains declared = true := by
          rw [ctx.contains_insert, BEq.rfl, Bool.or_true]
        have hresolved : (ctx.insert declared declaration.text).isResolved key = true := by
          rw [ctx.isResolved_insert, hsame, Bool.or_true]
        obtain ⟨hall, hkey⟩ := stored_develops d options hgo (h.insert hnew declaration.text)
          hstored hresolved declaration.references
        simp only [hdeclared, hsame, ↓reduceIte, Bool.not_true, Bool.false_and, Bool.false_eq_true]
        exact ⟨hall, fun _ _ => hkey⟩
      replace hsame : (declared == key) = false := by simpa using hsame
      have hlinked : (ctx.addForwarder key declared).isResolved key = true := by
        rw [ctx.isResolved_addForwarder, BEq.rfl, Bool.or_true]
      have hafter : (ctx.addForwarder key declared).isResolved declared =
          ctx.isResolved declared := by
        rw [ctx.isResolved_addForwarder, hsame, Bool.or_false]
      simp only [hdeclared, hsame, ↓reduceIte, Bool.not_false, Bool.true_and, Bool.false_eq_true,
        hafter]
      cases hd : ctx.isResolved declared with
      | true => exact ⟨h.addForwarder hk hd hsymbol, fun _ _ => hlinked⟩
      | false =>
        have hstored : ((ctx.addForwarder key declared).insert declared
            declaration.text).contains declared = true := by
          rw [Context.contains_insert, BEq.rfl, Bool.or_true]
        have hresolved : ((ctx.addForwarder key declared).insert declared
            declaration.text).isResolved key = true := by
          rw [Context.isResolved_insert, hlinked, Bool.true_or]
        obtain ⟨hall, hkey⟩ := stored_develops d options hgo
          (h.forward_insert hk hd hsame hsymbol declaration.text) hstored hresolved
          declaration.references
        exact ⟨hall, fun _ _ => hkey⟩

end TypeInliner
