import TypeInliner.Proofs.ReferenceGraph

/-! # What resolving records

While declarations are resolved, the keys on the way down are stored before all their references are
recorded. `Outcome` says what resolving one key does to a context: it keeps what was resolved, every
key it adds is reached from the given one, and the references of every added key are recorded. The
bound on the depth is never met, because every step down stores one more key (`Fits`). -/

namespace TypeInliner

variable {g : ReferenceGraph} {asked : Path → Prop}

/-- What a context holds agrees with the declarations of the graph. -/
structure Sound (g : ReferenceGraph) (asked : Path → Prop) (ctx : Context) : Prop where
  current : ReferenceGraph.Current g ctx
  text {key : Key} {text : Text} : asked key.file → ctx.text? key = some text →
    ∃ declaration, g.declaration? key = some declaration ∧
      (declaration.file == key.file) = true ∧ text = declaration.text
  forwarded {key : Key} : asked key.file → ctx.forwarders.contains key = true →
    ∃ declaration, g.declaration? key = some declaration ∧
      (declaration.file == key.file) = false
  loose {key : Key} : ctx.isResolved key = false → ctx.dependencies key = []

/-- A key is in the context, or there is nothing to be put there. -/
def Settled (g : ReferenceGraph) (ctx : Context) (key : Key) : Prop :=
  ctx.isResolved key = true ∨ g.declaration? key = none

section

variable [PatternCompiler]

/-- All references of a key are recorded, and where they lead is settled. -/
structure Recorded (g : ReferenceGraph) (ctx : Context) (key : Key) : Prop where
  dependencies : ctx.dependencies key = tidy key (g.next key)
  settled : ∀ k ∈ g.next key, Settled g ctx k

/-- At most a number of keys can still be added. -/
def Fits (g : ReferenceGraph) (asked : Path → Prop) (depth : Nat) (ctx : Context) : Prop :=
  ∀ keys : List Key, Distinct keys →
    (∀ key ∈ keys, asked key.file ∧ (g.declaration? key).isSome = true ∧
      ctx.isResolved key = false) → keys.length ≤ depth

/-- A context has become another one on the way down from a key. -/
structure Explored (g : ReferenceGraph) (asked : Path → Prop) (ctx : Context) (source : Key)
    (ctx' : Context) : Prop where
  sound : Sound g asked ctx'
  kept {key : Key} : ctx.isResolved key = true → ctx'.isResolved key = true
  reached {key : Key} : ctx'.isResolved key = true →
    ctx.isResolved key = true ∨ Reaches g.next source key
  recorded {key : Key} : asked key.file → ctx'.isResolved key = true →
    ctx.isResolved key = true ∨ Recorded g ctx' key

/-- A context has become another one by resolving a key. -/
structure Outcome (g : ReferenceGraph) (asked : Path → Prop) (ctx : Context) (key : Key)
    (ctx' : Context) : Prop extends Explored g asked ctx key ctx' where
  dependencies {k : Key} : ctx.isResolved k = true → ctx'.dependencies k = ctx.dependencies k
  settled : Settled g ctx' key

/-- From the context `base`, which stores the declaration of a key, some of its references have been
followed. -/
structure Following (g : ReferenceGraph) (asked : Path → Prop) (base : Context) (declared : Key)
    (passed : List TypeReference) (ctx : Context) : Prop
    extends Explored g asked base declared ctx where
  others {k : Key} : base.isResolved k = true → (declared == k) = false →
    ctx.dependencies k = base.dependencies k
  own : ctx.dependencies declared =
    tidy declared (passed.filterMap (g.mentioned? declared.file))
  settled : ∀ k ∈ passed.filterMap (g.mentioned? declared.file), Settled g ctx k

/-! ## Spellings and growth -/

theorem Reaches.of_same_source (hg : g.Coherent asked) {a b k : Key} (ha : asked a.file)
    (hb : asked b.file) (h : (a == b) = true) (hr : Reaches g.next a k) : Reaches g.next b k := by
  obtain ⟨c, hac, hkc⟩ := hr
  rcases Relation.ReflTransGen.cases_head hac with rfl | ⟨d, had, hdc⟩
  · exact ⟨b, .refl, BEq.trans hkc h⟩
  · rw [ReferenceGraph.next_congr hg ha hb h] at had
    exact ⟨c, .head had hdc, hkc⟩

theorem Reaches.head {a b k : Key} (h : b ∈ g.next a) (hr : Reaches g.next b k) :
    Reaches g.next a k := by
  obtain ⟨c, hbc, hkc⟩ := hr
  exact ⟨c, .head h hbc, hkc⟩

end

theorem tidy_congr {a b : Key} (h : (a == b) = true) (keys : List Key) :
    tidy a keys = tidy b keys := by
  simp only [tidy, BEq.congr_right h]

theorem Settled.mono {ctx ctx' : Context} {key : Key} (h : Settled g ctx key)
    (kept : ctx.isResolved key = true → ctx'.isResolved key = true) : Settled g ctx' key :=
  h.imp kept id

theorem Settled.congr (hg : g.Coherent asked) {ctx : Context} {a b : Key} (ha : asked a.file)
    (hb : asked b.file) (h : (a == b) = true) (hs : Settled g ctx a) : Settled g ctx b := by
  rcases hs with hs | hs
  · exact Or.inl (by rw [← ctx.isResolved_congr h, hs])
  · exact Or.inr (by rw [← ReferenceGraph.declaration?_congr hg ha hb h, hs])

section

variable [PatternCompiler]

theorem Recorded.congr (hg : g.Coherent asked) {ctx : Context} {a b : Key} (ha : asked a.file)
    (hb : asked b.file) (h : (a == b) = true) (hr : Recorded g ctx a) : Recorded g ctx b where
  dependencies := by
    rw [← ctx.dependencies_congr h, hr.dependencies, ReferenceGraph.next_congr hg ha hb h,
      tidy_congr h]
  settled := by
    rw [← ReferenceGraph.next_congr hg ha hb h]
    exact hr.settled

theorem Recorded.mono {ctx ctx' : Context} {key : Key} (h : Recorded g ctx key)
    (kept : ∀ {k : Key}, ctx.isResolved k = true → ctx'.isResolved k = true)
    (same : ctx'.dependencies key = ctx.dependencies key) : Recorded g ctx' key where
  dependencies := by rw [same, h.dependencies]
  settled k hk := (h.settled k hk).mono kept

end

theorem Fits.mono {depth : Nat} {ctx ctx' : Context} (h : Fits g asked depth ctx)
    (kept : ∀ {k : Key}, ctx.isResolved k = true → ctx'.isResolved k = true) :
    Fits g asked depth ctx' := by
  intro keys distinct hkeys
  apply h keys distinct
  intro key hkey
  obtain ⟨ha, hd, hr⟩ := hkeys key hkey
  refine ⟨ha, hd, ?_⟩
  cases hc : ctx.isResolved key with
  | false => rfl
  | true => rw [kept hc] at hr; exact absurd hr (by simp)

/-- Every key that is added uses up one step of the depth. -/
theorem Fits.step {depth : Nat} {ctx ctx' : Context} {key : Key}
    (h : Fits g asked (depth + 1) ctx) (ha : asked key.file)
    (hd : (g.declaration? key).isSome = true) (hr : ctx.isResolved key = false)
    (hr' : ctx'.isResolved key = true)
    (kept : ∀ {k : Key}, ctx.isResolved k = true → ctx'.isResolved k = true) :
    Fits g asked depth ctx' := by
  intro keys distinct hkeys
  have hnew : ∀ k ∈ keys, (key == k) = false := by
    intro k hk
    cases hkk : key == k with
    | false => rfl
    | true =>
      have hres := (hkeys k hk).2.2
      rw [← ctx'.isResolved_congr hkk, hr'] at hres
      exact absurd hres (by simp)
  have hcons := h (key :: keys) (List.pairwise_cons.mpr ⟨hnew, distinct⟩) (by
    intro k hk
    rcases List.mem_cons.mp hk with rfl | hk
    · exact ⟨ha, hd, hr⟩
    · obtain ⟨hak, hdk, hrk⟩ := hkeys k hk
      refine ⟨hak, hdk, ?_⟩
      cases hc : ctx.isResolved k with
      | false => rfl
      | true => rw [kept hc] at hrk; exact absurd hrk (by simp))
  simp only [List.length_cons] at hcons
  omega

/-- When nothing more can be added, every key is settled. -/
theorem Fits.settled {ctx : Context} (h : Fits g asked 0 ctx) {key : Key} (ha : asked key.file) :
    Settled g ctx key := by
  cases hr : ctx.isResolved key with
  | true => exact Or.inl hr
  | false =>
    cases hd : g.declaration? key with
    | none => exact Or.inr hd
    | some declaration =>
      have := h [key] (List.pairwise_singleton _ _) (by simp [ha, hd, hr])
      simp at this

theorem fits_bound (hg : g.Coherent asked) (ctx : Context) :
    Fits g asked (g.introspector.bound g.disk) ctx := by
  intro keys distinct hkeys
  exact hg.bounded distinct fun key hkey => ⟨(hkeys key hkey).1, (hkeys key hkey).2.1⟩

/-! ## Changes that keep a context sound -/

theorem sound_empty (g : ReferenceGraph) (asked : Path → Prop) : Sound g asked .empty where
  current := ReferenceGraph.current_empty g
  text := by intro key text _ h; simp at h
  forwarded := by intro key _ h; simp [Context.empty] at h
  loose := fun _ => rfl

theorem Sound.loadDependencies {ctx : Context} (h : Sound g asked ctx) :
    Sound g asked (ctx.loadDependencies g.disk g.options.root) where
  current := h.current.loadDependencies
  text ha ht := h.text ha (by simpa using ht)
  forwarded ha hf := h.forwarded ha (by simpa using hf)
  loose hr := by
    rw [ctx.dependencies_loadDependencies]
    exact h.loose (by simpa using hr)

theorem Sound.addEdge {ctx : Context} (h : Sound g asked ctx) {source : Key} (target : Key)
    (hs : ctx.isResolved source = true) : Sound g asked (ctx.addEdge source target) where
  current := h.current
  text := h.text
  forwarded := h.forwarded
  loose := by
    intro key hr
    rw [ctx.isResolved_addEdge] at hr
    have hk : ¬(source == key) = true := by
      intro hk
      rw [← ctx.isResolved_congr hk, hs] at hr
      exact absurd hr (by simp)
    rw [ctx.dependencies_addEdge, if_neg hk]
    exact h.loose hr

theorem Sound.insert (hg : g.Coherent asked) {ctx : Context} (h : Sound g asked ctx) {key : Key}
    {declaration : DeclaredType} (hk : asked key.file) (hd : g.declaration? key = some declaration)
    (hf : (declaration.file == key.file) = true) :
    Sound g asked (ctx.insert key declaration.text) where
  current := by simpa [ReferenceGraph.Current] using h.current
  text := by
    intro k text ha ht
    rw [ctx.text?_insert] at ht
    split at ht
    · exact h.text ha ht
    split at ht
    · next hkk =>
      refine ⟨declaration, ?_, ?_, (Option.some.inj ht).symm⟩
      · rw [← ReferenceGraph.declaration?_congr hg hk ha hkk, hd]
      · rw [← BEq.congr_right (Key.beq_iff.mp hkk).2, hf]
    · exact h.text ha ht
  forwarded := by
    intro k ha hk
    rw [ctx.forwarders_insert] at hk
    exact h.forwarded ha hk
  loose := by
    intro k hr
    rw [ctx.isResolved_insert, Bool.or_eq_false_iff] at hr
    rw [ctx.dependencies_insert]
    exact h.loose hr.1

theorem Sound.addForwarder (hg : g.Coherent asked) {ctx : Context} (h : Sound g asked ctx)
    {key : Key} {declaration : DeclaredType} (hk : asked key.file)
    (hd : g.declaration? key = some declaration)
    (hf : (declaration.file == key.file) = false) (target : Key) :
    Sound g asked (ctx.addForwarder key target) where
  current := h.current
  text := h.text
  forwarded := by
    intro k ha hc
    rw [ctx.forwarders_addForwarder, Bool.or_eq_true] at hc
    rcases hc with hc | hkk
    · exact h.forwarded ha hc
    · refine ⟨declaration, ?_, ?_⟩
      · rw [ReferenceGraph.declaration?_congr hg ha hk hkk, hd]
      · rw [BEq.congr_right (Key.beq_iff.mp hkk).2, hf]
  loose := by
    intro k hr
    rw [ctx.isResolved_addForwarder, Bool.or_eq_false_iff] at hr
    have hkk : ¬(key == k) = true := fun hkk => by simp [BEq.symm hkk] at hr
    rw [ctx.dependencies_addForwarder, if_neg hkk]
    exact h.loose hr.1

/-! ## Resolving one key -/

section

variable [PatternCompiler]

theorem Outcome.refl {ctx : Context} {key : Key} (h : Sound g asked ctx)
    (hs : Settled g ctx key) : Outcome g asked ctx key ctx where
  sound := h
  kept := id
  reached := Or.inl
  recorded := fun _ => Or.inl
  dependencies := fun _ => rfl
  settled := hs

theorem Outcome.of_same_key (hg : g.Coherent asked) {ctx ctx' : Context} {a b : Key}
    (ha : asked a.file) (hb : asked b.file) (h : (a == b) = true)
    (ho : Outcome g asked ctx a ctx') : Outcome g asked ctx b ctx' where
  sound := ho.sound
  kept := ho.kept
  reached hr := (ho.reached hr).imp_right (Reaches.of_same_source hg ha hb h)
  recorded := ho.recorded
  dependencies := ho.dependencies
  settled := ho.settled.congr hg ha hb h

/-- Nothing has been followed right after a declaration has been stored. -/
private theorem Following.start (hg : g.Coherent asked) {ctx : Context} (h : Sound g asked ctx)
    {declared : Key} {declaration : DeclaredType} (ha : asked declared.file)
    (hd : g.declaration? declared = some declaration)
    (hf : (declaration.file == declared.file) = true) (hr : ctx.isResolved declared = false) :
    Following g asked (ctx.insert declared declaration.text) declared []
      (ctx.insert declared declaration.text) where
  sound := h.insert hg ha hd hf
  kept := id
  reached := Or.inl
  recorded := fun _ => Or.inl
  others := fun _ _ => rfl
  own := by rw [ctx.dependencies_insert, h.loose hr]; rfl
  settled := by simp

/-- Reading the dependencies of the project leaves everything else as it is. -/
private theorem Following.loadDependencies {base ctx : Context} {declared : Key}
    {passed : List TypeReference} (h : Following g asked base declared passed ctx) :
    Following g asked base declared passed (ctx.loadDependencies g.disk g.options.root) where
  sound := h.sound.loadDependencies
  kept hr := by rw [ctx.isResolved_loadDependencies]; exact h.kept hr
  reached hr := h.reached (by simpa using hr)
  recorded ha hr :=
    (h.recorded ha (by simpa using hr)).imp_right fun hk => hk.mono (by simp) (by simp)
  others hr hk := by rw [ctx.dependencies_loadDependencies]; exact h.others hr hk
  own := by rw [ctx.dependencies_loadDependencies]; exact h.own
  settled k hk := (h.settled k hk).mono (by simp)

/-- The edge to the declaration itself is not recorded, any other one once. -/
private theorem Following.own_addEdge {base ctx : Context} {declared : Key}
    {passed : List TypeReference} (h : Following g asked base declared passed ctx)
    {r : TypeReference} {mentioned : Key} (hm : g.mentioned? declared.file r = some mentioned) :
    (if mentioned == declared then ctx else ctx.addEdge declared mentioned).dependencies declared =
      tidy declared ((passed ++ [r]).filterMap (g.mentioned? declared.file)) := by
  have hlast : [r].filterMap (g.mentioned? declared.file) = [mentioned] := by simp [hm]
  rw [List.filterMap_append, hlast, DepthFirst.tidy_append_singleton, ← h.own]
  by_cases hself : mentioned == declared
  · simp only [hself, ↓reduceIte]
  · simp only [hself, Bool.false_eq_true, ↓reduceIte]
    rw [ctx.dependencies_addEdge, if_pos BEq.rfl]

/-- Going on from where a reference leads takes one more reference as followed. -/
private theorem Following.go {base ctx ctx' : Context} {declared : Key}
    {passed : List TypeReference} (h : Following g asked base declared passed ctx)
    (hb : base.isResolved declared = true)
    {r : TypeReference} {mentioned : Key} (hm : g.mentioned? declared.file r = some mentioned)
    (hmem : mentioned ∈ g.next declared)
    (ho : Outcome g asked (if mentioned == declared then ctx else ctx.addEdge declared mentioned)
      mentioned ctx') : Following g asked base declared (passed ++ [r]) ctx' := by
  have hlinked : ∀ k, (if mentioned == declared then ctx
      else ctx.addEdge declared mentioned).isResolved k = ctx.isResolved k := by
    intro k
    split
    · rfl
    · exact ctx.isResolved_addEdge declared mentioned k
  have hother : ∀ {k : Key}, (declared == k) = false → (if mentioned == declared then ctx
      else ctx.addEdge declared mentioned).dependencies k = ctx.dependencies k := by
    intro k hk
    split
    · rfl
    · rw [ctx.dependencies_addEdge, hk, if_neg Bool.false_ne_true]
  have kept : ∀ {k : Key}, ctx.isResolved k = true → ctx'.isResolved k = true :=
    fun {k} hr => ho.kept (by rw [hlinked k, hr])
  have hdeclared : ctx.isResolved declared = true := h.kept hb
  have hown : ctx'.dependencies declared =
      tidy declared ((passed ++ [r]).filterMap (g.mentioned? declared.file)) := by
    rw [ho.dependencies (by rw [hlinked, hdeclared]), h.own_addEdge hm]
  refine ⟨⟨ho.sound, fun hr => kept (h.kept hr), ?_, ?_⟩, ?_, hown, ?_⟩
  · intro k hr
    rcases ho.reached hr with hr | hr
    · rw [hlinked k] at hr
      exact h.reached hr
    · exact Or.inr (hr.head hmem)
  · intro k hak hr
    rcases ho.recorded hak hr with hr | hr
    · rw [hlinked k] at hr
      rcases h.recorded hak hr with hbase | hrec
      · exact Or.inl hbase
      · cases hk : declared == k with
        | true => exact Or.inl (by rw [← base.isResolved_congr hk, hb])
        | false =>
          refine Or.inr (hrec.mono kept ?_)
          rw [ho.dependencies (by rw [hlinked, hr]), hother hk]
    · exact Or.inr hr
  · intro k hr hk
    rw [ho.dependencies (by rw [hlinked, h.kept hr]), hother hk, h.others hr hk]
  · intro k hk
    have hlast : [r].filterMap (g.mentioned? declared.file) = [mentioned] := by simp [hm]
    rw [List.filterMap_append, hlast] at hk
    rcases List.mem_append.mp hk with hk | hk
    · exact (h.settled k hk).mono kept
    · rw [List.mem_singleton.mp hk]
      exact ho.settled

/-- What going on from a key does when one step less can be made. -/
def GoesOn (g : ReferenceGraph) (asked : Path → Prop) (depth : Nat)
    (goOn : Context → Key → Context) : Prop :=
  ∀ ctx key, asked key.file → Sound g asked ctx → Fits g asked depth ctx →
    Outcome g asked ctx key (goOn ctx key)

/-- Following one reference takes it over, whether or not it can be resolved. -/
private theorem Following.follow (hg : g.Coherent asked) {base ctx : Context} {declared : Key}
    {passed : List TypeReference} {depth : Nat} {goOn : Context → Key → Context}
    (hgo : GoesOn g asked depth goOn) (h : Following g asked base declared passed ctx)
    (hb : base.isResolved declared = true) (hfits : Fits g asked depth base) (r : TypeReference)
    (hnext : ∀ k, g.mentioned? declared.file r = some k → k ∈ g.next declared) :
    Following g asked base declared (passed ++ [r])
      (Closure.follow g.disk g.options goOn declared ctx r) := by
  have hresult := h.sound.current.resolveReference r.source declared.file
  have hctx := ReferenceGraph.resolveReference_context g.disk g.options ctx r.source declared.file
  rcases hres : Resolution.resolveReference g.disk g.options ctx r.source declared.file with
    ⟨result, after⟩
  rw [hres] at hresult hctx
  have hafter : Following g asked base declared passed after := by
    rcases hctx with rfl | rfl
    · exact h
    · exact h.loadDependencies
  cases result with
  | error failure =>
    have hm : g.mentioned? declared.file r = none := by
      simp only [ReferenceGraph.mentioned?, ← hresult]
    have hsame : (passed ++ [r]).filterMap (g.mentioned? declared.file) =
        passed.filterMap (g.mentioned? declared.file) := by simp [hm]
    simp only [Closure.follow, hres]
    exact { hafter with
      own := by rw [hsame]; exact hafter.own
      settled := by rw [hsame]; exact hafter.settled }
  | ok target =>
    have hm : g.mentioned? declared.file r = some ⟨target, r.name⟩ := by
      simp only [ReferenceGraph.mentioned?, ← hresult]
    simp only [Closure.follow, hres]
    apply hafter.go hb hm (hnext _ hm)
    have hresolved := hafter.kept hb
    refine hgo _ _ (ReferenceGraph.mentioned?_asked hg hm) ?_ ?_
    · split
      · exact hafter.sound
      · exact hafter.sound.addEdge _ hresolved
    · refine hfits.mono fun {k} hr => ?_
      have := hafter.kept hr
      split
      · exact this
      · rw [after.isResolved_addEdge, this]

private theorem Following.follow_all (hg : g.Coherent asked) {base ctx : Context} {declared : Key}
    {passed : List TypeReference} {depth : Nat} {goOn : Context → Key → Context}
    (hgo : GoesOn g asked depth goOn) (h : Following g asked base declared passed ctx)
    (hb : base.isResolved declared = true) (hfits : Fits g asked depth base)
    (references : List TypeReference)
    (hnext : ∀ r ∈ references, ∀ k, g.mentioned? declared.file r = some k → k ∈ g.next declared) :
    Following g asked base declared (passed ++ references)
      (references.foldl (Closure.follow g.disk g.options goOn declared) ctx) := by
  induction references generalizing passed ctx with
  | nil => simpa using h
  | cons r references ih =>
    have hr := h.follow hg hgo hb hfits r (hnext r List.mem_cons_self)
    have hall := ih hr fun s hs => hnext s (List.mem_cons_of_mem _ hs)
    rw [List.append_assoc] at hall
    exact hall

/-- Storing a declaration and following all its references settles its key. -/
private theorem store_outcome (hg : g.Coherent asked) {depth : Nat}
    {goOn : Context → Key → Context} (hgo : GoesOn g asked depth goOn) {ctx : Context}
    (h : Sound g asked ctx) (hfits : Fits g asked (depth + 1) ctx) {declared : Key}
    {declaration : DeclaredType} (ha : asked declared.file)
    (hd : g.declaration? declared = some declaration) (hfile : declaration.file = declared.file)
    (hr : ctx.isResolved declared = false) :
    Outcome g asked ctx declared (declaration.references.foldl
      (Closure.follow g.disk g.options goOn declared) (ctx.insert declared declaration.text)) := by
  have hf : (declaration.file == declared.file) = true := by rw [hfile]; exact BEq.rfl
  have hnew : ∀ {k : Key}, (ctx.insert declared declaration.text).isResolved k = true →
      ctx.isResolved k = true ∨ (declared == k) = true := by
    intro k hk
    rwa [ctx.isResolved_insert, Bool.or_eq_true] at hk
  have hkept : ∀ {k : Key}, ctx.isResolved k = true →
      (ctx.insert declared declaration.text).isResolved k = true := by
    intro k hk
    rw [ctx.isResolved_insert, hk, Bool.true_or]
  have hstored : (ctx.insert declared declaration.text).isResolved declared = true := by
    rw [ctx.isResolved_insert]
    simp
  have hmentions : g.next declared =
      declaration.references.filterMap (g.mentioned? declared.file) := by
    rw [ReferenceGraph.next_of_declaration hd hf, hfile]
  have hstart := Following.start hg h ha hd hf hr
  have hall := hstart.follow_all hg hgo hstored
    (hfits.step ha (by simp [hd]) hr hstored hkept) declaration.references (by
      intro r hr k hk
      rw [hmentions]
      exact List.mem_filterMap.mpr ⟨r, hr, hk⟩)
  rw [List.nil_append] at hall
  have hrecorded : Recorded g _ declared := ⟨by rw [hall.own, hmentions], fun k hk =>
    hall.settled k (by rw [← hmentions]; exact hk)⟩
  refine ⟨⟨hall.sound, fun hk => hall.kept (hkept hk), ?_, ?_⟩, ?_, Or.inl (hall.kept hstored)⟩
  · intro k hk
    rcases hall.reached hk with hk | hk
    · rcases hnew hk with hk | hk
      · exact Or.inl hk
      · exact Or.inr ⟨declared, .refl, BEq.symm hk⟩
    · exact Or.inr hk
  · intro k hak hk
    rcases hall.recorded hak hk with hk | hk
    · rcases hnew hk with hk | hk
      · exact Or.inl hk
      · exact Or.inr (hrecorded.congr hg ha hak hk)
    · exact Or.inr hk
  · intro k hk
    have hother : (declared == k) = false := by
      cases hkk : declared == k with
      | false => rfl
      | true =>
        rw [ctx.isResolved_congr hkk, hk] at hr
        exact absurd hr (by simp)
    rw [hall.others (hkept hk) hother, ctx.dependencies_insert]

/-- A key that is forwarded leads to the declaration's key and to nothing else. -/
private theorem forward_outcome (hg : g.Coherent asked) {ctx ctx' : Context}
    (h : Sound g asked ctx) {key : Key} {declaration : DeclaredType} (ha : asked key.file)
    (hd : g.declaration? key = some declaration) (hf : (declaration.file == key.file) = false)
    (hr : ctx.isResolved key = false)
    (ho : Outcome g asked (ctx.addForwarder key ⟨declaration.file, key.symbol⟩)
      ⟨declaration.file, key.symbol⟩ ctx') : Outcome g asked ctx key ctx' := by
  have hnext := ReferenceGraph.next_of_forwarded hd hf
  have hother : ((⟨declaration.file, key.symbol⟩ : Key) == key) = false := by
    cases hk : (⟨declaration.file, key.symbol⟩ : Key) == key with
    | false => rfl
    | true => rw [(Key.beq_iff.mp hk).2] at hf; exact hf
  generalize (⟨declaration.file, key.symbol⟩ : Key) = declared at ho hnext hother
  have hnew : ∀ {k : Key}, (ctx.addForwarder key declared).isResolved k = true →
      ctx.isResolved k = true ∨ (k == key) = true := by
    intro k hk
    rwa [ctx.isResolved_addForwarder, Bool.or_eq_true] at hk
  have hkept : ∀ {k : Key}, ctx.isResolved k = true →
      (ctx.addForwarder key declared).isResolved k = true := by
    intro k hk
    rw [ctx.isResolved_addForwarder, hk, Bool.true_or]
  have hstored : (ctx.addForwarder key declared).isResolved key = true := by
    rw [ctx.isResolved_addForwarder]
    simp
  have hrecorded : Recorded g ctx' key := by
    refine ⟨?_, ?_⟩
    · rw [ho.dependencies hstored, ctx.dependencies_addForwarder, if_pos BEq.rfl, h.loose hr, hnext]
      simp [tidy, hother]
    · intro k hk
      rw [hnext] at hk
      rw [List.mem_singleton.mp hk]
      exact ho.settled
  refine ⟨⟨ho.sound, fun hk => ho.kept (hkept hk), ?_, ?_⟩, ?_, Or.inl (ho.kept hstored)⟩
  · intro k hk
    rcases ho.reached hk with hk | hk
    · rcases hnew hk with hk | hk
      · exact Or.inl hk
      · exact Or.inr ⟨key, .refl, hk⟩
    · exact Or.inr (hk.head (by simp [hnext]))
  · intro k hak hk
    rcases ho.recorded hak hk with hk | hk
    · rcases hnew hk with hk | hk
      · exact Or.inl hk
      · exact Or.inr (hrecorded.congr hg ha hak (BEq.symm hk))
    · exact Or.inr hk
  · intro k hk
    have hkk : ¬(key == k) = true := by
      intro hkk
      rw [ctx.isResolved_congr hkk, hk] at hr
      exact absurd hr (by simp)
    rw [ho.dependencies (hkept hk), ctx.dependencies_addForwarder, if_neg hkk]

/-- Resolving a key settles it, whatever has been resolved before. -/
theorem resolveWithin_outcome (hg : g.Coherent asked) (depth : Nat) :
    GoesOn g asked depth (Closure.resolveWithin g.introspector g.disk g.options depth) := by
  induction depth with
  | zero =>
    intro ctx key ha h hfits
    exact .refl h (hfits.settled ha)
  | succ depth ih =>
    intro ctx key ha h hfits
    rw [Closure.resolveWithin]
    by_cases hr : ctx.isResolved key = true
    · rw [if_pos hr]
      exact .refl h (Or.inl hr)
    rw [if_neg hr]
    replace hr : ctx.isResolved key = false := by simpa using hr
    cases hd : g.declaration? key with
    | none =>
      simp only [ReferenceGraph.declaration?] at hd
      rw [hd]
      exact .refl h (Or.inr hd)
    | some declaration =>
      obtain ⟨hda, hdd⟩ := hg.written ha hd
      replace hdd : g.declaration? ⟨declaration.file, key.symbol⟩ = some declaration := hdd
      have hf : (declaration.file == key.file) =
          ((⟨declaration.file, key.symbol⟩ : Key) == key) := by
        rw [Bool.eq_iff_iff, Key.beq_iff]
        simp
      simp only [ReferenceGraph.declaration?] at hd
      rw [hd]
      by_cases hsame : (⟨declaration.file, key.symbol⟩ : Key) == key
      · simp only [hsame, ↓reduceIte, Bool.not_true, Bool.false_and, Bool.false_eq_true]
        have hstore := store_outcome hg ih h hfits hda hdd rfl
          (by rw [ctx.isResolved_congr hsame, hr])
        exact hstore.of_same_key hg hda ha hsame
      · replace hf : (declaration.file == key.file) = false := by rw [hf]; simpa using hsame
        have hsound := h.addForwarder hg ha hd hf ⟨declaration.file, key.symbol⟩
        apply forward_outcome hg h ha hd hf hr
        simp only [hsame, Bool.false_eq_true, ↓reduceIte, Bool.not_false, Bool.true_and]
        cases hstored : (ctx.addForwarder key ⟨declaration.file, key.symbol⟩).isResolved
            ⟨declaration.file, key.symbol⟩ with
        | true => exact .refl hsound (Or.inl hstored)
        | false =>
          refine store_outcome hg ih hsound (hfits.mono ?_) hda hdd rfl hstored
          intro k hk
          rw [ctx.isResolved_addForwarder, hk, Bool.true_or]

/-- Resolving a key to the bound of the introspector settles it. -/
theorem resolve_outcome (hg : g.Coherent asked) {ctx : Context} {key : Key} (ha : asked key.file)
    (h : Sound g asked ctx) :
    Outcome g asked ctx key (Closure.resolve g.introspector g.disk g.options ctx key) :=
  resolveWithin_outcome hg _ ctx key ha h (fits_bound hg ctx)

end

end TypeInliner
