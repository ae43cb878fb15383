import TypeInliner.Proofs.ClosureExactness

/-! # Resolving ends and asks once

`Closure.Runs` tells how a key is resolved without a bound on the depth, together with the keys that
the introspector is asked about on the way. A key with a declaration is resolved, under its own file
or as one that is forwarded, before anything that the declaration mentions is looked at. Every step
down therefore uses up one of the keys with a declaration, so that resolving ends whatever these
mention; and a key that has been asked about is not asked about again. Nothing is assumed of the
answers but that they are finitely many. -/

namespace TypeInliner.Closure

/-- What is to be done in a context: a key is to be resolved, or references are to be followed in a
declaration that is stored. -/
inductive Task
  | resolve (key : Key)
  | follow (declared : Key) (references : List TypeReference)

/-- The key under which the declaration that a key is answered is stored. -/
def declaredKey (key : Key) (declaration : DeclaredType) : Key := ⟨declaration.file, key.symbol⟩

/-- The context in which a key is forwarded to the key of its declaration, unless that is the key
itself. -/
def forwarding (ctx : Context) (key declared : Key) : Context :=
  if declared == key then ctx else ctx.addForwarder key declared

/-- The context in which a declaration has an edge to what it mentions, unless that is the
declaration itself. -/
def mentioning (ctx : Context) (declared mentioned : Key) : Context :=
  if mentioned == declared then ctx else ctx.addEdge declared mentioned

variable {g : ReferenceGraph} {ctx ctx' : Context}

section

variable [PatternCompiler]

/-- A task is carried out: the introspector is asked about some keys, one after another, and another
context is left behind. -/
inductive Runs (g : ReferenceGraph) : Context → Task → List Key → Context → Prop
  | known {ctx : Context} {key : Key} (resolved : ctx.isResolved key = true) :
      Runs g ctx (.resolve key) [] ctx
  | missing {ctx : Context} {key : Key} (new : ctx.isResolved key = false)
      (answer : g.declaration? key = none) : Runs g ctx (.resolve key) [key] ctx
  | forwarded {ctx : Context} {key : Key} {declaration : DeclaredType}
      (new : ctx.isResolved key = false) (answer : g.declaration? key = some declaration)
      (stored : (forwarding ctx key (declaredKey key declaration)).isResolved
        (declaredKey key declaration) = true) :
      Runs g ctx (.resolve key) [key] (forwarding ctx key (declaredKey key declaration))
  | stored {ctx ctx' : Context} {key : Key} {declaration : DeclaredType} {queries : List Key}
      (new : ctx.isResolved key = false) (answer : g.declaration? key = some declaration)
      (unknown : (forwarding ctx key (declaredKey key declaration)).isResolved
        (declaredKey key declaration) = false)
      (down : Runs g ((forwarding ctx key (declaredKey key declaration)).insert
          (declaredKey key declaration) declaration.text)
        (.follow (declaredKey key declaration) declaration.references) queries ctx') :
      Runs g ctx (.resolve key) (key :: queries) ctx'
  | done {ctx : Context} {declared : Key} : Runs g ctx (.follow declared []) [] ctx
  | passed {ctx after ctx' : Context} {declared : Key} {r : TypeReference}
      {others : List TypeReference} {failure : Failure} {queries : List Key}
      (unresolved : Resolution.resolveReference g.disk g.options ctx r.source declared.file =
        (.error failure, after))
      (rest : Runs g after (.follow declared others) queries ctx') :
      Runs g ctx (.follow declared (r :: others)) queries ctx'
  | followed {ctx after middle ctx' : Context} {declared : Key} {r : TypeReference}
      {others : List TypeReference} {file : Path} {queries queries' : List Key}
      (leads : Resolution.resolveReference g.disk g.options ctx r.source declared.file =
        (.ok file, after))
      (down : Runs g (mentioning after declared ⟨file, r.name⟩) (.resolve ⟨file, r.name⟩) queries
        middle)
      (rest : Runs g middle (.follow declared others) queries' ctx') :
      Runs g ctx (.follow declared (r :: others)) (queries ++ queries') ctx'

/-- Keys are resolved one after another. -/
inductive RunsAll (g : ReferenceGraph) : Context → List Key → List Key → Context → Prop
  | done {ctx : Context} : RunsAll g ctx [] [] ctx
  | next {ctx middle ctx' : Context} {key : Key} {keys queries queries' : List Key}
      (first : Runs g ctx (.resolve key) queries middle)
      (rest : RunsAll g middle keys queries' ctx') :
      RunsAll g ctx (key :: keys) (queries ++ queries') ctx'

/-- A task is carried out in one way only. -/
theorem Runs.unique {task : Task} {queries queries' : List Key} {other : Context}
    (h : Runs g ctx task queries ctx') (h' : Runs g ctx task queries' other) :
    queries = queries' ∧ ctx' = other := by
  induction h generalizing queries' other with
  | known resolved =>
    cases h' with
    | known _ => exact ⟨rfl, rfl⟩
    | missing new _ => simp [resolved] at new
    | forwarded new _ _ => simp [resolved] at new
    | stored new _ _ _ => simp [resolved] at new
  | missing new answer =>
    cases h' with
    | known resolved => simp [resolved] at new
    | missing _ _ => exact ⟨rfl, rfl⟩
    | forwarded _ answer' _ => simp [answer] at answer'
    | stored _ answer' _ _ => simp [answer] at answer'
  | forwarded new answer stored =>
    cases h' with
    | known resolved => simp [resolved] at new
    | missing _ answer' => simp [answer] at answer'
    | forwarded _ answer' _ =>
      obtain rfl := Option.some.inj (answer.symm.trans answer')
      exact ⟨rfl, rfl⟩
    | stored _ answer' unknown _ =>
      obtain rfl := Option.some.inj (answer.symm.trans answer')
      simp [stored] at unknown
  | stored new answer unknown _ ih =>
    cases h' with
    | known resolved => simp [resolved] at new
    | missing _ answer' => simp [answer] at answer'
    | forwarded _ answer' stored =>
      obtain rfl := Option.some.inj (answer.symm.trans answer')
      simp [stored] at unknown
    | stored _ answer' _ down =>
      obtain rfl := Option.some.inj (answer.symm.trans answer')
      obtain ⟨rfl, rfl⟩ := ih down
      exact ⟨rfl, rfl⟩
  | done =>
    cases h' with
    | done => exact ⟨rfl, rfl⟩
  | passed unresolved _ ih =>
    cases h' with
    | passed unresolved' rest =>
      obtain rfl := (Prod.mk.inj (unresolved.symm.trans unresolved')).2
      exact ih rest
    | followed leads _ _ => simp [unresolved] at leads
  | followed leads _ _ ihDown ihRest =>
    cases h' with
    | passed unresolved _ => simp [leads] at unresolved
    | followed leads' down rest =>
      obtain ⟨hfile, rfl⟩ := Prod.mk.inj (leads.symm.trans leads')
      obtain rfl := Except.ok.inj hfile
      obtain ⟨rfl, rfl⟩ := ihDown down
      obtain ⟨rfl, rfl⟩ := ihRest rest
      exact ⟨rfl, rfl⟩

end

/-! ## Asking about a key -/

theorem isResolved_forwarding {key declared k : Key} (h : ctx.isResolved k = true) :
    (forwarding ctx key declared).isResolved k = true := by
  unfold forwarding
  split
  · exact h
  · rw [ctx.isResolved_addForwarder, h, Bool.true_or]

/-- A key that is not its declaration's own is resolved when it has been forwarded. -/
theorem forwarding_resolves (ctx : Context) (key declared : Key) :
    (declared == key) = true ∨ (forwarding ctx key declared).isResolved key = true := by
  unfold forwarding
  split
  · next hsame => exact Or.inl hsame
  · right
    rw [ctx.isResolved_addForwarder, BEq.rfl, Bool.or_true]

/-- A key is resolved with its declaration. -/
theorem isResolved_key_of_declared {key declared : Key}
    (h : (forwarding ctx key declared).isResolved declared = true) :
    (forwarding ctx key declared).isResolved key = true := by
  rcases forwarding_resolves ctx key declared with hsame | hkey
  · rw [← Context.isResolved_congr _ hsame, h]
  · exact hkey

theorem isResolved_forwarding_insert (ctx : Context) (key declared : Key) (text : Text) :
    ((forwarding ctx key declared).insert declared text).isResolved key = true := by
  rw [Context.isResolved_insert, Bool.or_eq_true]
  exact (forwarding_resolves ctx key declared).symm

@[simp] theorem isResolved_mentioning (ctx : Context) (declared mentioned k : Key) :
    (mentioning ctx declared mentioned).isResolved k = ctx.isResolved k := by
  unfold mentioning
  split <;> rfl

/-- The key of a declaration that is another one than the given key can be resolved already, but not
one that is the same. -/
theorem other_and_isResolved {key : Key} (new : ctx.isResolved key = false) (declared : Key) :
    (!(declared == key) && (forwarding ctx key declared).isResolved declared) =
      (forwarding ctx key declared).isResolved declared := by
  by_cases hsame : declared == key
  · rw [forwarding, if_pos hsame, ctx.isResolved_congr hsame, new, Bool.and_false]
  · simp [hsame]

theorem isResolved_of_resolveReference [PatternCompiler] {d : Disk} {options : Options}
    {specifier : Text} {file : Path} {result : Except Failure Path}
    (h : Resolution.resolveReference d options ctx specifier file = (result, ctx')) (k : Key) :
    ctx'.isResolved k = ctx.isResolved k := by
  have hcontext := ReferenceGraph.resolveReference_context d options ctx specifier file
  rw [h] at hcontext
  rcases hcontext with rfl | rfl
  · rfl
  · exact ctx.isResolved_loadDependencies d options.root k

/-! ## No key is asked about twice -/

/-- From one context to another, those of some keys that have a declaration have become resolved,
and no two of them are the same. -/
structure AsksOnce (g : ReferenceGraph) (ctx : Context) (queries : List Key) (ctx' : Context) :
    Prop where
  kept {k : Key} : ctx.isResolved k = true → ctx'.isResolved k = true
  new : ∀ k ∈ queries, (g.declaration? k).isSome = true →
    ctx.isResolved k = false ∧ ctx'.isResolved k = true
  once : Distinct (queries.filter fun k => (g.declaration? k).isSome)

namespace AsksOnce

variable {queries queries' : List Key} {middle : Context}

theorem of_kept (h : ∀ k, ctx.isResolved k = true → ctx'.isResolved k = true) :
    AsksOnce g ctx [] ctx' where
  kept hk := h _ hk
  new := by simp
  once := List.Pairwise.nil

theorem trans (h : AsksOnce g ctx queries middle) (h' : AsksOnce g middle queries' ctx') :
    AsksOnce g ctx (queries ++ queries') ctx' where
  kept hk := h'.kept (h.kept hk)
  new := by
    intro k hk hd
    rcases List.mem_append.mp hk with hk | hk
    · obtain ⟨hnew, hresolved⟩ := h.new k hk hd
      exact ⟨hnew, h'.kept hresolved⟩
    · obtain ⟨hnew, hresolved⟩ := h'.new k hk hd
      refine ⟨?_, hresolved⟩
      cases hr : ctx.isResolved k with
      | false => rfl
      | true => rw [h.kept hr] at hnew; exact hnew
  once := by
    rw [List.filter_append]
    refine List.pairwise_append.mpr ⟨h.once, h'.once, fun a ha b hb => ?_⟩
    obtain ⟨ha, hda⟩ := List.mem_filter.mp ha
    obtain ⟨hb, hdb⟩ := List.mem_filter.mp hb
    -- The first one is resolved before the second one is asked about.
    cases hab : a == b with
    | false => rfl
    | true =>
      have hresolved := (h.new a ha hda).2
      rw [middle.isResolved_congr hab, (h'.new b hb hdb).1] at hresolved
      exact absurd hresolved (by simp)

/-- A key with a declaration is asked about and becomes resolved. -/
theorem of_asked {key : Key} (new : ctx.isResolved key = false)
    (h : ∀ k, ctx.isResolved k = true → ctx'.isResolved k = true)
    (resolved : ctx'.isResolved key = true) : AsksOnce g ctx [key] ctx' where
  kept hk := h _ hk
  new k hk _ := by
    rw [List.mem_singleton.mp hk]
    exact ⟨new, resolved⟩
  once := (List.pairwise_singleton _ key).filter _

theorem of_missing {key : Key} (answer : g.declaration? key = none) :
    AsksOnce g ctx [key] ctx where
  kept := id
  new k hk hd := by
    rw [List.mem_singleton.mp hk, answer] at hd
    simp at hd
  once := (List.pairwise_singleton _ key).filter _

end AsksOnce

/-- At most as many keys have a declaration as the introspector says. -/
theorem fits_of_bounded (h : g.introspector.Bounded g.disk) (ctx : Context) :
    Fits g (fun _ => True) (g.introspector.bound g.disk) ctx :=
  fun keys distinct hkeys => h keys distinct fun key hkey => (hkeys key hkey).2.1

section

variable [PatternCompiler]

/-- Carrying out a task asks about each key with a declaration at most once, and only about keys
that are not resolved. -/
theorem Runs.asksOnce {task : Task} {queries : List Key} (h : Runs g ctx task queries ctx') :
    AsksOnce g ctx queries ctx' := by
  induction h with
  | known _ => exact .of_kept fun _ => id
  | missing _ answer => exact .of_missing answer
  | forwarded new _ stored =>
    exact .of_asked new (fun _ => isResolved_forwarding) (isResolved_key_of_declared stored)
  | stored new _ _ _ ih =>
    refine .trans (.of_asked new (fun k hk => ?_) (isResolved_forwarding_insert _ _ _ _)) ih
    rw [Context.isResolved_insert, isResolved_forwarding hk, Bool.true_or]
  | done => exact .of_kept fun _ => id
  | passed unresolved _ ih =>
    refine .trans (.of_kept fun k hk => ?_) ih
    rw [isResolved_of_resolveReference unresolved, hk]
  | followed leads _ _ ihDown ihRest =>
    refine .trans (.trans (.of_kept fun k hk => ?_) ihDown) ihRest
    rw [isResolved_mentioning, isResolved_of_resolveReference leads, hk]

theorem RunsAll.asksOnce {keys queries : List Key} (h : RunsAll g ctx keys queries ctx') :
    AsksOnce g ctx queries ctx' := by
  induction h with
  | done => exact .of_kept fun _ => id
  | next first _ ih => exact first.asksOnce.trans ih

/-! ## Resolving ends -/

/-- The references of a declaration are followed if what they lead to can be resolved. -/
theorem exists_runs_follow {depth : Nat} {goOn : Context → Key → Context}
    (hgo : ∀ ctx key, Fits g (fun _ => True) depth ctx →
      ∃ queries, Runs g ctx (.resolve key) queries (goOn ctx key))
    (declared : Key) (references : List TypeReference) (hfits : Fits g (fun _ => True) depth ctx) :
    ∃ queries, Runs g ctx (.follow declared references) queries
      (references.foldl (follow g.disk g.options goOn declared) ctx) := by
  induction references generalizing ctx with
  | nil => exact ⟨[], .done⟩
  | cons r references ih =>
    rw [List.foldl_cons]
    rcases hleads : Resolution.resolveReference g.disk g.options ctx r.source declared.file with
      ⟨result, after⟩
    have hafter : Fits g (fun _ => True) depth after :=
      hfits.mono fun {k} hk => by rw [isResolved_of_resolveReference hleads, hk]
    cases result with
    | error failure =>
      obtain ⟨queries, hrest⟩ := ih hafter
      simp only [follow, hleads]
      exact ⟨queries, .passed hleads hrest⟩
    | ok file =>
      have hfits' : Fits g (fun _ => True) depth (mentioning after declared ⟨file, r.name⟩) :=
        hafter.mono fun {k} hk => by rw [isResolved_mentioning, hk]
      obtain ⟨queries, hdown⟩ := hgo _ ⟨file, r.name⟩ hfits'
      obtain ⟨queries', hrest⟩ := ih (hfits'.mono hdown.asksOnce.kept)
      simp only [follow, hleads]
      exact ⟨queries ++ queries', .followed hleads hdown hrest⟩

/-- The bound of the depth is not met if no more keys than that can still be resolved. -/
theorem exists_runs_resolveWithin (depth : Nat) (ctx : Context) (key : Key)
    (hfits : Fits g (fun _ => True) depth ctx) :
    ∃ queries, Runs g ctx (.resolve key) queries
      (resolveWithin g.introspector g.disk g.options depth ctx key) := by
  induction depth generalizing ctx key with
  | zero =>
    cases hr : ctx.isResolved key with
    | true => exact ⟨[], .known hr⟩
    | false =>
      have hsettled : Settled g ctx key := hfits.settled trivial
      exact ⟨[key], .missing hr (hsettled.resolve_left (by simp [hr]))⟩
  | succ depth ih =>
    rw [resolveWithin]
    cases hr : ctx.isResolved key with
    | true => exact ⟨[], .known hr⟩
    | false =>
    cases hd : g.declaration? key with
    | none =>
      have hnone : g.introspector.declaration? g.disk key.file key.symbol = none := hd
      simp only [hnone, Bool.false_eq_true, ↓reduceIte]
      exact ⟨[key], .missing hr hd⟩
    | some declaration =>
      have hsome : g.introspector.declaration? g.disk key.file key.symbol = some declaration := hd
      simp only [hsome, Bool.false_eq_true, ↓reduceIte]
      change ∃ queries, Runs g ctx (.resolve key) queries
        (if !(declaredKey key declaration == key) &&
            (forwarding ctx key (declaredKey key declaration)).isResolved
              (declaredKey key declaration) then
          forwarding ctx key (declaredKey key declaration)
        else declaration.references.foldl (follow g.disk g.options
            (resolveWithin g.introspector g.disk g.options depth) (declaredKey key declaration))
          ((forwarding ctx key (declaredKey key declaration)).insert
            (declaredKey key declaration) declaration.text))
      rw [other_and_isResolved hr]
      cases hstored : (forwarding ctx key (declaredKey key declaration)).isResolved
          (declaredKey key declaration) with
      | true => exact ⟨[key], .forwarded hr hd hstored⟩
      | false =>
        have hbase : Fits g (fun _ => True) depth
            ((forwarding ctx key (declaredKey key declaration)).insert
              (declaredKey key declaration) declaration.text) := by
          refine hfits.step trivial (by simp [hd]) hr (isResolved_forwarding_insert _ _ _ _) ?_
          intro k hk
          rw [Context.isResolved_insert, isResolved_forwarding hk, Bool.true_or]
        obtain ⟨queries, hdown⟩ := exists_runs_follow ih _ declaration.references hbase
        exact ⟨key :: queries, .stored hr hd hstored hdown⟩

theorem exists_runs_resolve (h : g.introspector.Bounded g.disk) (ctx : Context) (key : Key) :
    ∃ queries, Runs g ctx (.resolve key) queries
      (resolve g.introspector g.disk g.options ctx key) :=
  exists_runs_resolveWithin _ ctx key (fits_of_bounded h ctx)

/-! ## Requests -/

/-- What is asked of a context: to resolve a key, or what an import from a file needs. -/
inductive Request
  | symbol (key : Key)
  | imported (spec : ImportSpec) (file : Path)

namespace Request

/-- The keys that a request resolves, in their order. -/
def keys : Request → List Key
  | symbol key => [key]
  | imported spec file => spec.items.map (·.key file)

/-- The context that a request leaves behind. -/
def perform (g : ReferenceGraph) (ctx : Context) : Request → Context
  | symbol key => resolve g.introspector g.disk g.options ctx key
  | imported spec file => (resolveImport g.introspector g.disk g.options ctx spec file).2

end Request

theorem foldl_fst_resolveItems (file : Path) (items : List NamedImport) (found : List Key) :
    (items.foldl (fun (ctx, keys) item =>
        let key : Key := ⟨file, item.content⟩
        let ctx := resolve g.introspector g.disk g.options ctx key
        (ctx, addNew keys (ctx.closure key))) (ctx, found)).1 =
      (items.map (·.key file)).foldl (resolve g.introspector g.disk g.options) ctx := by
  induction items generalizing ctx found with
  | nil => rfl
  | cons item items ih => exact ih _

/-- A request resolves its keys, one after another. -/
theorem Request.perform_eq (ctx : Context) (request : Request) :
    request.perform g ctx = request.keys.foldl (resolve g.introspector g.disk g.options) ctx := by
  cases request with
  | symbol key => rfl
  | imported spec file =>
    cases spec with
    | default name source => rfl
    | whole name source => rfl
    | named items source => exact foldl_fst_resolveItems file items []

theorem exists_runsAll (h : g.introspector.Bounded g.disk) (ctx : Context) (keys : List Key) :
    ∃ queries, RunsAll g ctx keys queries
      (keys.foldl (resolve g.introspector g.disk g.options) ctx) := by
  induction keys generalizing ctx with
  | nil => exact ⟨[], .done⟩
  | cons key keys ih =>
    obtain ⟨queries, hfirst⟩ := exists_runs_resolve h ctx key
    obtain ⟨queries', hrest⟩ := ih (resolve g.introspector g.disk g.options ctx key)
    exact ⟨queries ++ queries', .next hfirst hrest⟩

/-- With finitely many declarations, resolving a key ends in every context, in one way, and leaves
behind what `Closure.resolve` answers. In a row of requests on one context the introspector is asked
at most once about each key that has a declaration. -/
theorem resolve_ends_and_asks_once (g : ReferenceGraph) (hbounded : g.introspector.Bounded g.disk) :
    (∀ ctx key, ∃ queries, Runs g ctx (.resolve key) queries
        (resolve g.introspector g.disk g.options ctx key) ∧
      ∀ queries' ctx', Runs g ctx (.resolve key) queries' ctx' →
        queries' = queries ∧ ctx' = resolve g.introspector g.disk g.options ctx key) ∧
    ∀ (ctx : Context) (requests : List Request), ∃ queries,
      RunsAll g ctx (requests.flatMap Request.keys) queries
        (requests.foldl (Request.perform g) ctx) ∧
      Distinct (queries.filter fun key => (g.declaration? key).isSome) := by
  refine ⟨fun ctx key => ?_, fun ctx requests => ?_⟩
  · obtain ⟨queries, hruns⟩ := exists_runs_resolve hbounded ctx key
    exact ⟨queries, hruns, fun queries' ctx' h => h.unique hruns⟩
  · have hperform : requests.foldl (Request.perform g) ctx =
        (requests.flatMap Request.keys).foldl (resolve g.introspector g.disk g.options) ctx := by
      rw [List.foldl_flatMap]
      congr 1
      funext ctx request
      exact request.perform_eq ctx
    obtain ⟨queries, hruns⟩ := exists_runsAll hbounded ctx (requests.flatMap Request.keys)
    rw [← hperform] at hruns
    exact ⟨queries, hruns, hruns.asksOnce.once⟩

end

/-- Declarations that contradict one another: an index file says that another file declares `A`, and
that file says that the index file does. The declaration of `A` mentions `A`, a type that no file
declares, and `B`, which leads back. -/
def tangledTypes : List (Path × Text × DeclaredType) :=
  let declared (name file text : String) (mentions : List TypeReference) : DeclaredType :=
    ⟨name.toList, .ofString file, text.toList, mentions.map fun r => ⟨r.name, r.marker⟩, []⟩
  let mentions : List TypeReference :=
    [⟨"/p/a.ts".toList, "A".toList⟩, ⟨"/p/gone.ts".toList, "Gone".toList⟩,
      ⟨"/p/b.ts".toList, "B".toList⟩]
  [(.ofString "/p/index.ts", "A".toList, declared "A" "/p/a.ts" "type A = [A, Gone, B];" mentions),
    (.ofString "/p/a.ts", "A".toList, declared "A" "/p/index.ts" "type A = B;" mentions),
    (.ofString "/p/b.ts", "B".toList,
      declared "B" "/p/b.ts" "type B = A;" [⟨"/p/index.ts".toList, "A".toList⟩])]

def tangledGraph : ReferenceGraph := ⟨.ofTable tangledTypes, .empty [], .default⟩

open scoped PatternCompiler in
/-- Asking twice for `A` and for a missing name resolves the two declarations, and no key with a
declaration is asked about twice. -/
theorem tangledGraph_asks_once :
    let index : Path := .ofString "/p/index.ts"
    let requests : List Request := [.symbol ⟨index, "A".toList⟩,
      .imported (.named [⟨false, none, "A".toList⟩, ⟨false, none, "Nope".toList⟩] "./index".toList)
        index]
    let last := requests.foldl (Request.perform tangledGraph) .empty
    tangledGraph.introspector.Bounded tangledGraph.disk ∧
      (∃ queries, RunsAll tangledGraph .empty (requests.flatMap Request.keys) queries last ∧
        Distinct (queries.filter fun key => (tangledGraph.declaration? key).isSome)) ∧
      last.declarations.map (fun (file, symbols) => (file.text, symbols)) =
        [("/p/a.ts".toList, [("A".toList, "type A = [A, Gone, B];".toList)]),
          ("/p/b.ts".toList, [("B".toList, "type B = A;".toList)])] := by
  have hbounded : tangledGraph.introspector.Bounded tangledGraph.disk :=
    ReferenceGraph.bounded_ofTable tangledTypes (.empty [])
  refine ⟨hbounded, ?_, by decide +kernel⟩
  exact (resolve_ends_and_asks_once tangledGraph hbounded).2 .empty _

end TypeInliner.Closure
