import TypeInliner.Closure
import TypeInliner.Proofs.ContextWalk

/-! # The graph of references

On an unchanged disk, an introspector and the options of a run determine a graph: a key that a file
forwards leads to the key of the declaration, and a declaration leads to what it mentions. The graph
does not speak of contexts. `ReferenceGraph.Coherent` says when the answers of the introspector are
those of one set of declarations, and which paths it is asked about. -/

namespace TypeInliner

/-- At most as many keys have a declaration as the introspector promises. -/
def Introspector.Bounded (introspector : Introspector) (d : Disk) : Prop :=
  ∀ keys : List Key, Distinct keys →
    (∀ key ∈ keys, (introspector.declaration? d key.file key.symbol).isSome = true) →
    keys.length ≤ introspector.bound d

/-- What determines the references of all declarations. -/
structure ReferenceGraph where
  introspector : Introspector
  disk : Disk
  options : Options

namespace ReferenceGraph

variable (g : ReferenceGraph)

def declaration? (key : Key) : Option DeclaredType :=
  g.introspector.declaration? g.disk key.file key.symbol

/-- The key that a reference in a declaration of a file leads to. -/
def mentioned? [PatternCompiler] (file : Path) (r : TypeReference) : Option Key :=
  match (Resolution.resolveReference g.disk g.options .empty r.source file).1 with
  | .ok target => some ⟨target, r.name⟩
  | .error _ => none

/-- The keys that a key leads to: the one it is forwarded to, or those its declaration mentions, in
the order of the references. -/
def next [PatternCompiler] (key : Key) : List Key :=
  match g.declaration? key with
  | none => []
  | some declaration =>
    if declaration.file == key.file then
      declaration.references.filterMap (g.mentioned? declaration.file)
    else [⟨declaration.file, key.symbol⟩]

/-- Whether the declaration of a key is written in the key's own file. -/
def isWritten (key : Key) : Bool :=
  match g.declaration? key with
  | none => false
  | some declaration => declaration.file == key.file

/-- The answers about the paths that are asked about come from one finite set of declarations. -/
structure Coherent (asked : Path → Prop) : Prop where
  located (p : Path) : asked (g.disk.locate p)
  /-- Two spellings of a path get the same answer. -/
  same {file other : Path} (name : Text) : asked file → asked other → (file == other) = true →
    g.introspector.declaration? g.disk file name = g.introspector.declaration? g.disk other name
  /-- A file that forwards a declaration agrees with the file that the declaration is written in. -/
  written {file : Path} {name : Text} {declaration : DeclaredType} : asked file →
    g.introspector.declaration? g.disk file name = some declaration →
    asked declaration.file ∧
      g.introspector.declaration? g.disk declaration.file name = some declaration
  /-- There are no more declarations than the introspector promises. -/
  bounded {keys : List Key} : Distinct keys →
    (∀ key ∈ keys, asked key.file ∧ (g.declaration? key).isSome = true) →
    keys.length ≤ g.introspector.bound g.disk

variable {g} {asked : Path → Prop}

theorem declaration?_congr (hg : g.Coherent asked) {a b : Key} (ha : asked a.file)
    (hb : asked b.file) (h : (a == b) = true) : g.declaration? a = g.declaration? b := by
  obtain ⟨hs, hf⟩ := Key.beq_iff.mp h
  simp only [declaration?, hs, hg.same b.symbol ha hb hf]

theorem isWritten_congr (hg : g.Coherent asked) {a b : Key} (ha : asked a.file)
    (hb : asked b.file) (h : (a == b) = true) : g.isWritten a = g.isWritten b := by
  simp only [isWritten, declaration?_congr hg ha hb h, BEq.congr_right (Key.beq_iff.mp h).2]

section

variable [PatternCompiler]

theorem next_congr (hg : g.Coherent asked) {a b : Key} (ha : asked a.file) (hb : asked b.file)
    (h : (a == b) = true) : g.next a = g.next b := by
  obtain ⟨hs, hf⟩ := Key.beq_iff.mp h
  simp only [next, declaration?_congr hg ha hb h, hs, BEq.congr_right hf]

private theorem resolvePackage_locates {d : Disk} {name specifier : Text} {root target : Path}
    (h : Resolution.resolvePackage d name root specifier = .ok target) :
    ∃ p, target = d.locate p := by
  simp only [Resolution.resolvePackage] at h
  split at h
  · cases hr : ExportTable.resolveIn d (Resolution.packageFolder root name) name
        (Specifier.subpath specifier name) with
    | error e => simp [hr, Except.map] at h
    | ok p =>
      simp only [hr, Except.map, Except.ok.injEq] at h
      exact ⟨p, h.symm⟩
  · simp at h

theorem resolveReference_locates {d : Disk} {options : Options} {ctx : Context} {specifier : Text}
    {file target : Path}
    (h : (Resolution.resolveReference d options ctx specifier file).1 = .ok target) :
    ∃ p, target = d.locate p := by
  unfold Resolution.resolveReference at h
  split at h
  · exact ⟨_, (Except.ok.inj h).symm⟩
  split at h
  · exact ⟨_, (Except.ok.inj h).symm⟩
  split at h
  · exact resolvePackage_locates h
  · exact resolvePackage_locates h

/-- The source of an import statement is a file that is located. -/
theorem resolveSource_locates {d : Disk} {options : Options} {ctx : Context} {specifier : Text}
    {importer : Option Path} {target : Path}
    (h : (Resolution.resolveSource d options ctx specifier importer).1 = .ok (some target)) :
    ∃ p, target = d.locate p := by
  unfold Resolution.resolveSource at h
  split at h
  · next name root after hclassify =>
    cases hp : Resolution.resolvePackage d name root specifier with
    | error e => simp [hp, Except.map] at h
    | ok p =>
      simp only [hp, Except.map, Except.ok.injEq, Option.some.injEq] at h
      exact resolvePackage_locates (h ▸ hp)
  · split at h
    · split at h
      · exact ⟨_, (Option.some.inj (Except.ok.inj h)).symm⟩
      · simp at h
    · simp at h

theorem mentioned?_asked (hg : g.Coherent asked) {file : Path} {r : TypeReference} {key : Key}
    (h : g.mentioned? file r = some key) : asked key.file := by
  unfold mentioned? at h
  split at h
  · next target hr =>
    obtain ⟨p, rfl⟩ := resolveReference_locates hr
    obtain rfl := Option.some.inj h
    exact hg.located p
  · simp at h

theorem next_of_declaration {key : Key} {declaration : DeclaredType}
    (h : g.declaration? key = some declaration) (hf : (declaration.file == key.file) = true) :
    g.next key = declaration.references.filterMap (g.mentioned? declaration.file) := by
  simp only [next, h, hf, ↓reduceIte]

theorem next_of_forwarded {key : Key} {declaration : DeclaredType}
    (h : g.declaration? key = some declaration) (hf : (declaration.file == key.file) = false) :
    g.next key = [⟨declaration.file, key.symbol⟩] := by
  simp [next, h, hf]

/-- What a key leads to is asked about, and leads on in one way for all its spellings. -/
theorem enclosed (hg : g.Coherent asked) : Enclosed g.next fun key => asked key.file where
  inside := by
    intro a b ha hb
    cases h : g.declaration? a with
    | none => simp [next, h] at hb
    | some declaration =>
      by_cases hf : declaration.file == a.file
      · rw [next_of_declaration h hf] at hb
        obtain ⟨r, _, hr⟩ := List.mem_filterMap.mp hb
        exact mentioned?_asked hg hr
      · rw [next_of_forwarded h (by simpa using hf)] at hb
        rw [List.mem_singleton.mp hb]
        exact (hg.written ha h).1
  same := next_congr hg

end

/-! ## References do not depend on the context -/

/-- Whether the dependencies of the project, as far as a context knows them, are those on disk. -/
def Current (g : ReferenceGraph) (ctx : Context) : Prop :=
  ctx.rootDependencies = none ∨
    ctx.rootDependencies = some (Manifest.load g.disk g.options.root).mergedDependencies

theorem current_empty (g : ReferenceGraph) : Current g .empty := Or.inl rfl

theorem Current.loadDependencies {ctx : Context} (h : Current g ctx) :
    Current g (ctx.loadDependencies g.disk g.options.root) := by
  unfold Context.loadDependencies
  split
  · exact h
  · exact Or.inr rfl

/-- Once they have been read, the dependencies of the project are those on disk. -/
theorem Current.knownDependencies {ctx : Context} (h : Current g ctx) :
    (ctx.loadDependencies g.disk g.options.root).knownDependencies =
      (Manifest.load g.disk g.options.root).mergedDependencies := by
  unfold Context.loadDependencies
  split
  · next known hknown =>
    rcases h with h | h
    · simp [hknown] at h
    · simp [Context.knownDependencies, h]
  · rfl

theorem Current.classify {ctx : Context} (h : Current g ctx) (specifier : Text) :
    Resolution.classify g.disk g.options ctx specifier =
      ((Resolution.classify g.disk g.options .empty specifier).1,
        ctx.loadDependencies g.disk g.options.root) := by
  simp only [Resolution.classify, h.knownDependencies, (current_empty g).knownDependencies]

section

variable [PatternCompiler]

/-- Resolving a reference at most reads the dependencies of the project. -/
theorem resolveReference_context (d : Disk) (options : Options) (ctx : Context) (specifier : Text)
    (file : Path) : (Resolution.resolveReference d options ctx specifier file).2 = ctx ∨
      (Resolution.resolveReference d options ctx specifier file).2 =
        ctx.loadDependencies d options.root := by
  unfold Resolution.resolveReference
  split
  · exact Or.inl rfl
  split
  · exact Or.inl rfl
  split <;> next hclassify => exact Or.inr (congrArg Prod.snd hclassify).symm

theorem resolveSource_context (d : Disk) (options : Options) (ctx : Context) (specifier : Text)
    (importer : Option Path) : (Resolution.resolveSource d options ctx specifier importer).2 =
      ctx.loadDependencies d options.root := by
  unfold Resolution.resolveSource
  split
  · next hclassify => exact (congrArg Prod.snd hclassify).symm
  · next hclassify =>
    split
    · split <;> exact (congrArg Prod.snd hclassify).symm
    · exact (congrArg Prod.snd hclassify).symm

/-- Resolving a reference has the same result in every context. -/
theorem Current.resolveReference {ctx : Context} (h : Current g ctx) (specifier : Text)
    (file : Path) :
    (Resolution.resolveReference g.disk g.options ctx specifier file).1 =
      (Resolution.resolveReference g.disk g.options .empty specifier file).1 := by
  unfold Resolution.resolveReference
  split
  · rfl
  split
  · rfl
  rw [h.classify specifier, (current_empty g).classify specifier]
  cases (Resolution.classify g.disk g.options .empty specifier).1 with
  | package name root => rfl
  | other => rfl

/-- The source of an import statement is the same in every context. -/
theorem Current.resolveSource {ctx : Context} (h : Current g ctx) (specifier : Text)
    (importer : Option Path) :
    Resolution.resolveSource g.disk g.options ctx specifier importer =
      ((Resolution.resolveSource g.disk g.options .empty specifier importer).1,
        ctx.loadDependencies g.disk g.options.root) := by
  refine Prod.ext ?_ (resolveSource_context g.disk g.options ctx specifier importer)
  unfold Resolution.resolveSource
  rw [h.classify specifier, (current_empty g).classify specifier]
  cases (Resolution.classify g.disk g.options .empty specifier).1 with
  | package name root => rfl
  | other =>
    cases importer with
    | none => rfl
    | some importer =>
      dsimp only
      split <;> rfl

end

/-! ## Declarations from a table -/

/-- The entries of a table that are about a key. -/
private def isAbout (key : Key) (entry : Path × Text × DeclaredType) : Bool :=
  entry.1 == key.file && entry.2.1 = key.symbol

private theorem isAbout_same {a b : Key} {entry : Path × Text × DeclaredType}
    (ha : isAbout a entry = true) (hb : isAbout b entry = true) : (a == b) = true := by
  simp only [isAbout, Bool.and_eq_true, decide_eq_true_eq] at ha hb
  exact Key.beq_iff.mpr ⟨ha.2.symm.trans hb.2, BEq.trans (BEq.symm ha.1) hb.1⟩

/-- An entry is about one key only, so there are no more keys than entries. -/
private theorem length_le_of_isAbout {table : List (Path × Text × DeclaredType)} {keys : List Key}
    (distinct : Distinct keys) (h : ∀ key ∈ keys, ∃ entry ∈ table, isAbout key entry = true) :
    keys.length ≤ table.length := by
  induction table generalizing keys with
  | nil =>
    cases keys with
    | nil => simp
    | cons key keys => simpa using h key List.mem_cons_self
  | cons entry table ih =>
    have hrest : (keys.filter (!isAbout · entry)).length ≤ table.length := by
      apply ih (distinct.filter _)
      intro key hkey
      obtain ⟨hmem, hnot⟩ := List.mem_filter.mp hkey
      obtain ⟨other, hother, habout⟩ := h key hmem
      rcases List.mem_cons.mp hother with rfl | hother
      · simp [habout] at hnot
      · exact ⟨other, hother, habout⟩
    have hone : (keys.filter (isAbout · entry)).length ≤ 1 := by
      have hd : Distinct (keys.filter (isAbout · entry)) := distinct.filter _
      match hk : keys.filter (isAbout · entry) with
      | [] => simp
      | [_] => simp
      | a :: b :: others =>
        have hall : ∀ k ∈ a :: b :: others, isAbout k entry = true := by
          rw [← hk]
          exact fun k hk => (List.mem_filter.mp hk).2
        rw [hk] at hd
        have hab := (List.pairwise_cons.mp hd).1 b List.mem_cons_self
        rw [isAbout_same (hall a List.mem_cons_self) (hall b (by simp))] at hab
        exact absurd hab (by simp)
    have hsum := List.length_eq_length_filter_add (l := keys) (isAbout · entry)
    simp only [List.length_cons]
    omega

/-- A table has at most as many declarations as entries, whatever these say. -/
theorem bounded_ofTable (table : List (Path × Text × DeclaredType)) (d : Disk) :
    (Introspector.ofTable table).Bounded d := by
  intro keys distinct hkeys
  apply length_le_of_isAbout distinct
  intro key hkey
  obtain ⟨declaration, hd⟩ := Option.isSome_iff_exists.mp (hkeys key hkey)
  simp only [Introspector.ofTable, Option.map_eq_some_iff] at hd
  obtain ⟨entry, hfind, _⟩ := hd
  exact ⟨entry, List.mem_of_find?_eq_some hfind, List.find?_some hfind⟩

/-- A table is coherent for all paths if every declaration in it is offered by its own file. -/
theorem coherent_ofTable {table : List (Path × Text × DeclaredType)} {d : Disk} {options : Options}
    (h : ∀ entry ∈ table, (Introspector.ofTable table).declaration? d entry.2.2.file entry.2.1 =
      some entry.2.2) : Coherent ⟨.ofTable table, d, options⟩ fun _ => True where
  located := fun _ => trivial
  same := by
    intro file other name _ _ hf
    simp only [Introspector.ofTable, BEq.congr_right hf]
  written := by
    intro file name declaration _ hd
    simp only [Introspector.ofTable, Option.map_eq_some_iff] at hd
    obtain ⟨entry, hfind, rfl⟩ := hd
    have hmatch := List.find?_some hfind
    simp only [Bool.and_eq_true, decide_eq_true_eq] at hmatch
    rw [← hmatch.2]
    exact ⟨trivial, h entry (List.mem_of_find?_eq_some hfind)⟩
  bounded distinct hkeys := bounded_ofTable table d _ distinct fun key hkey => (hkeys key hkey).2

end ReferenceGraph

end TypeInliner
