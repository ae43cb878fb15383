import Mathlib.Data.List.Basic
import TypeInliner.Resolution
import TypeInliner.Proofs.Tables

/-! # Which dependency a specifier belongs to

A specifier belongs to the longest name among all dependencies of the project that it imports, and
the reference that is recorded for this name says where the package is installed. Neither depends on
the order in which a manifest lists its dependencies. -/

namespace TypeInliner

namespace Specifier

/-- A specifier is the name of a package, or goes on with a slash behind it. -/
def Imports (specifier package : Text) : Prop :=
  specifier = package ∨ ∃ rest, specifier = package ++ '/' :: rest

theorem belongsTo_iff {specifier package : Text} :
    belongsTo specifier package = true ↔ Imports specifier package := by
  unfold belongsTo Imports
  split
  · next h =>
    have hsame := List.isPrefixOf?_eq_some_iff_append_eq.mp h
    rw [List.append_nil] at hsame
    exact iff_of_true rfl (Or.inl hsame.symm)
  · next rest h =>
    have hrest := (List.isPrefixOf?_eq_some_iff_append_eq.mp h).symm
    exact iff_of_true rfl (Or.inr ⟨rest, hrest⟩)
  · next hnil hslash =>
    refine iff_of_false (by simp) ?_
    rintro (rfl | ⟨rest, rfl⟩)
    · exact hnil (List.isPrefixOf?_eq_some_iff_append_eq.mpr (List.append_nil _))
    · exact hslash rest (List.isPrefixOf?_eq_some_iff_append_eq.mpr rfl)

theorem Imports.isPrefix {specifier package : Text} (h : Imports specifier package) :
    package <+: specifier := by
  rcases h with rfl | ⟨rest, rfl⟩
  · exact List.prefix_rfl
  · exact List.prefix_append package _

/-- Of two packages that a specifier imports, one of no more bytes is the same or shorter. -/
theorem Imports.eq_or_shorter {specifier package other : Text} (h : Imports specifier package)
    (h' : Imports specifier other) (hbytes : Text.bytes other ≤ Text.bytes package) :
    other = package ∨ other.length < package.length := by
  rcases Nat.lt_or_ge other.length package.length with hlt | hge
  · exact Or.inr hlt
  · obtain ⟨rest, rfl⟩ := List.prefix_of_prefix_length_le h.isPrefix h'.isPrefix hge
    have hrest := Text.length_le_bytes rest
    rw [Text.bytes_append] at hbytes
    obtain rfl : rest = [] := List.length_eq_zero_iff.mp (by omega)
    exact Or.inl (List.append_nil package)

end Specifier

namespace Manifest

/-- The reference that a manifest records for a name: direct dependencies come before those of
peers, and these before those for development. -/
def reference? (m : Manifest) (name : Text) : Option Text :=
  (m.dependencies.find? name).or
    ((m.peerDependencies.find? name).or (m.devDependencies.find? name))

/-- A manifest lists a name among its dependencies of some kind. -/
def DependsOn (m : Manifest) (name : Text) : Prop :=
  name ∈ m.dependencies.map Prod.fst ∨ name ∈ m.peerDependencies.map Prod.fst ∨
    name ∈ m.devDependencies.map Prod.fst

/-- No name stands twice among the dependencies of one kind. -/
structure HasDistinctDependencies (m : Manifest) : Prop where
  direct : (m.dependencies.map Prod.fst).Nodup
  peer : (m.peerDependencies.map Prod.fst).Nodup
  dev : (m.devDependencies.map Prod.fst).Nodup

/-- Two manifests list the same dependencies of each kind, maybe in another order. -/
structure SameDependencies (m other : Manifest) : Prop where
  direct : m.dependencies.Perm other.dependencies
  peer : m.peerDependencies.Perm other.peerDependencies
  dev : m.devDependencies.Perm other.devDependencies

theorem dependsOn_iff {m : Manifest} {name : Text} :
    m.DependsOn name ↔ m.reference? name ≠ none := by
  simp only [reference?, ne_eq, Option.or_eq_none_iff, Table.find?_eq_none_iff, DependsOn]
  tauto

theorem nodup_mergedDependencies (m : Manifest) : (m.mergedDependencies.map Prod.fst).Nodup :=
  Table.nodup_insertAll (Table.nodup_insertAll (Table.nodup_insertAll_nil _) _) _

theorem find?_mergedDependencies {m : Manifest} (h : m.HasDistinctDependencies) (name : Text) :
    m.mergedDependencies.find? name = m.reference? name := by
  have hlast {table : Table Text Text} (hnodup : (table.map Prod.fst).Nodup) :
      Table.find? name table.reverse = table.find? name :=
    (Table.find?_of_perm (List.reverse_perm table).symm hnodup name).symm
  simp only [mergedDependencies, Table.find?_insertAll, hlast h.direct, hlast h.peer, hlast h.dev,
    reference?, Table.find?, Option.or_none]

theorem mem_mergedDependencies {m : Manifest} (h : m.HasDistinctDependencies)
    {name reference : Text} :
    (name, reference) ∈ m.mergedDependencies ↔ m.reference? name = some reference := by
  rw [← find?_mergedDependencies h, Table.find?_eq_some_iff_mem (nodup_mergedDependencies m)]

theorem SameDependencies.reference?_eq {m other : Manifest} (h : m.SameDependencies other)
    (hm : m.HasDistinctDependencies) (name : Text) : m.reference? name = other.reference? name := by
  rw [reference?, reference?, Table.find?_of_perm h.direct hm.direct,
    Table.find?_of_perm h.peer hm.peer, Table.find?_of_perm h.dev hm.dev]

/-! ## Manifests that have been read -/

theorem nodup_of_textTable? {raw : Json.Raw} {table : Table Text Text}
    (h : raw.textTable? = some table) : (table.map Prod.fst).Nodup := by
  cases raw with
  | object members =>
    simp only [Json.Raw.textTable?, Option.bind_eq_bind, Option.bind_eq_some_iff] at h
    obtain ⟨entries, _, htable⟩ := h
    cases htable
    exact Table.nodup_insertAll_nil entries
  | _ => cases h

theorem nodup_of_orDefault {raw : Option Json.Raw} {table : Table Text Text}
    (h : Json.Raw.orDefault [] Json.Raw.textTable? raw = some table) :
    (table.map Prod.fst).Nodup := by
  cases raw with
  | none =>
    cases h
    exact List.nodup_nil
  | some raw => exact nodup_of_textTable? h

theorem hasDistinctDependencies_of_ofText? {t : Text} {m : Manifest} (h : ofText? t = some m) :
    m.HasDistinctDependencies := by
  obtain ⟨_, _, _, _, -, hdirect, hdev, hpeer⟩ := exists_fields_of_ofText? h
  exact ⟨nodup_of_orDefault hdirect, nodup_of_orDefault hpeer, nodup_of_orDefault hdev⟩

theorem hasDistinctDependencies_of_read {d : Disk} {folder : Path} {m : Manifest}
    (h : read d folder = .ok m) : m.HasDistinctDependencies := by
  simp only [read] at h
  split at h
  · cases h
  · split at h
    · next hread =>
      cases h
      exact hasDistinctDependencies_of_ofText? hread
    · cases h

/-- In the manifest of a folder, read or not, no name stands twice. -/
theorem hasDistinctDependencies_load (d : Disk) (folder : Path) :
    (load d folder).HasDistinctDependencies := by
  unfold load
  split
  · next h => exact hasDistinctDependencies_of_read h
  · exact ⟨List.nodup_nil, List.nodup_nil, List.nodup_nil⟩

end Manifest

namespace Resolution

open Specifier (Imports)

/-! ## The longest dependency -/

/-- The longer one of a dependency picked before and one that a specifier may belong to. -/
def pickLonger (specifier : Text) (best : Option (Text × Text)) (entry : Text × Text) :
    Option (Text × Text) :=
  if Specifier.belongsTo specifier entry.1 then
    match best with
    | none => some entry
    | some other => if Text.bytes other.1 ≤ Text.bytes entry.1 then some entry else best
  else best

/-- What may be picked from dependencies: one that no other one imported by the specifier exceeds,
or nothing if the specifier imports none. -/
inductive Picks (specifier : Text) (dependencies : Table Text Text) : Option (Text × Text) → Prop
  | nothing (foreign : ∀ entry ∈ dependencies, ¬ Imports specifier entry.1) :
      Picks specifier dependencies none
  | longest {entry : Text × Text} (mem : entry ∈ dependencies)
      (imported : Imports specifier entry.1)
      (longest : ∀ other ∈ dependencies, Imports specifier other.1 →
        other.1 = entry.1 ∨ other.1.length < entry.1.length) :
      Picks specifier dependencies (some entry)

/-- One step: of the dependency picked before and a further one the longer one is picked. -/
theorem Picks.pickLonger {specifier : Text} {seen : Table Text Text} {best : Option (Text × Text)}
    (h : Picks specifier seen best) (entry : Text × Text) :
    Picks specifier (seen ++ [entry]) (pickLonger specifier best entry) := by
  have hlast : entry ∈ seen ++ [entry] := List.mem_append_right seen (List.mem_singleton_self entry)
  unfold Resolution.pickLonger
  split
  · next hentry =>
    rw [Specifier.belongsTo_iff] at hentry
    cases h with
    | nothing foreign =>
      refine .longest hlast hentry (List.forall_mem_append.mpr ⟨?_, ?_⟩)
      · exact fun other hmem hother => absurd hother (foreign other hmem)
      · exact List.forall_mem_singleton.mpr fun _ => Or.inl rfl
    | @longest picked mem imported longest =>
      dsimp only
      split
      · next hbytes =>
        refine .longest hlast hentry (List.forall_mem_append.mpr ⟨fun other hmem hother => ?_, ?_⟩)
        · have hpicked := hentry.eq_or_shorter imported hbytes
          rcases longest other hmem hother with heq | hlt
          · rwa [heq]
          · rcases hpicked with heq | hlt'
            · exact Or.inr (heq ▸ hlt)
            · exact Or.inr (Nat.lt_trans hlt hlt')
        · exact List.forall_mem_singleton.mpr fun _ => Or.inl rfl
      · next hbytes =>
        refine .longest (List.mem_append_left _ mem) imported
          (List.forall_mem_append.mpr ⟨longest, List.forall_mem_singleton.mpr fun hother => ?_⟩)
        exact imported.eq_or_shorter hother (by omega)
  · next hentry =>
    rw [Specifier.belongsTo_iff] at hentry
    cases h with
    | nothing foreign =>
      exact .nothing (List.forall_mem_append.mpr ⟨foreign, List.forall_mem_singleton.mpr hentry⟩)
    | longest mem imported longest =>
      refine .longest (List.mem_append_left _ mem) imported
        (List.forall_mem_append.mpr ⟨longest, List.forall_mem_singleton.mpr fun hother => ?_⟩)
      exact absurd hother hentry

/-- The whole run, from what has been picked among the dependencies before. -/
theorem Picks.foldl {specifier : Text} {seen : Table Text Text} {best : Option (Text × Text)}
    (h : Picks specifier seen best) (dependencies : Table Text Text) :
    Picks specifier (seen ++ dependencies)
      (dependencies.foldl (Resolution.pickLonger specifier) best) := by
  induction dependencies generalizing seen best with
  | nil => rwa [List.append_nil]
  | cons entry dependencies ih =>
    have hstep := ih (h.pickLonger entry)
    rwa [List.append_assoc] at hstep

theorem picks_longestDependency? (dependencies : Table Text Text) (specifier : Text) :
    Picks specifier dependencies (longestDependency? dependencies specifier) := by
  have hempty : Picks specifier [] none := .nothing fun _ h => absurd h List.not_mem_nil
  exact hempty.foldl dependencies

/-- A specifier is looked up in a package that it imports. -/
theorem imports_of_target {options : Options} {dependencies : Table Text Text}
    {specifier package : Text} {root : Path}
    (h : target options dependencies specifier = .package package root) :
    Imports specifier package := by
  have hpicks := picks_longestDependency? dependencies specifier
  unfold target at h
  generalize longestDependency? dependencies specifier = picked at hpicks h
  cases hpicks with
  | nothing => cases h
  | @longest entry mem imported =>
    obtain ⟨name, reference⟩ := entry
    dsimp only at h
    split at h
    · cases h
      exact imported
    · cases h
      exact imported

theorem imports_of_classify {d : Disk} {options : Options} {ctx ctx' : Context}
    {specifier package : Text} {root : Path}
    (h : classify d options ctx specifier = (.package package root, ctx')) :
    Imports specifier package :=
  imports_of_target (congrArg Prod.fst h)

/-! ## What a specifier names -/

/-- A name is the longest one among the dependencies of a manifest that a specifier imports. -/
structure IsLongest (m : Manifest) (specifier name : Text) : Prop where
  listed : m.DependsOn name
  imported : Imports specifier name
  longest : ∀ other, m.DependsOn other → Imports specifier other →
    other = name ∨ other.length < name.length

/-- The folder below which a dependency is installed: that of the workspace if there is one and the
reference of the dependency leads to it, and otherwise that of the project. -/
inductive InstalledBelow (options : Options) (reference : Text) : Path → Prop
  | workspace {folder : Path} (configured : options.workspace = some folder)
      (protocol : workspaceProtocol <+: reference) : InstalledBelow options reference folder
  | project (plain : options.workspace = none ∨ ¬ workspaceProtocol <+: reference) :
      InstalledBelow options reference options.root

/-- What a specifier names in a project with a manifest. -/
inductive Names (options : Options) (m : Manifest) (specifier : Text) : Target → Prop
  | other (foreign : ∀ name, m.DependsOn name → ¬ Imports specifier name) :
      Names options m specifier .other
  | package {name reference : Text} {root : Path} (longest : IsLongest m specifier name)
      (recorded : m.reference? name = some reference)
      (installed : InstalledBelow options reference root) :
      Names options m specifier (.package name root)

theorem IsLongest.unique {m : Manifest} {specifier name name' : Text}
    (h : IsLongest m specifier name) (h' : IsLongest m specifier name') : name = name' := by
  rcases h.longest name' h'.listed h'.imported with heq | hlt
  · exact heq.symm
  · rcases h'.longest name h.listed h.imported with heq | hlt'
    · exact heq
    · omega

theorem InstalledBelow.unique {options : Options} {reference : Text} {root root' : Path}
    (h : InstalledBelow options reference root) (h' : InstalledBelow options reference root') :
    root = root' := by
  cases h with
  | workspace configured protocol =>
    cases h' with
    | workspace configured' => exact Option.some.inj (configured.symm.trans configured')
    | project plain => simp [configured, protocol] at plain
  | project plain =>
    cases h' with
    | workspace configured protocol => simp [configured, protocol] at plain
    | project => rfl

theorem Names.unique {options : Options} {m : Manifest} {specifier : Text} {target target' : Target}
    (h : Names options m specifier target) (h' : Names options m specifier target') :
    target = target' := by
  cases h with
  | other foreign =>
    cases h' with
    | other => rfl
    | package longest => exact absurd longest.imported (foreign _ longest.listed)
  | package longest recorded installed =>
    cases h' with
    | other foreign => exact absurd longest.imported (foreign _ longest.listed)
    | package longest' recorded' installed' =>
      obtain rfl := longest.unique longest'
      obtain rfl := Option.some.inj (recorded.symm.trans recorded')
      obtain rfl := installed.unique installed'
      rfl

theorem exists_mem_mergedDependencies {m : Manifest} (h : m.HasDistinctDependencies) {name : Text}
    (hname : m.DependsOn name) : ∃ reference, (name, reference) ∈ m.mergedDependencies := by
  obtain ⟨reference, hreference⟩ := Option.ne_none_iff_exists'.mp (Manifest.dependsOn_iff.mp hname)
  exact ⟨reference, (Manifest.mem_mergedDependencies h).mpr hreference⟩

theorem names_target {m : Manifest} (h : m.HasDistinctDependencies) (options : Options)
    (specifier : Text) :
    Names options m specifier (target options m.mergedDependencies specifier) := by
  have hpicks := picks_longestDependency? m.mergedDependencies specifier
  unfold target
  generalize longestDependency? m.mergedDependencies specifier = picked at hpicks
  cases hpicks with
  | nothing foreign =>
    refine .other fun name hname => ?_
    obtain ⟨reference, hmem⟩ := exists_mem_mergedDependencies h hname
    exact foreign _ hmem
  | @longest entry mem imported longest =>
    obtain ⟨name, reference⟩ := entry
    have hrecorded := (Manifest.mem_mergedDependencies h).mp mem
    have hlongest : IsLongest m specifier name := by
      refine ⟨Manifest.dependsOn_iff.mpr (by simp [hrecorded]), imported, fun other hother => ?_⟩
      obtain ⟨reference, hmem⟩ := exists_mem_mergedDependencies h hother
      exact longest _ hmem
    dsimp only
    cases hworkspace : options.workspace with
    | none => exact .package hlongest hrecorded (.project (Or.inl hworkspace))
    | some workspace =>
      dsimp only
      split
      · next hprotocol =>
        exact .package hlongest hrecorded
          (.workspace hworkspace (List.isPrefixOf_iff_prefix.mp hprotocol))
      · next hprotocol =>
        refine .package hlongest hrecorded (.project (Or.inr fun hprefix => hprotocol ?_))
        exact List.isPrefixOf_iff_prefix.mpr hprefix

/-- A specifier names the same for manifests that list the same dependencies. -/
theorem Names.of_sameDependencies {options : Options} {m m' : Manifest} {specifier : Text}
    {target : Target} (hm : m.HasDistinctDependencies) (hsame : m.SameDependencies m')
    (h : Names options m specifier target) : Names options m' specifier target := by
  have hlists (name : Text) : m.DependsOn name ↔ m'.DependsOn name := by
    rw [Manifest.dependsOn_iff, Manifest.dependsOn_iff, hsame.reference?_eq hm]
  cases h with
  | other foreign => exact .other fun name hname => foreign name ((hlists name).mpr hname)
  | package longest recorded installed =>
    refine .package ⟨(hlists _).mp longest.listed, longest.imported, fun name hname => ?_⟩
      (hsame.reference?_eq hm _ ▸ recorded) installed
    exact longest.longest name ((hlists name).mpr hname)

/-- In a context that knows no dependencies yet, a specifier is classified by the manifest alone. -/
theorem names_classify {ctx : Context} (hfresh : ctx.rootDependencies = none) (d : Disk)
    (options : Options) (specifier : Text) :
    Names options (Manifest.load d options.root) specifier
      (classify d options ctx specifier).1 := by
  have hknown : (ctx.loadDependencies d options.root).knownDependencies =
      (Manifest.load d options.root).mergedDependencies := by
    simp only [Context.loadDependencies, hfresh]
    rfl
  rw [classify, hknown]
  exact names_target (Manifest.hasDistinctDependencies_load d options.root) options specifier

/-- A specifier is a package exactly if it imports a dependency of the project; then it is the
longest such dependency, installed where its reference says; and the order in which the manifest
lists the dependencies makes no difference. -/
theorem classify_ignores_order (d : Disk) (options : Options) (ctx : Context) (specifier : Text)
    (hfresh : ctx.rootDependencies = none) :
    ((∃ name root, (classify d options ctx specifier).1 = .package name root) ↔
        ∃ name, (Manifest.load d options.root).DependsOn name ∧ Imports specifier name) ∧
      (∀ target, (classify d options ctx specifier).1 = target ↔
        Names options (Manifest.load d options.root) specifier target) ∧
      ∀ d' ctx', ctx'.rootDependencies = none →
        (Manifest.load d options.root).SameDependencies (Manifest.load d' options.root) →
          (classify d' options ctx' specifier).1 = (classify d options ctx specifier).1 := by
  have hnames := names_classify hfresh d options specifier
  refine ⟨⟨?_, ?_⟩, fun target => ⟨?_, hnames.unique⟩, fun d' ctx' hfresh' hsame => ?_⟩
  · rintro ⟨name, root, heq⟩
    rw [heq] at hnames
    cases hnames with
    | package longest => exact ⟨name, longest.listed, longest.imported⟩
  · rintro ⟨name, hlisted, himported⟩
    cases hclassify : (classify d options ctx specifier).1 with
    | package name root => exact ⟨name, root, rfl⟩
    | other =>
      rw [hclassify] at hnames
      cases hnames with
      | other foreign => exact absurd himported (foreign name hlisted)
  · rintro rfl
    exact hnames
  · have hdistinct := Manifest.hasDistinctDependencies_load d options.root
    exact (names_classify hfresh' d' options specifier).unique
      (hnames.of_sameDependencies hdistinct hsame)

/-- A project whose manifest is a text. -/
def projectOf (manifest : String) : Disk :=
  ⟨[], [(.ofNames ["package.json"], .file (some manifest.toList))]⟩

def listedProject : Disk :=
  projectOf "\x7b\"dependencies\":\x7b\"@v\":\"1\",\"@v/n\":\"workspace:*\"\x7d,
    \"devDependencies\":\x7b\"@v/n\":\"2\"\x7d\x7d"

def reorderedProject : Disk :=
  projectOf "\x7b\"devDependencies\":\x7b\"@v/n\":\"2\"\x7d,
    \"dependencies\":\x7b\"@v/n\":\"workspace:*\",\"@v\":\"1\"\x7d\x7d"

/-- The dependencies of the manifest at the root: direct ones, those of peers, those for
development. -/
def dependenciesOf (d : Disk) : List (Table Text Text) :=
  let m := Manifest.load d (.ofString "/")
  [m.dependencies, m.peerDependencies, m.devDependencies]

theorem dependencies_projects :
    dependenciesOf listedProject =
        [[("@v".toList, "1".toList), ("@v/n".toList, "workspace:*".toList)], [],
          [("@v/n".toList, "2".toList)]] ∧
      dependenciesOf reorderedProject =
        [[("@v/n".toList, "workspace:*".toList), ("@v".toList, "1".toList)], [],
          [("@v/n".toList, "2".toList)]] := by
  decide +kernel

/-- The longer name counts, and the direct dependency links it to the workspace, in both orders. -/
theorem reordered_manifest_classifies_alike :
    let options : Options := ⟨.ofString "/", false, some (.ofString "/w")⟩
    (classify listedProject options .empty "@v/n/types".toList).1 =
        .package "@v/n".toList (.ofString "/w") ∧
      (classify reorderedProject options .empty "@v/n/types".toList).1 =
        (classify listedProject options .empty "@v/n/types".toList).1 := by
  intro options
  obtain ⟨_, hnames, horder⟩ :=
    classify_ignores_order listedProject options .empty "@v/n/types".toList rfl
  obtain ⟨hdirect, hpeer, hdev⟩ : _ ∧ _ ∧ _ := by
    simpa only [dependenciesOf, List.cons.injEq, and_true] using dependencies_projects.1
  obtain ⟨hdirect', hpeer', hdev'⟩ : _ ∧ _ ∧ _ := by
    simpa only [dependenciesOf, List.cons.injEq, and_true] using dependencies_projects.2
  refine ⟨(hnames _).mpr ?_, horder reorderedProject .empty rfl ⟨?_, ?_, ?_⟩⟩
  · have hlongest : IsLongest (Manifest.load listedProject options.root) "@v/n/types".toList
        "@v/n".toList := by
      refine ⟨?_, Or.inr ⟨"types".toList, rfl⟩, fun other hother _ => ?_⟩
      · rw [Manifest.DependsOn, hdirect]
        exact Or.inl (by decide)
      · rw [Manifest.DependsOn, hdirect, hpeer, hdev] at hother
        simp only [List.map_cons, List.map_nil, List.mem_cons, List.not_mem_nil, or_false,
          false_or] at hother
        rcases hother with (rfl | rfl) | rfl
        · exact Or.inr (by decide)
        · exact Or.inl rfl
        · exact Or.inl rfl
    have hrecorded : (Manifest.load listedProject options.root).reference? "@v/n".toList =
        some "workspace:*".toList := by
      rw [Manifest.reference?, hdirect]
      decide
    exact .package hlongest hrecorded (.workspace rfl (by decide))
  · rw [hdirect, hdirect']
    exact .swap _ _ _
  · rw [hpeer, hpeer']
  · rw [hdev, hdev']

end Resolution

end TypeInliner
