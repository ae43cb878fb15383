import TypeInliner.Proofs.DependencyTargets

/-! # Specifiers cut and put together again

A specifier is cut into a package and a subpath of it in two ways: behind the name of a dependency,
or at the slash that ends the name of a package. Either way the parts give the specifier back, so
an export that is missing is named as it was asked for. -/

namespace TypeInliner

namespace Specifier

variable {specifier package : Text}

/-! ## Behind a package -/

/-- A subpath of a package: `.` for the package itself, or what begins with `./`. -/
def IsSubpath (subpath : Text) : Prop := subpath = rootSubpath ∨ "./".toList <+: subpath

theorem subpath_self (package : Text) : subpath package package = rootSubpath := by
  rw [subpath, List.isPrefixOf?_eq_some_iff_append_eq.mpr (List.append_nil package)]

theorem subpath_behind (package rest : Text) :
    subpath (package ++ '/' :: rest) package = '.' :: '/' :: rest := by
  rw [subpath, List.isPrefixOf?_eq_some_iff_append_eq.mpr rfl]

/-- The specifiers that import a package and its subpaths correspond to each other. -/
theorem imports_subpath_iff {below : Text} :
    Imports specifier package ∧ subpath specifier package = below ↔
      IsSubpath below ∧ join package below = specifier := by
  constructor
  · rintro ⟨rfl | ⟨rest, rfl⟩, rfl⟩
    · rw [subpath_self]
      exact ⟨Or.inl rfl, List.append_nil _⟩
    · rw [subpath_behind]
      exact ⟨Or.inr ⟨rest, rfl⟩, rfl⟩
  · rintro ⟨rfl | ⟨rest, rfl⟩, rfl⟩
    · have hself : join package rootSubpath = package := List.append_nil package
      rw [hself]
      exact ⟨Or.inl rfl, subpath_self package⟩
    · exact ⟨Or.inr ⟨rest, rfl⟩, subpath_behind package rest⟩

/-! ## At a slash -/

/-- A text is cut at the slash in front of which a number of slashes stand, if there is one. -/
inductive Cuts (kept : Nat) (t : Text) : Text × Option Text → Prop
  | whole (few : t.count '/' ≤ kept) : Cuts kept t (t, none)
  | parts {name rest : Text} (spelled : t = name ++ '/' :: rest) (passed : name.count '/' = kept) :
      Cuts kept t (name, some rest)

variable {kept : Nat} {t : Text} {answer answer' : Text × Option Text}

theorem Cuts.slash (h : Cuts kept t answer) :
    Cuts (kept + 1) ('/' :: t) ('/' :: answer.1, answer.2) := by
  cases h with
  | whole few =>
    refine .whole ?_
    rw [List.count_cons_self]
    exact Nat.succ_le_succ few
  | parts spelled passed =>
    refine .parts (congrArg ('/' :: ·) spelled) ?_
    rw [List.count_cons_self, passed]

theorem Cuts.other {c : Char} (hc : c ≠ '/') (h : Cuts kept t answer) :
    Cuts kept (c :: t) (c :: answer.1, answer.2) := by
  cases h with
  | whole few =>
    refine .whole ?_
    rwa [List.count_cons_of_ne hc]
  | parts spelled passed =>
    refine .parts (congrArg (c :: ·) spelled) ?_
    rwa [List.count_cons_of_ne hc]

theorem cuts_cut (kept : Nat) (t : Text) : Cuts kept t (cut kept t) := by
  induction t generalizing kept with
  | nil => exact .whole (Nat.zero_le kept)
  | cons c t ih =>
    by_cases hc : c = '/'
    · subst hc
      -- The text is cut at this slash, or the slash is one of those that are kept.
      cases kept with
      | zero => exact .parts rfl rfl
      | succ kept => exact (ih kept).slash
    · have hcut : cut kept (c :: t) = (c :: (cut kept t).1, (cut kept t).2) := by
        rw [cut, if_neg fun h => hc h.1, if_neg hc]
      rw [hcut]
      exact (ih kept).other hc

/-- Two cuts at a slash with equally many slashes in front of it are the same. -/
theorem cut_unique {name name' rest rest' : Text}
    (hsame : name ++ '/' :: rest = name' ++ '/' :: rest')
    (hcount : name.count '/' = name'.count '/') : name = name' ∧ rest = rest' := by
  induction name generalizing name' with
  | nil =>
    cases name' with
    | nil => exact ⟨rfl, (List.cons.inj hsame).2⟩
    | cons c name' =>
      obtain ⟨rfl, -⟩ := List.cons.inj hsame
      simp at hcount
  | cons c name ih =>
    cases name' with
    | nil =>
      obtain ⟨rfl, -⟩ := List.cons.inj hsame
      simp at hcount
    | cons c' name' =>
      obtain ⟨rfl, htail⟩ := List.cons.inj hsame
      simp only [List.count_cons, Nat.add_right_cancel_iff] at hcount
      obtain ⟨rfl, rfl⟩ := ih htail hcount
      exact ⟨rfl, rfl⟩

/-- What is cut off begins behind one slash more than are kept. -/
theorem count_of_spelled {name rest : Text} (spelled : t = name ++ '/' :: rest)
    (passed : name.count '/' = kept) : kept < t.count '/' := by
  rw [spelled, List.count_append, List.count_cons_self, passed]
  omega

theorem Cuts.unique (h : Cuts kept t answer) (h' : Cuts kept t answer') : answer = answer' := by
  cases h with
  | whole few =>
    cases h' with
    | whole => rfl
    | parts spelled passed => exact absurd (count_of_spelled spelled passed) (Nat.not_lt.mpr few)
  | parts spelled passed =>
    cases h' with
    | whole few => exact absurd (count_of_spelled spelled passed) (Nat.not_lt.mpr few)
    | parts spelled' passed' =>
      obtain ⟨rfl, rfl⟩ := cut_unique (spelled.symm.trans spelled') (passed.trans passed'.symm)
      rfl

theorem Cuts.count_le (h : Cuts kept t answer) : answer.1.count '/' ≤ kept := by
  cases h with
  | whole few => exact few
  | parts _ passed => exact Nat.le_of_eq passed

theorem Cuts.imports (h : Cuts kept t answer) : Imports t answer.1 := by
  cases h with
  | whole => exact Or.inl rfl
  | parts spelled => exact Or.inr ⟨_, spelled⟩

theorem Cuts.rejoined {name : Text} {rest : Option Text} (h : Cuts kept t (name, rest)) :
    (rest = none ∧ t = name) ∨ ∃ behind, rest = some behind ∧ t = name ++ '/' :: behind := by
  cases h with
  | whole => exact Or.inl ⟨rfl, rfl⟩
  | parts spelled => exact Or.inr ⟨_, rfl, spelled⟩

/-- The slashes that the name of a package can hold: one if it is scoped. -/
def nameSlashes (specifier : Text) : Nat := if specifier.head? = some '@' then 1 else 0

theorem split_eq_iff :
    split specifier = answer ↔ Cuts (nameSlashes specifier) specifier answer := by
  have hcuts : Cuts (nameSlashes specifier) specifier (split specifier) := cuts_cut _ specifier
  constructor
  · rintro rfl
    exact hcuts
  · exact hcuts.unique

end Specifier

/-! ## Missing exports -/

theorem map_eq_error_iff {α β : Type} {f : α → β} {answer : Except Failure α} {failure : Failure} :
    answer.map f = .error failure ↔ answer = .error failure := by
  cases answer <;> simp [Except.map]

namespace ExportTable

variable {table : ExportTable} {package subpath missing : Text}

theorem resolve_eq_missing_iff :
    table.resolve package subpath = .error (.exportNotFound missing) ↔
      missing = Specifier.join package subpath ∧ table.entry? subpath = none := by
  unfold resolve
  cases table.entry? subpath with
  | none => simp [eq_comm]
  | some entry => cases htypes : entry.types <;> simp [htypes]

variable [PatternCompiler]

theorem ofManifest_ne_missing (m : Manifest) (missing : Text) :
    ofManifest m ≠ .error (.exportNotFound missing) := by
  unfold ofManifest
  split <;> simp

/-- The export map in a folder can be used, but has no key that matches a subpath. -/
def Lacks (d : Disk) (folder : Path) (subpath : Text) : Prop :=
  ∃ table, ofManifest (Manifest.load d folder) = .ok table ∧ table.entry? subpath = none

theorem resolveIn_eq_missing_iff {d : Disk} {folder : Path} :
    resolveIn d folder package subpath = .error (.exportNotFound missing) ↔
      missing = Specifier.join package subpath ∧ Lacks d folder subpath := by
  unfold Lacks
  cases htable : ofManifest (Manifest.load d folder) with
  | error failure =>
    have hfailed : resolveIn d folder package subpath = .error failure := by
      rw [resolveIn, htable]
      rfl
    have hother := ofManifest_ne_missing (Manifest.load d folder) missing
    rw [htable] at hother
    simpa [hfailed] using hother
  | ok table =>
    have hfound : resolveIn d folder package subpath = (table.resolve package subpath).map
        fun relative => (folder.join (.ofText relative)).normalize d.home := by
      rw [resolveIn, htable]
      rfl
    rw [hfound, map_eq_error_iff, resolve_eq_missing_iff]
    simp

end ExportTable

namespace Resolution

open Specifier (Imports)

variable {d : Disk} {options : Options} {ctx : Context} {specifier package missing : Text}

variable [PatternCompiler]

/-- An export is said to be missing exactly if the package is installed and lacks it, and it is
named as it was asked for. -/
theorem resolvePackage_eq_missing_iff {root : Path} (h : Imports specifier package) :
    resolvePackage d package root specifier = .error (.exportNotFound missing) ↔
      missing = specifier ∧ d.isFolder (packageFolder root package) = true ∧
        ExportTable.Lacks d (packageFolder root package)
          (Specifier.subpath specifier package) := by
  have hjoin := (Specifier.imports_subpath_iff.mp ⟨h, rfl⟩).2
  unfold resolvePackage
  dsimp only
  split
  · next hfolder =>
    rw [map_eq_error_iff, ExportTable.resolveIn_eq_missing_iff, hjoin]
    simp [hfolder]
  · next hfolder => simp [hfolder]

theorem resolveSource_names {importer : Option Path}
    (h : (resolveSource d options ctx specifier importer).1 = .error (.exportNotFound missing)) :
    missing = specifier := by
  unfold resolveSource at h
  split at h
  · next hclassify =>
    exact ((resolvePackage_eq_missing_iff (imports_of_classify hclassify)).mp
      (map_eq_error_iff.mp h)).1
  · split at h
    · split at h <;> cases h
    · cases h

theorem resolveReference_names {file : Path}
    (h : (resolveReference d options ctx specifier file).1 = .error (.exportNotFound missing)) :
    missing = specifier := by
  unfold resolveReference at h
  split at h
  · cases h
  · split at h
    · cases h
    · split at h
      · next hclassify =>
        exact ((resolvePackage_eq_missing_iff (imports_of_classify hclassify)).mp h).1
      · have himports := (Specifier.split_eq_iff.mp (Eq.refl (Specifier.split specifier))).imports
        exact ((resolvePackage_eq_missing_iff himports).mp h).1

end Resolution

namespace Specifier

open Resolution

/-- A specifier that imports a package is the package joined to one subpath, and what is joined to a
subpath is cut at the same place again; so an export that is missing is named as it was asked for,
by import statements and references alike. Without a dependency to go by, a specifier is cut at its
first slash, or at its second one if it is scoped, into a name that it imports and the rest. -/
theorem parts_are_rejoined [PatternCompiler] (specifier : Text) :
    (∀ package, belongsTo specifier package = true →
        IsSubpath (subpath specifier package) ∧
          join package (subpath specifier package) = specifier ∧
          ∀ d root missing,
            resolvePackage d package root specifier = .error (.exportNotFound missing) ↔
              missing = specifier ∧ d.isFolder (packageFolder root package) = true ∧
                ExportTable.Lacks d (packageFolder root package) (subpath specifier package)) ∧
      (∀ package below, IsSubpath below → join package below = specifier →
        belongsTo specifier package = true ∧ subpath specifier package = below) ∧
      (∀ d options ctx missing,
        (∀ importer, (resolveSource d options ctx specifier importer).1 =
          .error (.exportNotFound missing) → missing = specifier) ∧
        ∀ file, (resolveReference d options ctx specifier file).1 =
          .error (.exportNotFound missing) → missing = specifier) ∧
      (∀ answer, split specifier = answer ↔ Cuts (nameSlashes specifier) specifier answer) ∧
      ∃ name rest, split specifier = (name, rest) ∧
        ((rest = none ∧ specifier = name) ∨
          ∃ behind, rest = some behind ∧ specifier = name ++ '/' :: behind) ∧
        (specifier.head? ≠ some '@' → '/' ∉ name) ∧ name.count '/' ≤ 1 ∧
        belongsTo specifier name = true := by
  simp only [belongsTo_iff]
  refine ⟨fun package h => ?_, fun package below hbelow hjoin =>
    imports_subpath_iff.mpr ⟨hbelow, hjoin⟩, fun d options ctx missing =>
    ⟨fun importer => resolveSource_names, fun file => resolveReference_names⟩,
    fun answer => split_eq_iff, ?_⟩
  · obtain ⟨hsubpath, hjoin⟩ := imports_subpath_iff.mp ⟨h, rfl⟩
    exact ⟨hsubpath, hjoin, fun d root missing => resolvePackage_eq_missing_iff h⟩
  · have hcuts := split_eq_iff.mp (Eq.refl (split specifier))
    have hcount := hcuts.count_le
    refine ⟨_, _, rfl, hcuts.rejoined, fun hplain => ?_, Nat.le_trans hcount ?_, hcuts.imports⟩
    · rw [nameSlashes, if_neg hplain] at hcount
      exact List.count_eq_zero.mp (Nat.le_zero.mp hcount)
    · unfold nameSlashes
      split <;> decide

/-- A project with a dependency that is installed, and beside it a package that is no dependency. -/
def installedPackages : Disk where
  home := []
  nodes := [(.ofNames ["package.json"],
      .file (some "\x7b\"dependencies\":\x7b\"@v/n\":\"1\"\x7d\x7d".toList)),
    (.ofNames ["node_modules"], .folder), (.ofNames ["node_modules", "@v"], .folder),
    (.ofNames ["node_modules", "@v", "n"], .folder),
    (.ofNames ["node_modules", "@v", "n", "package.json"],
      .file (some "\x7b\"exports\":\x7b\"./a\":\"./a.d.ts\"\x7d\x7d".toList)),
    (.ofNames ["node_modules", "@v", "no"], .folder)]

/-- Whether an answer says that an export is missing. -/
def saysMissing {α : Type} : Except Failure α → Bool
  | .error (.exportNotFound _) => true
  | _ => false

theorem exists_missing {α : Type} {answer : Except Failure α} (h : saysMissing answer = true) :
    ∃ missing, answer = .error (.exportNotFound missing) := by
  unfold saysMissing at h
  split at h
  · exact ⟨_, rfl⟩
  · cases h

open scoped PatternCompiler in
/-- An import from the dependency and a reference to the other package, whose name goes on where
that of the dependency ends, both fail with the specifier that was asked for. -/
theorem missing_exports_are_named :
    let options : Options := ⟨.ofString "/", false, none⟩
    let imported := "@v/n//b".toList
    let mentioned := "@v/no/b".toList
    belongsTo imported "@v/n".toList = true ∧ join "@v/n".toList ".//b".toList = imported ∧
      (resolveSource installedPackages options .empty imported none).1 =
        .error (.exportNotFound imported) ∧
      belongsTo mentioned "@v/n".toList = false ∧
      split mentioned = ("@v/no".toList, some "b".toList) ∧
      (resolveReference installedPackages options .empty mentioned (.ofString "/a.ts")).1 =
        .error (.exportNotFound mentioned) := by
  intro options imported mentioned
  have hbelongs : belongsTo imported "@v/n".toList = true := by decide
  obtain ⟨hbehind, -, himported, -, -⟩ := parts_are_rejoined imported
  obtain ⟨-, hjoin, -⟩ := hbehind _ hbelongs
  obtain ⟨-, -, hmentioned, hsplit, -⟩ := parts_are_rejoined mentioned
  have hsource : saysMissing
      (resolveSource installedPackages options .empty imported none).1 = true := by
    decide +kernel
  have hreference : saysMissing (resolveReference installedPackages options .empty mentioned
      (.ofString "/a.ts")).1 = true := by
    decide +kernel
  obtain ⟨missing, hsource⟩ := exists_missing hsource
  obtain ⟨missing', hreference⟩ := exists_missing hreference
  obtain rfl := (himported _ _ _ missing).1 _ hsource
  obtain rfl := (hmentioned _ _ _ missing').2 _ hreference
  exact ⟨hbelongs, hjoin, hsource, by decide, (hsplit _).mpr (.parts rfl rfl), hreference⟩

end Specifier

end TypeInliner
