import TypeInliner.ExportTable
import TypeInliner.Proofs.JsonValues
import TypeInliner.Proofs.StarPatterns

/-! # What export maps answer

The table of a manifest lists what its export map lists, in the order of the map, and at most one
entry for the package itself. A subpath is answered by the first entry whose key matches it: with
the declaration file of the entry, its stars filled with what the stars of the key stand for, or
with an error that names the entry if it has no declaration file. -/

namespace TypeInliner

/-- No key stands twice in the export map of a manifest. -/
def Manifest.HasDistinctExports (m : Manifest) : Prop :=
  ∀ members, m.exports = some (.object members) → (members.map Prod.fst).Nodup

/-- In a manifest that has been read, a key that is written twice stands once. -/
theorem Manifest.hasDistinctExports_of_ofText? {t : Text} {m : Manifest} (h : ofText? t = some m) :
    m.HasDistinctExports :=
  fun _ hexports => (exports_hasDistinctKeys h hexports).nodup_keys

namespace ExportTable

open Specifier (rootSubpath)

/-! ## The entries of a table -/

/-- Members that are conditions for one and the same path: none of them is a subpath and at least
one is a condition that has a meaning. -/
def AreConditions (members : List (Text × Json)) : Prop :=
  (∀ member ∈ members, member.1.head? ≠ some '.') ∧ ∃ member ∈ members, member.1 ∈ conditionKeys

/-- The entries that an export map lists, in order. -/
inductive Lists : Option Json → ExportTable → Prop
  /-- The members of an object are subpaths. -/
  | subpaths {members : List (Text × Json)} (paths : ¬ AreConditions members) :
      Lists (some (.object members)) (members.map fun member => ⟨member.1, typesOf? member.2⟩)
  /-- Conditions, a path or an array of them stand for the package itself. -/
  | whole {value : Json} (root : (∃ members, value = .object members ∧ AreConditions members) ∨
      (∃ path, value = .string path) ∨ ∃ items, value = .array items) :
      Lists (some value) [⟨rootSubpath, typesOf? value⟩]
  /-- Nothing else lists anything. -/
  | other {exports : Option Json} (scalar : exports = none ∨ exports = some .null ∨
      (∃ b, exports = some (.bool b)) ∨ ∃ literal, exports = some (.number literal)) :
      Lists exports []

theorem isConditionMap_iff (members : List (Text × Json)) :
    isConditionMap members = true ↔ AreConditions members := by
  simp [isConditionMap, AreConditions]

theorem lists_ofExports (exports : Option Json) : Lists exports (ofExports exports) := by
  match exports with
  | none => exact .other (Or.inl rfl)
  | some .null => exact .other (Or.inr (Or.inl rfl))
  | some (.bool b) => exact .other (Or.inr (Or.inr (Or.inl ⟨b, rfl⟩)))
  | some (.number literal) => exact .other (Or.inr (Or.inr (Or.inr ⟨literal, rfl⟩)))
  | some (.string path) => exact .whole (Or.inr (Or.inl ⟨path, rfl⟩))
  | some (.array items) => exact .whole (Or.inr (Or.inr ⟨items, rfl⟩))
  | some (.object members) =>
    rw [ofExports]
    by_cases h : isConditionMap members = true
    · rw [if_pos h]
      exact .whole (Or.inl ⟨members, rfl, (isConditionMap_iff members).mp h⟩)
    · rw [if_neg h]
      exact .subpaths fun hconditions => h ((isConditionMap_iff members).mpr hconditions)

/-- Whether a manifest names an entry point outside of its export map. -/
def NamesEntry (m : Manifest) : Prop :=
  m.main ≠ none ∨ m.moduleEntry ≠ none ∨ m.types ≠ none ∨ m.typings ≠ none

/-- Whether the entry point is added to listed entries: none of them is for the package itself. -/
def AddsEntry (m : Manifest) (listed : ExportTable) : Prop :=
  (∀ entry ∈ listed, entry.key ≠ rootSubpath) ∧ NamesEntry m

theorem namesEntry_iff (m : Manifest) : m.namesEntry = true ↔ NamesEntry m := by
  cases htypes : m.types <;>
    simp [Manifest.namesEntry, Manifest.entryTypes, NamesEntry, htypes, or_assoc,
      Option.isSome_iff_ne_none]

theorem any_root_iff (listed : ExportTable) :
    listed.any (·.key = rootSubpath) = false ↔ ∀ entry ∈ listed, entry.key ≠ rootSubpath := by
  simp

/-- The entry point comes last where it is added, and otherwise only what is listed has entries. -/
theorem entries_of_addsEntry {m : Manifest} (h : AddsEntry m (ofExports m.exports)) :
    entries m = ofExports m.exports ++ [⟨rootSubpath, m.types.or m.typings⟩] := by
  rw [entries, (any_root_iff _).mpr h.1, (namesEntry_iff m).mpr h.2]
  rfl

theorem entries_of_not_addsEntry {m : Manifest} (h : ¬ AddsEntry m (ofExports m.exports)) :
    entries m = ofExports m.exports := by
  rw [entries]
  split
  · rfl
  · next hadds =>
    simp only [Bool.or_eq_true, not_or, Bool.not_eq_true, Bool.not_eq_false'] at hadds
    exact absurd ⟨(any_root_iff _).mp hadds.1, (namesEntry_iff m).mp hadds.2⟩ h

section

variable [PatternCompiler]

theorem refusal?_root : PatternCompiler.refusal? rootSubpath = none := PatternCompiler.refusal?_root

/-- A manifest whose keys can all be patterns has a table. -/
theorem ofManifest_of_accepted {m : Manifest} (h : ∀ members, m.exports = some (.object members) →
    ∀ member ∈ members, PatternCompiler.refusal? member.1 = none) :
    ofManifest m = .ok (entries m) := by
  have hlisted : ∀ entry ∈ ofExports m.exports, PatternCompiler.refusal? entry.key = none := by
    have hlists := lists_ofExports m.exports
    generalize m.exports = exports at h hlists
    generalize ofExports exports = listed at hlists
    cases hlists with
    | @subpaths members _ =>
      intro entry hentry
      obtain ⟨member, hmember, rfl⟩ := List.mem_map.mp hentry
      exact h members rfl member hmember
    | whole =>
      intro entry hentry
      obtain rfl := List.mem_singleton.mp hentry
      exact refusal?_root
    | other => simp
  have hall : ∀ entry ∈ entries m, PatternCompiler.refusal? entry.key = none := by
    by_cases hadds : AddsEntry m (ofExports m.exports)
    · rw [entries_of_addsEntry hadds]
      intro entry hentry
      rcases List.mem_append.mp hentry with hentry | hentry
      · exact hlisted entry hentry
      · obtain rfl := List.mem_singleton.mp hentry
        exact refusal?_root
    · rw [entries_of_not_addsEntry hadds]
      exact hlisted
  have hnone : refused? (entries m) = none :=
    List.findSome?_eq_none_iff.mpr fun entry hentry => by rw [hall entry hentry]; rfl
  rw [ofManifest, hnone]

end

/-- Whether an entry is for the package itself. -/
def isRoot (entry : ExportEntry) : Bool := entry.key = rootSubpath

theorem countP_listed_le {m : Manifest} (h : m.HasDistinctExports) :
    (ofExports m.exports).countP isRoot ≤ 1 := by
  have hlists := lists_ofExports m.exports
  unfold Manifest.HasDistinctExports at h
  generalize m.exports = exports at h hlists
  generalize ofExports exports = listed at hlists
  cases hlists with
  | @subpaths members _ =>
    have hcount := List.nodup_iff_count.mp (h members rfl) rootSubpath
    rw [List.countP_map]
    rw [List.count, List.countP_map] at hcount
    refine Nat.le_trans (Nat.le_of_eq (List.countP_congr fun member _ => ?_)) hcount
    simp [isRoot]
  | whole => exact List.countP_le_length
  | other => exact Nat.zero_le _

/-- Never are two entries for the package itself. -/
theorem countP_entries_le {m : Manifest} (h : m.HasDistinctExports) :
    (entries m).countP isRoot ≤ 1 := by
  by_cases hadds : AddsEntry m (ofExports m.exports)
  · have hnone : (ofExports m.exports).countP isRoot = 0 :=
      List.countP_eq_zero.mpr fun entry hentry => by simpa [isRoot] using hadds.1 entry hentry
    rw [entries_of_addsEntry hadds, List.countP_append, hnone, Nat.zero_add]
    exact List.countP_le_length
  · rw [entries_of_not_addsEntry hadds]
    exact countP_listed_le h

/-! ## Looking up a subpath -/

/-- The entry is the first of a table whose key matches a subpath. -/
def MatchesFirst (table : ExportTable) (entry : ExportEntry) (subpath : Text) : Prop :=
  ∃ before after, table = before ++ entry :: after ∧
    (∀ earlier ∈ before, ∀ stars, ¬ Glob.Matches earlier.key stars subpath) ∧
      ∃ stars, Glob.Matches entry.key stars subpath

/-- What a table answers for a subpath of a package. -/
inductive Resolves (table : ExportTable) (package subpath : Text) : Except Failure Text → Prop
  | unlisted (unmatched : ∀ entry ∈ table, ∀ stars, ¬ Glob.Matches entry.key stars subpath) :
      Resolves table package subpath
        (.error (.exportNotFound (Specifier.join package subpath)))
  | untyped {entry : ExportEntry} (first : MatchesFirst table entry subpath)
      (types : entry.types = none) :
      Resolves table package subpath (.error (.noDeclarationPath package entry.key))
  /-- Each star of the template is replaced by what the star at its place in the key stands for, as
  far as the key has stars. -/
  | typed {entry : ExportEntry} {template : Text} {stars : List Text}
      (first : MatchesFirst table entry subpath) (types : entry.types = some template)
      (captures : Glob.Captures entry.key stars subpath) :
      Resolves table package subpath (.ok (Glob.fillEach stars template))

variable {table : ExportTable} {package subpath : Text}

theorem not_accepts_iff {key : Text} :
    (!Glob.accepts key subpath) = true ↔ ∀ stars, ¬ Glob.Matches key stars subpath := by
  rw [Bool.not_eq_true', ← Bool.not_eq_true, Glob.accepts_iff, not_exists]

theorem lookup_eq_none_iff : table.entry? subpath = none ↔
    ∀ entry ∈ table, ∀ stars, ¬ Glob.Matches entry.key stars subpath := by
  simp only [ entry?, List.find?_eq_none, Glob.accepts_iff, not_exists]

theorem lookup_eq_some_iff {entry : ExportEntry} :
    table.entry? subpath = some entry ↔ MatchesFirst table entry subpath := by
  simp only [ entry?, List.find?_eq_some_iff_append, Glob.accepts_iff, not_accepts_iff,
    MatchesFirst]
  constructor
  · rintro ⟨hmatch, before, after, hsplit, hbefore⟩
    exact ⟨before, after, hsplit, hbefore, hmatch⟩
  · rintro ⟨before, after, hsplit, hbefore, hmatch⟩
    exact ⟨hmatch, before, after, hsplit, hbefore⟩

/-- With the captures of a subpath without stars a template is filled at once. -/
theorem fill_captures {key template : Text} {stars : List Text} (hstar : '*' ∉ subpath)
    (h : Glob.Captures key stars subpath) :
    Glob.fill ((Glob.captures? key subpath).getD []) template = Glob.fillEach stars template := by
  rw [Glob.captures?_eq_some_iff.mpr h, Option.getD_some]
  refine Glob.fill_eq_fillEach (fun value hvalue hmem => hstar ?_) template
  exact (h.holds.infix_of_mem value hvalue).subset hmem

theorem resolves_resolve (table : ExportTable) (package : Text) (hstar : '*' ∉ subpath) :
    Resolves table package subpath (table.resolve package subpath) := by
  unfold resolve
  cases hentry : table.entry? subpath with
  | none => exact .unlisted (lookup_eq_none_iff.mp hentry)
  | some entry =>
    have hfirst := lookup_eq_some_iff.mp hentry
    cases htypes : entry.types with
    | none =>
      simp only [htypes]
      exact .untyped hfirst htypes
    | some template =>
      obtain ⟨_, _, _, _, stars, hmatch⟩ := hfirst
      simp only [htypes]
      cases hcaptures : Glob.captures? entry.key subpath with
      | none => exact absurd hmatch ((Glob.finds_captures? entry.key subpath).2 hcaptures stars)
      | some stars =>
        have hstars := Glob.captures?_eq_some_iff.mp hcaptures
        rw [← hcaptures, fill_captures hstar hstars]
        exact .typed (lookup_eq_some_iff.mp hentry) htypes hstars

theorem Resolves.resolve_eq {result : Except Failure Text} (hstar : '*' ∉ subpath)
    (h : Resolves table package subpath result) : table.resolve package subpath = result := by
  unfold resolve
  cases h with
  | unlisted unmatched => rw [lookup_eq_none_iff.mpr unmatched]
  | untyped first types => simp only [lookup_eq_some_iff.mpr first, types]
  | typed first types captures =>
    simp only [lookup_eq_some_iff.mpr first, types, fill_captures hstar captures]

/-- The table of a manifest has the entries that its export map lists, and its entry point behind
them if none of them is for the package itself; and it answers each subpath without stars from the
first entry that matches. -/
theorem manifests_resolve_as_listed [PatternCompiler] (m : Manifest) (package subpath : Text)
    (hdistinct : m.HasDistinctExports)
    (haccepted : ∀ members, m.exports = some (.object members) →
      ∀ member ∈ members, PatternCompiler.refusal? member.1 = none) (hstar : '*' ∉ subpath) :
    ∃ listed table, Lists m.exports listed ∧ ofManifest m = .ok table ∧
      (AddsEntry m listed → table = listed ++ [⟨rootSubpath, m.types.or m.typings⟩]) ∧
      (¬ AddsEntry m listed → table = listed) ∧
      table.countP (·.key = rootSubpath) ≤ 1 ∧
      ∀ result, table.resolve package subpath = result ↔
        Resolves table package subpath result := by
  refine ⟨ofExports m.exports, entries m, lists_ofExports _, ofManifest_of_accepted haccepted,
    entries_of_addsEntry, entries_of_not_addsEntry, countP_entries_le hdistinct, fun result => ?_⟩
  constructor
  · rintro rfl
    exact resolves_resolve (entries m) package hstar
  · exact fun h => h.resolve_eq hstar

/-- A manifest with two keys that match the same subpaths and an entry point of its own. -/
def starredManifest : Manifest :=
  { Manifest.empty with
    types := some "index.d.ts".toList
    exports := some (.object [("./*/x/*".toList, .string "./d/*-*.d.ts".toList),
      ("./*".toList, .string "./*.js".toList)]) }

open scoped PatternCompiler in
/-- The first key answers, and its first star takes as much as it can. -/
theorem starredManifest_resolves : ∃ table, ofManifest starredManifest = .ok table ∧
    table.map (·.key) = ["./*/x/*".toList, "./*".toList, ".".toList] ∧
      Resolves table "p".toList "./a/x/b/x/c".toList (.ok "./d/a/x/b-c.d.ts".toList) ∧
        table.countP (·.key = rootSubpath) ≤ 1 := by
  have hdistinct : starredManifest.HasDistinctExports := by
    intro members h
    cases h
    decide
  have haccepted : ∀ members, starredManifest.exports = some (.object members) →
      ∀ member ∈ members, PatternCompiler.refusal? member.1 = none := fun _ _ _ _ => rfl
  obtain ⟨listed, table, _, htable, _, _, hcount, hresolve⟩ :=
    manifests_resolve_as_listed starredManifest "p".toList "./a/x/b/x/c".toList hdistinct haccepted
      (by decide +kernel)
  have hentries : ofManifest starredManifest = .ok (entries starredManifest) :=
    ofManifest_of_accepted haccepted
  obtain rfl := Except.ok.inj (hentries.symm.trans htable)
  have hentry : entry? (entries starredManifest) "./a/x/b/x/c".toList =
      some ⟨"./*/x/*".toList, some "./d/*-*.d.ts".toList⟩ := by decide +kernel
  have hfill : Glob.fill ((Glob.captures? "./*/x/*".toList "./a/x/b/x/c".toList).getD [])
      "./d/*-*.d.ts".toList = "./d/a/x/b-c.d.ts".toList := by decide +kernel
  refine ⟨_, htable, by decide +kernel, (hresolve _).mp ?_, hcount⟩
  rw [resolve, hentry]
  exact congrArg Except.ok hfill

end ExportTable

end TypeInliner
