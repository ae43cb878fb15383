import Mathlib.Data.List.Find
import TypeInliner.Proofs.FolderEntries
import TypeInliner.Proofs.ShownPaths
import TypeInliner.Proofs.SourceCoherence

/-! # Located paths

On a disk without links the file that a path means is read off its folded form alone: it is the
first that stands on the disk of the paths that the folded form can mean, as long as they can be
looked up at all. The path that is located is a fixed point of locating. A file that mentions its
own types writes its path as it is shown, so the mention leads back to the file exactly if the path
is text. -/

namespace TypeInliner

namespace Path

variable {place : Place} {name : Bytes} {p file : Path}

theorem isName_of_getLast? {t : Bytes} {b : UInt8} (h : t.getLast? = some b) (hdot : b ≠ dot)
    (hslash : slash ∉ t) : IsName t := by
  refine ⟨?_, ?_, ?_, hslash⟩ <;> rintro rfl
  · cases h
  · exact hdot (Option.some.inj h).symm
  · exact hdot (Option.some.inj h).symm

/-- The path of a place in a folder is its name behind bytes that depend on the folder only. -/
theorem exists_bytes_ofPlace (folder : Place) :
    ∃ front, ∀ name, (ofPlace (folder ++ [name])).bytes = front ++ name := by
  by_cases hfolder : folder = []
  · subst hfolder
    exact ⟨[slash], fun name => rfl⟩
  · refine ⟨slash :: (Text.join [slash] folder ++ [slash]), fun name => ?_⟩
    rw [ofPlace, Text.join_concat [slash] hfolder]
    rfl

/-- A name behind the path of a place is a name in the folder at that place. -/
theorem join_ofPlace (hplace : ∀ n ∈ place, IsName n) (hname : IsName name) :
    (ofPlace place).join ⟨name⟩ = ofPlace (place ++ [name]) := by
  rw [join, if_neg (by simp [isAbsolute_of_isName hname])]
  rcases List.eq_nil_or_concat' place with rfl | ⟨folder, last, rfl⟩
  · rfl
  have hlast : IsName last := hplace last (by simp)
  obtain ⟨front, hfront⟩ := exists_bytes_ofPlace folder
  have hend : (ofPlace (folder ++ [last])).bytes.getLast? ≠ some slash := by
    rw [hfront, List.getLast?_append_of_ne_nil _ hlast.1]
    exact fun h => hlast.2.2.2 (List.mem_of_getLast? h)
  have hne : folder ++ [last] ≠ [] := by simp
  rw [if_neg (not_or.mpr ⟨by simp [ofPlace], hend⟩), ofPlace, ofPlace,
    Text.join_concat [slash] hne name]
  simp

theorem join_ofString (hplace : ∀ n ∈ place, IsName n) {index : String}
    (hname : IsName (Utf8.ofString index)) :
    (ofPlace place).join (ofString index) = ofPlace (place ++ [Utf8.ofString index]) :=
  join_ofPlace hplace hname

theorem isFolded_append (hp : p.IsFolded) {ending : String} {b : UInt8}
    (hlast : (Utf8.ofString ending).getLast? = some b) (hdot : b ≠ dot)
    (hslash : slash ∉ Utf8.ofString ending) : (p.append ending).IsFolded := by
  obtain ⟨place, hplace, rfl⟩ := hp
  rw [append]
  generalize Utf8.ofString ending = ending at hlast hslash ⊢
  rcases List.eq_nil_or_concat' place with rfl | ⟨folder, name, rfl⟩
  · exact ⟨[ending], by simpa using isName_of_getLast? hlast hdot hslash, rfl⟩
  obtain ⟨hfolder, hname⟩ := List.forall_mem_append.mp hplace
  obtain ⟨front, hfront⟩ := exists_bytes_ofPlace folder
  refine ⟨folder ++ [name ++ ending], List.forall_mem_append.mpr ⟨hfolder, ?_⟩, ?_⟩
  · have hne : ending ≠ [] := by
      rintro rfl
      cases hlast
    have hboth : slash ∉ name ++ ending := by
      simpa [hslash] using (hname name List.mem_cons_self).2.2.2
    rw [List.forall_mem_singleton]
    exact isName_of_getLast? (by rw [List.getLast?_append_of_ne_nil _ hne, hlast]) hdot hboth
  · rw [hfront, List.append_assoc, ← hfront]

theorem hasSourceSuffix_append {ending : String}
    (h : Utf8.ofString ".ts" <:+ Utf8.ofString ending) : (p.append ending).hasSourceSuffix = true :=
  hasSourceSuffix_iff.mpr (h.trans (List.suffix_append _ _))

/-- A source file in the folder that a folded path means. -/
theorem isFolded_join (hp : p.IsFolded) {index : String} (hname : IsName (Utf8.ofString index))
    (h : Utf8.ofString ".ts" <:+ Utf8.ofString index) :
    (p.join (ofString index)).IsFolded ∧ (p.join (ofString index)).hasSourceSuffix = true := by
  obtain ⟨place, hplace, rfl⟩ := hp
  obtain ⟨front, hfront⟩ := exists_bytes_ofPlace place
  rw [join_ofString hplace hname, hasSourceSuffix_iff, hfront]
  exact ⟨⟨_, List.forall_mem_append.mpr ⟨hplace, List.forall_mem_singleton.mpr hname⟩, rfl⟩,
    h.trans (List.suffix_append _ _)⟩

/-- What folded paths can mean are folded paths of source files. -/
theorem isFolded_of_mem_spellings {stem : Path} (hstem : stem.IsFolded) (hp : p.IsFolded)
    (hfile : file ∈ spellings stem p) : file.IsFolded ∧ file.hasSourceSuffix = true := by
  simp only [spellings, List.mem_cons, List.not_mem_nil, or_false] at hfile
  rcases hfile with rfl | rfl | rfl | rfl
  · exact ⟨isFolded_append hstem (b := 0x73) (by decide) (by decide) (by decide),
      hasSourceSuffix_append (by decide)⟩
  · exact ⟨isFolded_append hstem (b := 0x73) (by decide) (by decide) (by decide),
      hasSourceSuffix_append (by decide)⟩
  · exact isFolded_join hp (by decide) (by decide)
  · exact isFolded_join hp (by decide) (by decide)

end Path

namespace Disk

open TypeInliner.Path

variable {d : Disk} {follow : Bool} {place : Place} {p file : Path}

/-! ## Files at folded paths -/

/-- Without links a walk takes the steps of its segments. -/
theorem Walks.eq_foldl {links : Nat} {start found : Place} {segments : List Bytes}
    (hwalks : Walks d follow links start segments (.found found)) (h : d.HasNoLinks) :
    found = (segments.filterMap Component.ofSegment?).foldl foldStep start := by
  generalize ha : Arrival.found found = a at hwalks
  induction hwalks with
  | done => cases ha; rfl
  | vacant => cases ha
  | atLink _ _ link => exact absurd link h.node?
  | through _ _ link => exact absurd link h.node?
  | void _ void _ ih => rw [ih ha, List.filterMap_cons, Component.ofSegment?_of_isVoid void]
  | up _ _ ih => exact ih ha
  | down _ plain _ _ _ ih =>
    rw [ih ha, List.filterMap_cons,
      Component.ofSegment?_of_isVoid_eq_false plain.notVoid plain.notParent]
    rfl

/-- Without links a path finds, if anything, the place to which it leads name by name. -/
theorem find_eq_follow {found : Place} (h : d.HasNoLinks) (hfind : d.find p = .ok found) :
    found = p.follow d.home := by
  rw [follow_eq_foldl]
  exact (arrive_eq_ok_iff.mp (find_eq_ok_iff.mp hfind)).2.eq_foldl h

/-- Whatever stands at a place is found under the path of the place, if the path is short enough to
be looked up. -/
theorem find_ofPlace {node : Node} (htree : d.IsTree) (h : d.HasNoLinks)
    (hnode : d.node? place = some node) (hfits : (ofPlace place).bytes.length < pathLimit) :
    d.find (ofPlace place) = .ok place := by
  induction place using List.reverseRecOn generalizing node with
  | nil => rfl
  | append_singleton folder name ih =>
    have hnames := htree.names hnode
    have hfolder := htree.isFolderAt_dropLast hnode
    rw [List.dropLast_concat] at hfolder
    obtain ⟨hnamesBefore, hname⟩ := List.forall_mem_append.mp hnames
    have hname := List.forall_mem_singleton.mp hname
    have hjoin := join_ofPlace (fun n hn => (hnamesBefore n hn).1) hname.1
    have hshorter : (ofPlace folder).bytes.length ≤ (ofPlace (folder ++ [name])).bytes.length := by
      rw [← hjoin]
      rcases bytes_join (ofPlace folder) hname.1 with hbytes | hbytes <;> simp [hbytes]
    have hopens : d.Opens (ofPlace folder) folder :=
      ⟨hfolder, .inr (ih (isFolderAt_iff.mp hfolder) (Nat.lt_of_le_of_lt hshorter hfits))⟩
    rw [← hjoin] at hfits ⊢
    exact (hopens.find_join_eq_ok_iff hname fun _ => h.node?).mpr ⟨hfits, by simp [hnode], rfl⟩

/-- Whether a file stands at the place that a path means. -/
def holdsFile (d : Disk) (p : Path) : Bool :=
  match d.node? (p.place d.home) with
  | some (.file _) => true
  | _ => false

theorem holdsFile_ofPlace_iff (hplace : ∀ name ∈ place, IsName name) :
    d.holdsFile (ofPlace place) = true ↔ ∃ content, d.node? place = some (.file content) := by
  rw [holdsFile, place_ofPlace hplace]
  split <;> simp_all

/-- A folded path leads to a file exactly if the file stands there and the path is not too long. -/
theorem isFile_of_isFolded (htree : d.IsTree) (h : d.HasNoLinks) (hp : p.IsFolded) :
    d.isFile p = (d.holdsFile p && decide (p.bytes.length < pathLimit)) := by
  obtain ⟨place, hplace, rfl⟩ := hp
  rw [Bool.eq_iff_iff, isFile_iff, Bool.and_eq_true, decide_eq_true_eq,
    holdsFile_ofPlace_iff hplace]
  constructor
  · rintro ⟨found, hfind, content, hnode⟩
    have hfound := find_eq_follow h hfind
    rw [follow_ofPlace hplace] at hfound
    exact ⟨⟨content, hfound ▸ hnode⟩, (arrive_eq_ok_iff.mp (find_eq_ok_iff.mp hfind)).1.fits⟩
  · rintro ⟨⟨content, hnode⟩, hfits⟩
    exact ⟨place, find_ofPlace htree h hnode hfits, content, hnode⟩

/-! ## Fixed points -/

theorem canonicalize_of_isFolded (h : d.HasNoLinks) (hp : p.IsFolded) : d.canonicalize p = p := by
  rw [canonicalize, hp.normalize_eq]
  obtain ⟨place, hplace, rfl⟩ := hp
  cases hfind : d.find (ofPlace place) with
  | error fault => simp [realPath, hfind, Except.map]
  | ok found =>
    rw [find_eq_follow h hfind, follow_ofPlace hplace] at hfind
    simp [realPath, hfind, Except.map]

/-- The endings are put behind the path as it is shown, the names of index files behind the path
itself. -/
theorem candidates_eq (p : Path) : candidates p = spellings p.shown p := by
  simp only [candidates, spellings, append, shown, ofText, Utf8.encode_append, Utf8.ofString]

theorem isFolded_of_mem_candidates (hp : p.IsFolded) (hfile : file ∈ candidates p) :
    file.IsFolded ∧ file.hasSourceSuffix = true :=
  isFolded_of_mem_spellings hp.shown hp (candidates_eq p ▸ hfile)

theorem locate_of_hasSourceSuffix (h : d.HasNoLinks) (hp : p.IsFolded)
    (hsuffix : p.hasSourceSuffix = true) : d.locate p = p := by
  rw [locate, hp.normalize_eq, if_pos hsuffix, canonicalize_of_isFolded h hp]

/-- Without links nothing but the folded path and its candidates decides which file a path means. -/
theorem locate_eq (h : d.HasNoLinks) (p : Path) :
    d.locate p =
      let n := p.normalize d.home
      if n.hasSourceSuffix then n else ((candidates n).find? d.isFile).getD n := by
  have hn := normalize_isFolded d.home p
  simp only [locate]
  split
  · exact canonicalize_of_isFolded h hn
  · split
    · next file hfind =>
      rw [hfind]
      exact canonicalize_of_isFolded h
        (isFolded_of_mem_candidates hn (List.mem_of_find?_eq_some hfind)).1
    · next hfind => rw [hfind]; rfl

theorem locate_locate (h : d.HasNoLinks) (p : Path) : d.locate (d.locate p) = d.locate p := by
  have hn := normalize_isFolded d.home p
  rw [locate_eq h p]
  dsimp only
  split
  · next hsuffix => exact locate_of_hasSourceSuffix h hn hsuffix
  next hsuffix =>
  cases hfind : (candidates (p.normalize d.home)).find? d.isFile with
  | some file =>
    obtain ⟨hfile, hfileSuffix⟩ := isFolded_of_mem_candidates hn (List.mem_of_find?_eq_some hfind)
    exact locate_of_hasSourceSuffix h hfile hfileSuffix
  | none =>
    rw [Option.getD_none, locate_eq h, hn.normalize_eq]
    simp [hsuffix, hfind]

/-- Of the paths that the folded form can mean, the first is located at which a file stands and
which is not too long. -/
theorem locate_eq_standing (htree : d.IsTree) (h : d.HasNoLinks) (p : Path) :
    d.locate p =
      let n := p.normalize d.home
      if n.hasSourceSuffix then n
      else ((spellings n.shown n).find? fun file =>
        d.holdsFile file && decide (file.bytes.length < pathLimit)).getD n := by
  have hn := normalize_isFolded d.home p
  rw [locate_eq h p]
  dsimp only
  rw [candidates_eq, List.find?_congr fun file hfile =>
    isFile_of_isFolded htree h (isFolded_of_mem_spellings hn.shown hn hfile).1]

/-! ## Markers -/

theorem isText_join_ofString (hp : p.IsFolded) (htext : p.IsText) {index : String}
    (hname : IsName (Utf8.ofString index)) : (p.join (ofString index)).IsText := by
  obtain ⟨place, hplace, rfl⟩ := hp
  rw [join_ofString hplace hname, isText_ofPlace]
  exact List.forall_mem_append.mpr
    ⟨isText_ofPlace.mp htext, List.forall_mem_singleton.mpr (Utf8.isText_encode _)⟩

/-- From a path that is text, a path is located that is text. -/
theorem isText_locate (h : d.HasNoLinks) (hp : p.IsFolded) (htext : p.IsText) :
    (d.locate p).IsText := by
  rw [locate_eq h, hp.normalize_eq]
  dsimp only
  split
  · exact htext
  cases hfind : (candidates p).find? d.isFile with
  | none => exact htext
  | some file =>
    have hfile := List.mem_of_find?_eq_some hfind
    rw [candidates_eq] at hfile
    simp only [spellings, List.mem_cons, List.not_mem_nil, or_false] at hfile
    rcases hfile with rfl | rfl | rfl | rfl
    · exact isText_append (isText_shown p) _
    · exact isText_append (isText_shown p) _
    · exact isText_join_ofString hp htext (by decide)
    · exact isText_join_ofString hp htext (by decide)

/-- What a file is shown as leads back to the file exactly if the path of the file is text. -/
theorem locate_shown_eq_iff (h : d.HasNoLinks) (hfolded : file.IsFolded)
    (hlocated : d.locate file = file) : d.locate file.shown = file ↔ file.IsText := by
  constructor
  · intro hback
    rw [← hback]
    exact isText_locate h hfolded.shown (isText_shown file)
  · intro htext
    rw [htext, hlocated]

/-- The file of a declaration that is found from a located file is located itself. -/
theorem locate_of_declaration? {name : Text} {declaration : DeclaredType} (h : d.HasNoLinks)
    (hfound : Introspector.sources.declaration? d (d.locate p) name = some declaration) :
    d.locate declaration.file = declaration.file := by
  obtain ⟨hfile | ⟨q, hfile⟩, -⟩ := declares_of_declarationWithin hfound
  · rw [hfile, locate_locate h]
  · rw [hfile, locate_locate h]

end Disk

/-- A name that a file declares and does not import is a reference to the file. -/
theorem SourceFile.reference?_own {f : SourceFile} {o : Occurrence} {r : TypeReference}
    (h : f.reference? o = some r) (himport : f.imports.find? o.token.value = none) :
    r = ⟨f.path.text, o.token.value⟩ := by
  simp only [reference?, himport] at h
  split at h
  · split at h
    · exact (Option.some.inj h).symm
    · cases h
  · cases h

open TypeInliner.Path (spellings) in
/-- Without links, the file that a path means is its folded form if that is the path of a source
file. Else it is the first of four paths at which a file stands and which is not too long to be
looked up, or else the folded form; the endings of the first two are put behind the folded form as
it is shown. So it is the first at which a file stands if the folded form is text and no such path
is too long. It is absolute, has neither `.` nor `..`, and means itself.

A declaration found from there stands in a file that means itself. All markers by which that file
writes its own types lead from everywhere to what its path is shown as, which means the file itself
exactly if its path is text. -/
theorem Disk.located_path_is_stable [PatternCompiler] {d : Disk} (htree : d.IsTree)
    (h : d.HasNoLinks) (p : Path) :
    let n := p.normalize d.home
    let file := d.locate p
    (file = if n.hasSourceSuffix then n
      else ((spellings n.shown n).find? fun c =>
        d.holdsFile c && decide (c.bytes.length < pathLimit)).getD n) ∧
    (n.IsText → (∀ c ∈ spellings n n, d.holdsFile c = true → c.bytes.length < pathLimit) →
      file = if n.hasSourceSuffix then n
        else ((spellings n n).find? d.holdsFile).getD n) ∧
    (file.isAbsolute = true ∧ ∀ c ∈ file.components, c ≠ .current ∧ c ≠ .parent) ∧
    d.locate file = file ∧
    ∀ name declaration, Introspector.sources.declaration? d file name = some declaration →
      d.locate declaration.file = declaration.file ∧
      ∃ source, d.read declaration.file = .ok source ∧
        let f := SourceFile.ofText d.home declaration.file source
        f.declaration? name = some declaration ∧
        (d.locate declaration.file.shown = declaration.file ↔ declaration.file.IsText) ∧
        ∀ o ∈ f.occurrences, ∀ r, f.reference? o = some r →
          f.imports.find? o.token.value = none →
          f.shown o = r.marker ∧ r.name = o.token.value ∧
          ∀ (options : Options) (ctx : Context) (other : Path),
            Resolution.resolveReference d options ctx r.source other =
              (.ok (d.locate declaration.file.shown), ctx) := by
  intro n file
  refine ⟨locate_eq_standing htree h p, fun htext hshort => ?_,
    (d.locate_isFolded p).components, locate_locate h p, fun name declaration hfound => ?_⟩
  · have hsame : ∀ c ∈ spellings n n,
        (d.holdsFile c && decide (c.bytes.length < pathLimit)) = d.holdsFile c := by
      intro c hc
      cases hholds : d.holdsFile c with
      | false => rfl
      | true => exact decide_eq_true (hshort c hc hholds)
    have hstem : n.shown = n := htext
    have hfile := locate_eq_standing htree h p
    dsimp only at hfile
    rwa [hstem, List.find?_congr hsame] at hfile
  · have hlocated := locate_of_declaration? h hfound
    have hfolded : declaration.file.IsFolded := hlocated ▸ d.locate_isFolded declaration.file
    obtain ⟨-, source, hread, hdeclared⟩ := declares_of_declarationWithin hfound
    refine ⟨hlocated, source, hread, hdeclared, locate_shown_eq_iff h hfolded hlocated,
      fun o _ r href himport => ?_⟩
    obtain rfl := SourceFile.reference?_own href himport
    refine ⟨by simp only [SourceFile.shown, href], rfl, fun options ctx other => ?_⟩
    exact Resolution.resolveReference_shown hfolded d options ctx other

/-- A folder whose name ends like that of a source file stands beside a declaration file. -/
def shadowedFile : Disk where
  home := .ofNames ["w"]
  nodes := [(.ofNames ["w"], .folder), (.ofNames ["w", "a.ts"], .folder),
    (.ofNames ["w", "a.d.ts"], .file (some "export interface A { next: B } type B = A[];".toList))]

open scoped PatternCompiler in
/-- The declaration file is located, and the marker that it writes for its second type leads back to
it from everywhere. -/
theorem shadowedFile_is_stable :
    let file := shadowedFile.locate (.ofString "../w/./x/../a")
    let f := SourceFile.ofText shadowedFile.home file
      "export interface A { next: B } type B = A[];".toList
    shadowedFile.IsTree ∧ shadowedFile.HasNoLinks ∧ file = .ofString "/w/a.d.ts" ∧
      shadowedFile.locate file = file ∧
      (Introspector.sources.declaration? shadowedFile file "A".toList).isSome = true ∧
      ∃ o ∈ f.occurrences, f.shown o = "import(\x22/w/a.d.ts\x22).B".toList ∧
        ∀ (options : Options) (ctx : Context) (other : Path),
          Resolution.resolveReference shadowedFile options ctx "/w/a.d.ts".toList other =
            (.ok file, ctx) := by
  intro file f
  have htree : shadowedFile.IsTree := by decide
  have hlinks : shadowedFile.HasNoLinks := by decide
  obtain ⟨-, -, -, hstable, hdeclared⟩ :=
    Disk.located_path_is_stable htree hlinks (.ofString "../w/./x/../a")
  have hfile : file = .ofString "/w/a.d.ts" := by
    have hbytes : file.bytes = Utf8.ofString "/w/a.d.ts" := by decide +kernel
    exact congrArg Path.mk hbytes
  have hread : shadowedFile.read file =
      .ok "export interface A { next: B } type B = A[];".toList := by
    rw [hfile]
    rfl
  have hsome : (Introspector.sources.declaration? shadowedFile file "A".toList).isSome = true := by
    decide +kernel
  obtain ⟨declaration, hfound⟩ := Option.isSome_iff_exists.mp hsome
  have hsame : declaration.file = file := by
    have hbytes : (Introspector.sources.declaration? shadowedFile file "A".toList).map
        (·.file.bytes) = some (Utf8.ofString "/w/a.d.ts") := by decide +kernel
    rw [hfound] at hbytes
    exact (congrArg Path.mk (Option.some.inj hbytes)).trans hfile.symm
  obtain ⟨-, source, hsource, -, hback, hown⟩ := hdeclared _ _ hfound
  rw [hsame] at hsource hown hback
  obtain rfl := Except.ok.inj (hsource.symm.trans hread)
  rw [hback.mpr (hfile ▸ by decide)] at hown
  have hmentions : f.occurrences.any (fun o =>
      f.reference? o = some ⟨"/w/a.d.ts".toList, "B".toList⟩ &&
        (f.imports.find? o.token.value).isNone) = true := by decide +kernel
  obtain ⟨o, ho, hmention⟩ := List.any_eq_true.mp hmentions
  obtain ⟨href, himport⟩ := Bool.and_eq_true_iff.mp hmention
  obtain ⟨hshown, -, hresolves⟩ :=
    hown o ho _ (of_decide_eq_true href) (Option.isNone_iff_eq_none.mp himport)
  exact ⟨htree, hlinks, hfile, hstable, hsome, o, ho, hshown, hresolves⟩

/-! ## Files that are not located

A file is missed where the folded path is too long, though the file can be read under a shorter
path, and where a name is no text. -/

theorem Path.length_le_of_mem_spellings {p file : Path} (h : file ∈ p.spellings p) :
    p.bytes.length ≤ file.bytes.length := by
  have hindex {index : String} (hname : Path.IsName (Utf8.ofString index)) :
      p.bytes.length ≤ (p.join (.ofString index)).bytes.length := by
    show p.bytes.length ≤ (p.join ⟨Utf8.ofString index⟩).bytes.length
    rcases Path.bytes_join p hname with hbytes | hbytes <;> simp [hbytes]
  simp only [spellings, List.mem_cons, List.not_mem_nil, or_false] at h
  rcases h with rfl | rfl | rfl | rfl
  · simp [append]
  · simp [append]
  · exact hindex (by decide)
  · exact hindex (by decide)

theorem Disk.locate_of_overlong {d : Disk} (htree : d.IsTree) (h : d.HasNoLinks) {p : Path}
    (htext : (p.normalize d.home).IsText) (hlong : pathLimit ≤ (p.normalize d.home).bytes.length) :
    d.locate p = p.normalize d.home := by
  rw [locate_eq_standing htree h]
  generalize p.normalize d.home = n at htext hlong
  have hstem : n.shown = n := htext
  have hnone : (n.spellings n).find? (fun c =>
      d.holdsFile c && decide (c.bytes.length < pathLimit)) = none := by
    refine List.find?_eq_none.mpr fun c hc hfound => ?_
    have hshort := of_decide_eq_true (Bool.and_eq_true_iff.mp hfound).2
    have := Path.length_le_of_mem_spellings hc
    omega
  dsimp only
  rw [hstem, hnone, Option.getD_none, ite_self]

theorem Path.length_ofPlace_le (place : Place) :
    (place.map fun name => name.length + 1).sum ≤ (ofPlace place).bytes.length := by
  have hjoin : (place.map fun name => name.length + 1).sum ≤
      (Text.join [slash] place).length + 1 := by
    induction place with
    | nil => simp
    | cons name place ih =>
      cases place with
      | nil => simp [Text.join]
      | cons next place =>
        simp only [List.map_cons, List.sum_cons, Text.join, List.length_append,
          List.length_singleton] at ih ⊢
        omega
  exact hjoin

/-- A name as long as a name can be. -/
def longName : Bytes := List.replicate Disk.nameLimit 0x61

/-- A folder so deep that the paths of what stands two folders below it are too long. -/
def deepFolder : Place := List.replicate 15 longName

def deepDisk : Disk where
  home := deepFolder
  nodes := (List.range 16).map (fun n => (List.replicate (n + 1) longName, .folder)) ++
    [(deepFolder ++ [longName, Utf8.ofString "a.ts"], .file (some []))]

/-- The place that `a` in the folder of a long name means, one folder below. -/
def deepPlace : Place := deepFolder ++ [longName] ++ [Utf8.ofString "a"]

theorem deepDisk_evaluates :
    deepDisk.IsTree ∧ deepDisk.HasNoLinks ∧
      (∀ name ∈ deepPlace, Utf8.IsText name) ∧
      Disk.pathLimit ≤ (deepPlace.map fun name => name.length + 1).sum := by
  decide +kernel

theorem normalize_deepPlace :
    Path.normalize deepDisk.home ⟨longName ++ Utf8.ofString "/a"⟩ = .ofPlace deepPlace := by
  have hnames : ∀ name ∈ deepFolder, Path.IsName name := by decide +kernel
  have hfollow : Path.follow deepFolder ⟨longName ++ Utf8.ofString "/a"⟩ = deepPlace := by
    decide +kernel
  have hhome : Path.follow [] (.ofPlace deepDisk.home) = deepFolder := Path.follow_ofPlace hnames []
  rw [Path.normalize_eq, hhome, hfollow]

theorem hasSourceSuffix_deepPlace : (Path.ofPlace deepPlace).hasSourceSuffix = false := by
  obtain ⟨front, hfront⟩ := Path.exists_bytes_ofPlace (deepFolder ++ [longName])
  have hending : Utf8.ofString ".ts" = [0x2E, 0x74, 0x73] := by decide
  have hname : Utf8.ofString "a" = [0x61] := by decide
  rw [← Bool.not_eq_true, Path.hasSourceSuffix_iff, deepPlace, hfront, hending, hname]
  rintro ⟨before, hbefore⟩
  have hlast := congrArg List.getLast? hbefore
  simp at hlast

theorem holdsFile_deepPlace :
    deepDisk.holdsFile ((Path.ofPlace deepPlace).append ".ts") = true := by
  obtain ⟨front, hfront⟩ := Path.exists_bytes_ofPlace (deepFolder ++ [longName])
  have happend : (Path.ofPlace deepPlace).append ".ts" =
      .ofPlace (deepFolder ++ [longName] ++ [Utf8.ofString "a.ts"]) := by
    refine congrArg Path.mk ?_
    rw [deepPlace, hfront, List.append_assoc]
    exact (hfront (Utf8.ofString "a.ts")).symm
  rw [happend, Disk.holdsFile_ofPlace_iff (by decide +kernel)]
  exact ⟨some [], by decide +kernel⟩

/-- A folder with a file whose name begins with a byte that is no text. -/
def undecodedDisk : Disk where
  home := .ofNames ["w"]
  nodes := [(.ofNames ["w"], .folder),
    ([Utf8.ofString "w", 0xFF :: Utf8.ofString ".ts"], .file (some []))]

/-- The file at the folded form with `.ts` behind it is missed, though it can be read. In the second
case the file is not found from what its own path is shown as either. -/
theorem standing_file_is_missed :
    (let p : Path := ⟨longName ++ Utf8.ofString "/a"⟩
      let n := p.normalize deepDisk.home
      deepDisk.IsTree ∧ deepDisk.HasNoLinks ∧ n.hasSourceSuffix = false ∧
        deepDisk.isFile (p.append ".ts") = true ∧ deepDisk.holdsFile (n.append ".ts") = true ∧
        deepDisk.locate p = n) ∧
      let p : Path := ⟨Utf8.ofString "/w/" ++ [0xFF]⟩
      undecodedDisk.IsTree ∧ undecodedDisk.HasNoLinks ∧ p.hasSourceSuffix = false ∧
        undecodedDisk.isFile (p.append ".ts") = true ∧
        (undecodedDisk.locate p).bytes = p.bytes ∧
        (undecodedDisk.locate (p.append ".ts")).bytes = (p.append ".ts").bytes ∧
        (undecodedDisk.locate (p.append ".ts").shown).bytes ≠ (p.append ".ts").bytes := by
  refine ⟨?_, by decide +kernel⟩
  intro p n
  have hn : n = .ofPlace deepPlace := normalize_deepPlace
  obtain ⟨htree, hlinks, hplace, hlong⟩ := deepDisk_evaluates
  have htext : n.IsText := hn ▸ Path.isText_ofPlace.mpr hplace
  have hoverlong : Disk.pathLimit ≤ n.bytes.length :=
    hn ▸ hlong.trans (Path.length_ofPlace_le deepPlace)
  exact ⟨htree, hlinks, hn ▸ hasSourceSuffix_deepPlace, by decide +kernel,
    hn ▸ holdsFile_deepPlace, Disk.locate_of_overlong htree hlinks htext hoverlong⟩

end TypeInliner
