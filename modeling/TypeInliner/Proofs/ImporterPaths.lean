import Mathlib.Data.List.Induction
import TypeInliner.CommandLine
import TypeInliner.Proofs.ShownPaths
import TypeInliner.Proofs.FileTrees
import TypeInliner.Proofs.FoldedPaths

/-! # Importing files and how they are spelled

What is generated for a source depends on the path of the importing file, since relative specifiers
are joined to it. It does not depend on how that path is spelled: reading a file, which folds its
path, gives what passing its text with the path as it stands gives. -/

namespace TypeInliner

namespace Text

/-- An ending without a separator ends the last of the parts between separators. -/
theorem suffix_append_cons_iff {α : Type} {separator : α} {ending : List α}
    (h : separator ∉ ending) (front t : List α) :
    ending <:+ front ++ separator :: t ↔ ending <:+ t := by
  constructor
  · intro hending
    have hlast : separator :: t <:+ front ++ separator :: t := List.suffix_append _ _
    rcases List.suffix_or_suffix_of_suffix hending hlast with hshort | hlong
    · rcases List.suffix_cons_iff.mp hshort with rfl | hshort
      · exact absurd List.mem_cons_self h
      · exact hshort
    · exact absurd (hlong.subset List.mem_cons_self) h
  · intro hending
    exact hending.trans ((List.suffix_cons _ _).trans (List.suffix_append _ _))

end Text

namespace Path

theorem dropVoidEnd_concat (segments : List Bytes) (segment : Bytes) :
    dropVoidEnd (segments ++ [segment]) =
      if isVoid segment then dropVoidEnd segments else segments ++ [segment] := by
  rw [dropVoidEnd, List.reverse_append, List.reverse_singleton, List.singleton_append,
    List.dropWhile_cons]
  split
  · rfl
  · simp

/-- Leaving out blank segments at the end leaves the steps of a path. -/
theorem filterMap_dropVoidEnd (segments : List Bytes) :
    (dropVoidEnd segments).filterMap Component.ofSegment? =
      segments.filterMap Component.ofSegment? := by
  induction segments using List.reverseRecOn with
  | nil => rfl
  | append_singleton segments segment ih =>
    rw [dropVoidEnd_concat]
    split
    · next hvoid => simp [ih, Component.ofSegment?_of_isVoid hvoid]
    · rfl

theorem prefix_dropVoidEnd (segments : List Bytes) : dropVoidEnd segments <+: segments := by
  induction segments using List.reverseRecOn with
  | nil => exact List.prefix_rfl
  | append_singleton segments segment ih =>
    rw [dropVoidEnd_concat]
    split
    · exact ih.trans (List.prefix_append _ _)
    · exact List.prefix_rfl

variable {p : Path} {front : List Bytes} {name : Bytes}

theorem parentSegments?_of_isName (front : List Bytes) (hname : IsName name) :
    parentSegments? (front ++ [name]) = some (dropVoidEnd front) := by
  rw [parentSegments?, dropVoidEnd_concat, if_neg (by simp [isVoid_of_isName hname]),
    List.reverse_append, List.reverse_singleton, List.singleton_append]
  simp

theorem steps_join_segments {segments : List Bytes} (h : ∀ s ∈ segments, slash ∉ s) :
    steps ⟨Text.join [slash] segments⟩ = segments.filterMap Component.ofSegment? := by
  by_cases hne : segments = []
  · subst hne
    rfl
  · rw [steps, Path.segments, Text.splitAt_join hne h]

/-- A path starts at the root if a separator follows an empty segment. -/
theorem isAbsolute_join_segments {segments : List Bytes} (h : ∀ s ∈ segments, slash ∉ s) :
    isAbsolute ⟨Text.join [slash] segments⟩ = true ↔
      ∃ second rest, segments = [] :: second :: rest := by
  have hhead {c : UInt8} {t : Bytes} (hc : slash ∉ c :: t) : c ≠ slash := by
    rintro rfl
    exact hc List.mem_cons_self
  match segments with
  | [] => simp [isAbsolute, Text.join]
  | [[]] => simp [isAbsolute, Text.join]
  | [c :: t] => simp [isAbsolute, Text.join, hhead (h _ List.mem_cons_self)]
  | [] :: second :: rest => simp [isAbsolute, Text.join]
  | (c :: t) :: second :: rest => simp [isAbsolute, Text.join, hhead (h _ List.mem_cons_self)]

theorem isAbsolute_iff_segments :
    p.isAbsolute = true ↔ ∃ second rest, p.segments = [] :: second :: rest := by
  have hbytes : p = ⟨Text.join [slash] p.segments⟩ :=
    congrArg mk (Text.join_splitAt slash p.bytes).symm
  conv_lhs => rw [hbytes]
  exact isAbsolute_join_segments fun s hs => Text.not_mem_of_mem_splitAt hs

theorem isAbsolute_eq_false {first : Bytes} {rest : List Bytes} (h : p.segments = first :: rest)
    (hfirst : first ≠ []) : p.isAbsolute = false := by
  rw [Bool.eq_false_iff]
  intro habsolute
  obtain ⟨rest', hrest⟩ := segments_of_isAbsolute habsolute
  rw [h] at hrest
  exact hfirst (List.cons.inj hrest).1

theorem parent?_of_isAbsolute (h : p.isAbsolute = true)
    (hsegments : p.segments = [] :: (front ++ [name])) (hname : IsName name) :
    p.parent? = some ⟨slash :: Text.join [slash] (dropVoidEnd front)⟩ := by
  simp only [parent?, hsegments, h, ↓reduceIte, parentSegments?_of_isName front hname,
    Option.map_some]

theorem parent?_of_current (hsegments : p.segments = [dot] :: (front ++ [name]))
    (hname : IsName name) :
    p.parent? = some ⟨Text.join [slash] ([dot] :: dropVoidEnd front)⟩ := by
  simp only [parent?, hsegments, isAbsolute_eq_false hsegments (by simp), Bool.false_eq_true,
    ↓reduceIte, parentSegments?_of_isName front hname]

theorem parent?_of_relative (h : p.isAbsolute = false) (hsegments : p.segments = front ++ [name])
    (hfront : front.head? ≠ some [dot]) (hname : IsName name) :
    p.parent? = some ⟨Text.join [slash] (dropVoidEnd front)⟩ := by
  have hparent := parentSegments?_of_isName front hname
  cases front with
  | nil =>
    rw [List.nil_append] at hsegments hparent
    simp only [parent?, hsegments, h, Bool.false_eq_true, ↓reduceIte, hname.2.1, hparent,
      Option.map_some]
  | cons first front =>
    rw [List.cons_append] at hsegments hparent
    have hfirst : first ≠ [dot] := fun hfirst => hfront (by rw [hfirst, List.head?_cons])
    simp only [parent?, hsegments, h, Bool.false_eq_true, ↓reduceIte, hfirst, hparent,
      Option.map_some]

/-- The parent of a path that ends in a name has its other steps. -/
theorem exists_parent (hsegments : p.segments = front ++ [name]) (hname : IsName name) :
    ∃ parent, p.parent? = some parent ∧ parent.isAbsolute = p.isAbsolute ∧
      parent.steps = front.filterMap Component.ofSegment? := by
  have hslash : ∀ s ∈ front, slash ∉ s := by
    have hall : ∀ s ∈ p.segments, slash ∉ s := fun s hs => Text.not_mem_of_mem_splitAt hs
    rw [hsegments] at hall
    exact (List.forall_mem_append.mp hall).1
  have hkept {front : List Bytes} (h : ∀ s ∈ front, slash ∉ s) :
      ∀ s ∈ dropVoidEnd front, slash ∉ s :=
    fun s hs => h s ((prefix_dropVoidEnd front).subset hs)
  by_cases habsolute : p.isAbsolute = true
  · obtain ⟨rest, hrest⟩ := segments_of_isAbsolute habsolute
    cases front with
    | nil =>
      rw [hsegments] at hrest
      exact absurd (List.cons.inj hrest).1 hname.1
    | cons first front =>
      obtain rfl : first = [] := by
        rw [hsegments] at hrest
        exact (List.cons.inj hrest).1
      refine ⟨_, parent?_of_isAbsolute habsolute hsegments hname, habsolute.symm, ?_⟩
      have hsteps : steps ⟨slash :: Text.join [slash] (dropVoidEnd front)⟩ =
          steps ⟨Text.join [slash] (dropVoidEnd front)⟩ := by
        rw [steps, segments, ← List.nil_append (slash :: _), Text.splitAt_append]
        rfl
      rw [hsteps, steps_join_segments (hkept (List.forall_mem_cons.mp hslash).2),
        filterMap_dropVoidEnd]
      rfl
  · have hrelative : p.isAbsolute = false := by simpa using habsolute
    by_cases hcurrent : front.head? = some [dot]
    · obtain ⟨front, rfl⟩ := List.head?_eq_some_iff.mp hcurrent
      have hclean : ∀ s ∈ [dot] :: dropVoidEnd front, slash ∉ s :=
        List.forall_mem_cons.mpr ⟨by decide, hkept (List.forall_mem_cons.mp hslash).2⟩
      refine ⟨_, parent?_of_current hsegments hname, ?_, ?_⟩
      · rw [hrelative, Bool.eq_false_iff, Ne, isAbsolute_join_segments hclean]
        simp
      · rw [steps_join_segments hclean]
        exact filterMap_dropVoidEnd front
    · refine ⟨_, parent?_of_relative hrelative hsegments hcurrent hname, ?_, ?_⟩
      · rw [hrelative, Bool.eq_false_iff, Ne, isAbsolute_join_segments (hkept hslash)]
        rintro ⟨second, rest, hkeptFront⟩
        obtain ⟨blank, hblank⟩ := prefix_dropVoidEnd front
        refine habsolute ?_
        rw [isAbsolute_iff_segments, hsegments, ← hblank, hkeptFront]
        exact ⟨second, _, rfl⟩
      · rw [steps_join_segments (hkept hslash), filterMap_dropVoidEnd]

/-- A path that ends in a name leads to that name in the folder where its parent leads. -/
theorem exists_parent_follow (hsegments : p.segments = front ++ [name]) (hname : IsName name) :
    ∃ parent, p.parent? = some parent ∧
      ∀ folder, p.follow folder = parent.follow folder ++ [name] := by
  obtain ⟨parent, hparent, habsolute, hsteps⟩ := exists_parent hsegments hname
  refine ⟨parent, hparent, fun folder => ?_⟩
  have hlast : p.steps = parent.steps ++ [.name name] := by
    rw [steps, hsegments, hsteps, List.filterMap_append]
    simp [Component.ofSegment?_of_isName hname]
  rw [follow_eq_foldl, hlast, List.foldl_append, ← habsolute, ← follow_eq_foldl]
  rfl

/-- Only the last name of a path decides whether it is the path of a source file. -/
theorem hasSourceSuffix_eq (hsegments : p.segments = front ++ [name]) :
    p.hasSourceSuffix = (Utf8.ofString ".ts").isSuffixOf name := by
  have hbytes : p.bytes = Text.join [slash] (front ++ [name]) := by
    rw [← hsegments]
    exact (Text.join_splitAt slash p.bytes).symm
  rw [Bool.eq_iff_iff, hasSourceSuffix_iff, hbytes, List.isSuffixOf_iff_suffix]
  by_cases hfront : front = []
  · rw [hfront]
    rfl
  · rw [Text.join_concat [slash] hfront, List.append_assoc, List.singleton_append]
    exact Text.suffix_append_cons_iff (by decide) _ _

/-- Relative specifiers mean the same from a path that ends in a name and from the folded path. -/
theorem resolveRelative_normalize (home : Place) (specifier : Text)
    (hsegments : p.segments = front ++ [name]) (hname : IsName name) :
    resolveRelative home specifier (normalize home p) = resolveRelative home specifier p := by
  have hstart := follow_isName (List.forall_mem_nil IsName) (ofPlace home)
  rw [normalize_eq]
  generalize hstartIs : (ofPlace home).follow [] = start at hstart ⊢
  obtain ⟨parent, hparent, hfollow⟩ := exists_parent_follow hsegments hname
  have hplace := follow_isName hstart p
  have hfolder : ∀ n ∈ parent.follow start, IsName n := follow_isName hstart parent
  have hsame : (ofPlace (p.follow start)).hasSourceSuffix = p.hasSourceSuffix := by
    rw [hfollow] at hplace ⊢
    have hfolded : (ofPlace (parent.follow start ++ [name])).segments =
        ([] :: parent.follow start) ++ [name] := segments_ofPlace hplace (by simp)
    rw [hasSourceSuffix_eq hfolded, hasSourceSuffix_eq hsegments]
  -- Both specifiers are followed from one place, the folder of the file or the path as a folder.
  simp only [resolveRelative, hsame, normalize_eq, hstartIs, follow_join]
  split
  · rw [hparent, hfollow]
    rw [hfollow] at hplace
    rw [parent?_ofPlace hplace, Option.getD_some, Option.getD_some, follow_ofPlace hfolder]
  · rw [follow_ofPlace hplace]

end Path

namespace Disk

open TypeInliner.Path

variable {d : Disk} {follow : Bool} {p : Path}

/-- A walk that does not end at a name ends in a folder. -/
theorem Walks.isFolderAt {links : Nat} {start found : Place} {segments : List Bytes}
    (hwalks : Walks d follow links start segments (.found found)) (h : d.IsTree)
    (hstart : segments = [] → d.isFolderAt start = true)
    (hlast : ∀ s, segments.getLast? = some s → isVoid s = true ∨ s = [dot, dot]) :
    d.isFolderAt found = true := by
  have hrest {s : Bytes} {rest : List Bytes}
      (h : ∀ t, (s :: rest).getLast? = some t → isVoid t = true ∨ t = [dot, dot]) :
      ∀ t, rest.getLast? = some t → isVoid t = true ∨ t = [dot, dot] := by
    intro t ht
    exact h t (by rw [List.getLast?_cons, ht]; rfl)
  have hplain {s : Bytes} {rest : List Bytes} (hs : IsPlain s)
      (h : ∀ t, (s :: rest).getLast? = some t → isVoid t = true ∨ t = [dot, dot]) : rest ≠ [] := by
    rintro rfl
    rcases h s rfl with hvoid | hparent
    · simp [hs.notVoid] at hvoid
    · exact hs.notParent hparent
  generalize ha : Arrival.found found = a at hwalks
  induction hwalks with
  | done => cases ha; exact hstart rfl
  | vacant => cases ha
  | atLink _ plain => exact absurd rfl (hplain plain hlast)
  | void folder _ _ ih => exact ih (fun _ => folder) (hrest hlast) ha
  | up folder _ ih =>
    exact ih (fun _ => h.isFolderAt_dropLast (isFolderAt_iff.mp folder)) (hrest hlast) ha
  | through _ plain _ _ _ ih =>
    refine ih (fun hempty => ?_) (fun t ht => ?_) ha
    · exact absurd (List.append_eq_nil_iff.mp hempty).2 (hplain plain hlast)
    · rw [List.getLast?_append_of_ne_nil _ (hplain plain hlast)] at ht
      exact hrest hlast t ht
  | down _ plain _ _ _ ih =>
    exact ih (fun hempty => absurd hempty (hplain plain hlast)) (hrest hlast) ha

/-- A path of which the text can be read ends in a name. -/
theorem IsTree.exists_name_of_read {text : Text} (h : d.IsTree) (hread : d.read p = .ok text) :
    ∃ front name, p.segments = front ++ [name] ∧ IsName name := by
  obtain ⟨place, hfind, hnode⟩ := read_eq_ok_iff.mp hread
  have hwalks := (arrive_eq_ok_iff.mp (find_eq_ok_iff.mp hfind)).2
  obtain ⟨front, name, hsegments⟩ :=
    (List.eq_nil_or_concat' p.segments).resolve_left (Text.splitAt_ne_nil slash p.bytes)
  have hmem : name ∈ p.segments := by simp [hsegments]
  have hslash : slash ∉ name := Text.not_mem_of_mem_splitAt hmem
  refine ⟨front, name, hsegments, ?_⟩
  by_cases hfolder : isVoid name = true ∨ name = [dot, dot]
  · have hlast : d.isFolderAt place = true := by
      refine hwalks.isFolderAt h (fun _ => h.isFolderAt_startOf p) fun s hs => ?_
      rw [hsegments, List.getLast?_concat] at hs
      cases hs
      exact hfolder
    rw [isFolderAt_iff, hnode] at hlast
    cases hlast
  · obtain ⟨hvoid, hparent⟩ := not_or.mp hfolder
    exact isName_of_isVoid_eq_false (by simpa using hvoid) hparent hslash

end Disk

/-! ## What the path of an importing file does -/

namespace Inliner

open TypeInliner.Path

variable [PatternCompiler] {d : Disk} {p q : Path}

/-- The path of an importing file matters only to where relative specifiers lead. -/
theorem resolveSpec_congr (inliner : Inliner) (ctx : Context) (spec : ImportSpec)
    (h : ∀ specifier, resolveRelative d.home specifier p = resolveRelative d.home specifier q) :
    inliner.resolveSpec d ctx spec (some p) = inliner.resolveSpec d ctx spec (some q) := by
  simp only [resolveSpec, Resolution.resolveSource, h]

theorem generate_congr (inliner : Inliner) (ctx : Context) (code : Text)
    (h : ∀ specifier, resolveRelative d.home specifier p = resolveRelative d.home specifier q) :
    inliner.generate d ctx code (some p) = inliner.generate d ctx code (some q) := by
  have hgather : inliner.gather d (some p) = inliner.gather d (some q) := by
    funext state s
    simp only [gather, resolveStatement, inliner.resolveSpec_congr _ _ h]
  have hinline : inliner.inline d ctx code (some p) = inliner.inline d ctx code (some q) := by
    simp only [inline, harvest, hgather]
  rw [generate, generate, hinline]

/-- To generate for a file that can be read is to generate for its text, with the path as it is. -/
theorem generateFile_of_read (inliner : Inliner) (ctx : Context) {code : Text} (htree : d.IsTree)
    (hread : d.read p = .ok code) :
    inliner.generateFile d ctx p = inliner.generate d ctx code (some p) := by
  obtain ⟨front, name, hsegments, hname⟩ := htree.exists_name_of_read hread
  rw [generateFile, hread]
  exact inliner.generate_congr ctx code fun specifier =>
    resolveRelative_normalize d.home specifier hsegments hname

end Inliner

namespace CommandLine

variable {d : Disk} {p : Path} {code : Text}

/-- An invocation that reads a file does what it does with the text of the file as its input. -/
theorem invoke_file_of_read [PatternCompiler] (htree : d.IsTree) (hread : d.read p = .ok code)
    (input : Option Text) (i : Invocation) :
    invoke d input { i with command := .file p } =
      invoke d (some code) { i with command := .code (some p) } := by
  unfold invoke
  have hoptions (command : Command) : optionsOf d { i with command } = optionsOf d i := rfl
  simp only [hoptions]
  split
  · rfl
  · simp only [Inliner.generateFile_of_read _ _ htree hread]

/-- An argument that can be a value is no option. -/
theorem collect_value {level : Level} {found : Collected} {argument : Bytes} {rest : List Bytes}
    (h : canBeValue argument = true) :
    collect level found (argument :: rest) =
      if level.isTop then .ok (.command found argument rest)
      else addValue level found argument >>= fun found => collect level found rest := by
  rw [collect, show Form.ofArgument argument = .value from of_decide_eq_true h]

theorem request_file (h : canBeValue p.bytes = true) (hne : p.bytes ≠ []) :
    request [Utf8.ofString "file", p.bytes] =
      .ok (.run ⟨none, none, none, false, false, .file p⟩) := by
  have hname : collect ⟨globalSettings, none⟩ .empty [Utf8.ofString "file", p.bytes] =
      .ok (.command .empty (Utf8.ofString "file") [p.bytes]) := collect_value (by decide)
  have hvalue : collect ⟨globalSettings, some 1⟩ .empty [p.bytes] =
      .ok (.done ⟨[], [p.bytes]⟩) := by
    rw [collect_value h]
    rfl
  have hlevel : commandLevels.find? (Utf8.ofString "file") = some ⟨globalSettings, some 1⟩ := rfl
  have hcommand : commandOf (Utf8.ofString "file") ⟨[], [p.bytes]⟩ = .ok (.file p) := by
    have hother : Utf8.ofString "file" ≠ Utf8.ofString "parse-import" := by decide
    simp [commandOf, pathValue, hother, hne, Except.map]
  simp only [request, hname, bind, Except.bind, commandRequest, hlevel, hvalue, hcommand]
  rfl

theorem request_code (h : canBeValue p.bytes = true) (hne : p.bytes ≠ []) :
    request [Utf8.ofString "code", Utf8.ofString "--path", p.bytes] =
      .ok (.run ⟨none, none, none, false, false, .code (some p)⟩) := by
  have hname : collect ⟨globalSettings, none⟩ .empty
      [Utf8.ofString "code", Utf8.ofString "--path", p.bytes] =
      .ok (.command .empty (Utf8.ofString "code") [Utf8.ofString "--path", p.bytes]) :=
    collect_value (by decide)
  have hvalue :
      collect ⟨globalSettings ++ [.path], some 0⟩ .empty [Utf8.ofString "--path", p.bytes] =
        .ok (.done ⟨[(.path, p.bytes)], []⟩) := by
    have hword : splitOption (Utf8.ofString "path") = (Utf8.ofString "path", none) := rfl
    have hsetting : (globalSettings ++ [Setting.path]).find? (·.word = Utf8.ofString "path") =
        some .path := rfl
    have hadd : addSetting .empty .path p.bytes = .ok ⟨[(.path, p.bytes)], []⟩ := by
      have : p.bytes.isEmpty = false := by simpa using hne
      simp [addSetting, Collected.empty, Table.contains, Table.find?, Table.insert, this]
    have hform : Form.ofArgument (Utf8.ofString "--path") = .long (Utf8.ofString "path") := rfl
    rw [collect, hform]
    simp only [hword, hsetting, hadd, h]
    rfl
  have hlevel : commandLevels.find? (Utf8.ofString "code") =
      some ⟨globalSettings ++ [.path], some 0⟩ := rfl
  simp only [request, hname, bind, Except.bind, commandRequest, hlevel, hvalue]
  rfl

/-- Of a file that can be read, however its path is spelled, reading it and passing its text with
the path give one result and one context. Runs for the file and for its text as input, with the same
options, print the same and exit alike. -/
theorem reading_agrees_with_passing [PatternCompiler] {d : Disk} {p : Path} {code : Text}
    (htree : d.IsTree) (hread : d.read p = .ok code) :
    (∀ (inliner : Inliner) (ctx : Context),
      inliner.generateFile d ctx p = inliner.generate d ctx code (some p)) ∧
    (∀ (i : Invocation) (input : Option Text) (arguments arguments' : List Bytes),
      request arguments = .ok (.run { i with command := .file p }) →
      request arguments' = .ok (.run { i with command := .code (some p) }) →
        run d input arguments = run d (some code) arguments') ∧
    (canBeValue p.bytes = true → ∀ input : Option Text,
      run d input [Utf8.ofString "file", p.bytes] =
        run d (some code) [Utf8.ofString "code", Utf8.ofString "--path", p.bytes]) := by
  have hrun (i : Invocation) (input : Option Text) (arguments arguments' : List Bytes)
      (hfile : request arguments = .ok (.run { i with command := .file p }))
      (hcode : request arguments' = .ok (.run { i with command := .code (some p) })) :
      run d input arguments = run d (some code) arguments' := by
    simp only [run, hfile, hcode]
    exact invoke_file_of_read htree hread input i
  refine ⟨fun inliner ctx => inliner.generateFile_of_read ctx htree hread, hrun, fun h input => ?_⟩
  obtain ⟨place, hfind, -⟩ := Disk.read_eq_ok_iff.mp hread
  have hne := (Disk.arrive_eq_ok_iff.mp (Disk.find_eq_ok_iff.mp hfind)).1.nonempty
  exact hrun ⟨none, none, none, false, false, .file p⟩ input _ _ (request_file h hne)
    (request_code h hne)

/-- A folder with two files, one of which imports from the other. -/
def neighbours : Disk where
  home := .ofNames ["w"]
  nodes := [(.ofNames ["w"], .folder), (.ofNames ["w", "src"], .folder),
    (.ofNames ["w", "src", "a.ts"],
      .file (some "import { B } from '../src/b';\ntype A = B;".toList)),
    (.ofNames ["w", "src", "b.ts"], .file (some "export type B = 1;".toList))]

theorem isTree_neighbours : neighbours.IsTree := by decide

open scoped PatternCompiler in
/-- The import of a file is found from a path that leaves the folder of the file and comes back. -/
theorem neighbours_read_and_passed :
    let p : Path := .ofString "src/..//./src/a.ts"
    let code := "import { B } from '../src/b';\ntype A = B;".toList
    let inliner := Inliner.ofOptions { Options.default with nearby := true }
    neighbours.IsTree ∧ neighbours.read p = .ok code ∧ canBeValue p.bytes = true ∧
      inliner.generateFile neighbours .empty p =
        inliner.generate neighbours .empty code (some p) ∧
      (inliner.generate neighbours .empty code (some p)).1.toOption =
        some "export type B = 1;\ntype A = B;".toList ∧
      run neighbours none [Utf8.ofString "file", p.bytes] =
        run neighbours (some code) [Utf8.ofString "code", Utf8.ofString "--path", p.bytes] := by
  intro p code inliner
  have hread : neighbours.read p = .ok code := by rfl
  have hvalue : canBeValue p.bytes = true := by decide
  obtain ⟨hgenerate, -, hrun⟩ := reading_agrees_with_passing isTree_neighbours hread
  exact ⟨isTree_neighbours, hread, hvalue, hgenerate _ _, by decide +kernel, hrun hvalue none⟩

end CommandLine

end TypeInliner
