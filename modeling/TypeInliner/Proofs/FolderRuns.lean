import Mathlib.Data.List.DropRight
import Mathlib.Data.List.Lex
import TypeInliner.Inliner
import TypeInliner.Proofs.ShownPaths
import TypeInliner.Proofs.FolderEntries

/-! # Runs over a folder

A run over a folder gives each of its source files a turn, in the order of their names. A turn
begins on the disk and the context that the turns before it have left, and ends with a file that is
written or with a failure. The turns tell the report and what the run leaves on the disk. -/

namespace TypeInliner.Inliner

open TypeInliner.Disk TypeInliner.Path

/-- How the turn of a file ends. -/
inductive TurnEnd
  | written (text : Text)
  | failed (failure : Failure)

/-- The turn of one file: the disk and the context that it begins on, and how it ends. -/
structure Turn where
  name : Bytes
  disk : Disk
  context : Context
  ending : TurnEnd

/-- The entry of a turn in the list of written files. -/
def Turn.written? (target : Path) (t : Turn) : Option Path :=
  match t.ending with
  | .written _ => some (target.join ⟨t.name⟩)
  | .failed _ => none

/-- The entry of a turn in the list of failures. -/
def Turn.failed? (source : Path) (t : Turn) : Option (Path × Failure) :=
  match t.ending with
  | .written _ => none
  | .failed failure => some (source.join ⟨t.name⟩, failure)

section

variable [PatternCompiler]

/-- A turn is taken and leaves a disk and a context. -/
inductive Takes (inliner : Inliner) (source target : Path) : Turn → Disk → Context → Prop
  | written {name : Bytes} {text : Text} {d d' : Disk} {ctx ctx' : Context}
      (generated : inliner.generateFile d ctx (source.join ⟨name⟩) = (.ok text, ctx'))
      (stored : d.write (target.join ⟨name⟩) (some text) = .ok d') :
      Takes inliner source target ⟨name, d, ctx, .written text⟩ d' ctx'
  | refused {name : Bytes} {failure : Failure} {d : Disk} {ctx ctx' : Context}
      (generated : inliner.generateFile d ctx (source.join ⟨name⟩) = (.error failure, ctx')) :
      Takes inliner source target ⟨name, d, ctx, .failed failure⟩ d ctx'
  | unstored {name : Bytes} {text : Text} {fault : Fault} {d : Disk} {ctx ctx' : Context}
      (generated : inliner.generateFile d ctx (source.join ⟨name⟩) = (.ok text, ctx'))
      (unstored : d.write (target.join ⟨name⟩) (some text) = .error fault) :
      Takes inliner source target
        ⟨name, d, ctx, .failed (.inaccessible (target.join ⟨name⟩) fault)⟩ d ctx'

/-- Turns are taken one after another. -/
inductive TakesAll (inliner : Inliner) (source target : Path) :
    Disk → Context → List Turn → Disk → Context → Prop
  | done {d : Disk} {ctx : Context} : TakesAll inliner source target d ctx [] d ctx
  | next {t : Turn} {turns : List Turn} {d d' : Disk} {ctx ctx' : Context}
      (first : Takes inliner source target t d ctx)
      (rest : TakesAll inliner source target d ctx turns d' ctx') :
      TakesAll inliner source target t.disk t.context (t :: turns) d' ctx'

variable {inliner : Inliner} {source target : Path} {d d' after : Disk} {ctx ctx' : Context}
  {folder : Place} {t : Turn} {turns : List Turn}

/-! ## A run consists of turns -/

theorem exists_takes (inliner : Inliner) (source target : Path) (d : Disk) (ctx : Context)
    (report : FolderReport) (name : Bytes) :
    ∃ ending d' ctx', Takes inliner source target ⟨name, d, ctx, ending⟩ d' ctx' ∧
      inliner.generateInto source target (d, ctx, report) name =
        (d', ctx',
          ⟨report.written ++ (Turn.written? target ⟨name, d, ctx, ending⟩).toList,
            report.failed ++ (Turn.failed? source ⟨name, d, ctx, ending⟩).toList⟩) := by
  rcases hgenerated : inliner.generateFile d ctx (source.join ⟨name⟩) with ⟨result, ctx'⟩
  cases result with
  | error failure =>
    exact ⟨_, _, _, .refused hgenerated, by
      simp [generateInto, hgenerated, Turn.written?, Turn.failed?]⟩
  | ok text =>
    cases hstored : d.write (target.join ⟨name⟩) (some text) with
    | error fault =>
      exact ⟨_, _, _, .unstored hgenerated hstored, by
        simp [generateInto, hgenerated, hstored, Turn.written?, Turn.failed?]⟩
    | ok d' =>
      exact ⟨_, _, _, .written hgenerated hstored, by
        simp [generateInto, hgenerated, hstored, Turn.written?, Turn.failed?]⟩

theorem exists_takesAll (inliner : Inliner) (source target : Path) (names : List Bytes) (d : Disk)
    (ctx : Context) (report : FolderReport) :
    ∃ turns d' ctx', TakesAll inliner source target d ctx turns d' ctx' ∧
      turns.map Turn.name = names ∧
      names.foldl (inliner.generateInto source target) (d, ctx, report) =
        (d', ctx',
          ⟨report.written ++ turns.filterMap (Turn.written? target),
            report.failed ++ turns.filterMap (Turn.failed? source)⟩) := by
  induction names generalizing d ctx report with
  | nil => exact ⟨[], d, ctx, .done, rfl, by simp⟩
  | cons name names ih =>
    obtain ⟨ending, d', ctx', htakes, hinto⟩ :=
      exists_takes inliner source target d ctx report name
    obtain ⟨turns, d'', ctx'', hrest, hnames, hfold⟩ := ih d' ctx' _
    refine ⟨_ :: turns, d'', ctx'', .next htakes hrest, by rw [List.map_cons, hnames], ?_⟩
    rw [List.foldl_cons, hinto, hfold]
    simp only [List.filterMap_eq_flatMap_toList, List.flatMap_cons, List.append_assoc]

/-! ## What turns leave on the disk -/

/-- A turn changes the disk only by writing its target, which is no folder. -/
theorem Takes.disk_cases (h : Takes inliner source target t d' ctx')
    (hopens : t.disk.Opens target folder) (hname : IsEntryName t.name)
    (hlink : ∀ link, t.disk.node? (folder ++ [t.name]) ≠ some (.link link)) :
    (∃ failure, t.ending = .failed failure) ∧ d' = t.disk ∨
      ∃ text, t.ending = .written text ∧ (target.join ⟨t.name⟩).bytes.length < pathLimit ∧
        t.disk.isFolderAt (folder ++ [t.name]) = false ∧
        d' = t.disk.set (folder ++ [t.name]) (.file (some text)) := by
  cases h with
  | refused => exact .inl ⟨⟨_, rfl⟩, rfl⟩
  | unstored => exact .inl ⟨⟨_, rfl⟩, rfl⟩
  | written _ stored =>
    rw [hopens.write_join hname hlink] at stored
    split at stored
    · cases stored
    next hfits =>
    split at stored
    · cases stored
    next hfree =>
    cases stored
    exact .inr ⟨_, rfl, Nat.lt_of_not_le hfits, by simpa using hfree, rfl⟩

/-- What turns leave of a disk on which their targets stand in a folder. -/
structure Leaves (before : Disk) (target : Path) (folder : Place) (turns : List Turn)
    (after : Disk) : Prop where
  ways : KeepsWays before after
  noLink : ∀ name link, after.node? (folder ++ [name]) ≠ some (.link link)
  written : ∀ t ∈ turns, ∀ text, t.ending = .written text →
    (target.join ⟨t.name⟩).bytes.length < pathLimit ∧
      after.node? (folder ++ [t.name]) = some (.file (some text))
  others : ∀ place, (∀ t ∈ turns, ∀ text, t.ending = .written text → place ≠ folder ++ [t.name]) →
    after.node? place = before.node? place

/-- What one turn leaves. -/
theorem Takes.leaves (h : Takes inliner source target t d' ctx')
    (hopens : t.disk.Opens target folder) (hname : IsEntryName t.name)
    (hlink : ∀ name link, t.disk.node? (folder ++ [name]) ≠ some (.link link)) :
    Leaves t.disk target folder [t] d' := by
  have hne (name : Bytes) : folder ++ [name] ≠ [] := by simp
  rcases h.disk_cases hopens hname (hlink t.name) with
    ⟨⟨failure, hfailed⟩, rfl⟩ | ⟨text, hwritten, hfits, hfree, rfl⟩
  · exact ⟨.refl _, hlink, by simp [hfailed], fun _ _ => rfl⟩
  refine ⟨keepsWays_set (hne _) ?_, fun name link => ?_, fun u hu text' hu' => ?_,
    fun place hplace => ?_⟩
  · cases hnode : t.disk.node? (folder ++ [t.name]) with
    | none => exact .inl rfl
    | some node =>
      cases node with
      | file content => exact .inr ⟨content, some text, rfl, rfl⟩
      | folder => simp [isFolderAt, hnode] at hfree
      | link link => exact absurd hnode (hlink t.name link)
  · rw [node?_set (hne _)]
    split
    · simp
    · exact hlink name link
  · obtain rfl := List.mem_singleton.mp hu
    obtain rfl := TurnEnd.written.inj (hwritten.symm.trans hu')
    exact ⟨hfits, by rw [node?_set (hne _), if_pos rfl]⟩
  · rw [node?_set (hne _), if_neg (hplace t List.mem_cons_self text hwritten).symm]

omit [PatternCompiler] in
/-- What a turn leaves and then later turns for other names. -/
theorem Leaves.cons {before middle after : Disk} (hfirst : Leaves before target folder [t] middle)
    (hrest : Leaves middle target folder turns after) (hnew : t.name ∉ turns.map Turn.name) :
    Leaves before target folder (t :: turns) after := by
  refine ⟨hfirst.ways.trans hrest.ways, hrest.noLink, fun u hu text hwritten => ?_,
    fun place hplace => ?_⟩
  · rcases List.mem_cons.mp hu with rfl | hu
    · obtain ⟨hfits, hnode⟩ := hfirst.written u List.mem_cons_self text hwritten
      refine ⟨hfits, ?_⟩
      rw [hrest.others _ fun later hlater _ _ heq => ?_, hnode]
      obtain ⟨-, hname⟩ := List.append_inj' heq rfl
      exact hnew (List.mem_map.mpr ⟨later, hlater, (List.cons.inj hname).1.symm⟩)
    · exact hrest.written u hu text hwritten
  · obtain ⟨hhere, hlater⟩ := List.forall_mem_cons.mp hplace
    rw [hrest.others place hlater, hfirst.others place (List.forall_mem_singleton.mpr hhere)]

theorem TakesAll.leaves (h : TakesAll inliner source target d ctx turns after ctx')
    (hopens : d.Opens target folder)
    (hlink : ∀ name link, d.node? (folder ++ [name]) ≠ some (.link link))
    (hnames : ∀ t ∈ turns, IsEntryName t.name) (honce : (turns.map Turn.name).Nodup) :
    Leaves d target folder turns after := by
  induction h with
  | done => exact ⟨.refl _, hlink, by simp, fun _ _ => rfl⟩
  | next first _ ih =>
    obtain ⟨hname, hnames⟩ := List.forall_mem_cons.mp hnames
    obtain ⟨hnew, honce⟩ := List.nodup_cons.mp honce
    have hfirst := first.leaves hopens hname hlink
    exact hfirst.cons (ih (hopens.keeps hfirst.ways) hfirst.noLink hnames honce) hnew

end

/-! ## The files of a folder -/

local instance : LinearOrder UInt8 where
  le_refl := UInt8.le_refl
  le_trans _ _ _ := UInt8.le_trans
  le_antisymm _ _ := UInt8.le_antisymm
  le_total := UInt8.le_total
  lt_iff_le_not_ge a b := by
    rw [UInt8.lt_iff_toNat_lt, UInt8.le_iff_toNat_le, UInt8.le_iff_toNat_le]
    omega
  toDecidableLE := inferInstance

theorem mem_sourceNames (d : Disk) (source : Path) (names : List Bytes) (name : Bytes) :
    name ∈ sourceNames d source names ↔
      name ∈ names ∧ d.isFile (source.join ⟨name⟩) = true ∧
        (source.join ⟨name⟩).hasSourceSuffix = true := by
  rw [sourceNames, List.mem_mergeSort, List.mem_filter, Bool.and_eq_true]

/-- The source files of a folder come in increasing order, each one once. -/
theorem pairwise_sourceNames (d : Disk) (source : Path) {names : List Bytes} (h : names.Nodup) :
    (sourceNames d source names).Pairwise (· < ·) := by
  have hsorted : (sourceNames d source names).Pairwise fun a b => (!decide (b < a)) = true := by
    refine List.pairwise_mergeSort (fun a b c hab hbc => ?_) (fun a b => ?_) _
    · simp only [Bool.not_eq_true', decide_eq_false_iff_not, not_lt] at hab hbc ⊢
      exact hab.trans hbc
    · simpa using le_total a b
  have honce : (sourceNames d source names).Nodup :=
    (List.mergeSort_perm _ _).nodup_iff.mpr (h.filter _)
  refine (hsorted.and honce).imp fun {a b} hab => lt_of_le_of_ne ?_ hab.2
  simpa using hab.1

/-- A file in a folder is one that the path of the folder with its name finds, if that is not too
long. -/
theorem isFile_join_of_file {d : Disk} {source : Path} {folder : Place} {content : Option Text}
    {name : Bytes} (htree : d.IsTree)
    (hfolder : d.isFolderAt folder = true) (hfind : d.find source = .ok folder)
    (hnode : d.node? (folder ++ [name]) = some (.file content)) :
    d.isFile (source.join ⟨name⟩) = true ↔ (source.join ⟨name⟩).bytes.length < pathLimit := by
  have hopens : d.Opens source folder := ⟨hfolder, .inr hfind⟩
  rw [hopens.isFile_join_iff (htree.names hnode name (by simp)) (by simp [hnode])]
  exact and_iff_left ⟨content, hnode⟩

section

variable [PatternCompiler]

/-- What a run over a folder has done, told by the turns of its files. -/
structure IsRun (inliner : Inliner) (source target : Path) (before made : Disk) (ctx : Context)
    (report : FolderReport) (ctx' : Context) (after : Disk) (turns : List Turn) : Prop where
  taken : TakesAll inliner source target made ctx turns after ctx'
  ordered : (turns.map Turn.name).Pairwise (· < ·)
  /-- The source files of the folder have turns, links to files among them. -/
  names : ∀ name, name ∈ turns.map Turn.name ↔
    (∃ names, before.list source = .ok names ∧ name ∈ names) ∧
      before.isFile (source.join ⟨name⟩) = true ∧ (source.join ⟨name⟩).hasSourceSuffix = true
  /-- A file that stands in the folder has a turn unless its path is too long. -/
  regular : ∀ folder name content, before.find source = .ok folder →
    before.node? (folder ++ [name]) = some (.file content) →
    (source.join ⟨name⟩).hasSourceSuffix = true →
    (name ∈ turns.map Turn.name ↔ (source.join ⟨name⟩).bytes.length < pathLimit)
  /-- Each turn gives one entry of the report. -/
  report : report.written = turns.filterMap (Turn.written? target) ∧
    report.failed = turns.filterMap (Turn.failed? source)
  contents : ∀ t ∈ turns, ∀ text, t.ending = .written text →
    after.read (target.join ⟨t.name⟩) = .ok text
  /-- Nothing but the written targets differs from before, except for folders that were made. -/
  others : ∀ place,
    (∀ t ∈ turns, ∀ text, t.ending = .written text →
      after.find (target.join ⟨t.name⟩) ≠ .ok place) →
    after.node? place = before.node? place ∨
      before.node? place = none ∧ after.node? place = some .folder

variable {inliner : Inliner} {source target : Path} {d after : Disk} {ctx ctx' : Context}
  {turns : List Turn}

/-- Turns for the source files of a folder, on the disk with the target folder, are a run. -/
theorem isRun_of_takesAll {made : Disk} {listed : Place} (htree : d.IsTree)
    (hfind : d.find source = .ok listed) (hfolder : d.isFolderAt listed = true)
    (hmade : d.makeFolders target = (made, .ok ())) (hnoLinks : made.HoldsNoLinks target)
    (htaken : TakesAll inliner source target made ctx turns after ctx')
    (hturns : turns.map Turn.name = sourceNames d source (d.namesIn listed)) :
    IsRun inliner source target d made ctx
      ⟨turns.filterMap (Turn.written? target), turns.filterMap (Turn.failed? source)⟩ ctx' after
      turns := by
  have hlist : d.list source = .ok (d.namesIn listed) :=
    list_eq_ok_iff.mpr ⟨listed, hfind, hfolder, rfl⟩
  have hordered := pairwise_sourceNames d source (htree.nodup_namesIn listed)
  have hmem := mem_sourceNames d source (d.namesIn listed)
  rw [← hturns] at hordered hmem
  have hnames (t : Turn) (ht : t ∈ turns) : IsEntryName t.name :=
    htree.isEntryName_of_mem_namesIn ((hmem t.name).mp (List.mem_map_of_mem ht)).1
  obtain ⟨folder, hopens⟩ := htree.exists_opens_of_makeFolders hmade
  have hleaves := htaken.leaves hopens (hnoLinks folder hopens) hnames (hordered.imp ne_of_lt)
  -- The target path still opens the folder that was made, so what stands there is what it finds.
  have hafter := hopens.keeps hleaves.ways
  refine ⟨htaken, hordered, fun name => ?_, fun other name content hother hnode hsuffix => ?_,
    ⟨rfl, rfl⟩, fun t ht text hwritten => ?_, fun place hplace => ?_⟩
  · rw [hmem name, hlist]
    simp
  · obtain rfl : other = listed := Except.ok.inj (hother.symm.trans hfind)
    have hlisted : name ∈ d.namesIn other := htree.mem_namesIn_iff.mpr (by simp [hnode])
    rw [hmem name, ← isFile_join_of_file htree hfolder hfind hnode]
    simp [hlisted, hsuffix]
  · exact (hafter.read_join_eq_ok_iff (hnames t ht) (hleaves.noLink t.name)).mpr
      (hleaves.written t ht text hwritten)
  · have hother : after.node? place = made.node? place := by
      refine hleaves.others place fun t ht text hwritten heq => hplace t ht text hwritten ?_
      obtain ⟨hfits, hnode⟩ := hleaves.written t ht text hwritten
      rw [heq]
      exact (hafter.find_join_eq_ok_iff (hnames t ht) (hleaves.noLink t.name)).mpr
        ⟨hfits, by simp [hnode], rfl⟩
    have hmakes := onlyMakesFolders_makeFolders d target
    rw [hmade] at hmakes
    rw [hother]
    exact hmakes.node? place

/-- A run over a folder that cannot be listed leaves the disk alone. Otherwise, if the target folder
can be made and holds no links, every source file of the folder has its turn, in increasing order
and whether turns before it have failed or not. Each turn gives one entry of the report; after the
run every written target holds what has been generated in its turn, and no other file differs. -/
theorem generateFolder_takes_turns (inliner : Inliner) {d : Disk} (htree : d.IsTree) (ctx : Context)
    (input output : Path) :
    let source := inliner.options.root.join input
    let target := inliner.options.root.join output
    (∀ fault, d.list source = .error fault →
      inliner.generateFolder d ctx input output =
        (.error (.inaccessible source fault), ctx, d)) ∧
    ∀ names made, d.list source = .ok names → d.makeFolders target = (made, .ok ()) →
      made.HoldsNoLinks target →
      ∃ report ctx' after turns,
        inliner.generateFolder d ctx input output = (.ok report, ctx', after) ∧
        IsRun inliner source target d made ctx report ctx' after turns := by
  intro source target
  refine ⟨fun fault hlist => ?_, fun names made hlist hmade hnoLinks => ?_⟩
  · simp only [generateFolder]
    rw [hlist]
  obtain ⟨turns, after, ctx', htaken, hturns, hfold⟩ :=
    exists_takesAll inliner source target (sourceNames d source names) made ctx ⟨[], []⟩
  obtain ⟨listed, hfind, hfolder, rfl⟩ := list_eq_ok_iff.mp hlist
  refine ⟨_, ctx', after, turns, ?_,
    isRun_of_takesAll htree hfind hfolder hmade hnoLinks htaken hturns⟩
  simp only [generateFolder]
  rw [hlist]
  dsimp only
  rw [hmade]
  dsimp only
  rw [hfold]
  rfl

end

/-- Three entries of a folder: a source, bytes that are no text, and a folder. -/
def mixedFolder : Disk where
  home := .ofNames ["w"]
  nodes := [(.ofNames ["w"], .folder), (.ofNames ["w", "src"], .folder),
    (.ofNames ["w", "src", "b.ts"], .file none),
    (.ofNames ["w", "src", "a.ts"], .file (some "type A = 1;".toList)),
    (.ofNames ["w", "src", "c.ts"], .folder)]

theorem isTree_mixedFolder : mixedFolder.IsTree := by decide

open scoped PatternCompiler in
/-- Both files have a turn, also the one that cannot be read. -/
theorem mixedFolder_takes_turns :
    let inliner := Inliner.ofOptions .default
    let made := (mixedFolder.makeFolders (.ofString "./out")).1
    mixedFolder.IsTree ∧ made.HoldsNoLinks (.ofString "./out") ∧
      ∃ report ctx' after turns,
        inliner.generateFolder mixedFolder .empty (.ofString "src") (.ofString "out") =
          (.ok report, ctx', after) ∧
        IsRun inliner (.ofString "./src") (.ofString "./out") mixedFolder made .empty report ctx'
          after turns ∧
        Utf8.ofString "a.ts" ∈ turns.map Turn.name ∧
        Utf8.ofString "b.ts" ∈ turns.map Turn.name := by
  intro inliner made
  have hlinks : made.HasNoLinks := by decide +kernel
  have hnoLinks : made.HoldsNoLinks (.ofString "./out") := fun _ _ _ _ => hlinks.node?
  obtain ⟨report, ctx', after, turns, hgenerated, hrun⟩ :=
    (generateFolder_takes_turns inliner isTree_mixedFolder .empty (.ofString "src")
      (.ofString "out")).2 (Place.ofNames ["b.ts", "a.ts", "c.ts"]) made rfl rfl hnoLinks
  have hturn (name : Bytes) (content : Option Text)
      (hnode : mixedFolder.node? (.ofNames ["w", "src"] ++ [name]) = some (.file content))
      (hsuffix : (Path.join (.ofString "./src") ⟨name⟩).hasSourceSuffix = true)
      (hfits : (Path.join (.ofString "./src") ⟨name⟩).bytes.length < pathLimit) :
      name ∈ turns.map Turn.name :=
    (hrun.regular (.ofNames ["w", "src"]) name content rfl hnode hsuffix).mpr hfits
  exact ⟨isTree_mixedFolder, hnoLinks, report, ctx', after, turns, hgenerated, hrun,
    hturn _ _ rfl (by decide) (by decide), hturn _ _ rfl (by decide) (by decide)⟩

/-! ## A file with too long a path -/

section

variable {d : Disk} {p : Path} {n : Nat} {t name : Bytes}

/-- A path that stays in the current folder a number of times before it goes on. -/
def lingering (n : Nat) (t : Bytes) : Path := ⟨(List.replicate n [dot, slash]).flatten ++ t⟩

theorem bytes_lingering_succ (n : Nat) (t : Bytes) :
    (lingering (n + 1) t).bytes = [dot] ++ slash :: (lingering n t).bytes := by
  simp [lingering, List.replicate_succ]

theorem segments_lingering (n : Nat) (t : Bytes) :
    (lingering n t).segments = List.replicate n [dot] ++ Text.splitAt slash t := by
  induction n with
  | zero => rfl
  | succ n ih =>
    rw [segments, bytes_lingering_succ, Text.splitAt_append, List.replicate_succ, List.cons_append,
      ← ih]
    rfl

theorem length_lingering (n : Nat) (t : Bytes) :
    (lingering n t).bytes.length = 2 * n + t.length := by
  simp [lingering, Nat.mul_comm]

theorem join_lingering (hend : t.getLast? ≠ some slash) (hne : t ≠ []) (hname : IsName name) :
    (lingering n t).join ⟨name⟩ = lingering n (t ++ slash :: name) := by
  have hlast : (lingering n t).bytes.getLast? ≠ some slash := by
    rwa [lingering, List.getLast?_append_of_ne_nil _ hne]
  have hfull : (lingering n t).bytes ≠ [] := by simp [lingering, hne]
  rw [Path.join, if_neg (by simp [isAbsolute_of_isName hname]), if_neg (not_or.mpr ⟨hfull, hlast⟩)]
  simp [lingering]

/-- A path that lingers arrives where it arrives without that, if it is not too long. -/
theorem arrive_lingering {follow : Bool} {a : Arrival} (htree : d.IsTree) (hne : t ≠ [])
    (hnul : 0 ∉ t) (hrelative : t.head? ≠ some slash)
    (hfits : 2 * n + t.length < pathLimit)
    (hwalks : Walks d follow linkLimit d.home (Text.splitAt slash t) a) :
    d.arrive follow (lingering n t) = .ok a := by
  have hstart : d.startOf (lingering n t) = d.home := by
    have habsolute : (lingering n t).isAbsolute = false := by
      refine decide_eq_false ?_
      cases n with
      | zero => exact hrelative
      | succ n => rw [bytes_lingering_succ]; simp
    rw [startOf, habsolute, if_neg Bool.false_ne_true]
  refine arrive_eq_ok_iff.mpr ⟨⟨?_, by simp [lingering, hne], by rwa [length_lingering]⟩, ?_⟩
  · simp [lingering, hnul]
  · rw [hstart, segments_lingering]
    clear hfits hstart
    induction n with
    | zero => exact hwalks
    | succ n ih => exact .void htree.home rfl ih

/-- A folder that is there already need not be made. -/
theorem makeFolders_of_isFolder {place : Place} (hfits : p.bytes.length < pathLimit)
    (harrive : d.arrive false p = .ok (.found place)) (hend : p.bytes.getLast? ≠ some slash)
    (hfolder : d.isFolder p = true) : d.makeFolders p = (d, .ok ()) := by
  have hne := (arrive_eq_ok_iff.mp harrive).1.nonempty
  have htrim : Text.trimEnd (· = slash) p.bytes = p.bytes := by
    refine List.rdropWhile_eq_self_iff.mpr fun hne hslash => hend ?_
    rw [List.getLast?_eq_some_getLast hne, of_decide_eq_true hslash]
  have hsame : withoutEndSlash p = p := by
    rw [withoutEndSlash, htrim]
    split
    · next hempty => exact absurd hempty hne
    · rfl
  have hmade : d.makeFolder p = .error .occupied := by
    rw [makeFolder, if_neg (fun h => absurd hfits (Nat.not_lt.mpr h.1)), hsame, harrive]
  unfold makeFolders makeFoldersWithin
  rw [if_neg hne, hmade]
  simp [hfolder]

end

/-- A folder with one source. -/
def loneSource : Disk where
  home := .ofNames ["w"]
  nodes := [(.ofNames ["w"], .folder), (.ofNames ["w", "src"], .folder),
    (.ofNames ["w", "src", "a.ts"], .file (some "type A = 1;".toList))]

theorem isTree_loneSource : loneSource.IsTree := by decide

/-- A root that lingers, and the folder of the source from there. -/
def windingRoot : Path := lingering 2044 [dot]

def windingSource : Path := windingRoot.join (.ofString "src")

theorem windingSource_eq : windingSource = lingering 2044 (Utf8.ofString "./src") :=
  join_lingering (t := [dot]) (by decide) (by decide) (by decide)

theorem windingSource_join :
    windingSource.join (.ofString "a.ts") = lingering 2044 (Utf8.ofString "./src/a.ts") := by
  rw [windingSource_eq]
  exact join_lingering (by decide) (by decide) (by decide)

theorem arrive_windingSource (follow : Bool) :
    loneSource.arrive follow windingSource = .ok (.found (.ofNames ["w", "src"])) := by
  rw [windingSource_eq]
  refine arrive_lingering isTree_loneSource (by decide) (by decide) (by decide) (by decide) ?_
  exact walk_eq_ok_iff.mp (by cases follow <;> rfl)

theorem makeFolders_windingSource :
    loneSource.makeFolders windingSource = (loneSource, .ok ()) := by
  refine makeFolders_of_isFolder ?_ (arrive_windingSource false) ?_ ?_
  · rw [windingSource_eq, length_lingering]
    decide
  · rw [windingSource_eq, lingering, List.getLast?_append_of_ne_nil _ (by decide)]
    decide
  · rw [isFolder, find_eq_ok_iff.mpr (arrive_windingSource true)]
    rfl

open scoped PatternCompiler in
/-- A source whose path from the root of the project is too long to be looked up has no entry in the
report, although its folder can be listed. -/
theorem overlong_path_has_no_entry :
    loneSource.IsTree ∧ loneSource.list windingSource = .ok [Utf8.ofString "a.ts"] ∧
      loneSource.makeFolders windingSource = (loneSource, .ok ()) ∧
      loneSource.HoldsNoLinks windingSource ∧
      loneSource.find windingSource = .ok (.ofNames ["w", "src"]) ∧
      loneSource.node? (.ofNames ["w", "src", "a.ts"]) =
        some (.file (some "type A = 1;".toList)) ∧
      (windingSource.join (.ofString "a.ts")).hasSourceSuffix = true ∧
      (Inliner.ofOptions { Options.default with root := windingRoot }).generateFolder loneSource
          .empty (.ofString "src") (.ofString "src") = (.ok ⟨[], []⟩, .empty, loneSource) := by
  have hfind : loneSource.find windingSource = .ok (.ofNames ["w", "src"]) :=
    find_eq_ok_iff.mpr (arrive_windingSource true)
  have hlist : loneSource.list windingSource = .ok [Utf8.ofString "a.ts"] :=
    list_eq_ok_iff.mpr ⟨_, hfind, by decide, by decide⟩
  have hnode : loneSource.node? (.ofNames ["w", "src"] ++ [Utf8.ofString "a.ts"]) =
      some (.file (some "type A = 1;".toList)) := by decide
  have hunseen : loneSource.isFile (windingSource.join (.ofString "a.ts")) = false := by
    rw [Bool.eq_false_iff, Ne]
    refine (isFile_join_of_file isTree_loneSource (by decide) hfind hnode).not.mpr ?_
    change ¬(windingSource.join (.ofString "a.ts")).bytes.length < pathLimit
    rw [windingSource_join, length_lingering]
    decide
  have hnone : sourceNames loneSource windingSource [Utf8.ofString "a.ts"] = [] := by
    have hfilter : [Utf8.ofString "a.ts"].filter (fun name =>
        loneSource.isFile (windingSource.join ⟨name⟩) &&
          (windingSource.join ⟨name⟩).hasSourceSuffix) = [] := by
      refine (List.filter_cons_of_neg ?_).trans List.filter_nil
      exact fun h => Bool.false_ne_true (hunseen.symm.trans (Bool.and_eq_true_iff.mp h).1)
    rw [sourceNames, hfilter, List.mergeSort_nil]
  have hgenerated (inliner : Inliner) (hroot : inliner.options.root = windingRoot) :
      inliner.generateFolder loneSource .empty (.ofString "src") (.ofString "src") =
        (.ok ⟨[], []⟩, .empty, loneSource) := by
    have hsource : windingRoot.join (.ofString "src") = windingSource := rfl
    simp only [generateFolder, hroot, hsource, hlist, makeFolders_windingSource, hnone,
      List.foldl_nil]
  have hlinks : loneSource.HasNoLinks := by decide
  refine ⟨isTree_loneSource, hlist, makeFolders_windingSource, fun _ _ _ _ => hlinks.node?, hfind,
    hnode, ?_, hgenerated _ rfl⟩
  rw [windingSource_join, Path.hasSourceSuffix_iff]
  exact List.IsSuffix.trans (by decide) (List.suffix_append _ _)

end TypeInliner.Inliner
