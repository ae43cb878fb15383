import Mathlib.Algebra.Order.BigOperators.Group.List
import Mathlib.Data.List.ProdSigma
import Mathlib.Data.Nat.Digits.Lemmas
import TypeInliner.Proofs.ReferenceGraph
import TypeInliner.Proofs.Tables

/-! # Declarations read from files are coherent

`Introspector.sources` answers for one unchanged disk from one set of declarations: a file that
forwards a name agrees with the file that declares it, and the names that are declared stand in the
files of the disk. It is asked about folded paths only, which have one spelling each. -/

namespace TypeInliner

/-! ## Names in a source -/

theorem Token.length_ofTextAt_le (offset : Nat) (t : Text) :
    (Token.ofTextAt offset t).length ≤ t.length + 1 := by
  induction h : t.length using Nat.strongRecOn generalizing offset t with
  | ind n ih =>
    rw [Token.ofTextAt]
    dsimp only
    split
    · simp
    · next c rest hdrop =>
      have hlength : (t.drop (Token.gapSize t)).length = rest.length + 1 := by rw [hdrop]; rfl
      rw [List.length_drop] at hlength
      refine (Nat.succ_le_succ (ih _ ?_ _ _ rfl)).trans ?_
      · rw [List.length_drop]
        omega
      · rw [List.length_drop]
        omega

theorem Occurrence.length_ofTokensAfter (before : Option Kind) (tokens : List Token) :
    (Occurrence.ofTokensAfter before tokens).length = tokens.length := by
  induction tokens generalizing before with
  | nil => rfl
  | cons t rest ih => simp [ofTokensAfter, ih]

/-- A declaration has a keyword and a name at least. -/
theorem Site.two_le_length {os : List Occurrence} {site : Site} (h : Site.ofFront? os = some site) :
    2 ≤ os.length ∧ 2 ≤ site.occurrences.length := by
  have hsize : 2 ≤ os.length := by
    unfold Site.ofFront? at h
    split at h
    · next keyword name rest hdrop =>
      have := congrArg List.length hdrop
      simp only [List.length_drop, List.length_cons] at this
      omega
    · simp at h
  refine ⟨hsize, ?_⟩
  unfold Site.ofFront? at h
  split at h
  · dsimp only at h
    split at h
    · simp at h
    split at h
    · split at h
      · split at h
        · obtain rfl := Option.some.inj h
          simp only [List.length_take]
          omega
        · simp at h
      · simp at h
    split at h
    · simp only [Option.bind_eq_bind, Option.bind_eq_some_iff, Option.pure_def,
        Option.some.injEq] at h
      obtain ⟨_, _, _, _, rfl⟩ := h
      simp only [List.length_take]
      omega
    · simp at h
  · simp at h

/-- There are no more declarations than characters. -/
theorem Site.length_collect_le (before : Option Kind) (depth : Nat) (os : List Occurrence) :
    2 * (Site.collect before depth os).length ≤ os.length := by
  fun_induction Site.collect before depth os with
  | case1 => simp
  | case2 before depth o rest found site hfound ih =>
    have hfront : Site.ofFront? (o :: rest) = some site := by
      simp only [found] at hfound
      split at hfound
      · exact hfound
      · simp at hfound
    obtain ⟨hall, hown⟩ := Site.two_le_length hfront
    simp only [List.length_cons, List.length_drop] at hall ih ⊢
    omega
  | case3 before depth o rest found hfound ih =>
    simp only [List.length_cons]
    omega

theorem SourceFile.length_sites_le (home : Place) (path : Path) (source : Text) :
    (SourceFile.ofText home path source).sites.length ≤ source.length := by
  have hsites := Site.length_collect_le none 0 (Occurrence.ofTokens (Token.ofText source))
  have htokens := Token.length_ofTextAt_le 0 source
  have hoccurrences := Occurrence.length_ofTokensAfter none (Token.ofText source)
  simp only [Occurrence.ofTokens, Token.ofText] at hsites hoccurrences
  simp only [SourceFile.ofText, Site.ofOccurrences, Occurrence.ofTokens, Token.ofText]
  omega

/-- The names that the files of a disk declare. -/
def Disk.declaredNames (d : Disk) : List Text :=
  d.nodes.flatMap fun (_, node) =>
    match node with
    | .file (some text) => (SourceFile.ofText d.home ⟨[]⟩ text).sites.map Site.name
    | _ => []

theorem Disk.length_declaredNames_le (d : Disk) :
    d.declaredNames.length ≤ Introspector.textSize d := by
  simp only [declaredNames, Introspector.textSize, List.length_flatMap]
  apply List.sum_le_sum
  intro entry _
  obtain ⟨_, node⟩ := entry
  cases node with
  | file content =>
    cases content with
    | none => simp
    | some text => simpa using SourceFile.length_sites_le d.home ⟨[]⟩ text
  | folder => simp
  | link target => simp

/-! ## Paths that can be read -/

/-- A number for each path, by which paths are counted. -/
private def Path.code (p : Path) : Nat := Nat.ofDigits (2 ^ 9) (p.bytes.map fun b => b.toNat + 1)

private theorem byteCode_lt (b : UInt8) : b.toNat + 1 < 2 ^ 9 := by
  have := b.toNat_lt
  omega

private theorem code_injective {p q : Path} (h : p.code = q.code) : p = q := by
  have digits (p : Path) : Nat.digits (2 ^ 9) p.code = p.bytes.map fun b => b.toNat + 1 := by
    refine Nat.digits_ofDigits _ (by norm_num) _ ?_ ?_
    · intro n hn
      obtain ⟨b, _, rfl⟩ := List.mem_map.mp hn
      exact byteCode_lt b
    · intro hne hlast
      obtain ⟨b, _, hb⟩ := List.mem_map.mp (List.getLast_mem hne)
      omega
  have hmap : (p.bytes.map fun b => b.toNat + 1) = q.bytes.map fun b => b.toNat + 1 := by
    rw [← digits p, h, digits q]
  refine congrArg Path.mk (List.map_injective_iff.mpr ?_ hmap)
  intro a b hab
  exact UInt8.toNat.inj (Nat.succ.inj hab)

private theorem code_lt {p : Path} {n : Nat} (h : p.bytes.length ≤ n) : p.code < 2 ^ (9 * n) := by
  have hdigits : ∀ k ∈ p.bytes.map fun b => b.toNat + 1, k < 2 ^ 9 := by
    intro k hk
    obtain ⟨b, _, rfl⟩ := List.mem_map.mp hk
    exact byteCode_lt b
  have hlt := Nat.ofDigits_lt_base_pow_length (by norm_num) hdigits
  rw [List.length_map, ← pow_mul] at hlt
  refine hlt.trans_le (Nat.pow_le_pow_right (by norm_num) ?_)
  omega

theorem Disk.length_le_of_read {d : Disk} {p : Path} {text : Text} (h : d.read p = .ok text) :
    p.bytes.length ≤ pathLimit := by
  obtain ⟨place, hfind, -⟩ := read_eq_ok_iff.mp h
  exact Nat.le_of_lt (arrive_eq_ok_iff.mp (find_eq_ok_iff.mp hfind)).1.fits

/-! ## What a file says about a name -/

/-- A name is declared in a file. -/
def SourceFile.HasSite (f : SourceFile) (name : Text) : Prop := ∃ site ∈ f.sites, site.name = name

theorem SourceFile.declaration?_eq_none_iff {f : SourceFile} {name : Text} :
    f.declaration? name = none ↔ ¬ f.HasSite name := by
  simp [declaration?, HasSite]

/-- A file can be read and declares a name itself. -/
def Declares (d : Disk) (file : Path) (name : Text) (declaration : DeclaredType) : Prop :=
  ∃ text, d.read file = .ok text ∧
    (SourceFile.ofText d.home file text).declaration? name = some declaration

/-- A file can be read, does not declare a name itself and forwards it from some files. -/
def Forwards (d : Disk) (name : Text) (file : Path) (targets : List Path) : Prop :=
  ∃ text, d.read file = .ok text ∧ ¬ (SourceFile.ofText d.home file text).HasSite name ∧
    (SourceFile.ofText d.home file text).forwards d name = targets

section

open Introspector

variable {d : Disk} {name : Text} {file : Path}

theorem exists_declares_iff : (∃ declaration, Declares d file name declaration) ↔
    ∃ text, d.read file = .ok text ∧ (SourceFile.ofText d.home file text).HasSite name := by
  constructor
  · rintro ⟨declaration, text, hread, hd⟩
    refine ⟨text, hread, ?_⟩
    by_contra hsite
    simp [SourceFile.declaration?_eq_none_iff.mpr hsite] at hd
  · rintro ⟨text, hread, hsite⟩
    cases hd : (SourceFile.ofText d.home file text).declaration? name with
    | some declaration => exact ⟨declaration, text, hread, hd⟩
    | none => exact absurd hsite (SourceFile.declaration?_eq_none_iff.mp hd)

theorem Declares.file_eq {declaration : DeclaredType} (h : Declares d file name declaration) :
    declaration.file = file := by
  obtain ⟨text, _, hd⟩ := h
  simp only [SourceFile.declaration?, Option.map_eq_some_iff] at hd
  obtain ⟨site, _, rfl⟩ := hd
  rfl

theorem Declares.name_eq {declaration : DeclaredType} (h : Declares d file name declaration) :
    declaration.name = name := by
  obtain ⟨text, _, hd⟩ := h
  simp only [SourceFile.declaration?, Option.map_eq_some_iff] at hd
  obtain ⟨site, hsite, rfl⟩ := hd
  simpa using List.find?_some hsite

/-- A file is asked itself first, and with a hop less the files from which it forwards the name. -/
theorem declarationWithin_of_read {text : Text} (h : d.read file = .ok text) (hops : Nat) :
    declarationWithin d name hops file =
      ((SourceFile.ofText d.home file text).declaration? name).or (match hops with
        | 0 => none
        | fewer + 1 => ((SourceFile.ofText d.home file text).forwards d name).findSome?
          (declarationWithin d name fewer)) := by
  cases hops with
  | zero => simp [declarationWithin, h]
  | succ fewer =>
    cases hd : (SourceFile.ofText d.home file text).declaration? name <;>
      simp [declarationWithin, h, hd]

/-- A name that a file declares is found there, whatever the number of hops. -/
theorem Declares.declarationWithin {declaration : DeclaredType}
    (h : Declares d file name declaration) (hops : Nat) :
    Introspector.declarationWithin d name hops file = some declaration := by
  obtain ⟨text, hread, hd⟩ := h
  rw [declarationWithin_of_read hread, hd, Option.some_or]

/-- A file that can be read declares a name or forwards it, be it from no files at all. -/
theorem read_cases (d : Disk) (name : Text) (file : Path) :
    (∃ fault, d.read file = .error fault) ∨ (∃ declaration, Declares d file name declaration) ∨
      ∃ targets, Forwards d name file targets := by
  cases hread : d.read file with
  | error fault => exact Or.inl ⟨fault, rfl⟩
  | ok text =>
    right
    cases hd : (SourceFile.ofText d.home file text).declaration? name with
    | some declaration => exact Or.inl ⟨declaration, text, hread, hd⟩
    | none => exact Or.inr ⟨_, text, hread, SourceFile.declaration?_eq_none_iff.mp hd, rfl⟩

namespace Forwards

variable {targets : List Path}

theorem not_declares (h : Forwards d name file targets) {declaration : DeclaredType} :
    ¬ Declares d file name declaration := by
  rintro ⟨text, hread, hd⟩
  obtain ⟨text', hread', hsite, _⟩ := h
  obtain rfl := Except.ok.inj (hread.symm.trans hread')
  simp [SourceFile.declaration?_eq_none_iff.mpr hsite] at hd

theorem unique {others : List Path} (h : Forwards d name file targets)
    (h' : Forwards d name file others) : targets = others := by
  obtain ⟨text, hread, _, rfl⟩ := h
  obtain ⟨text', hread', _, rfl⟩ := h'
  obtain rfl := Except.ok.inj (hread.symm.trans hread')
  rfl

/-- Files from which a name is forwarded are located. -/
theorem exists_locate (h : Forwards d name file targets) {target : Path} (ht : target ∈ targets) :
    ∃ p, target = d.locate p := by
  obtain ⟨text, _, _, rfl⟩ := h
  obtain ⟨specifier, _, rfl⟩ := List.mem_map.mp ht
  exact ⟨_, rfl⟩

theorem declarationWithin_zero (h : Forwards d name file targets) :
    declarationWithin d name 0 file = none := by
  obtain ⟨text, hread, hsite, _⟩ := h
  rw [declarationWithin_of_read hread, SourceFile.declaration?_eq_none_iff.mpr hsite,
    Option.none_or]

theorem declarationWithin_succ (h : Forwards d name file targets) (hops : Nat) :
    declarationWithin d name (hops + 1) file =
      targets.findSome? (declarationWithin d name hops) := by
  obtain ⟨text, hread, hsite, rfl⟩ := h
  rw [declarationWithin_of_read hread, SourceFile.declaration?_eq_none_iff.mpr hsite,
    Option.none_or]

end Forwards

theorem declarationWithin_of_unreadable {fault : Fault} (h : d.read file = .error fault)
    (hops : Nat) : declarationWithin d name hops file = none := by
  cases hops <;> simp [declarationWithin, h]

/-- Where a declaration is found, it is the file's own, or it is found with a hop less in the first
of the files from which the name is forwarded that offers one. -/
theorem declarationWithin_cases {hops : Nat} {declaration : DeclaredType}
    (h : declarationWithin d name hops file = some declaration) :
    Declares d file name declaration ∨ ∃ fewer before middle after, hops = fewer + 1 ∧
      Forwards d name file (before ++ middle :: after) ∧
      (∀ target ∈ before, declarationWithin d name fewer target = none) ∧
      declarationWithin d name fewer middle = some declaration := by
  rcases read_cases d name file with ⟨fault, hfault⟩ | ⟨own, hd⟩ | ⟨targets, hforwards⟩
  · simp [declarationWithin_of_unreadable hfault] at h
  · obtain rfl := Option.some.inj ((hd.declarationWithin hops).symm.trans h)
    exact Or.inl hd
  cases hops with
  | zero => simp [hforwards.declarationWithin_zero] at h
  | succ fewer =>
    rw [hforwards.declarationWithin_succ] at h
    obtain ⟨before, middle, after, rfl, hmiddle, hbefore⟩ := List.findSome?_eq_some_iff.mp h
    exact Or.inr ⟨fewer, before, middle, after, rfl, hforwards, hbefore, hmiddle⟩

/-- What is found through export statements is declared by the file that it names, which is the
given one or one that has been located. -/
theorem declares_of_declarationWithin {hops : Nat} {declaration : DeclaredType}
    (h : declarationWithin d name hops file = some declaration) :
    (declaration.file = file ∨ ∃ p, declaration.file = d.locate p) ∧
      Declares d declaration.file name declaration := by
  induction hops using Nat.strongRecOn generalizing file with
  | ind hops ih =>
    rcases declarationWithin_cases h with hd | ⟨fewer, _, middle, _, rfl, hforwards, _, hmiddle⟩
    · rw [hd.file_eq]
      exact ⟨Or.inl rfl, hd⟩
    · obtain ⟨hfile, hdeclares⟩ := ih fewer (Nat.lt_succ_self fewer) hmiddle
      refine ⟨Or.inr ?_, hdeclares⟩
      rcases hfile with hfile | hlocated
      · rw [hfile]
        exact hforwards.exists_locate (by simp)
      · exact hlocated

/-- A declaration is found only from a file that can be read. -/
theorem read_of_declarationWithin {hops : Nat} {declaration : DeclaredType}
    (h : declarationWithin d name hops file = some declaration) :
    ∃ text, d.read file = .ok text := by
  cases hread : d.read file with
  | error fault => simp [declarationWithin_of_unreadable hread] at h
  | ok text => exact ⟨text, rfl⟩

end

/-! ## Keys with a declaration -/

private theorem Disk.mem_nodes_of_read {d : Disk} {p : Path} {text : Text}
    (h : d.read p = .ok text) : ∃ place, (place, Node.file (some text)) ∈ d.nodes := by
  obtain ⟨place, -, hnode⟩ := read_eq_ok_iff.mp h
  unfold node? at hnode
  split at hnode
  · simp at hnode
  · obtain ⟨place, _, hplace⟩ := Table.mem_of_find? hnode
    exact ⟨place, hplace⟩

theorem Declares.mem_declaredNames {d : Disk} {file : Path} {name : Text}
    {declaration : DeclaredType} (h : Declares d file name declaration) :
    name ∈ d.declaredNames := by
  obtain ⟨text, hread, hd⟩ := h
  obtain ⟨place, hplace⟩ := Disk.mem_nodes_of_read hread
  simp only [SourceFile.declaration?, Option.map_eq_some_iff] at hd
  obtain ⟨site, hsite, _⟩ := hd
  have hname : site.name = name := by simpa using List.find?_some hsite
  refine List.mem_flatMap.mpr ⟨_, hplace, List.mem_map.mpr ⟨site, ?_, hname⟩⟩
  exact List.mem_of_find?_eq_some hsite

/-- A key with a declaration is one of finitely many: its path can be read and its name is declared
in some file. -/
private theorem length_le_of_declared {d : Disk} {limit : Nat} {keys : List Key}
    (distinct : Distinct keys)
    (h : ∀ key ∈ keys, key.file.bytes.length ≤ limit ∧ key.symbol ∈ d.declaredNames) :
    keys.length ≤ Nat.pow 2 (9 * limit) * d.declaredNames.length := by
  let numbered (key : Key) : Nat × Text := (key.file.code, key.symbol)
  have hnodup : (keys.map numbered).Nodup := by
    refine List.pairwise_map.mpr (distinct.imp ?_)
    intro a b hab heq
    obtain ⟨hfile, hsymbol⟩ := Prod.mk.inj heq
    have hsame : a.file = b.file := code_injective hfile
    rw [Key.beq_iff.mpr ⟨hsymbol, by rw [hsame]; exact BEq.rfl⟩] at hab
    exact absurd hab (by simp)
  have hsubset : keys.map numbered ⊆
      List.range (2 ^ (9 * limit)) ×ˢ d.declaredNames := by
    intro pair hpair
    obtain ⟨key, hkey, rfl⟩ := List.mem_map.mp hpair
    obtain ⟨hlength, hname⟩ := h key hkey
    exact List.pair_mem_product.mpr ⟨List.mem_range.mpr (code_lt hlength), hname⟩
  have hle := (hnodup.subperm hsubset).length_le
  rwa [List.length_map, List.length_product, List.length_range] at hle

/-- Whatever the files of a disk hold, at most as many keys have a declaration in them as the
introspector promises. -/
theorem bounded_sources (d : Disk) : Introspector.sources.Bounded d := by
  intro keys distinct hkeys
  have hall := @length_le_of_declared d Disk.pathLimit keys distinct (by
    intro key hkey
    obtain ⟨declaration, hd⟩ := Option.isSome_iff_exists.mp (hkeys key hkey)
    obtain ⟨text, hread⟩ := read_of_declarationWithin hd
    exact ⟨Disk.length_le_of_read hread, (declares_of_declarationWithin hd).2.mem_declaredNames⟩)
  refine hall.trans (Nat.mul_le_mul_left _ ?_)
  exact d.length_declaredNames_le.trans (Nat.le_succ _)

/-- Reading declarations from the files of an unchanged disk is coherent. -/
theorem sources_coherent (d : Disk) (options : Options) :
    ReferenceGraph.Coherent ⟨.sources, d, options⟩ Path.IsFolded where
  located := d.locate_isFolded
  same := by
    intro file other name hf ho heq
    rw [hf.eq_of_beq ho heq]
  written := by
    intro file name declaration hf hd
    obtain ⟨hfile, hdeclares⟩ := declares_of_declarationWithin hd
    refine ⟨?_, hdeclares.declarationWithin _⟩
    rcases hfile with hfile | ⟨p, hlocated⟩
    · rwa [hfile]
    · rw [hlocated]
      exact d.locate_isFolded p
  bounded distinct hkeys := bounded_sources d _ distinct fun key hkey => (hkeys key hkey).2

end TypeInliner
