import TypeInliner.Proofs.SourceCoherence

/-! # The search for a declaration

A file that does not declare a name can forward it from other files, which may forward it in turn,
also back to the first one. `Leads` tells the routes along which a name is forwarded by the places
of the export statements that are taken. The search finds the declaration at the end of the first
route, in the order of the statements from the first hop on, among the routes that do not have too
many hops; it finds nothing exactly if there is no such route. -/

namespace TypeInliner

/-- A name is forwarded to a file from another one. The list says for every hop how many export
statements for the name stand in front of the one that is taken. -/
inductive Leads (d : Disk) (name : Text) : Path → List Nat → Path → Prop
  | here (file : Path) : Leads d name file [] file
  | hop {file middle target : Path} {targets : List Path} {i : Nat} {route : List Nat}
      (forwards : Forwards d name file targets) (next : targets[i]? = some middle)
      (rest : Leads d name middle route target) : Leads d name file (i :: route) target

/-- The search through files, one after another, that have been reached by a number of hops. The
last argument is what is found. -/
inductive Searches (d : Disk) (name : Text) : Nat → List Path → Option DeclaredType → Prop
  | nothing (hops : Nat) : Searches d name hops [] none
  | unreadable {hops : Nat} {file : Path} {others : List Path} {fault : Fault}
      {found : Option DeclaredType} (fails : d.read file = .error fault)
      (behind : Searches d name hops others found) : Searches d name hops (file :: others) found
  | declared {hops : Nat} {file : Path} {others : List Path} {declaration : DeclaredType}
      (declares : Declares d file name declaration) :
      Searches d name hops (file :: others) (some declaration)
  | tooFar {hops : Nat} {file : Path} {others targets : List Path} {found : Option DeclaredType}
      (forwards : Forwards d name file targets) (far : Introspector.hopLimit ≤ hops)
      (behind : Searches d name hops others found) : Searches d name hops (file :: others) found
  | forwarded {hops : Nat} {file : Path} {others targets : List Path} {declaration : DeclaredType}
      (forwards : Forwards d name file targets) (near : hops < Introspector.hopLimit)
      (down : Searches d name (hops + 1) targets (some declaration)) :
      Searches d name hops (file :: others) (some declaration)
  | missing {hops : Nat} {file : Path} {others targets : List Path} {found : Option DeclaredType}
      (forwards : Forwards d name file targets) (near : hops < Introspector.hopLimit)
      (down : Searches d name (hops + 1) targets none)
      (behind : Searches d name hops others found) : Searches d name hops (file :: others) found

open Introspector

variable {d : Disk} {name : Text} {file : Path}

/-! ## The search ends -/

/-- From files that have been reached by some hops, the search with the further hops that are
allowed comes to an end. -/
theorem searches_declarationWithin (d : Disk) (name : Text) {further hops : Nat}
    (h : hops + further = hopLimit) (files : List Path) :
    Searches d name hops files (files.findSome? (declarationWithin d name further)) := by
  induction further using Nat.strongRecOn generalizing hops files with
  | ind further ihDown =>
    induction files with
    | nil => exact .nothing hops
    | cons file files ih =>
      rw [List.findSome?_cons]
      rcases read_cases d name file with ⟨fault, hfault⟩ | ⟨declaration, hd⟩ | ⟨targets, hforwards⟩
      · rw [declarationWithin_of_unreadable hfault]
        exact .unreadable hfault ih
      · rw [hd.declarationWithin]
        exact .declared hd
      cases further with
      | zero =>
        rw [hforwards.declarationWithin_zero]
        exact .tooFar hforwards (by omega) ih
      | succ further =>
        have hnext : hops + 1 + further = hopLimit := by omega
        have hdown := ihDown further (Nat.lt_succ_self further) hnext targets
        rw [hforwards.declarationWithin_succ]
        cases hfound : targets.findSome? (declarationWithin d name further) with
        | some declaration => exact .forwarded hforwards (by omega) (hfound ▸ hdown)
        | none => exact .missing hforwards (by omega) (hfound ▸ hdown) ih

/-! ## The first route -/

/-- Where a short enough route leads to a declaration, one is found. -/
theorem Leads.exists_declarationWithin {route : List Nat} {target : Path}
    (h : Leads d name file route target) {declaration : DeclaredType}
    (hd : Declares d target name declaration) {hops : Nat} (hlength : route.length ≤ hops) :
    ∃ found, declarationWithin d name hops file = some found := by
  induction h generalizing hops with
  | here file => exact ⟨declaration, hd.declarationWithin hops⟩
  | @hop file middle target targets i route hforwards hnext _ ih =>
    obtain ⟨hops, rfl⟩ : ∃ more, hops = more + 1 := ⟨hops - 1, by simp at hlength; omega⟩
    obtain ⟨found, hfound⟩ := ih hd (Nat.le_of_succ_le_succ hlength)
    rw [hforwards.declarationWithin_succ, ← Option.isSome_iff_exists, List.findSome?_isSome_iff]
    exact ⟨middle, List.mem_of_getElem? hnext, by simp [hfound]⟩

/-- A route of not too many hops leads to a declaration, and no such route in front of it leads to
a file that declares the name. -/
structure LeadsFirst (d : Disk) (name : Text) (hops : Nat) (file : Path) (route : List Nat)
    (declaration : DeclaredType) : Prop where
  short : route.length ≤ hops
  leads : ∃ target, Leads d name file route target ∧ Declares d target name declaration
  first : ∀ {other : List Nat} {target : Path} {found : DeclaredType}, other.length ≤ hops →
    Leads d name file other target → Declares d target name found →
      ¬ List.Lex (· < ·) other route

theorem Declares.leadsFirst {declaration : DeclaredType} (h : Declares d file name declaration)
    (hops : Nat) : LeadsFirst d name hops file [] declaration where
  short := Nat.zero_le hops
  leads := ⟨file, .here file, h⟩
  first _ _ _ hlex := by cases hlex

/-- Behind export statements through which nothing is found, the first route goes on from the next
statement. -/
theorem LeadsFirst.hop {before after : List Path} {middle : Path} {hops : Nat} {route : List Nat}
    {declaration : DeclaredType} (hforwards : Forwards d name file (before ++ middle :: after))
    (hbefore : ∀ target ∈ before, declarationWithin d name hops target = none)
    (h : LeadsFirst d name hops middle route declaration) :
    LeadsFirst d name (hops + 1) file (before.length :: route) declaration where
  short := Nat.succ_le_succ h.short
  leads := by
    obtain ⟨target, hleads, hd⟩ := h.leads
    exact ⟨target, .hop hforwards (by simp) hleads, hd⟩
  first := by
    intro other target found hlength hleads hd hlex
    cases hleads with
    | here => exact hforwards.not_declares hd
    | @hop _ next _ targets i others hforwards' hnext hrest =>
      obtain rfl := hforwards'.unique hforwards
      replace hlength := Nat.le_of_succ_le_succ hlength
      cases hlex with
      | cons hlex =>
        obtain rfl : middle = next := by simpa using hnext
        exact h.first hlength hrest hd hlex
      | rel hlt =>
        rw [List.getElem?_append_left hlt] at hnext
        obtain ⟨earlier, hearlier⟩ := hrest.exists_declarationWithin hd hlength
        rw [hbefore next (List.mem_of_getElem? hnext)] at hearlier
        simp at hearlier

/-- What is found stands at the end of the first route. -/
theorem exists_leadsFirst {hops : Nat} {declaration : DeclaredType}
    (h : declarationWithin d name hops file = some declaration) :
    ∃ route, LeadsFirst d name hops file route declaration := by
  induction hops using Nat.strongRecOn generalizing file with
  | ind hops ih =>
    rcases declarationWithin_cases h with
      hd | ⟨fewer, before, middle, after, rfl, hforwards, hbefore, hmiddle⟩
    · exact ⟨[], hd.leadsFirst hops⟩
    · obtain ⟨route, hroute⟩ := ih fewer (Nat.lt_succ_self fewer) hmiddle
      exact ⟨before.length :: route, hroute.hop hforwards hbefore⟩

/-- The search for a declaration ends. It finds one exactly if the name is forwarded, by at most
eight hops, from a file that can be read and declares it. What it finds is the declaration at the
end of the first such route; it has the name, and the file that it names offers it as well. -/
theorem search_finds_first (d : Disk) (file : Path) (name : Text) :
    Searches d name 0 [file] (sources.declaration? d file name) ∧
    ((sources.declaration? d file name).isSome = true ↔ ∃ route target text, route.length ≤ 8 ∧
      Leads d name file route target ∧ d.read target = .ok text ∧
        (SourceFile.ofText d.home target text).HasSite name) ∧
    ∀ declaration, sources.declaration? d file name = some declaration →
      (∃ route, LeadsFirst d name 8 file route declaration) ∧ declaration.name = name ∧
        sources.declaration? d declaration.file name = some declaration := by
  refine ⟨?_, ?_, fun declaration hd => ⟨exists_leadsFirst hd, ?_⟩⟩
  · have hsearch := searches_declarationWithin d name (Nat.zero_add hopLimit) [file]
    rwa [List.findSome?_singleton] at hsearch
  · rw [Option.isSome_iff_exists]
    constructor
    · rintro ⟨declaration, hd⟩
      obtain ⟨route, hshort, ⟨target, hleads, hdeclares⟩, _⟩ := exists_leadsFirst hd
      obtain ⟨text, hread, hsite⟩ := exists_declares_iff.mp ⟨declaration, hdeclares⟩
      exact ⟨route, target, text, hshort, hleads, hread, hsite⟩
    · rintro ⟨route, target, text, hshort, hleads, hread, hsite⟩
      obtain ⟨declaration, hdeclares⟩ := exists_declares_iff.mpr ⟨text, hread, hsite⟩
      exact hleads.exists_declarationWithin hdeclares hshort
  · obtain ⟨_, hdeclares⟩ := declares_of_declarationWithin hd
    exact ⟨hdeclares.name_eq, hdeclares.declarationWithin hopLimit⟩

/-! Two files forward all names from each other, and one of them from a third file. -/

example :
    let d : Disk := ⟨[], [(.ofNames ["a.ts"], .file (some "export * from './b';".toList)),
      (.ofNames ["b.ts"], .file (some "export * from './a'; export * from './c';".toList)),
      (.ofNames ["c.ts"], .file (some "export type C = 1;".toList))]⟩
    ["B", "C"].map (fun name =>
      (sources.declaration? d (.ofString "/a.ts") name.toList).map DeclaredType.text) =
        [none, some "export type C = 1;".toList] := by
  decide +kernel

end TypeInliner
