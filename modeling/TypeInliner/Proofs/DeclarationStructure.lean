import TypeInliner.Proofs.RenderedBlock
import TypeInliner.Proofs.WrittenDeclarations

/-! # The structure of a declaration reads back

A declaration is found from its first modifier to its last token, and it is described by the parts
that it was put together from. All readers agree about its brackets but for one: the reader that
looks for the end of an alias does not count angle brackets. It goes up to the semicolon exactly if
directly between angle brackets stand no semicolon and no line break in front of a statement. -/

namespace TypeInliner

open Occurrence

namespace Site

/-! ## Where a declaration ends -/

/-- Type parameters take all of their tokens. -/
theorem parametersSize_eq {parameters rest : List Occurrence}
    (h : parameters = [] ∨ isGroup .less parameters = true)
    (hending : ∀ o ∈ parameters, o.kind ≠ .ending) (hrest : headKind rest ≠ .less) :
    parametersSize (parameters ++ rest) = parameters.length := by
  rcases h with rfl | hgroup
  · rw [List.nil_append, parametersSize, if_neg hrest]
    rfl
  · obtain ⟨opening, inside, closing, rfl, hopening, hclosing, hinside⟩ :=
      (isGroup_iff rfl).mp hgroup
    have hpasses := passes_inside (fun _ => true) hinside
    rw [← nesting_true_eq] at hpasses
    have hnested := nestedSize_passes hpasses Nat.one_ne_zero
      (fun o ho => hending o (by simp [ho])) (closing :: rest)
    have hcloses : nestedSize 1 (closing :: rest) = 1 := by
      have hdepth : nesting true 1 closing.kind = 0 := by
        rw [hclosing]
        rfl
      rw [nestedSize, if_neg (hending closing (by simp)), if_pos hdepth]
    have hopens : nesting true 0 opening.kind = 1 := by
      rw [hopening]
      rfl
    have hhead : headKind (opening :: (inside ++ closing :: rest)) = .less := hopening
    rw [List.cons_append, List.append_assoc, List.singleton_append, parametersSize, if_pos hhead,
      nestedSize, if_neg (hending opening List.mem_cons_self), hopens, if_neg Nat.one_ne_zero,
      hnested, hcloses]
    simp only [List.length_cons, List.length_append, List.length_nil]
    omega

theorem dropSemicolon_concat {semicolon : Occurrence} (h : semicolon.kind = .semicolon)
    (os : List Occurrence) : dropSemicolon (os ++ [semicolon]) = os := by
  simp [dropSemicolon, h]

/-- Modifiers are counted up to the keyword of the declaration. -/
theorem modifierCount_eq {h : Heading} {word : Keyword} (hh : h.IsWritten word)
    (hword : word ≠ .exportWord ∧ word ≠ .declareWord) (rest : List Occurrence) :
    modifierCount (h.modifiers ++ h.keyword :: rest) = h.modifiers.length := by
  have hkeyword : h.keyword.kind ≠ .keyword .exportWord ∧
      h.keyword.kind ≠ .keyword .declareWord := by
    simp [hh.keyword, hword]
  rw [Heading.modifiers]
  cases hexport : h.exporting with
  | none =>
    cases hdeclare : h.declaring with
    | none => simp [modifierCount, hkeyword]
    | some declaring => simp [modifierCount, hh.declaring declaring hdeclare]
  | some exporting =>
    have hfirst := hh.exporting exporting hexport
    cases hdeclare : h.declaring with
    | none => simp [modifierCount, hfirst, headKind, hkeyword]
    | some declaring => simp [modifierCount, hfirst, headKind, hh.declaring declaring hdeclare]

end Site

namespace DeclarationForm

/-- The brackets of the type of an alias are closed. -/
theorem isNested_aliasType {operator : Option Occurrence} {first : Constituent}
    {others : List (Occurrence × Constituent)}
    (hoperator : ∀ o ∈ operator, isOperator o.kind = true) (hfirst : first.IsWritten)
    (hothers : ∀ other ∈ others, isOperator other.1.kind = true ∧ other.2.IsWritten) :
    isNested anywhere [] (aliasType operator first others) = true := by
  have hbehind : isNested anywhere []
      (behindFirst (others.map fun other => (other.1, other.2.occurrences))) = true := by
    refine isNested_behindFirst fun part hpart => ?_
    obtain ⟨other, hother, rfl⟩ := List.mem_map.mp hpart
    obtain ⟨hkind, hwritten⟩ := hothers other hother
    exact ⟨⟨isBracket_of_isOperator hkind, rfl⟩, isNested_mono hwritten.isNested fun _ _ => rfl⟩
  have hparts : isNested anywhere [] (first.occurrences ++
      behindFirst (others.map fun other => (other.1, other.2.occurrences))) = true :=
    (isNested_append hfirst.isNested (fun _ _ => rfl) _).trans hbehind
  rw [aliasType]
  cases operator with
  | none => exact hparts
  | some o =>
    rw [Option.toList_some, List.singleton_append,
      isNested_single (isBracket_of_isOperator (hoperator o rfl)) rfl]
    exact hparts

/-- What an interface extends has no brace outside of brackets. -/
theorem isNested_bases {bases : List (Occurrence × List Occurrence)}
    (hextends : ∀ o ∈ (bases.map Prod.fst).head?, o.kind = .keyword .extendsWord)
    (hcommas : ∀ o ∈ (bases.map Prod.fst).tail, o.kind = .comma)
    (hplain : ∀ base ∈ bases, isNested inBase [] base.2 = true) :
    isNested (fun o => o.kind ≠ .leftBrace) [] (behindFirst bases) = true := by
  refine isNested_behindFirst fun base hbase => ⟨?_, ?_⟩
  · have hkind : base.1.kind = .keyword .extendsWord ∨ base.1.kind = .comma := by
      cases bases with
      | nil => simp at hbase
      | cons first others =>
        rcases List.mem_cons.mp hbase with rfl | hbase
        · exact Or.inl (hextends base.1 rfl)
        · exact Or.inr (hcommas base.1 (List.mem_map_of_mem hbase))
    rcases hkind with hkind | hkind <;> rw [hkind] <;> decide
  · refine isNested_mono (hplain base hbase) fun o ho => ?_
    rw [inBase, Bool.and_eq_true] at ho
    exact ho.2

theorem content_alias (heading : Heading) (sign : Occurrence) (operator : Option Occurrence)
    (first : Constituent) (others : List (Occurrence × Constituent)) (semicolon : Occurrence)
    (after : List Occurrence) :
    content (.typeAlias heading sign operator first others semicolon) ++ after =
      sign :: (aliasType operator first others ++ semicolon :: after) := by
  simp [content]

/-- A declaration begins with a heading for its keyword, and no type parameters follow this. -/
theorem IsWritten.begins {d : DeclarationForm} (h : d.IsWritten) (after : List Occurrence) :
    d.heading.IsWritten d.body.keyword ∧ headKind (d.content ++ after) ≠ .less := by
  cases h with
  | ofAlias begins equals =>
    refine ⟨begins, ?_⟩
    rw [content, List.cons_append, headKind, equals]
    decide
  | @ofInterface _ bases _ _ _ begins extending _ _ opens =>
    refine ⟨begins, ?_⟩
    cases bases with
    | nil => exact fun hless => absurd (opens.symm.trans hless) (by decide)
    | cons base bases =>
      exact fun hless => absurd ((extending base.1 rfl).symm.trans hless) (by decide)

/-- A heading and what the readers take behind it are a declaration. -/
theorem ofFront?_of_layout {h : Heading} {body : SiteBody} (hh : h.IsWritten body.keyword)
    {own more : List Occurrence} (hlayout : Site.Layout (h.parameters ++ (own ++ more))
      (h.parameters.length + own.length) body) :
    Site.ofFront? (h.occurrences ++ (own ++ more)) =
      some ⟨h.name.token.value, h.occurrences ++ own, body⟩ := by
  have hword : body.keyword ≠ .exportWord ∧ body.keyword ≠ .declareWord := by
    cases body <;> simp [SiteBody.keyword]
  have hsplit : h.occurrences ++ (own ++ more) =
      h.modifiers ++ h.keyword :: h.name :: (h.parameters ++ (own ++ more)) := by
    simp [Heading.occurrences]
  have htake : (h.parameters ++ (own ++ more)).take (h.parameters.length + own.length) =
      h.parameters ++ own := by
    rw [← List.append_assoc, ← List.length_append, List.take_left]
  have hmade : Site.MadeOf ⟨h.name.token.value, h.occurrences ++ own, body⟩
      (h.occurrences ++ (own ++ more)) h.modifiers h.keyword h.name
      (h.parameters ++ (own ++ more)) (h.parameters.length + own.length) := by
    refine ⟨hsplit, ?_, hh.keyword, ⟨hh.name, rfl⟩, hlayout, ?_⟩
    · rw [hsplit, Site.modifierCount_eq hh hword]
    · rw [htake, Heading.occurrences]
      simp
  exact hmade.ofFront?_eq

/-- Behind the name stand the type parameters, and what a declaration is made of follows them. -/
theorem IsWritten.drop_parameters {d : DeclarationForm} (h : d.IsWritten)
    (hending : ∀ o ∈ d.occurrences, o.kind ≠ .ending) (after : List Occurrence) :
    Site.parametersSize (d.heading.parameters ++ (d.content ++ after)) =
        d.heading.parameters.length ∧
      (d.heading.parameters ++ (d.content ++ after)).drop (Site.parametersSize
        (d.heading.parameters ++ (d.content ++ after))) = d.content ++ after := by
  obtain ⟨hheading, hless⟩ := h.begins after
  have hsize := Site.parametersSize_eq hheading.parameters
    (fun o ho => hending o (List.mem_append_left _ (by simp [Heading.occurrences, ho]))) hless
  exact ⟨hsize, by rw [hsize, List.drop_left]⟩

/-- What stands behind the heading is what the readers take. -/
theorem IsWritten.layout {d : DeclarationForm} (h : d.IsWritten) (hholds : d.HoldsTogether)
    (hending : ∀ o ∈ d.occurrences, o.kind ≠ .ending) (after : List Occurrence) :
    Site.Layout (d.heading.parameters ++ (d.content ++ after))
      (d.heading.parameters.length + d.content.length) d.body := by
  obtain ⟨hsize, hdrop⟩ := h.drop_parameters hending after
  have hparts (os : List Occurrence) (hos : os <:+: d.content) : ∀ o ∈ os, o.kind ≠ .ending :=
    fun o ho => hending o (List.mem_append_right _ (hos.subset ho))
  cases h with
  | @ofAlias heading sign semicolon operator first others _ equals leads written further ends =>
    have hpasses := passes_closing (· ≠ .greater) (isNested_aliasType leads written further)
    rw [← nesting_false_eq] at hpasses
    have htype := Site.aliasType_passes hpasses hholds
      (hparts _ ⟨[sign], [semicolon], by simp [content]⟩) ends after
    rw [content_alias] at hdrop
    have hlayout := Site.layout_alias hdrop equals htype rfl
    rw [Site.dropSemicolon_concat ends, ← content_alias heading, hsize] at hlayout
    convert hlayout using 1
    · rw [content, List.length_cons]
      omega
    · rfl
  | @ofInterface heading bases opening closing members _ extending commas plain opens closes
      written =>
    have hbases := passes_outside
      (isNested_bases extending commas fun base hbase => (plain base hbase).2)
      fun o ho => by simpa using ho
    have hhead := Site.interfaceHead?_passes hbases (hparts _ ⟨[], _, rfl⟩) opens
      (Member.row members ++ closing :: after)
    have hmembers := Site.block?_passes (passes_closing (· = .rightBrace) written.isNested_row)
      (hparts _ ⟨behindFirst bases ++ [opening], [closing], by simp [content]⟩) closes after
    have hsplit : content (.interface heading bases opening members closing) ++ after =
        behindFirst bases ++ opening :: (Member.row members ++ closing :: after) := by
      simp [content]
    refine .ofInterface ((congrArg _ (hdrop.trans hsplit)).trans hhead) hmembers ?_
    rw [hsize, content]
    simp only [List.length_append, List.length_cons, List.length_nil]
    omega

/-- A declaration that stands first is found as it is written. -/
theorem IsWritten.ofFront?_eq {d : DeclarationForm} (h : d.IsWritten) (hholds : d.HoldsTogether)
    (hending : ∀ o ∈ d.occurrences, o.kind ≠ .ending) (after : List Occurrence) :
    Site.ofFront? (d.occurrences ++ after) = some d.site := by
  have hfront := ofFront?_of_layout (h.begins after).1 (h.layout hholds hending after)
  rwa [← List.append_assoc] at hfront

/-- A declaration that does not hold together is found without its end. -/
theorem IsWritten.ofFront?_cut {d : DeclarationForm} (h : d.IsWritten) (hcut : ¬ d.HoldsTogether)
    (hending : ∀ o ∈ d.occurrences, o.kind ≠ .ending) (after : List Occurrence) :
    ∃ site lost, Site.ofFront? (d.occurrences ++ after) = some site ∧ site.name = d.name ∧
      d.occurrences = site.occurrences ++ lost ∧ lost ≠ [] := by
  obtain ⟨hsize, hdrop⟩ := h.drop_parameters hending after
  have hbegins := (h.begins after).1
  cases h with
  | @ofInterface => exact absurd trivial hcut
  | @ofAlias heading sign semicolon operator first others _ equals _ _ _ ends =>
    replace hcut : Site.holdsTogether true 0 (aliasType operator first others) = false :=
      Bool.eq_false_iff.mpr hcut
    -- The reader takes a part of the type, so the semicolon is lost in any case.
    rw [content_alias] at hdrop
    obtain ⟨lost, hlost⟩ : Site.aliasType true 0
        (aliasType operator first others ++ semicolon :: after) <+:
          aliasType operator first others :=
      List.prefix_of_prefix_length_le (Site.aliasType_prefix _ _ _) (List.prefix_append _ _)
        (Site.aliasType_cut hcut ends after)
    generalize htype : Site.aliasType true 0
      (aliasType operator first others ++ semicolon :: after) = type at hlost
    have hcontent : sign :: (aliasType operator first others ++ semicolon :: after) =
        sign :: type ++ (lost ++ semicolon :: after) := by
      rw [← hlost]
      simp
    have hlayout := Site.layout_alias hdrop equals htype rfl
    rw [← content_alias heading, hsize, content_alias, hcontent, Nat.add_assoc,
      Nat.add_comm 1] at hlayout
    have hoccurrences : occurrences (.typeAlias heading sign operator first others semicolon) =
        heading.occurrences ++ sign :: type ++ (lost ++ [semicolon]) := by
      rw [occurrences, content, ← hlost]
      simp [DeclarationForm.heading]
    refine ⟨⟨heading.name.token.value, heading.occurrences ++ sign :: type,
      .alias (Site.dropSemicolon type)⟩, lost ++ [semicolon], ?_, rfl, hoccurrences, by simp⟩
    have hheading : heading.IsWritten (SiteBody.alias (Site.dropSemicolon type)).keyword := hbegins
    have hfront := ofFront?_of_layout hheading hlayout
    rw [hoccurrences]
    simpa using hfront

end DeclarationForm

/-! ## Declarations of a file -/

namespace Site

/-- The search through occurrences has come to some of them, outside of a number of brackets and
behind a token of a given kind, and has found declarations on the way. -/
inductive SearchedTo (os : List Occurrence) :
    List Site → Option Kind → Nat → List Occurrence → Prop
  | start : SearchedTo os [] none 0 os
  | token {found : List Site} {before : Option Kind} {depth : Nat} {o : Occurrence}
      {rest : List Occurrence} (search : SearchedTo os found before depth (o :: rest))
      (noSite : depth = 0 → o.token.startsStatement before = true → ofFront? (o :: rest) = none) :
      SearchedTo os found (some o.kind) (nesting false depth o.kind) rest
  | site {found : List Site} {before : Option Kind} {o : Occurrence} {own rest : List Occurrence}
      {site : Site} (search : SearchedTo os found before 0 (o :: own ++ rest))
      (starts : o.token.startsStatement before = true)
      (declares : ofFront? (o :: own ++ rest) = some site) (takes : site.occurrences = o :: own) :
      SearchedTo os (found ++ [site]) (site.occurrences.getLast?.map kind) 0 rest

namespace SearchedTo

variable {os rest : List Occurrence} {found : List Site} {before : Option Kind} {depth : Nat}

/-- What has been found comes first, and then what is found from here on. -/
theorem collect_eq (h : SearchedTo os found before depth rest) :
    ofOccurrences os = found ++ collect before depth rest := by
  induction h with
  | start => rfl
  | @token found before depth o rest _ noSite ih =>
    rw [ih, collect]
    by_cases hstarts : depth = 0 ∧ o.token.startsStatement before = true
    · simp only [hstarts, and_self, if_true, noSite hstarts.1 hstarts.2]
    · simp only [hstarts, if_false]
  | site _ starts declares takes ih =>
    rw [ih, collect_of_front starts declares takes, List.append_assoc]
    rfl

theorem suffix (h : SearchedTo os found before depth rest) : rest <:+ os := by
  induction h with
  | start => exact List.suffix_refl os
  | token _ _ ih => exact (List.suffix_cons _ _).trans ih
  | site _ _ _ _ ih => exact (List.suffix_append _ _).trans ih

/-- The first declaration of a name is the one that is found. -/
theorem find?_eq {own : List Occurrence} {site : Site}
    (h : SearchedTo os found before 0 (own ++ rest))
    (hstarts : ∀ o ∈ own.head?, o.token.startsStatement before = true)
    (hfront : ofFront? (own ++ rest) = some site) (htakes : site.occurrences <+: own) {name : Text}
    (hname : site.name = name) (hnew : ∀ other ∈ found, other.name ≠ name) :
    (ofOccurrences os).find? (·.name = name) = some site := by
  obtain ⟨behind, rfl⟩ := htakes
  obtain ⟨_, _, _, _, _, hmade⟩ := madeOf_of_ofFront? hfront
  obtain ⟨o, others, hown⟩ := List.exists_cons_of_ne_nil
    (show site.occurrences ≠ [] by simp [hmade.takes])
  rw [hown, List.append_assoc] at h hfront
  have hcollect := collect_of_front (hstarts o (by simp [hown])) hfront hown
  have hfound : found.find? (·.name = name) = none :=
    List.find?_eq_none.mpr fun other hother => by simpa using hnew other hother
  rw [h.collect_eq, hcollect, List.find?_append, hfound, Option.none_or]
  exact List.find?_cons_of_pos (decide_eq_true hname)

end SearchedTo

end Site

namespace DeclarationForm

/-- A declaration ends with a semicolon or a brace. -/
theorem IsWritten.last_ne_ending {d : DeclarationForm} (h : d.IsWritten) :
    ∀ o ∈ d.occurrences.getLast?, o.kind ≠ .ending := by
  have hlast : ∃ front last, d.content = front ++ [last] ∧ last.kind ≠ .ending := by
    cases h with
    | @ofAlias _ sign semicolon operator first others _ _ _ _ _ ends =>
      refine ⟨sign :: aliasType operator first others, semicolon, rfl, ?_⟩
      rw [ends]
      decide
    | @ofInterface _ bases opening closing members _ _ _ _ _ closes =>
      refine ⟨behindFirst bases ++ opening :: Member.row members, closing, by simp [content], ?_⟩
      rw [closes]
      decide
  obtain ⟨front, last, hcontent, hkind⟩ := hlast
  intro o ho
  rw [occurrences, hcontent, ← List.append_assoc, List.getLast?_append_of_ne_nil _ (by simp)] at ho
  obtain rfl : last = o := by simpa using ho
  exact hkind

/-- A declaration in a source does not have the ending of the source. -/
theorem IsWritten.kind_ne_ending {d : DeclarationForm} (h : d.IsWritten) {source : Text}
    {before after : List Occurrence}
    (hsource : Occurrence.ofTokens (Token.ofText source) = before ++ (d.occurrences ++ after)) :
    ∀ o ∈ d.occurrences, o.kind ≠ .ending := by
  have htokens := congrArg (List.map token) hsource
  rw [Occurrence.ofTokens, map_token_ofTokensAfter, List.map_append, List.map_append] at htokens
  have hplain := Token.ne_ending_of_last htokens fun t ht => by
    rw [List.getLast?_map] at ht
    obtain ⟨last, hlast, rfl⟩ := Option.map_eq_some_iff.mp ht
    exact h.last_ne_ending last hlast
  exact fun o ho => hplain o.token (List.mem_map_of_mem ho)

/-- The text of some tokens determines how many they are. -/
theorem joined_ne {f : SourceFile} {source : Text} (hf : f.IsOf source)
    {own lost : List Occurrence} (hown : own ≠ []) (hlost : lost ≠ [])
    (hinside : own ++ lost <:+: f.occurrences) (hending : ∀ o ∈ own ++ lost, o.kind ≠ .ending) :
    Token.joined (own.map token) ≠ Token.joined ((own ++ lost).map token) := by
  obtain ⟨o, own, rfl⟩ := List.exists_cons_of_ne_nil hown
  obtain ⟨u, lost, rfl⟩ := List.exists_cons_of_ne_nil hlost
  have htext := hf.text_ne_nil (hinside.subset (show u ∈ _ by simp)) (hending u (by simp))
  intro hsame
  simp [Token.joined, Token.source, htext] at hsame

/-- A declaration at the top level of a file is described by what it was put together from exactly
if it holds together: its text is all of it, its properties are the members, and its base types are
the types that are extended or the constituents that are no objects, both in the order in which they
are written. -/
theorem IsWritten.described_iff_holdsTogether (home : Place) (path : Path) (source : Text)
    {d : DeclarationForm} (h : d.IsWritten) {found : List Site} {before : Option Kind}
    {after : List Occurrence}
    (hsearch : Site.SearchedTo (SourceFile.ofText home path source).occurrences found before 0
      (d.occurrences ++ after))
    (hstarts : ∀ o ∈ d.occurrences.head?, o.token.startsStatement before = true)
    (hnew : ∀ site ∈ found, site.name ≠ d.name) :
    let f := SourceFile.ofText home path source
    f.declaration? d.name = some ⟨d.name, path, Token.joined (d.occurrences.map token),
      d.members.map fun m => ⟨m.label, f.marked m.type⟩, d.bases.map f.marked⟩ ↔
        d.HoldsTogether := by
  intro f
  have hf : f.IsOf source := SourceFile.isOf_ofText home path source
  obtain ⟨passed, hsplit⟩ := hsearch.suffix
  have hinside : d.occurrences <:+: f.occurrences :=
    ⟨passed, after, (List.append_assoc _ _ _).trans hsplit⟩
  have hending := h.kind_ne_ending hsplit.symm
  constructor
  · intro hdescribed
    by_contra hcut
    obtain ⟨site, lost, hfront, hname, hlost, hne⟩ := h.ofFront?_cut hcut hending after
    have hfind : f.sites.find? (·.name = d.name) = some site :=
      hsearch.find?_eq hstarts hfront ⟨lost, hlost.symm⟩ hname hnew
    rw [SourceFile.declaration?, hfind, Option.map_some] at hdescribed
    -- What is found without its end has another text.
    have htext := congrArg DeclaredType.text (Option.some.inj hdescribed)
    obtain ⟨_, _, _, _, _, hmade⟩ := Site.madeOf_of_ofFront? hfront
    rw [hlost] at hinside hending htext
    exact joined_ne hf (by simp [hmade.takes]) hne hinside hending htext
  · intro hholds
    have hfind : f.sites.find? (·.name = d.name) = some d.site :=
      hsearch.find?_eq hstarts (h.ofFront?_eq hholds hending after) (List.prefix_refl _) rfl hnew
    have hbody : d.site.body = d.body := rfl
    rw [SourceFile.declaration?, hfind, Option.map_some, hbody, h.shape_eq hf hinside hending]
    rfl

/-- A union that begins with an operator, with type parameters and an object with three members. -/
def writtenSource : Text :=
  "export type A<T> =\n  | Map<string, \x7b a: A; b: T \x7d>\n  & \x7b readonly x?: A | T\n".toList ++
    "  'a b': T extends A ? (y: T) => A : T[], d: A; \x7d;\n".toList

def writtenAlias (f : SourceFile) : DeclarationForm :=
  let o (i : Nat) : Occurrence := f.occurrences.getD i ⟨Token.nowhere, false⟩
  .typeAlias ⟨some (o 0), none, o 1, o 2, f.range 3 6⟩ (o 6) (some (o 7)) (.type (f.range 8 22))
    [(o 22, .object (o 23)
      [⟨some (o 24), o 25, some (o 26), o 27, f.range 28 31, none⟩,
        ⟨none, o 31, none, o 32, f.range 33 48, some (o 48)⟩,
        ⟨none, o 49, none, o 50, f.range 51 52, some (o 52)⟩] (o 53))] (o 54)

theorem written_alias_is_described :
    let f := SourceFile.ofText [] (.ofString "/a") writtenSource
    let d := writtenAlias f
    d.IsWritten ∧ d.HoldsTogether ∧ f.occurrences = d.occurrences ++ f.range 55 56 ∧
      f.declaration? d.name = some ⟨d.name, f.path, Token.joined (d.occurrences.map token),
        d.members.map fun m => ⟨m.label, f.marked m.type⟩, d.bases.map f.marked⟩ ∧
      d.members.map Member.label = ["x".toList, "a b".toList, "d".toList] ∧ d.bases.length = 1 := by
  intro f d
  have hall : d.IsWritten ∧ d.HoldsTogether ∧ f.occurrences = d.occurrences ++ f.range 55 56 ∧
      d.members.map Member.label = ["x".toList, "a b".toList, "d".toList] ∧ d.bases.length = 1 := by
    decide +kernel
  obtain ⟨hwritten, hholds, hsplit, hshape⟩ := hall
  have hsearch : Site.SearchedTo f.occurrences [] none 0 (d.occurrences ++ f.range 55 56) :=
    hsplit ▸ .start
  have hdescribed := hwritten.described_iff_holdsTogether [] (.ofString "/a") writtenSource hsearch
    (by simp [Token.startsStatement]) (by simp)
  exact ⟨hwritten, hholds, hsplit, hdescribed.mpr hholds, hshape⟩

/-- An alias with an import type on a line of its own between angle brackets. -/
def brokenSource : Text := "type X = Foo<\n  import('x').Y>;".toList

def brokenAlias (f : SourceFile) : DeclarationForm :=
  let o (i : Nat) : Occurrence := f.occurrences.getD i ⟨Token.nowhere, false⟩
  .typeAlias ⟨none, none, o 0, o 1, []⟩ (o 2) none (.type (f.range 3 12)) [] (o 12)

/-- The line break ends the alias, although it stands between brackets. -/
theorem broken_alias_is_cut :
    let f := SourceFile.ofText [] (.ofString "/virt/genx-project/a.ts") brokenSource
    let d := brokenAlias f
    d.IsWritten ∧ Site.SearchedTo f.occurrences [] none 0 (d.occurrences ++ f.range 13 14) ∧
      Token.joined (d.occurrences.map token) = brokenSource ∧
      d.bases.map f.marked = ["Foo<\n  import('x').Y>".toList] ∧
      (f.declaration? d.name).map (fun described => (described.text, described.bases)) =
        some ("type X = Foo<".toList, ["Foo<".toList]) := by
  intro f d
  have hall : d.IsWritten ∧ f.occurrences = d.occurrences ++ f.range 13 14 ∧
      Token.joined (d.occurrences.map token) = brokenSource ∧
      d.bases.map f.marked = ["Foo<\n  import('x').Y>".toList] ∧
      (f.declaration? d.name).map (fun described => (described.text, described.bases)) =
        some ("type X = Foo<".toList, ["Foo<".toList]) := by
    decide +kernel
  obtain ⟨hwritten, hsplit, hshape⟩ := hall
  exact ⟨hwritten, hsplit ▸ .start, hshape⟩

end DeclarationForm

end TypeInliner
