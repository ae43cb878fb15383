import TypeInliner.Proofs.DeclarationEnds
import TypeInliner.Proofs.DeclarationPlacement
import TypeInliner.Proofs.MentionedTypes
import TypeInliner.Proofs.TokenNeighbours

/-! # A rendered block reads back

The text of a declaration has the tokens of the declaration. A line feed behind it continues none of
them, and one in front of it only makes the declaration begin a line. So the declarations of a block
are found one after the other, and each of them is the statement in front of which the one before it
ends. -/

namespace TypeInliner

namespace Token

/-! ## Line feeds between texts -/

theorem withGap_self {offset : Nat} {t behind : Text} {tok : Token}
    (h : ReadsFront offset t tok behind) : tok.withGap tok.gap offset = tok := by
  obtain ⟨kind, gap, text, value, newline, start⟩ := tok
  have hnewline := h.newline
  have hstart := h.start
  dsimp only at hnewline hstart
  simp only [withGap, hnewline, hstart]

/-- A line feed behind a text without malformed tokens makes no difference to these. -/
theorem ofTextAt_line {offset last : Nat} {t behind : Text} {tokens : List Token}
    (h : ofTextAt offset t = tokens ++ [endingAt last []])
    (hplain : ∀ tok ∈ tokens, tok.kind ≠ .malformed) (hbehind : ∀ d ∈ behind.head?, d = '\n') :
    ofTextAt offset (t ++ behind) = tokens ++ ofTextAt (offset + Text.bytes t) behind := by
  induction tokens generalizing offset t with
  | nil =>
    have ht : t = [] := by
      rw [← flatten_source offset t, h]
      rfl
    rw [ht, List.nil_append, Text.bytes_nil, List.nil_append, Nat.add_zero]
  | cons tok tokens ih =>
    rcases ofTextAt_cases offset t with hending | ⟨first, rest, hreads⟩
    · rw [hending] at h
      simp at h
    rw [hreads.ofTextAt_eq] at h
    obtain ⟨rfl, hrest⟩ := List.cons.inj h
    have htail := ih hrest fun tok htok => hplain tok (List.mem_cons_of_mem _ htok)
    have hkind := hplain first List.mem_cons_self
    rw [← List.append_nil rest] at hreads
    have hagain : ReadsFront offset (first.gap ++ (first.text ++ (rest ++ behind)))
        (first.withGap first.gap offset) (rest ++ behind) := by
      refine hreads.exchange ?_ ?_ hreads.spacing offset
      · intro d hd
        rw [hbehind d hd]
        decide
      · intro _ d hd
        rw [hbehind d hd]
        exact Or.inr ⟨hkind, fun _ => by decide⟩
    rw [withGap_self hreads] at hagain
    have hsource : t ++ behind = first.gap ++ (first.text ++ (rest ++ behind)) := by
      rw [hreads.source]
      simp only [List.append_assoc, List.append_nil]
    have hstop : first.stop + Text.bytes rest = offset + Text.bytes t := by
      rw [stop, hreads.start, hreads.source]
      simp only [Text.bytes_append, List.append_nil]
      omega
    rw [hsource, hagain.ofTextAt_eq, htail, hstop, List.cons_append]

/-- Spacing in front of a text becomes the gap of its first token. -/
theorem ofTextAt_lead {gap t : Text} {offset : Nat} {first : Token} {others : List Token}
    (h : ofTextAt (offset + Text.bytes gap) t = first :: others) (hfirst : first.gap = [])
    (hkind : first.kind ≠ .ending) (hspacing : Spacing gap) :
    ofTextAt offset (gap ++ t) = first.withGap gap offset :: others := by
  rcases ofTextAt_cases (offset + Text.bytes gap) t with hending | ⟨tok, behind, hreads⟩
  · rw [hending] at h
    obtain ⟨rfl, _⟩ := List.cons.inj h
    exact absurd rfl hkind
  rw [hreads.ofTextAt_eq] at h
  obtain ⟨rfl, rfl⟩ := List.cons.inj h
  have hsource : t = tok.text ++ behind := by
    rw [hreads.source, hfirst, List.nil_append]
  have hagain := hreads.reread hreads.gap_behind (fun _ _ _ => rfl) hspacing offset
  have hstop : (tok.withGap gap offset).stop = tok.stop := by
    rw [stop, stop, hreads.start, hfirst]
    rfl
  rw [← hsource] at hagain
  rw [hagain.ofTextAt_eq, hstop]

end Token

namespace Site

open Occurrence

/-! ## The text of a declaration -/

section InSource

variable {source : Text} {site : Site}
  (h : site ∈ ofOccurrences (Occurrence.ofTokens (Token.ofText source)))

include h

/-- Where a declaration stands in its source. -/
theorem exists_place : (∃ os, ofFront? os = some site) ∧ ∃ before behind,
    Token.ofText source = before ++ (site.occurrences.map token ++ behind) := by
  obtain ⟨rest, ⟨before, hbefore⟩, hfront⟩ := exists_suffix_of_mem_collect h
  obtain ⟨behind, rfl⟩ := (ofFront?_accounts hfront).1
  refine ⟨⟨_, hfront⟩, before.map token, behind.map token, ?_⟩
  rw [← List.map_append, ← List.map_append, hbefore, Occurrence.ofTokens,
    map_token_ofTokensAfter]

/-- A declaration stands in front of the ending of its source. -/
theorem kind_ne_ending : ∀ tok ∈ site.occurrences.map token, tok.kind ≠ .ending := by
  obtain ⟨⟨os, hfront⟩, before, behind, hplace⟩ := exists_place h
  refine Token.ne_ending_of_last hplace fun tok htok => ?_
  rw [List.getLast?_map] at htok
  obtain ⟨last, hlast, rfl⟩ := Option.map_eq_some_iff.mp htok
  exact last_ne_ending hfront last hlast

/-- The text of a declaration has its tokens, without what stands in front of the first one. -/
theorem ofTextAt_text (offset : Nat) : ∃ o own first others last, site.occurrences = o :: own ∧
    Token.ofTextAt offset site.text = first :: others ++ [Token.endingAt last []] ∧
    first.unplaced = o.token.withoutGap.unplaced ∧
    others.map Token.unplaced = (own.map token).map Token.unplaced := by
  obtain ⟨⟨os, hfront⟩, before, behind, hplace⟩ := exists_place h
  have hkind := kind_ne_ending h
  obtain ⟨modifiers, keyword, name, rest, size, hmade⟩ := madeOf_of_ofFront? hfront
  obtain ⟨o, own, hown⟩ := List.exists_cons_of_ne_nil (l := site.occurrences)
    (by rw [hmade.takes]; simp)
  rw [hown, List.map_cons] at hplace hkind
  obtain ⟨first, others, last, hread⟩ := Token.ofTextAt_joined hplace hkind offset
  rw [← List.map_cons, ← hown] at hread
  exact ⟨o, own, first, others, last, hown, hread⟩

end InSource

/-- Occurrences that resemble a declaration and have its text. -/
structure Repeats (us : List Occurrence) (site : Site) : Prop where
  resembles : Resembles us site
  text : Token.joined (us.map token) = site.text

theorem Repeats.of_unplaced {u o : Occurrence} {us own : List Occurrence} {site : Site}
    (hown : site.occurrences = o :: own) (hkind : u.kind = o.kind)
    (htext : u.token.text = o.token.text)
    (h : (us.map token).map Token.unplaced = (own.map token).map Token.unplaced) :
    Repeats (u :: us) site := by
  have hseen : Matches us own := by
    have hmap := congrArg (List.map fun t => (Token.kind t, Token.value t, Token.newline t)) h
    simp only [List.map_map] at hmap
    exact hmap
  have hsource : (us.map token).map Token.source = (own.map token).map Token.source := by
    have hmap := congrArg (List.map Token.source) h
    simp only [List.map_map] at hmap ⊢
    exact hmap
  refine ⟨⟨?_, ?_⟩, ?_⟩
  · rw [hown, List.map_cons, List.map_cons, hkind, hseen.map_kind]
  · rw [hown]
    exact hseen
  · rw [Site.text, hown, List.map_cons, List.map_cons, Token.joined, Token.joined, htext, hsource]

/-- The text of a declaration between spacing and a line feed is a repetition of the declaration. -/
theorem exists_repeats {source : Text} {site : Site}
    (h : site ∈ ofOccurrences (Occurrence.ofTokens (Token.ofText source)))
    (hplain : ∀ tok ∈ Token.ofText site.text, tok.kind ≠ .malformed) {gap behind : Text}
    (hgap : Token.Spacing gap) (hbehind : ∀ d ∈ behind.head?, d = '\n') {offset : Nat}
    {os : List Occurrence}
    (hos : os.map token = Token.ofTextAt offset (gap ++ (site.text ++ behind))) :
    ∃ u us after next, os = u :: us ++ after ∧ Repeats (u :: us) site ∧
      after.map token = Token.ofTextAt next behind ∧ ('\n' ∈ gap → u.token.newline = true) := by
  obtain ⟨o, own, first, others, last, hown, htokens, hfirst, hothers⟩ :=
    ofTextAt_text h (offset + Text.bytes gap)
  have hgapless := congrArg Token.gap hfirst
  have hkind := congrArg Token.kind hfirst
  have htext := congrArg Token.text hfirst
  have hkinds : ∀ tok ∈ first :: others, tok.kind ≠ .malformed := by
    intro tok htok
    obtain ⟨read, hread, hsame⟩ := Token.exists_kind_of_mem
      (show tok ∈ Token.ofTextAt _ site.text from htokens ▸ List.mem_append_left _ htok)
    rw [← hsame]
    exact hplain read hread
  have hline := Token.ofTextAt_line htokens hkinds hbehind
  have hending : first.unplaced.kind ≠ .ending := by
    rw [hkind]
    exact kind_ne_ending h o.token (by simp [hown])
  rw [Token.ofTextAt_lead hline hgapless hending hgap] at hos
  obtain ⟨u, rest, rfl, hu, hrest⟩ := List.map_eq_cons_iff.mp hos
  obtain ⟨us, after, rfl, hus, hafter⟩ := List.map_eq_append_iff.mp hrest
  refine ⟨u, us, after, _, rfl, .of_unplaced hown ?_ ?_ ?_, hafter, fun hline => ?_⟩
  · rw [Occurrence.kind, hu]
    exact hkind
  · rw [hu]
    exact htext
  · rw [hus, hothers]
  · rw [hu]
    simp [Token.withGap, hline]

/-! ## Sites one after the other -/

/-- A declaration that stands first is found, and the search goes on behind it. -/
theorem collect_of_front {before : Option Kind} {u : Occurrence} {us after : List Occurrence}
    {site : Site} (hstarts : u.token.startsStatement before = true)
    (hfront : ofFront? (u :: us ++ after) = some site) (hown : site.occurrences = u :: us) :
    collect before 0 (u :: us ++ after) =
      site :: collect (site.occurrences.getLast?.map Occurrence.kind) 0 after := by
  rw [List.cons_append] at hfront ⊢
  rw [collect]
  simp only [hstarts, and_self, if_true, hfront]
  rw [hown, List.length_cons, Nat.add_sub_cancel, List.drop_left]

theorem collect_ending {before : Option Kind} {e : Occurrence} (h : e.kind = .ending) :
    collect before 0 [e] = [] := by
  have hfront : ofFront? [e] = none := by simp [ofFront?, modifierCount, h]
  simp [collect, hfront]

end Site

namespace Declaration

/-- A declaration as a file describes it. Its text has no malformed token, and it ends by itself. -/
structure IsExtracted (d : Declaration) (f : SourceFile) : Prop where
  described : (f.declaration? d.name).map DeclaredType.text = some d.text
  wellFormed : ∀ t ∈ Token.ofText d.text, t.kind ≠ .malformed
  ends : ∀ site ∈ f.sites.find? (·.name = d.name), ∀ o ∈ site.occurrences.getLast?,
    Site.EndsWith o.kind site.body

instance (d : Declaration) (f : SourceFile) : Decidable (d.IsExtracted f) :=
  decidable_of_iff (_ ∧ _ ∧ _) ⟨fun h => ⟨h.1, h.2.1, h.2.2⟩,
    fun h => ⟨h.described, h.wellFormed, h.ends⟩⟩

/-- The texts of declarations, each behind a line feed. -/
def lines (ds : List Declaration) : Text := (ds.map fun d => '\n' :: d.text).flatten

theorem lines_cons (d : Declaration) (ds : List Declaration) :
    lines (d :: ds) = ['\n'] ++ (d.text ++ lines ds) := rfl

theorem head_lines (ds : List Declaration) : ∀ c ∈ (lines ds).head?, c = '\n' := by
  cases ds with
  | nil => simp [lines]
  | cons d ds => simp [lines]

/-- What a file describes is one of its declarations. -/
theorem IsExtracted.exists_site {d : Declaration} {home : Place} {path : Path} {source : Text}
    (h : d.IsExtracted (SourceFile.ofText home path source)) :
    ∃ site ∈ Site.ofOccurrences (Occurrence.ofTokens (Token.ofText source)),
      site.name = d.name ∧ site.text = d.text ∧
        ∀ o ∈ site.occurrences.getLast?, Site.EndsWith o.kind site.body := by
  obtain ⟨described, hdescribed, htext⟩ := Option.map_eq_some_iff.mp h.described
  obtain ⟨site, hsite, rfl⟩ := Option.map_eq_some_iff.mp hdescribed
  have hname : site.name = d.name := by simpa using List.find?_some hsite
  exact ⟨site, List.mem_of_find?_eq_some hsite, hname, htext, h.ends site hsite⟩

/-- A declaration that comes from some source. -/
def ComesFromSource (d : Declaration) : Prop :=
  ∃ home path source, d.IsExtracted (SourceFile.ofText home path source)

open Occurrence in
/-- A declaration at the beginning of a text is found first, and behind it stand the further
lines. -/
theorem found_first {d : Declaration} {ds : List Declaration} (hd : d.ComesFromSource)
    {gap : Text} (hgap : Token.Spacing gap) (before : Option Kind)
    (hstart : before = none ∨ '\n' ∈ gap) {offset : Nat} {os : List Occurrence}
    (hos : os.map token = Token.ofTextAt offset (gap ++ (d.text ++ lines ds)))
    (hstops : ∀ next after, after.map token = Token.ofTextAt next (lines ds) → Site.Stops after) :
    ∃ site last next after, Site.collect before 0 os = site :: Site.collect last 0 after ∧
      site.name = d.name ∧ site.text = d.text ∧
      after.map token = Token.ofTextAt next (lines ds) ∧ ('\n' ∈ gap → Site.Stops os) := by
  obtain ⟨home, path, source, hextracted⟩ := hd
  obtain ⟨site, hsite, hname, htext, hends⟩ := hextracted.exists_site
  have hplain := hextracted.wellFormed
  rw [← htext] at hplain hos
  obtain ⟨u, us, after, next, rfl, hrepeats, hafter, hline⟩ :=
    Site.exists_repeats hsite hplain hgap (head_lines ds) hos
  obtain ⟨⟨others, hfront⟩, _⟩ := Site.exists_place hsite
  obtain ⟨again, hagain, hsame, hown⟩ :=
    Site.ofFront?_again hfront hends hrepeats.resembles (hstops next after hafter)
  have hstarts : u.token.startsStatement before = true := by
    rcases hstart with rfl | hgap
    · rfl
    · cases before with
      | none => rfl
      | some kind => simp [Token.startsStatement, hline hgap]
  have hcollect := Site.collect_of_front hstarts hagain hown
  refine ⟨again, _, next, after, hcollect, hsame.trans hname, ?_, hafter, fun hgap => ?_⟩
  · rw [Site.text, hown, hrepeats.text, htext]
  · obtain ⟨_, _, _, _, _, hmade⟩ := Site.madeOf_of_ofFront? hagain
    obtain ⟨_, _, hcons, hopens⟩ := hmade.opensStatement_eq
    obtain ⟨rfl, rfl⟩ := List.cons.inj hcons
    exact Or.inr ⟨hline hgap, hopens⟩

open Occurrence in
/-- Lines of declarations are found one after the other, and each of them ends what stands in front
of it. -/
theorem found_lines {ds : List Declaration} (hds : ∀ d ∈ ds, d.ComesFromSource) {offset : Nat}
    {os : List Occurrence} (hos : os.map token = Token.ofTextAt offset (lines ds)) :
    Site.Stops os ∧ ∀ before, (Site.collect before 0 os).map (fun site => (site.name, site.text)) =
      ds.map fun d => (d.name, d.text) := by
  induction ds generalizing offset os with
  | nil =>
    obtain ⟨e, rest, rfl, he, hrest⟩ := List.map_eq_cons_iff.mp
      (hos.trans (Token.ofTextAt_of_gap (t := lines []) rfl))
    obtain rfl := List.map_eq_nil_iff.mp hrest
    have hending : e.kind = .ending := congrArg Token.kind he
    refine ⟨Or.inl hending, fun before => ?_⟩
    rw [Site.collect_ending hending]
    rfl
  | cons d ds ih =>
    have htail := fun d' hd' => hds d' (List.mem_cons_of_mem d hd')
    have hstep (before : Option Kind) := found_first (hds d List.mem_cons_self)
      (.blank (by decide) .nil) before (Or.inr (by simp)) hos fun _ _ hafter => (ih htail hafter).1
    refine ⟨?_, fun before => ?_⟩
    · obtain ⟨_, _, _, _, _, _, _, _, hstops⟩ := hstep none
      exact hstops (by simp)
    · obtain ⟨site, last, next, after, hcollect, hname, htext, hafter, _⟩ := hstep before
      rw [hcollect, List.map_cons, List.map_cons, (ih htail hafter).2 last, hname, htext]

theorem join_texts (d : Declaration) (ds : List Declaration) :
    Text.join ['\n'] ((d :: ds).map text) = d.text ++ lines ds := by
  induction ds generalizing d with
  | nil => simp [Text.join, lines]
  | cons other ds ih =>
    rw [List.map_cons, List.map_cons, Text.join, ← List.map_cons, ih, lines_cons,
      List.append_assoc]

open Occurrence in
theorem found_texts {ds : List Declaration} (hds : ∀ d ∈ ds, d.ComesFromSource) {offset : Nat}
    {os : List Occurrence}
    (hos : os.map token = Token.ofTextAt offset (Text.join ['\n'] (ds.map text))) :
    (Site.collect none 0 os).map (fun site => (site.name, site.text)) =
      ds.map fun d => (d.name, d.text) := by
  cases ds with
  | nil => exact (found_lines hds hos).2 none
  | cons d ds =>
    have htail := fun d' hd' => hds d' (List.mem_cons_of_mem d hd')
    rw [join_texts] at hos
    obtain ⟨site, last, next, after, hcollect, hname, htext, hafter, _⟩ :=
      found_first (hds d List.mem_cons_self) .nil none (Or.inl rfl) hos
        fun _ _ hafter => (found_lines htail hafter).1
    rw [hcollect, List.map_cons, List.map_cons, (found_lines htail hafter).2 last, hname, htext]

theorem ComesFromSource.text_ne_nil {d : Declaration} (h : d.ComesFromSource) : d.text ≠ [] := by
  obtain ⟨home, path, source, hextracted⟩ := h
  obtain ⟨site, hsite, _, htext, _⟩ := hextracted.exists_site
  obtain ⟨_, _, first, others, last, _, htokens, _⟩ := Site.ofTextAt_text hsite 0
  intro hnil
  rw [htext, hnil, Token.ofTextAt_of_gap (t := []) rfl] at htokens
  simpa using congrArg List.length htokens

/-- Nothing is left out of a block. -/
theorem render_eq {ds : List Declaration} (hds : ∀ d ∈ ds, d.ComesFromSource) :
    render ds = Text.join ['\n'] ((order ds).map text) := by
  rw [render, List.filter_eq_self.mpr]
  intro t ht
  obtain ⟨d, hd, rfl⟩ := List.mem_map.mp ht
  simpa using (hds d ((order_perm ds).mem_iff.mp hd)).text_ne_nil

/-- A rendered block declares what it was made of: each declaration is found once, in the order of
the block, and it is described by its name with exactly its text. -/
theorem render_reads_back {ds : List Declaration} (hds : ∀ d ∈ ds, d.ComesFromSource)
    (hnames : (ds.map name).Nodup) (home : Place) (path : Path) :
    ((SourceFile.ofText home path (render ds)).sites.map fun site => (site.name, site.text)) =
        (order ds).map (fun d => (d.name, d.text)) ∧
      (order ds).Perm ds ∧
      ∀ d ∈ ds, ((SourceFile.ofText home path (render ds)).declaration? d.name).map
        DeclaredType.text = some d.text := by
  have hperm := order_perm ds
  have hfound : ((SourceFile.ofText home path (render ds)).sites.map
      fun site => (site.name, site.text)) = (order ds).map (fun d => (d.name, d.text)) := by
    apply found_texts fun d hd => hds d (hperm.mem_iff.mp hd)
    rw [Occurrence.ofTokens, Occurrence.map_token_ofTokensAfter, render_eq hds]
    rfl
  refine ⟨hfound, hperm, fun d hd => ?_⟩
  generalize SourceFile.ofText home path (render ds) = f at hfound
  have hdeclared : (d.name, d.text) ∈ f.sites.map fun site => (site.name, site.text) := by
    rw [hfound]
    exact List.mem_map_of_mem (hperm.mem_iff.mpr hd)
  obtain ⟨declared, hmem, hsame⟩ := List.mem_map.mp hdeclared
  cases hfind : f.sites.find? (·.name = d.name) with
  | none => simpa [(Prod.mk.inj hsame).1] using List.find?_eq_none.mp hfind declared hmem
  | some site =>
    have hname : site.name = d.name := by simpa using List.find?_some hfind
    have hsite := List.mem_map_of_mem (f := fun site => (site.name, site.text))
      (List.mem_of_find?_eq_some hfind)
    rw [hfound] at hsite
    obtain ⟨other, hother, heq⟩ := List.mem_map.mp hsite
    obtain ⟨hothername, hothertext⟩ := Prod.mk.inj heq
    obtain rfl := List.inj_on_of_nodup_map hnames (hperm.mem_iff.mp hother) hd
      (hothername.trans hname)
    rw [SourceFile.declaration?, hfind, hothertext]
    rfl

/-- An alias that ends in front of the next statement, with this statement behind it. -/
def precedingSource : Text := "type A = B[]\nexport interface B \x7b a: string \x7d\n".toList

/-- An alias at the end of a source. -/
def closingSource : Text := "declare type C<T> = \x7b t: T \x7d".toList

/-- Declarations of both sources. -/
def gatheredDeclarations : List Declaration :=
  [⟨"A".toList, "type A = B[]".toList⟩,
    ⟨"C".toList, "declare type C<T> = \x7b t: T \x7d".toList⟩,
    ⟨"B".toList, "export interface B \x7b a: string \x7d".toList⟩]

theorem gatheredDeclarations_read_back :
    (∀ d ∈ gatheredDeclarations, d.ComesFromSource) ∧ (gatheredDeclarations.map name).Nodup ∧
      (SourceFile.ofText [] (.ofString "/block.ts") (render gatheredDeclarations)).sites.map
        Site.name = ["B".toList, "A".toList, "C".toList] := by
  have hfirst : ∀ d ∈ gatheredDeclarations, d.name ≠ "C".toList →
      d.IsExtracted (SourceFile.ofText [] (.ofString "/a.ts") precedingSource) := by
    decide +kernel
  have hlast : ∀ d ∈ gatheredDeclarations, d.name = "C".toList →
      d.IsExtracted (SourceFile.ofText [] (.ofString "/c.ts") closingSource) := by
    decide +kernel
  have hds : ∀ d ∈ gatheredDeclarations, d.ComesFromSource := by
    intro d hd
    by_cases hname : d.name = "C".toList
    · exact ⟨_, _, _, hlast d hd hname⟩
    · exact ⟨_, _, _, hfirst d hd hname⟩
  have hnames : (gatheredDeclarations.map name).Nodup := by decide
  refine ⟨hds, hnames, ?_⟩
  have hsites := congrArg (List.map Prod.fst)
    (render_reads_back hds hnames [] (.ofString "/block.ts")).1
  rw [List.map_map, List.map_map] at hsites
  exact hsites.trans (by decide +kernel)

end Declaration

end TypeInliner
