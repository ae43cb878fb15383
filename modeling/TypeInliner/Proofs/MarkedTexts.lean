import TypeInliner.Proofs.CarriedNames
import TypeInliner.Proofs.MentionedTypes
import TypeInliner.Proofs.Tables

/-! # Marked texts read back

A range of a source is written with markers in place of the names that the file knows. If the
source is ASCII and no import call is written in it, nothing that stands between two markers begins
a marker, hides one or lengthens its name. So the markers that are found are those that were
written, and with the names put back in their places the text is again the source text of the
range. -/

namespace TypeInliner

namespace TypeReference

/-- What every marker begins with; the quote behind it is the first of the marker. -/
def call : Text := "import(".toList

theorem call_eq : call = ['i', 'm', 'p', 'o', 'r', 't', '('] := by decide

theorem call_prefix_marker (r : TypeReference) : call <+: r.marker :=
  ⟨'\x22' :: (r.source ++ closing ++ r.name), by simp [marker, opening_eq, call_eq]⟩

/-- A text behind some characters of an earlier marker, with texts in place of its markers. -/
def replaceAfter : Nat → List Text → Text → Text
  | _, _, [] => []
  | skipped + 1, texts, _ :: t => replaceAfter skipped texts t
  | 0, texts, c :: t =>
    match ofFront? (c :: t) with
    | some r => texts.headD [] ++ replaceAfter (r.marker.length - 1) texts.tail t
    | none => c :: replaceAfter 0 texts t

/-- A text with the first of its markers replaced by the first of some texts, and so on. -/
def replace (texts : List Text) (t : Text) : Text := replaceAfter 0 texts t

theorem replaceAfter_eq (skipped : Nat) (texts : List Text) (t : Text) :
    replaceAfter skipped texts t = replace texts (t.drop skipped) := by
  induction skipped generalizing t with
  | zero => rfl
  | succ skipped ih =>
    cases t with
    | nil => rfl
    | cons c t => exact ih t

theorem replace_marker {r : TypeReference} {rest : Text} (hr : r.IsReadable) (hrest : EndsName rest)
    (original : Text) (texts : List Text) :
    replace (original :: texts) (r.marker ++ rest) = original ++ replace texts rest := by
  obtain ⟨c, t, hmarker⟩ := List.exists_cons_of_ne_nil r.marker_ne_nil
  have hfront : ofFront? (r.marker ++ rest) = some r := ofFront?_eq_some.mpr ⟨hr, rest, rfl, hrest⟩
  rw [hmarker, List.cons_append] at hfront ⊢
  simp only [replace, replaceAfter, hfront]
  rw [replaceAfter_eq, hmarker, List.length_cons, Nat.add_sub_cancel, List.drop_left]
  rfl

theorem replace_cons {c : Char} {t : Text} (h : ofFront? (c :: t) = none) (texts : List Text) :
    replace texts (c :: t) = c :: replace texts t := by
  simp only [replace, replaceAfter, h]

/-! ## Text between markers -/

/-- No marker begins in a text without a call that is followed by a marker or by nothing: a call
has the first letter of a marker nowhere but at its beginning. -/
theorem ofFront?_eq_none_of_no_call {c : Char} {front rest : Text}
    (hfront : ¬ call <:+: c :: front) (hrest : ∀ d ∈ rest.head?, d = 'i') :
    ofFront? (c :: front ++ rest) = none := by
  cases hread : ofFront? (c :: front ++ rest) with
  | none => rfl
  | some r =>
    obtain ⟨_, behind, hsplit, _⟩ := ofFront?_eq_some.mp hread
    obtain ⟨more, hmore⟩ := (call_prefix_marker r).trans ⟨behind, hsplit.symm⟩
    rcases List.append_eq_append_iff.mp hmore with ⟨inside, hinside, _⟩ | ⟨part, hpart, hrest'⟩
    · exact absurd ⟨[], inside, hinside.symm⟩ hfront
    cases part with
    | nil =>
      rw [List.append_nil] at hpart
      exact absurd ⟨[], [], by simp [hpart]⟩ hfront
    | cons d part =>
      obtain rfl : d = 'i' := hrest d (by rw [hrest']; rfl)
      have htail : 'i' ∈ call.tail := by
        rw [hpart]
        simp
      exact absurd htail (by decide)

theorem find_append_of_no_call {front rest : Text} (hfront : ¬ call <:+: front)
    (hrest : ∀ d ∈ rest.head?, d = 'i') (texts : List Text) :
    find (front ++ rest) = find rest ∧
      replace texts (front ++ rest) = front ++ replace texts rest := by
  induction front with
  | nil => exact ⟨rfl, rfl⟩
  | cons c front ih =>
    have hnone := ofFront?_eq_none_of_no_call hfront hrest
    have htail : ¬ call <:+: front := fun h => hfront (h.trans (List.suffix_cons c front).isInfix)
    obtain ⟨hfind, hreplace⟩ := ih htail
    exact ⟨(find_cons hnone).trans hfind,
      (replace_cons hnone texts).trans (congrArg (c :: ·) hreplace)⟩

theorem head?_marker (r : TypeReference) (t : Text) : ∀ d ∈ (r.marker ++ t).head?, d = 'i' := by
  simp [marker, opening_eq]

/-- A text without a call has no markers. -/
theorem find_of_no_call {t : Text} (h : ¬ call <:+: t) (texts : List Text) :
    find t = [] ∧ replace texts t = t := by
  have hpass : find (t ++ []) = find [] ∧ replace texts (t ++ []) = t ++ replace texts [] :=
    find_append_of_no_call h (by simp) texts
  simpa [find, findAfter, replace, replaceAfter] using hpass

end TypeReference

open TypeReference

/-! ## Trimmed ends -/

theorem Text.isBlank_of_continuesName {c : Char} (h : TypeReference.continuesName c = true) :
    isBlank c = false := by
  rw [← Bool.not_eq_true]
  intro hblank
  simp [not_continuesName_of_isBlank hblank] at h

/-- Where nothing is trimmed at the beginning, a text is trimmed at its end. -/
theorem Text.trim_of_first {p : Char → Bool} {t : Text} (h : ∀ c ∈ t.head?, p c = false) :
    trim p t = trimEnd p t := by
  cases t with
  | nil => rfl
  | cons c t => rw [trim, List.dropWhile_cons_of_neg (by simp [h c rfl])]

/-- Behind a text that ends with a character of a name, only what follows is trimmed. -/
theorem Text.trimEnd_append_of_last {front : Text}
    (h : ∃ init c, front = init ++ [c] ∧ TypeReference.continuesName c = true) (behind : Text) :
    trimEnd isBlank (front ++ behind) = front ++ trimEnd isBlank behind := by
  obtain ⟨init, c, rfl, hc⟩ := h
  exact trimEnd_append (isBlank_of_continuesName hc) behind

theorem Text.exists_last_of_isAsciiName {name : Text} (h : isAsciiName name = true) :
    ∃ init c, name = init ++ [c] ∧ TypeReference.continuesName c = true := by
  obtain ⟨c, rest, rfl, hstarts, hcontinues⟩ := exists_of_isAsciiName h
  rcases List.eq_nil_or_concat rest with rfl | ⟨inner, d, rfl⟩
  · exact ⟨[], c, rfl, continuesName_of_startsName hstarts⟩
  · exact ⟨c :: inner, d, by simp, hcontinues d (by simp)⟩

theorem TypeReference.EndsName.trimEnd {t : Text} (h : EndsName t) (p : Char → Bool) :
    EndsName (Text.trimEnd p t) := by
  intro c hc
  obtain ⟨rest, hrest⟩ := trimEnd_prefix p t
  obtain ⟨u, hu⟩ := List.head?_eq_some_iff.mp hc
  exact h c (by rw [← hrest, hu]; rfl)

/-! ## ASCII sources -/

/-- What is malformed begins with no letter. -/
theorem Token.Reads.not_startsName {c : Char} {t : Text} {r : Reading} (h : Reads c t r)
    (hkind : r.kind = .malformed) : startsName c = false := by
  cases h with
  | string quote => rcases quote with rfl | rfl <;> decide
  | template quote =>
    obtain rfl := quote
    decide
  | number => simp [numberReading, Reading.plain] at hkind
  | word =>
    obtain ⟨kind, hname, hword⟩ := wordReading_eq_plain c t
    rw [hword] at hkind
    obtain rfl : kind = .malformed := hkind
    exact absurd hname (by decide)
  | @mark kind more isMark =>
    obtain rfl : kind = .malformed := hkind
    exact absurd isMark (by decide)
  | comment opens =>
    obtain ⟨rfl, _⟩ := opens
    decide
  | unexpected strange => exact strange.2

/-- What begins with a digit is a number. -/
theorem Token.kind_of_isAsciiDigit {c : Char} (h : Text.isAsciiDigit c = true) (t : Text) :
    (Reading.ofText c t).kind = .number := by
  have hstring : c ≠ '\x22' ∧ c ≠ '\x27' ∧ c ≠ '\x60' := by
    refine ⟨?_, ?_, ?_⟩ <;>
    · rintro rfl
      exact absurd h (by decide)
  rw [Reading.ofText, if_neg (by simp [hstring]), if_neg hstring.2.2,
    if_pos (by simp [opensNumber, h])]
  rfl

/-- What is malformed begins with no word character that is ASCII. -/
theorem Token.not_word_of_malformed {c : Char} {t : Text} (hascii : c.toNat < 0x80)
    (h : (Reading.ofText c t).kind = .malformed) : Text.isWordCharacter c = false := by
  have hlow : (decide (0x80 ≤ c.toNat)) = false := decide_eq_false (by omega)
  have hdigit : Text.isAsciiDigit c = false := by
    rw [← Bool.not_eq_true]
    intro hdigit
    simp [kind_of_isAsciiDigit hdigit] at h
  have hstarts := (Reading.reads c t).not_startsName h
  simp only [startsName, Text.isLetter, hlow, Bool.false_and, Bool.or_false, Bool.or_eq_false_iff,
    decide_eq_false_iff_not] at hstarts
  simp [Text.isWordCharacter, Text.isLetter, Text.isDigit, hlow, hdigit, hstarts]

/-- A token does not begin with a blank. -/
theorem Token.ReadsFront.not_isBlank {offset : Nat} {t behind : Text} {tok : Token}
    (h : Token.ReadsFront offset t tok behind) : ∀ c ∈ tok.text.head?, Text.isBlank c = false := by
  intro c hc
  have hdrop := gapSize_drop t
  rw [h.gap, h.source, List.drop_left] at hdrop
  obtain ⟨w, htext⟩ := List.head?_eq_some_iff.mp hc
  rw [htext] at hdrop
  rw [← Bool.not_eq_true]
  intro hblank
  rw [List.cons_append, gapSize_of_blank hblank] at hdrop
  omega

namespace SourceFile

/-- The names that a file imports and declares are ASCII identifiers, and the modules that its
markers name, the file itself among them, are not empty, have no quote and do not begin with a
closing bracket. -/
structure HasUsualBindings (f : SourceFile) : Prop where
  imported : ∀ entry ∈ f.imports,
    Text.isAsciiName entry.1 = true ∧ Text.isAsciiName entry.2.name = true
  declared : ∀ site ∈ f.sites, Text.isAsciiName site.name = true
  modules : ∀ source ∈ f.path.text :: f.imports.map (·.2.source),
    source ≠ [] ∧ '\x22' ∉ source ∧ source.head? ≠ some ')'

/-- The occurrences between two positions. -/
def range (f : SourceFile) (first last : Nat) : List Occurrence :=
  (f.occurrences.take last).drop first

theorem exists_range (f : SourceFile) (first last : Nat) :
    ∃ before others, f.occurrences = before ++ (f.range first last ++ others) := by
  refine ⟨(f.occurrences.take last).take first, f.occurrences.drop last, ?_⟩
  rw [range, ← List.append_assoc, List.take_append_drop, List.take_append_drop]

section

variable {f : SourceFile} {source : Text}

/-- What a marker says comes from an import or from a declaration of the file. -/
theorem HasUsualBindings.of_reference? (h : f.HasUsualBindings) {o : Occurrence}
    {r : TypeReference} (href : f.reference? o = some r) :
    (Text.isAsciiName o.token.value = true ∧ Text.isAsciiName r.name = true) ∧
      r.source ≠ [] ∧ '\x22' ∉ r.source ∧ r.source.head? ≠ some ')' := by
  unfold reference? at href
  split at href
  case isFalse => simp at href
  cases himport : f.imports.find? o.token.value with
  | some r' =>
    simp only [himport, Option.some.injEq] at href
    subst href
    obtain ⟨name, hname, hmem⟩ := Table.mem_of_find? himport
    obtain rfl := eq_of_beq hname
    exact ⟨h.imported _ hmem,
      h.modules _ (List.mem_cons_of_mem _ (List.mem_map_of_mem (f := (·.2.source)) hmem))⟩
  | none =>
    simp only [himport] at href
    split at href
    · next hsite =>
      obtain rfl := Option.some.inj href
      obtain ⟨site, hmem, hname⟩ := List.any_eq_true.mp hsite
      have hdeclared := h.declared site hmem
      rw [of_decide_eq_true hname] at hdeclared
      exact ⟨⟨hdeclared, hdeclared⟩, h.modules _ List.mem_cons_self⟩
    · simp at href

/-- An occurrence of a source with what it was read from. -/
theorem IsOf.exists_reading (hf : f.IsOf source) {o : Occurrence} (ho : o ∈ f.occurrences) :
    o.kind = .ending ∧ o.token.text = [] ∨
      ∃ offset t behind, Token.ReadsFront offset t o.token behind ∧ o.token.text <:+: source := by
  obtain ⟨before, after, hsplit⟩ := List.append_of_mem ho
  obtain ⟨behind, hstands, ⟨hending, _⟩ | ⟨hreads, _⟩⟩ :=
    Token.exists_standsBetween (hf.tokens_of_split hsplit)
  · left
    rw [Occurrence.kind, hending]
    exact ⟨rfl, rfl⟩
  · right
    refine ⟨_, _, _, hreads, Token.written (before.map Occurrence.token) ++ o.token.gap, behind, ?_⟩
    rw [hstands.split]
    simp

/-- In an ASCII source with usual bindings nothing can disturb a marker. -/
theorem HasUsualBindings.hasPlainNames (h : f.HasUsualBindings) (hf : f.IsOf source)
    (hascii : ∀ c ∈ source, c.toNat < 0x80) : f.HasPlainNames f.occurrences where
  usual o ho r href := by
    obtain ⟨⟨hvalue, hname⟩, hne, hquote, _⟩ := h.of_reference? href
    have hkind := (hf.kind_of_reference? ho href).2
    refine ⟨⟨?_, hname⟩, hne, hquote⟩
    obtain ⟨hending, _⟩ | ⟨offset, t, behind, hreads, _⟩ := hf.exists_reading ho
    · simp [hending] at hkind
    · obtain ⟨c, w, htext, _, hread, hread'⟩ := hreads.reading
      have hkind' : (Token.Reading.ofText c (w ++ behind)).kind = .identifier :=
        hread.symm.trans hkind
      rw [(Token.Reading.reads c (w ++ behind)).value_eq_none (by simp [hkind'])
        (by simp [hkind']) (by simp [hkind'])] at hread'
      rw [show o.token.value = o.token.text from hread'] at hvalue
      exact hvalue
  modules o ho r href := by
    obtain ⟨_, _, _, hhead⟩ := h.of_reference? href
    rintro ⟨rest, hrest⟩
    rw [← hrest] at hhead
    exact hhead rfl
  words o ho hkind := by
    intro c hc
    obtain ⟨hending, _⟩ | ⟨offset, t, behind, hreads, hpart⟩ := hf.exists_reading ho
    · simp [hending] at hkind
    · obtain ⟨d, w, htext, _, hread, _⟩ := hreads.reading
      rw [htext] at hc hpart
      obtain rfl := Option.some.inj hc
      exact Token.not_word_of_malformed (hascii d (hpart.subset List.mem_cons_self))
        (hread.symm.trans hkind)

/-! ## One occurrence after another -/

/-- The texts of the occurrences that are written as markers. -/
def originals (f : SourceFile) (os : List Occurrence) : List Text :=
  (os.filter fun o => (f.reference? o).isSome).map fun o => o.token.text

/-- Where the source has a text and occurrences behind it, the text of both without the blanks at
its end has the markers of the occurrences, and their texts in place of the markers make up the
source text again. -/
def Decodes (f : SourceFile) (source : Text) (os : List Occurrence) : Prop :=
  ∀ front, front ++ Token.written (os.map Occurrence.token) <:+: source →
    find (Text.trimEnd Text.isBlank (front ++ f.shownBehind os)) = os.filterMap f.reference? ∧
      replace (f.originals os) (Text.trimEnd Text.isBlank (front ++ f.shownBehind os)) =
        Text.trimEnd Text.isBlank (front ++ Token.written (os.map Occurrence.token))

theorem decodes_nil (hcall : ¬ call <:+: source) : f.Decodes source [] := by
  intro front hfront
  have hshown : f.shownBehind [] = [] := rfl
  have hwritten : Token.written (([] : List Occurrence).map Occurrence.token) = [] := rfl
  rw [hwritten, List.append_nil] at hfront ⊢
  rw [hshown, List.append_nil]
  have hprefix := trimEnd_prefix Text.isBlank front
  have htrimmed := hprefix.isInfix.trans hfront
  exact find_of_no_call (fun h => hcall (h.trans htrimmed)) _

/-- A marker between a text of the source and what is trimmed behind it is the first one. -/
theorem read_marker {r : TypeReference} {front behind : Text} (hr : r.IsReadable)
    (hfront : ¬ call <:+: front) (hends : EndsName behind) (original : Text) (texts : List Text) :
    find (Text.trimEnd Text.isBlank (front ++ (r.marker ++ behind))) =
        r :: find (Text.trimEnd Text.isBlank behind) ∧
      replace (original :: texts) (Text.trimEnd Text.isBlank (front ++ (r.marker ++ behind))) =
        front ++ (original ++ replace texts (Text.trimEnd Text.isBlank behind)) := by
  have hlast : ∃ init c, front ++ r.marker = init ++ [c] ∧ continuesName c = true := by
    obtain ⟨init, c, hmarker, hc⟩ := hr.exists_last
    exact ⟨front ++ init, c, by rw [hmarker, List.append_assoc], hc⟩
  rw [← List.append_assoc, Text.trimEnd_append_of_last hlast, List.append_assoc]
  have hends' := hends.trimEnd Text.isBlank
  obtain ⟨hfind, hreplace⟩ := find_append_of_no_call hfront
    (head?_marker r (Text.trimEnd Text.isBlank behind)) (original :: texts)
  exact ⟨hfind.trans (find_marker hr hends'),
    hreplace.trans (congrArg (front ++ ·) (replace_marker hr hends' original texts))⟩

/-- An occurrence behind a text of the source: its marker is the next one to be found, or else its
text belongs to the text in front of what follows. -/
theorem Decodes.occurrence (hf : f.IsOf source) (hplain : f.HasPlainNames f.occurrences)
    (hcall : ¬ call <:+: source) {before os others : List Occurrence} {o : Occurrence}
    (h : f.occurrences = before ++ o :: (os ++ others)) (hos : f.Decodes source os) {front : Text}
    (hfront : front ++ (o.token.text ++ Token.written (os.map Occurrence.token)) <:+: source) :
    find (Text.trimEnd Text.isBlank (front ++ (f.shown o ++ f.shownBehind os))) =
        (o :: os).filterMap f.reference? ∧
      replace (f.originals (o :: os))
          (Text.trimEnd Text.isBlank (front ++ (f.shown o ++ f.shownBehind os))) =
        Text.trimEnd Text.isBlank
          (front ++ (o.token.text ++ Token.written (os.map Occurrence.token))) := by
  have ho : o ∈ f.occurrences := by
    rw [h]
    simp
  cases href : f.reference? o with
  | none =>
    have hshown : f.shown o = o.token.text := by rw [shown, href]
    have horiginals : f.originals (o :: os) = f.originals os := by simp [originals, href]
    rw [hshown, horiginals, List.filterMap_cons_none href, ← List.append_assoc,
      ← List.append_assoc]
    rw [← List.append_assoc] at hfront
    exact hos _ hfront
  | some r =>
    have hshown : f.shown o = r.marker := by rw [shown, href]
    have horiginals : f.originals (o :: os) = o.token.text :: f.originals os := by
      simp [originals, href]
    have hpart : ¬ call <:+: front := fun hmem => hcall (hmem.trans
      ((List.prefix_append _ _).isInfix.trans hfront))
    have hrest : Token.written (os.map Occurrence.token) <:+: source :=
      ((List.suffix_append _ _).trans (List.suffix_append _ _)).isInfix.trans hfront
    have hends := hf.endsName_shownBehind h (hf.kind_of_reference? ho href).2
      (hplain.of_subset fun u hu => by rw [h]; simp [hu])
    obtain ⟨hfind, hreplace⟩ := read_marker (hplain.isReadable ho href) hpart hends o.token.text
      (f.originals os)
    obtain ⟨hfind', hreplace'⟩ := hos [] hrest
    rw [List.nil_append] at hfind' hreplace'
    have htext : ∃ init c, front ++ o.token.text = init ++ [c] ∧ continuesName c = true := by
      obtain ⟨init, c, htext, hc⟩ := Text.exists_last_of_isAsciiName (hplain.usual o ho r href).1.1
      exact ⟨front ++ init, c, by rw [htext, List.append_assoc], hc⟩
    refine ⟨?_, ?_⟩
    · rw [hshown, hfind, hfind', List.filterMap_cons_some href]
    · rw [hshown, horiginals, hreplace, hreplace', List.nil_append, ← List.append_assoc,
        ← List.append_assoc, Text.trimEnd_append_of_last htext]

/-- Whatever occurrences stand one behind another, their markers are read back. -/
theorem IsOf.decodes (hf : f.IsOf source) (hplain : f.HasPlainNames f.occurrences)
    (hcall : ¬ call <:+: source) {before os others : List Occurrence}
    (h : f.occurrences = before ++ (os ++ others)) : f.Decodes source os := by
  induction os generalizing before with
  | nil => exact decodes_nil hcall
  | cons o os ih =>
    have hbehind : f.occurrences = (before ++ [o]) ++ (os ++ others) := by
      rw [h]
      simp
    have hos : f.Decodes source os := ih hbehind
    intro front hfront
    have hwritten : Token.written ((o :: os).map Occurrence.token) =
        o.token.gap ++ (o.token.text ++ Token.written (os.map Occurrence.token)) := by
      simp [Token.written, Token.source]
    have hshown : f.shownBehind (o :: os) = o.token.gap ++ (f.shown o ++ f.shownBehind os) := by
      simp [shownBehind]
    rw [hwritten, ← List.append_assoc] at hfront ⊢
    rw [hshown, ← List.append_assoc]
    exact hos.occurrence hf hplain hcall h hfront

/-! ## Ranges -/

/-- The bytes from the first to the last of some occurrences. -/
def spanOf (os : List Occurrence) : Span :=
  ⟨(os.head?.map fun o => o.token.start).getD 0, (os.getLast?.map fun o => o.token.stop).getD 0⟩

/-- What the source has between the first and the last of some occurrences is their texts with what
stands between them. -/
theorem IsOf.slice_spanOf (hf : f.IsOf source) {before os others : List Occurrence}
    (h : f.occurrences = before ++ (os ++ others)) :
    (spanOf os).slice source = Token.joined (os.map Occurrence.token) := by
  cases os with
  | nil => exact Text.slice_between [] [] source
  | cons o os =>
    have htokens : Token.ofText source = before.map Occurrence.token ++
        (o.token :: os.map Occurrence.token ++ others.map Occurrence.token) := by
      rw [hf.tokens_of_split h]
      simp
    have hspan : spanOf (o :: os) = ⟨o.token.start, Token.endOf (before.map Occurrence.token ++
        o.token :: os.map Occurrence.token)⟩ := by
      rw [Token.endOf, ← List.map_cons, List.getLast?_append_of_ne_nil _ (by simp),
        List.getLast?_map, Option.map_map]
      rfl
    rw [hspan]
    exact Token.slice_joined htokens

/-- What is shown for an occurrence does not begin with a blank. -/
theorem IsOf.shown_not_isBlank (hf : f.IsOf source) {o : Occurrence} (ho : o ∈ f.occurrences) :
    (∀ c ∈ o.token.text.head?, Text.isBlank c = false) ∧
      ∀ c ∈ (f.shown o).head?, Text.isBlank c = false := by
  have htext : ∀ c ∈ o.token.text.head?, Text.isBlank c = false := by
    obtain ⟨_, hnil⟩ | ⟨offset, t, behind, hreads, _⟩ := hf.exists_reading ho
    · simp [hnil]
    · exact hreads.not_isBlank
  refine ⟨htext, ?_⟩
  cases href : f.reference? o with
  | none => rwa [shown, href]
  | some r =>
    rw [shown, href]
    intro c hc
    rw [head?_marker r [] c (by simpa using hc)]
    decide

/-- At its beginning the text of a range has nothing to trim, marked or not. -/
theorem IsOf.trimBlanks_eq (hf : f.IsOf source) {before os others : List Occurrence}
    {o : Occurrence} (h : f.occurrences = before ++ o :: (os ++ others)) :
    f.marked (o :: os) = Text.trimEnd Text.isBlank (f.shown o ++ f.shownBehind os) ∧
      Text.trimBlanks (Token.joined ((o :: os).map Occurrence.token)) = Text.trimEnd Text.isBlank
        (o.token.text ++ Token.written (os.map Occurrence.token)) := by
  obtain ⟨htext, hshown⟩ := hf.shown_not_isBlank (o := o) (by rw [h]; simp)
  rw [marked_eq]
  obtain ⟨hnil, hlast⟩ | ⟨hne, _⟩ := Token.borders_of_split (hf.tokens_of_split h)
  · obtain ⟨rfl, _⟩ := List.append_eq_nil_iff.mp (List.map_eq_nil_iff.mp hlast)
    refine ⟨Text.trim_of_first fun c hc => hshown c ?_, Text.trim_of_first fun c hc => htext c ?_⟩
    · simpa [shownText, shownBehind] using hc
    · simpa [Token.joined] using hc
  · have hne' : f.shown o ≠ [] := by
      cases href : f.reference? o with
      | none => rwa [shown, href]
      | some r =>
        rw [shown, href]
        exact r.marker_ne_nil
    refine ⟨Text.trim_of_first fun c hc => hshown c ?_, Text.trim_of_first fun c hc => htext c ?_⟩
    · rwa [shownText, List.head?_append_of_ne_nil _ hne'] at hc
    · rwa [List.map_cons, Token.joined, List.head?_append_of_ne_nil _ hne] at hc

end

/-- In every range of an ASCII source without an import call the markers that are found are exactly
those of the known names, in order, and with the names in their places the text is the source text
of the range without the blanks around it. -/
theorem marked_ranges_are_decoded (home : Place) (path : Path) (source : Text)
    (hascii : ∀ c ∈ source, c.toNat < 0x80) (hcall : ¬ call <:+: source)
    (hnames : (ofText home path source).HasUsualBindings) (first last : Nat) :
    let f := ofText home path source
    let range := f.range first last
    find (f.marked range) = range.filterMap f.reference? ∧
      replace (f.originals range) (f.marked range) =
        Text.trimBlanks ((spanOf range).slice source) := by
  intro f range
  have hf : f.IsOf source := isOf_ofText home path source
  have hplain : f.HasPlainNames f.occurrences := hnames.hasPlainNames hf hascii
  obtain ⟨before, others, hsplit⟩ := f.exists_range first last
  change f.occurrences = before ++ (range ++ others) at hsplit
  rw [hf.slice_spanOf hsplit]
  clear_value range
  cases range with
  | nil => exact ⟨rfl, rfl⟩
  | cons o os =>
    obtain ⟨hmarked, htext⟩ := hf.trimBlanks_eq hsplit
    have hbehind : f.occurrences = (before ++ [o]) ++ (os ++ others) := by
      rw [hsplit]
      simp
    have hos : f.Decodes source os := hf.decodes hplain hcall hbehind
    have hfront : [] ++ (o.token.text ++ Token.written (os.map Occurrence.token)) <:+: source := by
      refine ⟨Token.written (before.map Occurrence.token) ++ o.token.gap,
        Token.written (others.map Occurrence.token), ?_⟩
      have hsource := Token.flatten_source 0 source
      change Token.written (Token.ofText source) = source at hsource
      rw [hf.tokens_of_split hsplit] at hsource
      conv_rhs => rw [← hsource]
      simp [Token.written, Token.source]
    rw [hmarked, htext]
    exact hos.occurrence hf hplain hcall hsplit hfront

/-- A source whose alias mentions a renamed import and itself. -/
def markedSource : Text := "import \x7b B as C \x7d from 'm';\ntype D = C<D.x, D>;".toList

theorem marked_alias_is_decoded : let f := ofText [] (.ofString "/a") markedSource
    let range := f.range 8 20
    f.HasUsualBindings ∧ find (f.marked range) = range.filterMap f.reference? ∧
      range.filterMap f.reference? =
        [⟨"/a".toList, "D".toList⟩, ⟨"m".toList, "B".toList⟩, ⟨"/a".toList, "D".toList⟩] ∧
      replace (f.originals range) (f.marked range) =
        Text.trimBlanks ((spanOf range).slice markedSource) := by
  have hnames : (ofText [] (.ofString "/a") markedSource).HasUsualBindings :=
    ⟨by decide +kernel, by decide +kernel, by decide +kernel⟩
  have hall : markedSource.all (fun c => decide (c.toNat < 0x80)) = true := by decide +kernel
  have hascii : ∀ c ∈ markedSource, c.toNat < 0x80 := fun c hc =>
    of_decide_eq_true (List.all_eq_true.mp hall c hc)
  have hdecoded := marked_ranges_are_decoded [] (.ofString "/a") markedSource hascii
    (by decide +kernel) hnames 8 20
  exact ⟨hnames, hdecoded.1, by decide +kernel, hdecoded.2⟩

end SourceFile

end TypeInliner
