import TypeInliner.Proofs.DescribedTypes
import TypeInliner.Proofs.ReferenceMarkers
import TypeInliner.Proofs.TokenBorders

/-! # Declarations report the types they mention

The text of a described type is its source text with markers in place of known names, and the
references of a declaration are found in these texts. No marker is lost in between: what stands
right in front of a name and right behind it in the source cannot be taken for a part of its marker
or of another one. So every known name behind the name of a declaration is reported, unless it
stands in the heading or in the head of a member, which are not described, or in a line that is
taken for another member than the one whose type goes on there. -/

namespace TypeInliner

/-- An ASCII letter, an underscore or a dollar sign, and then also digits. -/
def Text.isAsciiName : Text → Bool
  | [] => false
  | c :: rest =>
    TypeReference.startsName c &&
      rest.all fun d => TypeReference.startsName d || Text.isAsciiDigit d

theorem Text.exists_of_isAsciiName {name : Text} (h : isAsciiName name = true) :
    ∃ c rest, name = c :: rest ∧ TypeReference.startsName c = true ∧
      ∀ d ∈ rest, TypeReference.continuesName d = true := by
  cases name with
  | nil => simp [isAsciiName] at h
  | cons c rest =>
    simp only [isAsciiName, Bool.and_eq_true, List.all_eq_true, Bool.or_eq_true] at h
    refine ⟨c, rest, rfl, h.1, fun d hd => ?_⟩
    rcases h.2 d hd with hstarts | hdigit
    · exact TypeReference.continuesName_of_startsName hstarts
    · exact TypeReference.continuesName_of_isAsciiDigit hdigit

/-! ## Occurrences of a source -/

namespace Occurrence

theorem map_token_ofTokensAfter (before : Option Kind) (tokens : List Token) :
    (ofTokensAfter before tokens).map token = tokens := by
  induction tokens generalizing before with
  | nil => rfl
  | cons t rest ih => rw [ofTokensAfter, List.map_cons, ih]

theorem kind_of_free {before : Option Kind} {tokens : List Token} {o : Occurrence}
    (h : o ∈ ofTokensAfter before tokens) (hfree : o.free = true) : o.kind = .identifier := by
  induction tokens generalizing before with
  | nil => simp [ofTokensAfter] at h
  | cons t rest ih =>
    rcases List.mem_cons.mp h with rfl | h
    · simp only [isFree, Bool.and_eq_true, decide_eq_true_eq] at hfree
      exact hfree.1.1.1.1
    · exact ih h

/-- No dot stands in front of a free name. -/
theorem kind_ne_dot {before : Option Kind} {tokens : List Token} {front behind : List Occurrence}
    {p o : Occurrence} (h : ofTokensAfter before tokens = front ++ p :: o :: behind)
    (hfree : o.free = true) : p.kind ≠ .dot := by
  induction front generalizing before tokens with
  | nil =>
    cases tokens with
    | nil => simp [ofTokensAfter] at h
    | cons t tokens =>
      cases tokens with
      | nil => simp [ofTokensAfter] at h
      | cons u tokens =>
        simp only [ofTokensAfter, List.nil_append, List.cons.injEq] at h
        obtain ⟨rfl, rfl, _⟩ := h
        simp only [isFree, Bool.and_eq_true, decide_eq_true_eq] at hfree
        intro hdot
        exact hfree.1.1.1.2 (congrArg some hdot)
  | cons q front ih =>
    cases tokens with
    | nil => simp [ofTokensAfter] at h
    | cons t tokens => exact ih (List.cons.inj h).2

end Occurrence

namespace SourceFile

/-- The occurrences of a file are those of a source. -/
def IsOf (f : SourceFile) (source : Text) : Prop :=
  f.occurrences = Occurrence.ofTokens (Token.ofText source)

theorem isOf_ofText (home : Place) (path : Path) (source : Text) :
    (ofText home path source).IsOf source := rfl

section

variable {f : SourceFile} {source : Text}

theorem IsOf.tokens_of_split (hf : f.IsOf source) {front behind : List Occurrence} {o : Occurrence}
    (h : f.occurrences = front ++ o :: behind) :
    Token.ofText source =
      front.map Occurrence.token ++ o.token :: behind.map Occurrence.token := by
  have hmap := congrArg (List.map Occurrence.token) (hf.symm.trans h)
  rwa [Occurrence.ofTokens, Occurrence.map_token_ofTokensAfter, List.map_append, List.map_cons]
    at hmap

/-- A known name is an identifier that stands alone. -/
theorem IsOf.kind_of_reference? (hf : f.IsOf source) {o : Occurrence} (ho : o ∈ f.occurrences)
    {r : TypeReference} (h : f.reference? o = some r) : o.free = true ∧ o.kind = .identifier := by
  unfold reference? at h
  split at h
  · next hfree =>
    rw [hf] at ho
    exact ⟨hfree, Occurrence.kind_of_free ho hfree⟩
  · simp at h

/-- Everything but identifiers is shown as it is written. -/
theorem IsOf.shown_eq_text (hf : f.IsOf source) {o : Occurrence} (ho : o ∈ f.occurrences)
    (hkind : o.kind ≠ .identifier) : f.shown o = o.token.text := by
  cases href : f.reference? o with
  | none => simp [shown, href]
  | some r => exact absurd (hf.kind_of_reference? ho href).2 hkind

end

/-! ## The text of a type -/

section

variable (f : SourceFile)

/-- The source text of occurrences with their gaps and with markers. -/
def shownBehind (os : List Occurrence) : Text :=
  (os.map fun o => o.token.gap ++ f.shown o).flatten

/-- The same without the gap in front of the first one. -/
def shownText : List Occurrence → Text
  | [] => []
  | o :: rest => f.shown o ++ f.shownBehind rest

/-- What stands in front of an occurrence in a text that begins with others. -/
def shownFront : List Occurrence → Occurrence → Text
  | [], _ => []
  | p :: front, o => f.shownText (p :: front) ++ o.token.gap

theorem marked_eq (os : List Occurrence) : f.marked os = Text.trimBlanks (f.shownText os) := by
  cases os <;> rfl

theorem shownBehind_append (os us : List Occurrence) :
    f.shownBehind (os ++ us) = f.shownBehind os ++ f.shownBehind us := by
  simp [shownBehind]

theorem shownText_split (front behind : List Occurrence) (o : Occurrence) :
    f.shownText (front ++ o :: behind) =
      f.shownFront front o ++ (f.shown o ++ f.shownBehind behind) := by
  cases front with
  | nil => rfl
  | cons p front =>
    rw [List.cons_append, shownText, shownBehind_append, shownFront, shownText]
    simp [shownBehind]

theorem shownFront_concat (front : List Occurrence) (p o : Occurrence) :
    f.shownFront (front ++ [p]) o = f.shownFront front p ++ f.shown p ++ o.token.gap := by
  have htext : f.shownText (front ++ [p]) = f.shownFront front p ++ f.shown p := by
    rw [shownText_split]
    simp [shownBehind]
  rw [← htext]
  cases front <;> rfl

end

/-! ## What surrounds a marker -/

/-- Known names and the names of their types are ASCII identifiers, and the modules of these are not
empty and have no quote. -/
def HasUsualNames (f : SourceFile) (os : List Occurrence) : Prop :=
  ∀ o ∈ os, ∀ r ∈ f.reference? o,
    (Text.isAsciiName o.token.text = true ∧ Text.isAsciiName r.name = true) ∧
      r.source ≠ [] ∧ '\x22' ∉ r.source

instance (f : SourceFile) (os : List Occurrence) : Decidable (f.HasUsualNames os) :=
  inferInstanceAs (Decidable (∀ o ∈ os, ∀ r ∈ f.reference? o, _))

/-- Besides, no module begins like the text behind the module of a marker, and no word character
stands where no token can begin. -/
structure HasPlainNames (f : SourceFile) (os : List Occurrence) : Prop where
  usual : f.HasUsualNames os
  modules : ∀ o ∈ os, ∀ r ∈ f.reference? o, ¬ [')', '.'] <+: r.source
  words : ∀ o ∈ os, o.kind = .malformed → ∀ c ∈ o.token.text.head?, Text.isWordCharacter c = false

theorem HasPlainNames.of_subset {f : SourceFile} {os us : List Occurrence}
    (h : f.HasPlainNames os) (hsub : ∀ o ∈ us, o ∈ os) : f.HasPlainNames us where
  usual o ho := h.usual o (hsub o ho)
  modules o ho := h.modules o (hsub o ho)
  words o ho := h.words o (hsub o ho)

section

variable {f : SourceFile} {source : Text}

open TypeReference

theorem HasPlainNames.isReadable {os : List Occurrence} (h : f.HasPlainNames os) {o : Occurrence}
    (ho : o ∈ os) {r : TypeReference} (href : f.reference? o = some r) : r.IsReadable where
  source_ne_nil := (h.usual o ho r href).2.1
  no_quote := (h.usual o ho r href).2.2
  name := Text.exists_of_isAsciiName (h.usual o ho r href).1.2

/-- Names that begin in the sense of patterns go on as tokens do. -/
theorem token_continuesName {c : Char} (h : startsName c = true) :
    Token.continuesName c = true ∧ (Token.isDigitLike c = true ∨ c = '$') := by
  simp only [startsName, Bool.or_eq_true, decide_eq_true_eq] at h
  rcases h with (hletter | rfl) | rfl
  · simp [Token.continuesName, Token.isDigitLike, Text.isLetterOrNumeral, Text.isLetter, hletter]
  · decide
  · decide

theorem continuesName_of_word {c : Char} (hword : Text.isWordCharacter c = false)
    (hdollar : c ≠ '$') : continuesName c = false := by
  simp [continuesName, hword, hdollar]

theorem not_continuesName_of_gap {c : Char} (h : Text.isBlank c = true ∨ c = '/') :
    continuesName c = false := by
  rcases h with h | rfl
  · exact not_continuesName_of_isBlank h
  · decide

/-- A character that does not continue a word token does not continue a name, unless a word
character stands where no token can begin. -/
theorem not_continuesName_of_first {t : Token} {behind : Text} (h : t.Borders behind)
    {c : Char} (hc : c ∈ t.text.head?) (hstops : Token.continuesName c = false)
    (hword : t.kind = .malformed → Text.isWordCharacter c = false) : continuesName c = false := by
  have hmalformed (hkind : t.kind = .malformed) : continuesName c = false := by
    refine continuesName_of_word (hword hkind) ?_
    rintro rfl
    exact absurd hstops (by decide)
  cases h with
  | word named starts =>
    rcases Token.startsName_cases (starts c hc) with rfl | hcontinues
    · decide
    · simp [hstops] at hcontinues
  | number kind starts =>
    rcases starts c hc with hdigit | rfl
    · simp [Token.continuesName_of_isAsciiDigit hdigit] at hstops
    · decide
  | literal kind starts => exact Token.not_word_of_symbol (Or.inr (starts c hc))
  | mark isMark symbols =>
    exact Token.not_word_of_symbol (Or.inl (symbols c (List.mem_of_mem_head? hc)))
  | unfinished kind => exact hmalformed kind
  | unexpected kind => exact hmalformed kind

theorem stops_of_identifier {t : Token} {behind : Text} (h : t.Borders behind)
    (hkind : t.kind = .identifier) : ∀ c ∈ behind.head?, Token.continuesName c = false := by
  cases h with
  | word _ _ stops => exact stops
  | number kind => simp [hkind] at kind
  | literal kind => simp [hkind] at kind
  | mark isMark => simp [hkind, Kind.isMark] at isMark
  | unfinished kind => simp [hkind] at kind
  | unexpected kind => simp [hkind] at kind

/-- A known name is written with an ASCII letter, an underscore or a dollar sign first. -/
theorem HasPlainNames.exists_first {os : List Occurrence} (h : f.HasPlainNames os) {o : Occurrence}
    (ho : o ∈ os) {r : TypeReference} (href : f.reference? o = some r) :
    ∃ c rest, o.token.text = c :: rest ∧ startsName c = true := by
  obtain ⟨c, rest, htext, hstarts, _⟩ := Text.exists_of_isAsciiName (h.usual o ho r href).1.1
  exact ⟨c, rest, htext, hstarts⟩

/-- A token whose first character does not continue a word is shown as it is written, and this
character does not continue a name. -/
theorem HasPlainNames.shown_of_stops {os : List Occurrence} (h : f.HasPlainNames os)
    {u : Occurrence} (hu : u ∈ os) {behind rest : Text} {d : Char}
    (hborders : u.token.Borders behind) (htext : u.token.text = d :: rest)
    (hstops : Token.continuesName d = false) :
    f.shown u = d :: rest ∧ continuesName d = false := by
  cases href : f.reference? u with
  | some r =>
    obtain ⟨e, rest', htext', hstarts⟩ := h.exists_first hu href
    obtain ⟨rfl, _⟩ := List.cons.inj (htext.symm.trans htext')
    rw [(token_continuesName hstarts).1] at hstops
    simp at hstops
  | none =>
    rw [shown, href]
    refine ⟨htext, not_continuesName_of_first hborders (by rw [htext]; rfl) hstops fun hkind => ?_⟩
    exact h.words u hu hkind d (by rw [htext]; rfl)

theorem HasPlainNames.shown_of_nil {os : List Occurrence} (h : f.HasPlainNames os)
    {u : Occurrence} (hu : u ∈ os) (htext : u.token.text = []) : f.shown u = [] := by
  cases href : f.reference? u with
  | some r =>
    obtain ⟨d, rest, hfirst, _⟩ := h.exists_first hu href
    simp [htext] at hfirst
  | none => simp [shown, href, htext]

/-- What is shown behind an identifier does not continue a name. -/
theorem IsOf.endsName_shownBehind (hf : f.IsOf source) {front right others : List Occurrence}
    {o : Occurrence} (h : f.occurrences = front ++ o :: (right ++ others))
    (hkind : o.kind = .identifier) (hplain : f.HasPlainNames right) :
    EndsName (f.shownBehind right) := by
  cases right with
  | nil => simp [EndsName, shownBehind]
  | cons u right =>
    have hnext : f.occurrences = (front ++ [o]) ++ u :: (right ++ others) := by
      rw [h, List.append_assoc]
      rfl
    obtain ⟨_, hnil⟩ | ⟨_, hborders⟩ := Token.borders_of_split (hf.tokens_of_split h)
    · simp at hnil
    have hstops := stops_of_identifier hborders hkind
    have hskipped := Token.skipped_of_split (hf.tokens_of_split hnext)
    intro c hc
    simp only [shownBehind, List.map_cons, List.flatten_cons] at hc
    simp only [Token.written, List.cons_append, List.map_cons, List.flatten_cons,
      Token.source] at hstops
    cases hgap : u.token.gap with
    | cons d gap =>
      rw [hgap] at hc hskipped
      obtain rfl := Option.some.inj hc
      exact not_continuesName_of_gap (hskipped.first d rfl)
    | nil =>
      rw [hgap, List.nil_append] at hc hstops
      obtain ⟨hempty, hnil⟩ | ⟨hne, hborders⟩ := Token.borders_of_split (hf.tokens_of_split hnext)
      · obtain ⟨rfl, _⟩ := List.append_eq_nil_iff.mp (List.map_eq_nil_iff.mp hnil)
        simp [hplain.shown_of_nil List.mem_cons_self hempty] at hc
      · obtain ⟨d, rest, htext⟩ := List.exists_cons_of_ne_nil hne
        have hd : Token.continuesName d = false := hstops d (by rw [htext]; rfl)
        obtain ⟨hshown, hfree⟩ := hplain.shown_of_stops List.mem_cons_self hborders htext hd
        rw [hshown] at hc
        obtain rfl := Option.some.inj hc
        exact hfree

/-- A text from whose end no name goes on: its last character does not continue a name, and it is a
dot only in an ellipsis, or else as a token of its own. -/
def IsSealed (dotted : Prop) (front : Text) : Prop :=
  ∀ c ∈ front.getLast?, continuesName c = false ∧ (c = '.' → dotted ∨ ['.', '.'] <:+ front)

theorem IsSealed.append {dotted : Prop} {text : Text} (hne : text ≠ [])
    (h : IsSealed dotted text) (front : Text) : IsSealed dotted (front ++ text) := by
  intro c hc
  rw [List.getLast?_append_of_ne_nil _ hne] at hc
  refine ⟨(h c hc).1, fun hdot => ((h c hc).2 hdot).imp_right fun hdots => ?_⟩
  exact hdots.trans (List.suffix_append front text)

theorem IsSealed.not_isOpen {dotted : Prop} {front : Text} (h : IsSealed dotted front)
    (hdotted : ¬ dotted) : ¬ IsOpen front := by
  rintro ⟨run, ⟨before, hsuffix⟩, _, hcontinues⟩
  rcases List.eq_nil_or_concat run with rfl | ⟨inner, c, rfl⟩
  · -- Two dots stand where a bracket and a dot do.
    rw [closing_eq] at hsuffix
    obtain ⟨other, hdots⟩ := ((h '.' (by simp [← hsuffix])).2 rfl).resolve_left hdotted
    have hsplit : before ++ [')'] = other ++ ['.'] := by
      have hboth : (before ++ [')']) ++ ['.'] = (other ++ ['.']) ++ ['.'] := by
        simpa using hsuffix.trans hdots.symm
      exact List.append_cancel_right hboth
    have hlast := (List.append_inj' hsplit rfl).2
    simp at hlast
  · have hc := (h c (by simp [← hsuffix])).1
    rw [hcontinues c (by simp)] at hc
    simp at hc

theorem isSealed_gap {gap text behind : Text} {c : Char} (h : Token.Skipped gap (c :: behind))
    (hc : Token.continuesName c = true) (hne : gap ≠ []) (dotted : Prop) :
    IsSealed dotted (text ++ gap) := by
  refine .append hne (fun d hd => ?_) text
  have hline : (c :: behind).head? ≠ some '\n' := by
    intro hhead
    obtain rfl := Option.some.inj hhead
    exact absurd hc (by decide)
  have hgap := h.last (List.cons_ne_nil c behind) hline d hd
  refine ⟨not_continuesName_of_gap hgap, ?_⟩
  rintro rfl
  exact absurd hgap (by decide)

/-- A token in front of a word ends so that no name goes on, or it is a number. -/
theorem isSealed_or_number {t : Token} {behind : Text} {c : Char} (h : t.Borders (c :: behind))
    (hc : Token.continuesName c = true)
    (hword : t.kind = .malformed → ∀ d ∈ t.text.head?, Text.isWordCharacter d = false) :
    IsSealed (t.kind = .dot) t.text ∧ t.kind ≠ .identifier ∨ t.kind = .number := by
  cases h with
  | word _ _ stops => simp [hc] at stops
  | number kind => exact Or.inr kind
  | literal kind _ ends =>
    refine Or.inl ⟨fun d hd => ⟨Token.not_word_of_symbol (Or.inr (ends d hd)), ?_⟩, ?_⟩
    · rintro rfl
      exact absurd (ends '.' hd) (by decide)
    · rcases kind with kind | kind <;> simp [kind]
  | mark isMark symbols dots =>
    refine Or.inl ⟨fun d hd => ?_, ?_⟩
    · have hmem := List.mem_of_mem_getLast? hd
      refine ⟨Token.not_word_of_symbol (Or.inl (symbols d hmem)), ?_⟩
      rintro rfl
      exact dots hmem
    · intro hkind
      simp [hkind, Kind.isMark] at isMark
  | unfinished _ stops =>
    obtain rfl := stops c rfl
    exact absurd hc (by decide)
  | unexpected kind single =>
    obtain ⟨d, htext, hnoDot, hstarts⟩ := single
    refine Or.inl ⟨fun e he => ?_, by simp [kind]⟩
    rw [htext] at he
    obtain rfl := Option.some.inj he
    refine ⟨continuesName_of_word (hword kind d (by rw [htext]; rfl)) ?_, fun h => absurd h hnoDot⟩
    rintro rfl
    exact absurd hstarts (by decide)

/-- What precedes a token that begins like a word: it ends so that no name goes on, or a number
stands right in front of the token. -/
theorem IsOf.shownFront_cases (hf : f.IsOf source) {before front behind : List Occurrence}
    {o : Occurrence} (h : f.occurrences = before ++ (front ++ o :: behind)) {c : Char} {rest : Text}
    (htext : o.token.text = c :: rest) (hc : Token.continuesName c = true)
    (hplain : f.HasPlainNames front) :
    IsSealed (∃ p ∈ front.getLast?, p.kind = .dot) (f.shownFront front o) ∨
      ∃ init p, front = init ++ [p] ∧ p.kind = .number ∧ p.token.text ≠ [] ∧
        p.token.Borders (c :: (rest ++ Token.written (behind.map Occurrence.token))) ∧
          o.token.gap = [] := by
  rcases List.eq_nil_or_concat front with rfl | ⟨init, p, rfl⟩
  · exact Or.inl (by simp [IsSealed, shownFront])
  rw [List.concat_eq_append] at h hplain ⊢
  have hp : f.occurrences = (before ++ init) ++ p :: (o :: behind) := by
    rw [h]
    simp
  have ho : f.occurrences = (before ++ init ++ [p]) ++ o :: behind := by
    rw [h]
    simp
  have hskipped := Token.skipped_of_split (hf.tokens_of_split ho)
  rw [htext, List.cons_append] at hskipped
  rw [shownFront_concat]
  by_cases hgap : o.token.gap = []
  · obtain ⟨_, hnil⟩ | ⟨hne, hborders⟩ := Token.borders_of_split (hf.tokens_of_split hp)
    · simp at hnil
    have hbehind : Token.written ((o :: behind).map Occurrence.token) =
        c :: (rest ++ Token.written (behind.map Occurrence.token)) := by
      simp [Token.written, Token.source, hgap, htext]
    rw [hbehind] at hborders
    rw [hgap, List.append_nil]
    rcases isSealed_or_number hborders hc (hplain.words p (by simp)) with
      ⟨hsealed, hkind⟩ | hnumber
    · left
      rw [hf.shown_eq_text (by rw [hp]; simp) hkind]
      have hdotted : (∃ q ∈ (init ++ [p]).getLast?, q.kind = .dot) ↔ p.token.kind = .dot := by
        simp [Occurrence.kind]
      rw [hdotted]
      exact hsealed.append hne _
    · exact Or.inr ⟨init, p, rfl, hnumber, hne, hborders, rfl⟩
  · exact Or.inl (isSealed_gap hskipped hc hgap _)

theorem not_startsName_of_digit {c : Char} (h : Text.isAsciiDigit c = true) :
    startsName c = false := by
  rw [← Bool.not_eq_true]
  intro hstarts
  simp only [startsName, Text.isAsciiLetter, Bool.or_eq_true, Bool.and_eq_true,
    decide_eq_true_eq] at hstarts
  have hdigit : 48 ≤ c.toNat ∧ c.toNat ≤ 57 := by
    simp only [Text.isAsciiDigit, Bool.and_eq_true, decide_eq_true_eq] at h
    exact h
  rcases hstarts with ((hlower | hupper) | rfl) | rfl
  · have hlow : 97 ≤ c.toNat := hlower.1
    omega
  · have hlow : 65 ≤ c.toNat := hupper.1
    omega
  · exact absurd h (by decide)
  · exact absurd h (by decide)

/-- Behind a dot in a number no name begins. -/
theorem not_startsName_behind_dot {run : Text} (hdigit : Token.startsWithDigit run = true)
    (hstarts : ∀ c ∈ run.head?, startsName c = true) : False := by
  cases run with
  | nil => simp [Token.startsWithDigit] at hdigit
  | cons c run =>
    have hc := hstarts c rfl
    rw [not_startsName_of_digit hdigit] at hc
    simp at hc

/-- Behind a number no name goes on that began in front of it. -/
theorem not_isOpen_number {front number : Text} (hne : number ≠ [])
    (hstarts : ∀ c ∈ number.head?, Text.isAsciiDigit c = true ∨ c = '.')
    (hdots : ∀ before behind, number = before ++ '.' :: behind →
      Token.startsWithDigit behind = true)
    (hfront : (∃ c ∈ number.head?, Text.isAsciiDigit c = true) →
      ∀ c ∈ front.getLast?, continuesName c = false) : ¬ IsOpen (front ++ number) := by
  rintro ⟨run, ⟨before, hsuffix⟩, hrun, hcontinues⟩
  rw [closing_eq] at hsuffix
  rcases List.append_eq_append_iff.mp hsuffix with ⟨inner, hinner, hnumber⟩ | ⟨inner, rfl, hnumber⟩
  · -- The name would begin in front of the number or at its first character.
    obtain ⟨d, number, rfl⟩ := List.exists_cons_of_ne_nil hne
    have hd := hstarts d rfl
    match inner, hinner, hnumber with
    | [], _, hnumber =>
      obtain ⟨rfl, _⟩ := List.cons.inj hnumber
      exact absurd hd (by decide)
    | [_], _, hnumber =>
      simp only [List.tail_cons, List.cons_append, List.nil_append, List.cons.injEq] at hnumber
      obtain ⟨_, rfl, rfl⟩ := hnumber
      exact not_startsName_behind_dot (hdots [] run rfl) hrun
    | a :: b :: inner, hinner, hnumber =>
      simp only [List.tail_cons, List.cons_append, List.nil_append, List.cons.injEq] at hnumber
      obtain ⟨_, _, rfl⟩ := hnumber
      have hdigit : Text.isAsciiDigit d = true := by
        refine hd.resolve_right ?_
        rintro rfl
        exact absurd (hcontinues '.' (by simp)) (by decide)
      rcases List.eq_nil_or_concat inner with rfl | ⟨inner, e, rfl⟩
      · have hname := hrun d rfl
        rw [not_startsName_of_digit hdigit] at hname
        simp at hname
      · have hsplit : front = (before ++ a :: b :: inner) ++ [e] := by
          rw [hinner]
          simp
        have hlast := hfront ⟨d, rfl, hdigit⟩ e (by rw [hsplit, List.getLast?_concat]; rfl)
        rw [hcontinues e (by simp)] at hlast
        simp at hlast
  · -- The name would begin behind a dot of the number.
    refine not_startsName_behind_dot (hdots (inner ++ [')']) run ?_) hrun
    rw [hnumber]
    simp

theorem number_borders {t : Token} {behind : Text} (h : t.Borders behind)
    (hkind : t.kind = .number) :
    (∀ c ∈ t.text.head?, Text.isAsciiDigit c = true ∨ c = '.') ∧
      (∀ front rest, t.text = front ++ '.' :: rest → Token.startsWithDigit rest = true) ∧
        ∀ c ∈ behind.head?, Token.isDigitLike c = false := by
  cases h with
  | word named => simp [hkind, Kind.isName, Kind.isKeyword] at named
  | number _ starts dots stops => exact ⟨starts, dots, stops⟩
  | literal kind => simp [hkind] at kind
  | mark isMark => simp [hkind, Kind.isMark] at isMark
  | unfinished kind => simp [hkind] at kind
  | unexpected kind => simp [hkind] at kind

/-- What is shown in front of a known name is not the beginning of another marker. -/
theorem IsOf.not_isOpen_shownFront (hf : f.IsOf source) {before front behind : List Occurrence}
    {o : Occurrence} {r : TypeReference} (h : f.occurrences = before ++ (front ++ o :: behind))
    (href : f.reference? o = some r) (hplain : f.HasPlainNames (front ++ [o])) :
    ¬ IsOpen (f.shownFront front o) := by
  obtain ⟨c, rest, htext, hstarts⟩ := hplain.exists_first (by simp) href
  obtain ⟨hcontinues, _⟩ := token_continuesName hstarts
  have hfree := (hf.kind_of_reference? (by rw [h]; simp) href).1
  have hfront : f.HasPlainNames front := hplain.of_subset fun p hp => List.mem_append_left _ hp
  rcases hf.shownFront_cases h htext hcontinues hfront with
    hsealed | ⟨init, p, rfl, hnumber, hne, hborders, hgap⟩
  · refine hsealed.not_isOpen ?_
    rintro ⟨p, hp, hdot⟩
    obtain ⟨init, rfl⟩ := List.getLast?_eq_some_iff.mp hp
    have hsplit : Occurrence.ofTokensAfter none (Token.ofText source) =
        (before ++ init) ++ p :: o :: behind := by
      refine hf.symm.trans (h.trans ?_)
      simp
    exact Occurrence.kind_ne_dot hsplit hfree hdot
  · have hp : f.occurrences = before ++ (init ++ p :: (o :: behind)) := by
      rw [h]
      simp
    have hshown : f.shown p = p.token.text := by
      refine hf.shown_eq_text (by rw [hp]; simp) ?_
      simp [hnumber]
    obtain ⟨hbegins, hdots, _⟩ := number_borders hborders hnumber
    rw [shownFront_concat, hshown, hgap, List.append_nil]
    refine not_isOpen_number hne hbegins hdots ?_
    rintro ⟨d, hd, hdigit⟩
    obtain ⟨w, hnumberText⟩ := List.head?_eq_some_iff.mp hd
    have hinit : f.HasPlainNames init := hfront.of_subset fun q hq => List.mem_append_left _ hq
    have hgoes := Token.continuesName_of_isAsciiDigit hdigit
    rcases hf.shownFront_cases hp hnumberText hgoes hinit with
      hsealed | ⟨_, q, _, hkind, _, hagainst, _⟩
    · exact fun e he => (hsealed e he).1
    · have hstops := (number_borders hagainst hkind).2.2 d rfl
      simp [Token.isDigitLike, hdigit] at hstops

/-- The marker of a known name is found in the text of every type that the name stands in. -/
theorem IsOf.mem_find_marked (hf : f.IsOf source) {type : List Occurrence} {o : Occurrence}
    {r : TypeReference} (htype : type <:+: f.occurrences) (ho : o ∈ type)
    (href : f.reference? o = some r) (hplain : f.HasPlainNames type) :
    r ∈ find (f.marked type) := by
  obtain ⟨before, others, hwithin⟩ := htype
  obtain ⟨front, behind, rfl⟩ := List.append_of_mem ho
  have hfront : f.occurrences = before ++ (front ++ o :: (behind ++ others)) := by
    rw [← hwithin]
    simp
  have hbehind : f.occurrences = (before ++ front) ++ o :: (behind ++ others) := by
    rw [hfront, List.append_assoc]
  have hmem : o ∈ f.occurrences := by
    rw [hfront]
    simp
  have hshown : f.shown o = r.marker := by rw [shown, href]
  rw [marked_eq, shownText_split, hshown]
  refine mem_find_trimBlanks (hplain.isReadable ho href) (hplain.modules o ho r href) ?_ ?_
  · exact hf.not_isOpen_shownFront hfront href (hplain.of_subset fun p hp => by
      rcases List.mem_append.mp hp with hp | hp
      · exact List.mem_append_left _ hp
      · simp [List.mem_singleton.mp hp])
  · exact hf.endsName_shownBehind hbehind (hf.kind_of_reference? hmem href).2
      (hplain.of_subset fun p hp => by simp [hp])

end

/-! ## Declarations -/

theorem find?_sites_accounts {home : Place} {path : Path} {source name : Text} {site : Site}
    (h : (ofText home path source).sites.find? (·.name = name) = some site) :
    site.occurrences <:+: (ofText home path source).occurrences ∧ site.IsAccountedFor := by
  obtain ⟨rest, hsuffix, hfront⟩ := Site.exists_suffix_of_mem_collect (List.mem_of_find?_eq_some h)
  obtain ⟨hbegins, haccounts⟩ := Site.ofFront?_accounts hfront
  exact ⟨hbegins.isInfix.trans hsuffix.isInfix, haccounts⟩

theorem mem_references_of_shape {f : SourceFile} {name : Text} {site : Site} {d : DeclaredType}
    {type : List Occurrence} {r : TypeReference} (hsite : f.sites.find? (·.name = name) = some site)
    (hd : f.declaration? name = some d) (htype : type ∈ describedTypes site.body)
    (hr : r ∈ TypeReference.find (f.marked type)) : r ∈ d.references := by
  rw [declaration?, hsite] at hd
  obtain rfl := Option.some.inj hd
  have hne : f.marked type ≠ [] := by
    intro hempty
    simp [hempty, TypeReference.find, TypeReference.findAfter] at hr
  exact List.mem_flatten.mpr ⟨_, List.mem_map_of_mem (marked_mem_shape htype hne), hr⟩

/-- Behind the name of a declaration every known name is reported among the references, unless it
stands in the heading, in the head of a member, or in a type that a line break splits. -/
theorem known_names_are_reported (home : Place) (path : Path) (source name : Text) (site : Site)
    (d : DeclaredType) (hsite : (ofText home path source).sites.find? (·.name = name) = some site)
    (hd : (ofText home path source).declaration? name = some d)
    (hplain : (ofText home path source).HasPlainNames site.occurrences) :
    ∀ o ∈ site.behindName, ∀ r, (ofText home path source).reference? o = some r →
      o ∈ site.heading ∨ IsInHead site.body o ∨ IsInBrokenType site.body o ∨ r ∈ d.references := by
  intro o ho r href
  obtain ⟨hwithin, haccounts⟩ := find?_sites_accounts hsite
  have hown : ∀ u ∈ site.behindName, u ∈ site.occurrences := fun u => List.mem_of_mem_drop
  have hkind := (isOf_ofText home path source).kind_of_reference?
    (hwithin.subset (hown o ho)) href |>.2
  rcases haccounts.placed o ho hkind with hheading | ⟨part, hpart, hmem⟩
  · exact Or.inl hheading
  refine Or.inr ((mem_part hpart hmem hkind).imp_right (Or.imp_right ?_))
  rintro ⟨type, htype, hmem⟩
  obtain ⟨part, hpart, htypePart⟩ := infix_describedTypes htype
  have htypeSite : type <:+: site.occurrences :=
    (htypePart.trans (haccounts.parts part hpart)).trans (List.drop_suffix _ _).isInfix
  have hfound := (isOf_ofText home path source).mem_find_marked (htypeSite.trans hwithin) hmem href
    (hplain.of_subset fun u hu => htypeSite.subset hu)
  exact mem_references_of_shape hsite hd htype hfound

/-- A type imported for the second of two properties, in a line of its own. -/
def importingFile : SourceFile := ofText [] (.ofString "/a.ts")
  "import \x7b B \x7d from './b';\ninterface A \x7b v: 1\nx: B[] \x7d".toList

theorem known_name_of_property_is_reported : ∃ site d o,
    importingFile.sites.find? (·.name = "A".toList) = some site ∧
      importingFile.declaration? "A".toList = some d ∧
        importingFile.HasPlainNames site.occurrences ∧ o ∈ site.behindName ∧
          importingFile.reference? o = some ⟨"/b".toList, "B".toList⟩ ∧
            ⟨"/b".toList, "B".toList⟩ ∈ d.references := by
  have hsome : (importingFile.sites.find? (·.name = "A".toList)).isSome = true := by decide +kernel
  have hdeclared : (importingFile.declaration? "A".toList).isSome = true := by decide +kernel
  have hinterface : (Option.get _ hsome).body.keyword = .interfaceWord := by
    decide +kernel +revert
  have hmentioned : ∃ o ∈ (Option.get _ hsome).behindName,
      importingFile.reference? o = some ⟨"/b".toList, "B".toList⟩ ∧
        o ∉ (Option.get _ hsome).heading ∧
          ∀ members ∈ (Option.get _ hsome).body.parts.drop 1, ∀ i < members.length,
            members[i]? = some o → Occurrence.InMemberType members i ∧
              ¬ Occurrence.IsCutOff members i := by
    decide +kernel +revert
  have hplain : importingFile.HasPlainNames (Option.get _ hsome).occurrences :=
    ⟨by decide +kernel +revert, by decide +kernel +revert, by decide +kernel +revert⟩
  obtain ⟨o, ho, href, hheading, htype⟩ := hmentioned
  have hsite := (Option.some_get hsome).symm
  have hd := (Option.some_get hdeclared).symm
  refine ⟨_, _, o, hsite, hd, hplain, ho, href, ?_⟩
  have hreported := known_names_are_reported [] (.ofString "/a.ts") _ "A".toList _ _ hsite hd hplain
    o ho _ href
  generalize (Option.get _ hsome).body = body at hinterface htype hreported
  have hwithin : ∀ members i, Encloses body members → members[i]? = some o →
      Occurrence.InMemberType members i ∧ ¬ Occurrence.IsCutOff members i := by
    intro members i henclosed hi
    cases henclosed with
    | interface => exact htype members List.mem_cons_self i (List.getElem?_eq_some_iff.mp hi).1 hi
    | object => cases hinterface
  rcases hreported with hhead | ⟨members, i, henclosed, hi, hhead⟩ |
    ⟨members, i, henclosed, hi, hbroken⟩ | hmem
  · exact absurd hhead hheading
  · exact absurd (hwithin members i henclosed hi).1 hhead
  · exact absurd hbroken (hwithin members i henclosed hi).2
  · exact hmem

/-- The known names behind the name of a declaration whose references it does not report. -/
def unreported (f : SourceFile) (name : Text) : List TypeReference :=
  match f.sites.find? (·.name = name), f.declaration? name with
  | some site, some d => (site.behindName.filterMap f.reference?).filter (· ∉ d.references)
  | _, _ => []

/-- A source of which the declaration of `A` mentions `B` without a reference to it, although all
names and modules are usual. -/
def Overlooks (source : Text) : Prop :=
  let f := ofText [] (.ofString "/a.ts") source
  f.HasUsualNames f.occurrences ∧ ∃ r ∈ f.unreported "A".toList, r.name = "B".toList

instance (source : Text) : Decidable (Overlooks source) :=
  inferInstanceAs (Decidable (_ ∧ _))

/-- Mentions are overlooked in type parameters and in the parameters of methods, in front of a
character that patterns take for a part of the name, and where a comment opens a marker. -/
theorem some_known_names_are_not_reported :
    Overlooks "type B = 1;\ntype A<T extends B> = T;".toList ∧
      Overlooks "type B = 1;\ninterface A \x7b\n  run(x: B): void;\n\x7d".toList ∧
        Overlooks "type B = 1;\ninterface A \x7b\n  run(x: B);\n\x7d".toList ∧
          Overlooks "type B = 1;\ntype A = B\u203f;".toList ∧
            Overlooks
              "import \x7b B \x7d from ').x';\ntype A = [ /* import(\x22 */ B ];".toList := by
  decide +kernel

end SourceFile

end TypeInliner
