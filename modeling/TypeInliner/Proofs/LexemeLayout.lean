import TypeInliner.Proofs.StatementLocality
import TypeInliner.Proofs.TokenNeighbours

/-! # Laying out lexemes

A lexeme is what is written for one token. Lexemes may stand behind one another with any spacing
between them, and two words need some. Whatever the spacing, the text is cut into the lexemes. -/

namespace TypeInliner

/-- What is written for one token: a word, a mark of one character, or a string between quotes with
its characters as they are written and what they stand for. -/
inductive Lexeme
  | word (name : Text)
  | mark (c : Char)
  | literal (quote : Char) (body value : Text)
  deriving DecidableEq

namespace Lexeme

def text : Lexeme → Text
  | word name => name
  | mark c => [c]
  | literal quote body _ => quote :: (body ++ [quote])

def isWord : Lexeme → Bool
  | word _ => true
  | _ => false

def kind : Lexeme → Kind
  | word name => match Keyword.ofText? name with
    | some keyword => .keyword keyword
    | none => .identifier
  | mark c => (Token.singleKind? c).getD .operator
  | literal .. => .string

def value : Lexeme → Text
  | word name => name
  | mark c => [c]
  | literal _ _ value => value

/-! ## Lexemes that are read back -/

/-- Whether a text is one identifier or keyword. -/
def isName (name : Text) : Bool :=
  match Token.ofText name with
  | [t, _] => t.kind.isName && t.text = name
  | _ => false

/-- The characters for a text between quotes. Backslashes, quotes and line feeds have a backslash in
front of them; a line feed may be written as a letter. -/
inductive Escapes (quote : Char) : Text → Text → Prop
  | nil : Escapes quote [] []
  | plain {c : Char} {value body : Text} (harmless : c ≠ '\\' ∧ c ≠ quote ∧ c ≠ '\n')
      (rest : Escapes quote value body) : Escapes quote (c :: value) (c :: body)
  | escaped {c : Char} {value body : Text} (special : c = '\\' ∨ c = quote ∨ c = '\n')
      (rest : Escapes quote value body) : Escapes quote (c :: value) ('\\' :: c :: body)
  | lineFeed {value body : Text} (rest : Escapes quote value body) :
      Escapes quote ('\n' :: value) ('\\' :: 'n' :: body)

def IsQuote (c : Char) : Prop := c = '\x22' ∨ c = '\x27'

/-- The marks that import statements use. -/
def marks : Text := ['*', ',', ';', '\x7b', '\x7d']

/-- Lexemes that are read as the tokens they are written for. -/
def IsLegal : Lexeme → Prop
  | word name => isName name = true
  | mark c => c ∈ marks
  | literal quote body value => IsQuote quote ∧ Escapes quote value body

private theorem grow_closed {more size size' : Nat} (h : size + more = size') (front value : Text) :
    (Token.LiteralBody.closed size value).grow more front = .closed size' (front ++ value) := by
  rw [Token.LiteralBody.grow, Nat.add_comm, h]

theorem Escapes.stringBody {quote : Char} {value body : Text} (hquote : IsQuote quote)
    (h : Escapes quote value body) (rest : Text) :
    Token.stringBody quote (body ++ quote :: rest) = .closed (body.length + 1) value := by
  have hslash : quote ≠ '\\' := by rcases hquote with rfl | rfl <;> decide
  induction h with
  | nil => rw [List.nil_append, Token.stringBody_plain hslash, if_pos rfl]; rfl
  | @plain c value body harmless _ ih =>
    rw [List.cons_append, Token.stringBody_plain harmless.1, if_neg harmless.2.1,
      if_neg harmless.2.2, ih]
    exact grow_closed rfl [c] value
  | @escaped c value body special _ ih =>
    have hc : Token.unescape c = c := by
      rcases special with rfl | rfl | rfl
      · rfl
      · rcases hquote with rfl | rfl <;> rfl
      · rfl
    rw [List.cons_append, List.cons_append, Token.stringBody, ih, hc]
    exact grow_closed rfl [c] value
  | @lineFeed value body _ ih =>
    rw [List.cons_append, List.cons_append, Token.stringBody, ih]
    exact grow_closed rfl ['\n'] value

theorem ofText_quote {quote : Char} (h : IsQuote quote) (t : Text) :
    Token.Reading.ofText quote t =
      .literal .string "Unterminated string literal".toList (Token.stringBody quote t) := by
  rcases h with rfl | rfl <;> rfl

/-- A token that begins with no gap is read behind spacing. -/
theorem readsFront_of_reading {c : Char} {w rest : Text} {reading : Token.Reading}
    (hread : Token.Reading.ofText c (w ++ rest) = reading) (hmore : reading.more = w.length)
    (hgap : Token.gapSize (c :: (w ++ rest)) = 0) {gap : Text} (hspacing : Token.Spacing gap)
    (offset : Nat) : ∃ tok, Token.ReadsFront offset (gap ++ (c :: w ++ rest)) tok rest ∧
      tok.kind = reading.kind ∧ tok.value = reading.value.getD (c :: w) := by
  subst hread
  refine ⟨Token.withGap ⟨_, [], c :: w, _, false, 0⟩ gap offset,
    ⟨rfl, ?_, ⟨c, w, rfl, hmore, rfl, rfl⟩, rfl, rfl⟩, rfl, rfl⟩
  rw [hspacing.gapSize_append, List.cons_append, hgap, Nat.add_zero]
  rfl

/-- A name alone is one token. -/
theorem exists_readsFront_of_isName {name : Text} (h : isName name = true) :
    ∃ tok, Token.ReadsFront 0 name tok [] ∧ tok.kind.isName = true ∧ tok.text = name := by
  unfold isName at h
  split at h
  · next t last htokens =>
    simp only [Bool.and_eq_true, decide_eq_true_eq] at h
    rcases Token.ofTextAt_cases 0 name with hending | ⟨tok, behind, hreads⟩
    · simp [Token.ofText, hending] at htokens
    · rw [Token.ofText, hreads.ofTextAt_eq] at htokens
      obtain ⟨rfl, _⟩ := List.cons.inj htokens
      have hlength := congrArg List.length hreads.source
      rw [h.2] at hlength
      simp only [List.length_append] at hlength
      obtain rfl : behind = [] := List.length_eq_zero_iff.mp (by omega)
      exact ⟨tok, hreads, h.1, h.2⟩
  · simp at h

/-- A word token has the kind that its characters tell. -/
theorem kind_of_isName {c : Char} {t : Text} {r : Token.Reading} (h : Token.Reads c t r)
    (hname : r.kind.isName = true) (hmore : r.more = t.length) :
    r.kind = (word (c :: t)).kind ∧ r.value = none := by
  obtain ⟨_, rfl⟩ := h.eq_wordReading hname
  have htake := Token.take_wordReading c t
  rw [hmore, List.take_length] at htake
  unfold Token.wordReading
  dsimp only
  rw [← htake, List.take_length, kind]
  cases Keyword.ofText? (c :: t) <;> exact ⟨rfl, rfl⟩

/-- A name is read wherever a separator or nothing stands behind it. -/
theorem exists_readsFront_word {name rest gap : Text} (h : isName name = true)
    (hrest : ∀ d ∈ rest.head?, Token.separates d = true) (hspacing : Token.Spacing gap)
    (offset : Nat) : ∃ tok, Token.ReadsFront offset (gap ++ (name ++ rest)) tok rest ∧
      tok.kind = (word name).kind ∧ tok.value = name := by
  obtain ⟨tok, hreads, hname, rfl⟩ := exists_readsFront_of_isName h
  obtain ⟨c, w, htext, hmore, hkind, hvalue⟩ := hreads.reading
  rw [List.append_nil] at hmore hkind hvalue
  obtain ⟨hword, hnone⟩ := kind_of_isName (Token.Reading.reads c w) (by rw [← hkind]; exact hname)
    hmore
  have hadmits : tok.Admits [] rest := by
    refine fun d _ => Or.inr ⟨fun hmalformed => ?_, fun hslash => ?_⟩
    · simp [hmalformed, Kind.isName, Kind.isKeyword] at hname
    · obtain ⟨rfl, rfl⟩ := List.cons.inj (htext.symm.trans hslash)
      rw [hkind] at hname
      exact absurd hname (by decide)
  refine ⟨_, hreads.exchange (s := []) hrest (fun _ => hadmits) hspacing offset, ?_, ?_⟩
  · exact hkind.trans (htext ▸ hword)
  · exact hvalue.trans (by rw [hnone]; rfl)

theorem singleKind?_of_mem_marks {c : Char} (h : c ∈ marks) :
    ∃ kind, Token.singleKind? c = some kind := by
  simp only [marks, List.mem_cons, List.not_mem_nil, or_false] at h
  rcases h with rfl | rfl | rfl | rfl | rfl <;> exact ⟨_, rfl⟩

/-- A legal lexeme is read behind spacing, in front of a separator or nothing if it is a word. -/
theorem IsLegal.exists_readsFront {l : Lexeme} (h : l.IsLegal) {rest gap : Text}
    (hrest : l.isWord = true → ∀ d ∈ rest.head?, Token.separates d = true)
    (hspacing : Token.Spacing gap) (offset : Nat) :
    ∃ tok, Token.ReadsFront offset (gap ++ (l.text ++ rest)) tok rest ∧
      tok.kind = l.kind ∧ tok.value = l.value := by
  cases l with
  | word name => exact exists_readsFront_word h (hrest rfl) hspacing offset
  | mark c =>
    obtain ⟨kind, hkind⟩ := singleKind?_of_mem_marks h
    have hread : Token.Reading.ofText c ([] ++ rest) = .plain kind 0 :=
      Token.Reading.ofText_single hkind _
    obtain ⟨tok, hreads, htok, hvalue⟩ :=
      readsFront_of_reading hread rfl (Token.singleKind?_gap hkind _) hspacing offset
    refine ⟨tok, hreads, ?_, hvalue⟩
    rw [htok, Lexeme.kind, hkind]
    rfl
  | literal quote body value =>
    obtain ⟨hquote, hescapes⟩ := h
    have hread : Token.Reading.ofText quote (body ++ [quote] ++ rest) =
        ⟨.string, body.length + 1, some value⟩ := by
      rw [List.append_assoc, ofText_quote hquote, List.singleton_append,
        hescapes.stringBody hquote]
      rfl
    have hgap : Token.gapSize (quote :: (body ++ [quote] ++ rest)) = 0 := by
      rcases hquote with rfl | rfl <;> 
        exact (Token.gapSize_plain fun hc => absurd hc (by decide)).trans rfl
    exact readsFront_of_reading hread (by simp) hgap hspacing offset

/-! ## Layouts -/

/-- Lexemes that are laid out in a text, possibly behind a word: there is spacing in front of each
of them and at the end, and some of it between two words. -/
inductive LaidOut : Bool → List Lexeme → Text → Prop
  | nil {behindWord : Bool} {gap : Text} (spacing : Token.Spacing gap) : LaidOut behindWord [] gap
  | cons {behindWord : Bool} {l : Lexeme} {lexemes : List Lexeme} {gap text : Text}
      (spacing : Token.Spacing gap) (apart : behindWord = true → l.isWord = true → gap ≠ [])
      (rest : LaidOut l.isWord lexemes text) : LaidOut behindWord (l :: lexemes)
        (gap ++ (l.text ++ text))

/-- What stands behind a word does not continue it. -/
theorem LaidOut.separates {lexemes : List Lexeme} {text : Text} (h : LaidOut true lexemes text)
    (hlegal : ∀ l ∈ lexemes, l.IsLegal) : ∀ d ∈ text.head?, Token.separates d = true := by
  cases h with
  | nil hspacing => exact hspacing.separates
  | @cons _ l lexemes gap text hspacing hapart _ =>
    cases gap with
    | cons c gap => exact hspacing.separates
    | nil =>
      have hl := hlegal l List.mem_cons_self
      cases l with
      | word name => exact absurd rfl (hapart rfl rfl)
      | mark c =>
        have hmarks : marks.all Token.separates = true := by decide
        simpa [Lexeme.text] using List.all_eq_true.mp hmarks c hl
      | literal quote body value =>
        rcases hl.1 with rfl | rfl <;> simp [Lexeme.text] <;> decide

/-- A text in which lexemes are laid out has the tokens for which they are written. -/
theorem LaidOut.exists_tokens {behindWord : Bool} {lexemes : List Lexeme} {text : Text}
    (h : LaidOut behindWord lexemes text) (hlegal : ∀ l ∈ lexemes, l.IsLegal) (offset : Nat) :
    ∃ tokens last, Token.ofTextAt offset text = tokens ++ [last] ∧ last.kind = .ending ∧
      tokens.map Token.seen = lexemes.map fun l => (l.kind, l.value) := by
  induction h generalizing offset with
  | @nil _ gap hspacing =>
    have hgap : Token.gapSize gap = gap.length := by
      have happend := hspacing.gapSize_append []
      rwa [List.append_nil, Token.gapSize, Nat.add_zero] at happend
    exact ⟨[], _, Token.ofTextAt_of_gap hgap, rfl, rfl⟩
  | @cons _ l lexemes gap text hspacing _ hrest ih =>
    have hlegal' : ∀ l ∈ lexemes, l.IsLegal := fun m hm => hlegal m (List.mem_cons_of_mem _ hm)
    obtain ⟨tok, hreads, hkind, hvalue⟩ := (hlegal l List.mem_cons_self).exists_readsFront
      (fun hword => LaidOut.separates (hword ▸ hrest) hlegal') hspacing offset
    obtain ⟨tokens, last, htokens, hlast, hseen⟩ := ih hlegal' tok.stop
    refine ⟨tok :: tokens, last, ?_, hlast, ?_⟩
    · rw [hreads.ofTextAt_eq, htokens, List.cons_append]
    · rw [List.map_cons, List.map_cons, hseen, Token.seen, hkind, hvalue]

/-- The text of lexemes with a gap in front of each and one at the end. -/
def layOut (parts : List (Text × Lexeme)) (last : Text) : Text :=
  match parts with
  | [] => last
  | (gap, l) :: parts => gap ++ (l.text ++ layOut parts last)

/-- Whether the gaps in front of lexemes are spacing, with some of it between two words. -/
def wellSpaced (behindWord : Bool) : List (Text × Lexeme) → Bool
  | [] => true
  | (gap, l) :: parts =>
    Token.gapSize (gap ++ ['.']) = gap.length && !(behindWord && l.isWord && gap.isEmpty) &&
      wellSpaced l.isWord parts

theorem laidOut_layOut {behindWord : Bool} {parts : List (Text × Lexeme)} {last : Text}
    (h : wellSpaced behindWord parts = true) (hlast : Token.Spacing last) :
    LaidOut behindWord (parts.map Prod.snd) (layOut parts last) := by
  induction parts generalizing behindWord with
  | nil => exact .nil hlast
  | cons part parts ih =>
    obtain ⟨gap, l⟩ := part
    simp only [wellSpaced, Bool.and_eq_true, decide_eq_true_eq, Bool.not_eq_true',
      Bool.and_eq_false_iff, List.isEmpty_eq_false_iff] at h
    obtain ⟨⟨hgap, hapart⟩, hparts⟩ := h
    refine .cons (Token.spacing_of_gapSize hgap (by decide)) (fun hbehind hl => ?_) (ih hparts)
    simpa [hbehind, hl] using hapart

/-- With a blank in front of each, lexemes can always be laid out. -/
theorem exists_laidOut (behindWord : Bool) (lexemes : List Lexeme) :
    ∃ text, LaidOut behindWord lexemes text := by
  induction lexemes generalizing behindWord with
  | nil => exact ⟨[], .nil .nil⟩
  | cons l lexemes ih =>
    obtain ⟨text, htext⟩ := ih l.isWord
    exact ⟨_, .cons (.blank (by decide : Text.isBlank ' ' = true) .nil) (by simp) htext⟩

theorem exists_escapes (quote : Char) (value : Text) : ∃ body, Escapes quote value body := by
  induction value with
  | nil => exact ⟨[], .nil⟩
  | cons c value ih =>
    obtain ⟨body, hbody⟩ := ih
    by_cases hspecial : c = '\\' ∨ c = quote ∨ c = '\n'
    · exact ⟨_, .escaped hspecial hbody⟩
    · exact ⟨_, .plain (by simpa [not_or] using hspecial) hbody⟩

end Lexeme

end TypeInliner
