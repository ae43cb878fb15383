import TypeInliner.Proofs.ImportGrammar
import TypeInliner.Proofs.LexemeLayout

/-! # Printing import statements

A description can be printed in many ways: names of exports as words or strings, strings between
either quotes, with or without a last comma and a semicolon, and with any spacing. Whatever way is
chosen, reading the text gives the description back. -/

namespace TypeInliner

namespace Lexeme

def keyword (word : Keyword) : Lexeme := .word word.spelling

@[simp] theorem kind_keyword (word : Keyword) : (keyword word).kind = .keyword word := by
  rw [keyword, kind, Keyword.ofText?_spelling]

theorem isName_kind_word (name : Text) : (word name).kind.isName = true := by
  rw [kind]
  cases Keyword.ofText? name <;> rfl

theorem keyword_of_kind {l : Lexeme} {word : Keyword} (h : l.kind = .keyword word) :
    l = keyword word := by
  cases l with
  | word name =>
    rw [kind] at h
    cases hname : Keyword.ofText? name with
    | none => simp [hname] at h
    | some other =>
      obtain rfl : other = word := by simpa [hname] using h
      rw [keyword, Keyword.spelling_of_ofText? hname]
  | mark c =>
    rw [kind] at h
    unfold Token.singleKind? at h
    split at h <;> simp at h
  | literal quote body value => simp [kind] at h

/-- A lexeme that stands for a text: the text as a word or as a string. -/
def StandsFor (l : Lexeme) (value : Text) : Prop :=
  l = .word value ∨ ∃ quote body, l = .literal quote body value

/-- The token for which a lexeme is written, wherever it stands. -/
def token (l : Lexeme) : Token := ⟨l.kind, [], l.text, l.value, false, 0⟩

theorem StandsFor.isExportedName {l : Lexeme} {value : Text} (h : l.StandsFor value) :
    ImportSpec.IsExportedName l.token ∧ l.value = value := by
  rcases h with rfl | ⟨quote, body, rfl⟩
  · exact ⟨Or.inr (isName_kind_word value), rfl⟩
  · exact ⟨Or.inl rfl, rfl⟩

theorem isLegal_keyword (word : Keyword) : (keyword word).IsLegal := by
  have hname : isName word.spelling = true := by cases word <;> decide +kernel
  exact hname

theorem isLegal_mark {c : Char} (h : c ∈ marks) : (mark c).IsLegal := h

end Lexeme

open Lexeme

namespace ImportSpec

/-! ## Prints -/

/-- The lexemes of an item, given the one for the name under which it is exported. -/
def itemLexemes (content : Lexeme) (item : NamedImport) : List Lexeme :=
  (if item.explicitType then [keyword .typeWord] else []) ++ content ::
    match item.rename with
    | some name => [keyword .asWord, .word name]
    | none => []

/-- Lexemes for an item. The words `type as as` do not import `type` under the name `as`. -/
inductive PrintsItem : List Lexeme → NamedImport → Prop
  | mk {content : Lexeme} {item : NamedImport} (standsFor : content.StandsFor item.content)
      (unmistakable : ¬ (item.explicitType = false ∧ content = keyword .typeWord ∧
        item.rename = some Keyword.asWord.spelling)) : PrintsItem (itemLexemes content item) item

/-- Lexemes for items, with commas between them and possibly behind the last one. -/
inductive PrintsItems : List Lexeme → List NamedImport → Prop
  | last {ls : List Lexeme} {item : NamedImport} (print : PrintsItem ls item) :
      PrintsItems ls [item]
  | trailing {ls : List Lexeme} {item : NamedImport} (print : PrintsItem ls item) :
      PrintsItems (ls ++ [.mark ',']) [item]
  | more {ls ms : List Lexeme} {item : NamedImport} {items : List NamedImport}
      (print : PrintsItem ls item) (behind : PrintsItems ms items) :
      PrintsItems (ls ++ .mark ',' :: ms) (item :: items)

/-- Lexemes for the module specifier, which is a string. -/
def sourceLexemes (quote : Char) (body source : Text) : List Lexeme :=
  [keyword .fromWord, .literal quote body source]

/-- Lexemes for the bindings of a statement, with the module specifier. -/
inductive PrintsBindings : List Lexeme → ImportSpec → Prop
  | default (name : Text) (quote : Char) (body source : Text) :
      PrintsBindings (.word name :: sourceLexemes quote body source) (.default name source)
  | whole (name : Text) (quote : Char) (body source : Text) :
      PrintsBindings (.mark '*' :: keyword .asWord :: .word name :: sourceLexemes quote body source)
        (.whole name source)
  | named {ls : List Lexeme} {items : List NamedImport} (clause : PrintsItems ls items)
      (quote : Char) (body source : Text) :
      PrintsBindings (.mark '\x7b' :: (ls ++ .mark '\x7d' :: sourceLexemes quote body source))
        (.named items source)

/-- A text as which a description is printed: its lexemes are read as they are meant, and laid out
with any spacing. -/
inductive IsPrint (spec : ImportSpec) (text : Text) : Prop
  | mk {ls terminator : List Lexeme} (bindings : PrintsBindings ls spec)
      (legal : ∀ l ∈ ls, l.IsLegal) (terminated : terminator = [] ∨ terminator = [.mark ';'])
      (laidOut : LaidOut false (keyword .importWord :: ls ++ terminator) text)

/-- Descriptions that can be printed: all names of bindings are words, and a list of named items is
not empty. -/
def IsPrintable : ImportSpec → Prop
  | .default name _ | .whole name _ => isName name = true
  | .named items _ => items ≠ [] ∧ ∀ item ∈ items, ∀ name ∈ item.rename, isName name = true

/-! ## What is printed is a statement -/

theorem PrintsItem.writes {ls : List Lexeme} {item : NamedImport} (h : PrintsItem ls item) :
    WritesItem false (ls.map token) item := by
  obtain @⟨content, ⟨explicitType, rename, name⟩, standsFor, unmistakable⟩ := h
  obtain ⟨hexported, rfl⟩ := standsFor.isExportedName
  have htype : (keyword .typeWord).token.kind = .keyword .typeWord := kind_keyword .typeWord
  have has : (keyword .asWord).token.kind = .keyword .asWord := kind_keyword .asWord
  cases explicitType with
  | false =>
    cases rename with
    | none => exact .name hexported
    | some other =>
      refine .renamed hexported has (isName_kind_word other) fun hcontent hother => ?_
      refine unmistakable ⟨rfl, keyword_of_kind hcontent, ?_⟩
      exact congrArg some (Lexeme.word.inj (keyword_of_kind hother))
  | true =>
    cases rename with
    | none => exact .modified htype hexported
    | some other => exact .modifiedRenamed htype hexported has (isName_kind_word other)

theorem PrintsItems.writes {ls : List Lexeme} {items : List NamedImport}
    (h : PrintsItems ls items) : WritesItems false (ls.map token) items := by
  induction h with
  | last print => exact .last print.writes
  | trailing print =>
    rw [List.map_append]
    exact .trailing print.writes rfl
  | more print _ ih =>
    rw [List.map_append, List.map_cons]
    exact .more print.writes rfl ih

theorem writesSource (quote : Char) (body source : Text) :
    WritesSource ((sourceLexemes quote body source).map token) source :=
  .mk (kind_keyword .fromWord) rfl

theorem PrintsBindings.writes {ls : List Lexeme} {spec : ImportSpec} (h : PrintsBindings ls spec) :
    WritesBindings false (ls.map token) spec := by
  cases h with
  | default name quote body source =>
    exact .default (isName_kind_word name) (writesSource quote body source)
  | whole name quote body source =>
    exact .whole rfl (kind_keyword .asWord) (isName_kind_word name) (writesSource quote body source)
  | named clause quote body source =>
    rw [List.map_cons, List.map_append, List.map_cons]
    exact .named rfl clause.writes rfl (writesSource quote body source)

/-! ## Reading prints -/

/-- A text is read as a statement if its tokens are like those that write the statement, with at
most a semicolon behind them. -/
theorem ofText_of_alike {text : Text} {tokens us terminator : List Token} {last : Token}
    {spec : ImportSpec} (htokens : Token.ofText text = tokens ++ [last])
    (hlast : last.kind = .ending) (halike : Alike tokens (us ++ terminator))
    (hwrites : WritesStatement us spec)
    (hterminator : terminator = [] ∨ ∃ t, terminator = [t] ∧ t.kind = .semicolon) :
    ofText text = .ok spec := by
  obtain ⟨first, others, htakes⟩ :=
    unterminated_takes (unterminated_ok.mpr ⟨us, (List.append_nil us).symm, hwrites⟩)
  have hsplit := htakes.split
  rw [List.append_nil] at hsplit
  have hplain : ∀ t ∈ us ++ terminator, t.kind ≠ .malformed := by
    refine List.forall_mem_append.mpr ⟨fun t ht => (hwrites.isPlain t ht).2, ?_⟩
    rcases hterminator with rfl | ⟨t, rfl, ht⟩ <;> simp_all
  rw [ofText, htokens, ImportStatement.ofTokens_ok]
  refine ⟨?_, ?_⟩
  · intro t ht
    rcases List.mem_append.mp ht with ht | ht
    · obtain ⟨u, hu, hkind⟩ := halike.exists_kind ht
      rw [hkind]
      exact hplain u hu
    · simp [List.mem_singleton.mp ht, hlast]
  · obtain ⟨front, behind, rfl, hfront, hbehind⟩ := halike.append
    rw [hsplit] at hfront
    refine ⟨behind ++ [last], ?_, ?_⟩
    · rw [List.append_assoc]
      exact htakes.again hfront
    rcases hterminator with rfl | ⟨t, rfl, ht⟩
    · rw [hbehind.nil]
      simp [dropSemicolon, current, hlast]
    · obtain ⟨u, rest, rfl, hkind, _, hnil⟩ := hbehind.cons
      rw [hnil.nil]
      simp [dropSemicolon, current, hkind, ht, hlast]

/-- The tokens of a print are like those for which its lexemes are written. -/
theorem IsPrint.exists_tokens {spec : ImportSpec} {text : Text} (h : IsPrint spec text) :
    ∃ tokens us terminator last, Token.ofText text = tokens ++ [last] ∧ last.kind = .ending ∧
      Alike tokens (us ++ terminator) ∧ WritesStatement us spec ∧
      (terminator = [] ∨ ∃ t, terminator = [t] ∧ t.kind = .semicolon) := by
  obtain @⟨ls, terminator, bindings, legal, terminated, laidOut⟩ := h
  have hall : ∀ l ∈ keyword .importWord :: ls ++ terminator, l.IsLegal := by
    rw [List.forall_mem_append, List.forall_mem_cons]
    refine ⟨⟨isLegal_keyword _, legal⟩, ?_⟩
    rcases terminated with rfl | rfl
    · simp
    · simpa using isLegal_mark (by decide : ';' ∈ marks)
  obtain ⟨tokens, last, htokens, hlast, hseen⟩ := laidOut.exists_tokens hall 0
  refine ⟨tokens, (keyword .importWord :: ls).map token, terminator.map token, last, htokens, hlast,
    ?_, .plain (kind_keyword .importWord) bindings.writes, ?_⟩
  · rw [Alike, hseen, ← List.map_append, List.map_map]
    rfl
  · rcases terminated with rfl | rfl
    · exact Or.inl rfl
    · exact Or.inr ⟨_, rfl, rfl⟩

theorem exists_printsItem (item : NamedImport) (h : ∀ name ∈ item.rename, isName name = true) :
    ∃ ls, PrintsItem ls item ∧ ∀ l ∈ ls, l.IsLegal := by
  obtain ⟨body, hbody⟩ := exists_escapes '\x22' item.content
  refine ⟨itemLexemes (.literal '\x22' body item.content) item,
    .mk (Or.inr ⟨_, _, rfl⟩) (by simp [keyword]), ?_⟩
  rw [itemLexemes, List.forall_mem_append, List.forall_mem_cons]
  refine ⟨?_, ⟨Or.inl rfl, hbody⟩, ?_⟩
  · split
    · simpa using isLegal_keyword .typeWord
    · simp
  · split
    · next name hname => simpa using ⟨isLegal_keyword .asWord, h name hname⟩
    · simp

theorem exists_printsItems {items : List NamedImport} (hne : items ≠ [])
    (h : ∀ item ∈ items, ∀ name ∈ item.rename, isName name = true) :
    ∃ ls, PrintsItems ls items ∧ ∀ l ∈ ls, l.IsLegal := by
  induction items with
  | nil => exact absurd rfl hne
  | cons item items ih =>
    obtain ⟨hitem, hitems⟩ := List.forall_mem_cons.mp h
    obtain ⟨ls, hprint, hlegal⟩ := exists_printsItem item hitem
    cases items with
    | nil => exact ⟨ls, .last hprint, hlegal⟩
    | cons other others =>
      obtain ⟨ms, hprints, hlegals⟩ := ih (by simp) hitems
      refine ⟨_, .more hprint hprints, ?_⟩
      rw [List.forall_mem_append, List.forall_mem_cons]
      exact ⟨hlegal, isLegal_mark (by decide), hlegals⟩

theorem exists_printsBindings {spec : ImportSpec} (h : spec.IsPrintable) :
    ∃ ls, PrintsBindings ls spec ∧ ∀ l ∈ ls, l.IsLegal := by
  obtain ⟨body, hbody⟩ := exists_escapes '\x22' spec.source
  have hsource : ∀ l ∈ sourceLexemes '\x22' body spec.source, l.IsLegal := by
    rw [sourceLexemes, List.forall_mem_cons]
    exact ⟨isLegal_keyword _, by simpa using ⟨Or.inl rfl, hbody⟩⟩
  cases spec with
  | default name source =>
    exact ⟨_, .default name '\x22' body source, List.forall_mem_cons.mpr ⟨h, hsource⟩⟩
  | whole name source =>
    refine ⟨_, .whole name '\x22' body source, ?_⟩
    rw [List.forall_mem_cons, List.forall_mem_cons, List.forall_mem_cons]
    exact ⟨isLegal_mark (by decide), isLegal_keyword _, h, hsource⟩
  | named items source =>
    obtain ⟨ls, hprints, hlegal⟩ := exists_printsItems h.1 h.2
    refine ⟨_, .named hprints '\x22' body source, ?_⟩
    rw [List.forall_mem_cons, List.forall_mem_append, List.forall_mem_cons]
    exact ⟨isLegal_mark (by decide), hlegal, isLegal_mark (by decide), hsource⟩

/-- A description whose names are words can be printed, and however it is printed, reading the text
gives the description back. -/
theorem prints_read_back (spec : ImportSpec) (h : spec.IsPrintable) :
    (∃ text, IsPrint spec text) ∧ ∀ text, IsPrint spec text → ofText text = .ok spec := by
  refine ⟨?_, fun text hprint => ?_⟩
  · obtain ⟨ls, hbindings, hlegal⟩ := exists_printsBindings h
    obtain ⟨text, htext⟩ := exists_laidOut false (keyword .importWord :: ls ++ [])
    exact ⟨text, .mk hbindings hlegal (Or.inl rfl) htext⟩
  · obtain ⟨tokens, us, terminator, last, htokens, hlast, halike, hwrites, hterminator⟩ :=
      hprint.exists_tokens
    exact ofText_of_alike htokens hlast halike hwrites hterminator

/-- A type import that renames an export with a quote and a line feed in its name. -/
def quotedImport : ImportSpec :=
  .named [⟨true, some "as".toList, "a\n\x27".toList⟩] "m\\".toList

def quotedContent : Lexeme := .literal '\x27' "a\\n\\\x27".toList "a\n\x27".toList

def quotedParts : List (Text × Lexeme) :=
  [("/**/".toList, keyword .importWord), ("//\n".toList, .mark '\x7b'), ([], keyword .typeWord),
    ([], quotedContent), ([], keyword .asWord), ("\t".toList, keyword .asWord), ([], .mark ','),
    ([], .mark '\x7d'), ([], keyword .fromWord),
    ([], .literal '\x22' "m\\\\".toList "m\\".toList), ([], .mark ';')]

def quotedText : Text :=
  "/**/import//\n\x7btype\x27a\\n\\\x27\x27as\tas,\x7dfrom\x22m\\\\\x22;//\n".toList

theorem quotedImport_reads_back : quotedImport.IsPrintable ∧ IsPrint quotedImport quotedText ∧
    ofText quotedText = .ok quotedImport := by
  have hprintable : quotedImport.IsPrintable := by
    refine ⟨by simp, ?_⟩
    simp only [List.forall_mem_singleton, Option.mem_def, Option.some.injEq, forall_eq']
    decide +kernel
  have hcontent : quotedContent.IsLegal :=
    ⟨Or.inr rfl, .plain (by decide) (.lineFeed (.escaped (by decide) .nil))⟩
  have hsource : (Lexeme.literal '\x22' "m\\\\".toList "m\\".toList).IsLegal :=
    ⟨Or.inl rfl, .plain (by decide) (.escaped (by decide) .nil)⟩
  have hitem : PrintsItem (itemLexemes quotedContent _) ⟨true, some "as".toList, _⟩ :=
    .mk (Or.inr ⟨_, _, rfl⟩) (by simp)
  have hspacing : Token.Spacing "//\n".toList := .line (by simp : '\n' ∉ ([] : Text)) .nil
  have hlaidOut := laidOut_layOut (by decide +kernel : wellSpaced false quotedParts = true) hspacing
  have hprint : IsPrint quotedImport quotedText := by
    refine .mk (.named (.trailing hitem) '\x22' "m\\\\".toList "m\\".toList) ?_ (Or.inr rfl)
      hlaidOut
    simp only [itemLexemes, sourceLexemes, if_true, List.forall_mem_cons, List.forall_mem_append,
      List.not_mem_nil, false_implies, implies_true, and_true]
    exact ⟨isLegal_mark (by decide), ⟨⟨isLegal_keyword _, hcontent, isLegal_keyword _,
      isLegal_keyword .asWord⟩, isLegal_mark (by decide)⟩, isLegal_mark (by decide),
      isLegal_keyword _, hsource⟩
  exact ⟨hprintable, hprint, (prints_read_back quotedImport hprintable).2 quotedText hprint⟩

end ImportSpec

end TypeInliner
