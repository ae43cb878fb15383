import TypeInliner.Proofs.MarkedTexts
import TypeInliner.Proofs.MemberPositions
import TypeInliner.Proofs.NestedOccurrences

/-! # Members of objects read back

A member is written as a name, a colon and a type, and a semicolon, a comma or a line break stands
between two members. The groups into which the occurrences of members are split are the members,
and the first colon of each group is the one behind its name: all colons, separators and line breaks
of a type stand inside of brackets, or else they stand behind the first colon and begin no
member. -/

namespace TypeInliner

namespace Kind

/-- The kinds of the tokens in front of the colon of a member. -/
def inHead (kind : Kind) : Bool := kind.isName || kind = .string || kind = .question

theorem inHead_cases {kind : Kind} (h : kind.inHead = true) :
    kind.isBracket = false ∧ kind ≠ .semicolon ∧ kind ≠ .comma ∧ kind ≠ .colon := by
  cases kind <;> first | decide | exact absurd h (by decide) | skip
  case keyword word => simp [isBracket, closing?, closes]

theorem isBracket_eq_false {kind : Kind} (h : kind.isBracket = false) :
    kind.closing? = none ∧ kind.closes = false := by
  simpa [isBracket] using h

end Kind

/-- Only brackets change the depth. -/
theorem nesting_of_isBracket {kind : Kind} (h : kind.isBracket = false) (depth : Nat) :
    nesting true depth kind = depth := by
  obtain ⟨hclosing, hcloses⟩ := Kind.isBracket_eq_false h
  rw [Occurrence.nesting_true_eq, Occurrence.counting_other _ depth hclosing hcloses]

theorem SourceFile.startsMember_of_isName {before kind : Kind} (hbefore : before.goesOn = false)
    (hkind : kind.isName = true ∨ kind = .string) : startsMember before kind = true := by
  rw [startsMember_eq, hbefore]
  rcases hkind with hname | rfl
  · simp [Kind.beginsMember, hname]
  · rfl

/-! ## Plain types -/

namespace Occurrence

/-- What may stand outside of the brackets of the type of a member. -/
def inMember (o : Occurrence) : Bool :=
  o.kind ≠ .semicolon && o.kind ≠ .comma && !o.token.newline

/-- What may stand outside of the brackets of a plain type. -/
def inPlain (o : Occurrence) : Bool :=
  o.inMember && o.kind ≠ .bar && o.kind ≠ .ampersand

end Occurrence

open Occurrence

/-- A member of an object as it is written: its name, behind a modifier and in front of a question
mark if it has these, its type behind a colon, and what separates it from the next member. -/
structure Member where
  modifier : Option Occurrence
  name : Occurrence
  mark : Option Occurrence
  colon : Occurrence
  type : List Occurrence
  separator : Option Occurrence

namespace Member

/-- What stands in front of the colon. -/
def head (m : Member) : List Occurrence := m.modifier.toList ++ m.name :: m.mark.toList

/-- The occurrences of a member without what separates it from the next one. -/
def own (m : Member) : List Occurrence := m.head ++ m.colon :: m.type

def occurrences (m : Member) : List Occurrence := m.own ++ m.separator.toList

/-- The occurrences of members that stand one behind the other. -/
def row (ms : List Member) : List Occurrence := (ms.map occurrences).flatten

/-- The name of the property: an identifier as it is written, a string without its quotes. -/
def label (m : Member) : Text :=
  if m.name.kind = .string then m.name.token.text.tail.dropLast else m.name.token.text

/-- Whether a text is put in quotes and has none inside. -/
def isQuoted : Text → Bool
  | [] => false
  | quote :: t =>
    SourceFile.isQuote quote && t.getLast? = some quote && t.dropLast.all (!SourceFile.isQuote ·)

/-- A member is written with an identifier or a quoted string, its modifier is `readonly` with one
blank behind it, and no semicolon, comma or line break stands outside of the brackets of its
type. -/
structure IsWritten (m : Member) : Prop where
  name : m.name.kind.isName = true ∨ m.name.kind = .string ∧ isQuoted m.name.token.text = true
  modifier : ∀ o ∈ m.modifier, o.kind.isName = true ∧ o.token.text = "readonly".toList ∧
    m.name.token.gap = [' ']
  mark : ∀ o ∈ m.mark, o.kind = .question ∧ o.token.text = ['?'] ∧ o.token.gap = []
  colon : m.colon.kind = .colon
  type : m.type ≠ [] ∧ isNested inMember [] m.type = true
  separator : ∀ o ∈ m.separator, o.kind = .semicolon ∨ o.kind = .comma

instance (m : Member) : Decidable m.IsWritten :=
  decidable_of_iff (_ ∧ _ ∧ _ ∧ _ ∧ _ ∧ _)
    ⟨fun ⟨name, modifier, mark, colon, type, separator⟩ =>
      ⟨name, modifier, mark, colon, type, separator⟩,
      fun h => ⟨h.name, h.modifier, h.mark, h.colon, h.type, h.separator⟩⟩

/-- Where no separator stands behind a member, the next one begins a line and the type does not end
with an operator. -/
def IsApart (m : Member) (ms : List Member) : Prop :=
  m.separator = none → ∀ next ∈ ms.head?,
    (∀ o ∈ next.head.head?, o.token.newline = true) ∧ ∀ o ∈ m.type.getLast?, o.kind.goesOn = false

instance (m : Member) (ms : List Member) : Decidable (m.IsApart ms) :=
  inferInstanceAs (Decidable (_ → ∀ next ∈ ms.head?, _))

/-- Members one behind the other. -/
inductive AreWritten : List Member → Prop
  | nil : AreWritten []
  | cons {m : Member} {ms : List Member} (written : m.IsWritten) (apart : m.IsApart ms)
      (rest : AreWritten ms) : AreWritten (m :: ms)

theorem areWritten_cons {m : Member} {ms : List Member} :
    AreWritten (m :: ms) ↔ m.IsWritten ∧ m.IsApart ms ∧ AreWritten ms := by
  constructor
  · intro h
    cases h with
    | cons written apart rest => exact ⟨written, apart, rest⟩
  · exact fun ⟨written, apart, rest⟩ => .cons written apart rest

instance decidableAreWritten : (ms : List Member) → Decidable (AreWritten ms)
  | [] => .isTrue .nil
  | _ :: ms =>
    have := decidableAreWritten ms
    decidable_of_iff _ areWritten_cons.symm

variable {m : Member}

theorem row_cons (m : Member) (ms : List Member) :
    row (m :: ms) = m.own ++ (m.separator.toList ++ row ms) := by
  simp [row, occurrences]

theorem IsWritten.inHead (h : m.IsWritten) : ∀ o ∈ m.head, o.kind.inHead = true := by
  intro o ho
  rcases List.mem_append.mp ho with hmodifier | ho
  · simp [Kind.inHead, (h.modifier o (Option.mem_toList.mp hmodifier)).1]
  rcases List.mem_cons.mp ho with rfl | hmark
  · rcases h.name with hname | ⟨hstring, _⟩
    · simp [Kind.inHead, hname]
    · simp [Kind.inHead, hstring]
  · simp [Kind.inHead, (h.mark o (Option.mem_toList.mp hmark)).1]

theorem head_ne_nil (m : Member) : m.head ≠ [] := by simp [head]

/-- A member begins with a name or a string. -/
theorem IsWritten.first (h : m.IsWritten) :
    ∀ o ∈ m.head.head?, o.kind.isName = true ∨ o.kind = .string := by
  intro o ho
  cases hmodifier : m.modifier with
  | none =>
    obtain rfl : m.name = o := by simpa [head, hmodifier] using ho
    exact h.name.imp_right And.left
  | some modifier =>
    obtain rfl : modifier = o := by simpa [head, hmodifier] using ho
    exact Or.inl (h.modifier modifier hmodifier).1

theorem isNested_head {os : List Occurrence} (h : ∀ o ∈ os, o.kind.inHead = true)
    (us : List Occurrence) : isNested anywhere [] (os ++ us) = isNested anywhere [] us := by
  induction os with
  | nil => rfl
  | cons o os ih =>
    have hkind := (Kind.inHead_cases (h o List.mem_cons_self)).1
    rw [List.cons_append, isNested_single hkind rfl]
    exact ih fun u hu => h u (List.mem_cons_of_mem o hu)

/-- The brackets of a member are closed. -/
theorem IsWritten.isNested_occurrences (h : m.IsWritten) (us : List Occurrence) :
    isNested anywhere [] (m.occurrences ++ us) = isNested anywhere [] us := by
  have hcolon : m.colon.kind.isBracket = false := by
    rw [h.colon]
    rfl
  have hseparator : isNested anywhere [] (m.separator.toList ++ us) = isNested anywhere [] us := by
    cases hseparator : m.separator with
    | none => rfl
    | some o =>
      refine isNested_single ?_ rfl us
      rcases h.separator o hseparator with hkind | hkind <;> rw [hkind] <;> rfl
  have htype : isNested anywhere [] (m.type ++ (m.separator.toList ++ us)) =
      isNested anywhere [] (m.separator.toList ++ us) :=
    isNested_append h.type.2 (fun _ _ => rfl) _
  rw [occurrences, own, List.append_assoc, List.append_assoc, isNested_head h.inHead,
    List.cons_append, isNested_single hcolon rfl, htype, hseparator]

theorem AreWritten.isNested_row {ms : List Member} (h : AreWritten ms) :
    isNested anywhere [] (row ms) = true := by
  induction h with
  | nil => rfl
  | cons hm _ _ ih =>
    rw [row, List.map_cons, List.flatten_cons, hm.isNested_occurrences]
    exact ih

end Member

namespace SourceFile

open Member

/-! ## Groups -/

/-- The kind of the last of some occurrences, or else what stands before them. -/
def kindBehind (before : Option Kind) (os : List Occurrence) : Option Kind :=
  os.foldl (fun _ o => some o.kind) before

theorem kindBehind_of_ne_nil {os : List Occurrence} (hne : os ≠ []) (before : Option Kind) :
    kindBehind before os = os.getLast?.map kind := by
  obtain ⟨front, o, rfl⟩ := List.eq_nil_or_concat' os |>.resolve_left hne
  simp [kindBehind]

/-- In front of the colon of a member nothing is split. -/
theorem memberGroups_head {os : List Occurrence} (h : ∀ o ∈ os, o.kind.inHead = true)
    (before : Option Kind) (rest : List Occurrence) :
    memberGroups before false 0 (os ++ rest) =
      joinFront os (memberGroups (kindBehind before os) false 0 rest) := by
  induction os generalizing before with
  | nil => rfl
  | cons o os ih =>
    obtain ⟨hbracket, hsemicolon, hcomma, hcolon⟩ := Kind.inHead_cases (h o List.mem_cons_self)
    rw [List.cons_append, memberGroups, if_neg (by simp [hsemicolon, hcomma]), if_neg (by simp),
      nesting_of_isBracket hbracket, decide_eq_false hcolon, Bool.and_false, Bool.or_false,
      ih fun u hu => h u (List.mem_cons_of_mem o hu)]
    rfl

/-- In the type of a member nothing is split. -/
theorem memberGroups_type {os : List Occurrence} {depth last : Nat}
    (h : Passes (nesting true) (fun o => o.inMember = true) depth os last) (before : Option Kind)
    (rest : List Occurrence) :
    memberGroups before true depth (os ++ rest) =
      joinFront os (memberGroups (kindBehind before os) true last rest) := by
  induction h generalizing before with
  | nil => rfl
  | @cons depth last o os met hrest ih =>
    have hparts : depth = 0 → (o.kind ≠ .semicolon ∧ o.kind ≠ .comma) ∧ o.token.newline = false :=
      fun hzero => by simpa [inMember] using met hzero
    have hseparator : ¬ (depth = 0 ∧ (o.kind = .semicolon ∨ o.kind = .comma)) := by
      rintro ⟨hzero, hkind | hkind⟩
      · exact (hparts hzero).1.1 hkind
      · exact (hparts hzero).1.2 hkind
    have hline : ¬ (depth = 0 ∧ o.token.newline ∧ true ∧ before.any (startsMember · o.kind)) := by
      rintro ⟨hzero, hnewline, _⟩
      simp [(hparts hzero).2] at hnewline
    rw [List.cons_append, memberGroups, if_neg hseparator, if_neg hline, Bool.true_or, ih]
    rfl

/-- The occurrences of a member belong to one group. -/
theorem memberGroups_own {m : Member} (h : m.IsWritten) (rest : List Occurrence) :
    memberGroups none false 0 (m.own ++ rest) =
      joinFront m.own (memberGroups (m.type.getLast?.map kind) true 0 rest) := by
  have htype := passes_outside h.type.2 fun o ho => ho
  -- Only behind the colon can a line break end the group.
  rw [own, List.append_assoc, memberGroups_head h.inHead, List.cons_append, memberGroups,
    if_neg (by simp [h.colon]), if_neg (by simp)]
  have hcolon : nesting true 0 m.colon.kind = 0 := by
    rw [h.colon]
    rfl
  rw [hcolon, joinFront_append, joinFront_cons]
  simp only [h.colon, decide_true, Bool.and_self, Bool.false_or]
  rw [memberGroups_type htype, kindBehind_of_ne_nil h.type.1]

/-- Where a member begins a line, the group in front of it ends. -/
theorem memberGroups_line {m : Member} (h : m.IsWritten) {before : Kind}
    (hbefore : before.goesOn = false) (hline : ∀ o ∈ m.head.head?, o.token.newline = true)
    (rest : List Occurrence) :
    memberGroups (some before) true 0 (m.own ++ rest) =
      [] :: memberGroups none false 0 (m.own ++ rest) := by
  obtain ⟨o, os, hhead⟩ := List.exists_cons_of_ne_nil m.head_ne_nil
  have hfirst := h.first o (by simp [hhead])
  have hkind := h.inHead o (by simp [hhead])
  obtain ⟨_, hsemicolon, hcomma, hcolon⟩ := Kind.inHead_cases hkind
  have hstarts := startsMember_of_isName hbefore hfirst
  rw [own, hhead, List.cons_append, List.cons_append, memberGroups,
    if_neg (by simp [hsemicolon, hcomma]), if_pos (by simp [hline o (by simp [hhead]), hstarts]),
    memberGroups, if_neg (by simp [hsemicolon, hcomma]), if_neg (by simp)]
  simp [hcolon]

/-- In front of the colon of a member there is no other one. -/
theorem splitColon?_head {os : List Occurrence} (h : ∀ o ∈ os, o.kind.inHead = true)
    {colon : Occurrence} (hcolon : colon.kind = .colon) (type : List Occurrence) :
    splitColon? 0 (os ++ colon :: type) = some (os, type) := by
  induction os with
  | nil => rw [List.nil_append, splitColon?, if_pos ⟨rfl, hcolon⟩]
  | cons o os ih =>
    obtain ⟨hbracket, _, _, hnot⟩ := Kind.inHead_cases (h o List.mem_cons_self)
    rw [List.cons_append, splitColon?, if_neg (fun hboth => hnot hboth.2),
      nesting_of_isBracket hbracket, ih fun u hu => h u (List.mem_cons_of_mem o hu)]
    rfl

end SourceFile

/-! ## Names of properties -/

namespace Text

theorem trimEnd_of_last {p : Char → Bool} {t : Text} (h : ∀ c ∈ t.getLast?, p c = false) :
    trimEnd p t = t := by
  rcases List.eq_nil_or_concat' t with rfl | ⟨front, c, rfl⟩
  · rfl
  · have htrim : trimEnd p (front ++ [c] ++ []) = front ++ [c] ++ trimEnd p [] :=
      TypeReference.trimEnd_append (h c (by simp)) []
    simpa [trimEnd] using htrim

theorem trim_of_ends {p : Char → Bool} {t : Text} (hfirst : ∀ c ∈ t.head?, p c = false)
    (hlast : ∀ c ∈ t.getLast?, p c = false) : trim p t = t := by
  rw [trim_of_first hfirst, trimEnd_of_last hlast]

/-- Around a text without characters of a class, two of them are trimmed. -/
theorem trim_around {p : Char → Bool} {c : Char} (hc : p c = true) {t : Text}
    (h : ∀ d ∈ t, p d = false) : trim p (c :: (t ++ [c])) = t := by
  rw [trim, List.dropWhile_cons_of_pos hc]
  cases t with
  | nil => simp [trimEnd, hc]
  | cons d t =>
    rw [List.cons_append, List.dropWhile_cons_of_neg (by simp [h d])]
    have hlast : trimEnd p (d :: t) = d :: t :=
      trimEnd_of_last fun e he => h e (List.mem_of_getLast? he)
    rw [← List.cons_append, trimEnd, List.reverse_append, List.reverse_singleton,
      List.singleton_append, List.dropWhile_cons_of_pos hc]
    exact hlast

end Text

namespace SourceFile

open Member

/-- What the name of a property cannot have at an end, and what its modifier ends with. -/
def isPadding (c : Char) : Bool := Text.isBlank c || c = '?'

/-- The text of a name behind a modifier and in front of a question mark. -/
theorem propertyName_eq {modifier name mark : Text}
    (hmodifier : modifier = [] ∧ ¬ "readonly ".toList <+: name ++ mark ∨
      modifier = "readonly ".toList)
    (hmark : mark = [] ∨ mark = ['?'])
    (hfirst : ∀ c ∈ name.head?, isPadding c = false)
    (hlast : ∀ c ∈ name.getLast?, isPadding c = false) :
    propertyName (modifier ++ (name ++ mark)) = Text.trim isQuote name := by
  have hstripped : ("readonly ".toList.isPrefixOf? (modifier ++ (name ++ mark))).getD
      (modifier ++ (name ++ mark)) = name ++ mark := by
    rcases hmodifier with ⟨rfl, hnone⟩ | rfl
    · cases hprefix : "readonly ".toList.isPrefixOf? (name ++ mark) with
      | none =>
        rw [List.nil_append, hprefix]
        rfl
      | some rest =>
        exact absurd ⟨rest, List.isPrefixOf?_eq_some_iff_append_eq.mp hprefix⟩ hnone
    · rw [List.isPrefixOf?_eq_some_iff_append_eq.mpr rfl]
      rfl
  have hends {c : Char} (h : isPadding c = false) : Text.isBlank c = false ∧ c ≠ '?' := by
    simpa [isPadding] using h
  have hmarked : Text.trimEnd (· = '?') (name ++ mark) = name := by
    have hbare : Text.trimEnd (· = '?') name = name :=
      Text.trimEnd_of_last fun c hc => decide_eq_false (hends (hlast c hc)).2
    rcases hmark with rfl | rfl
    · rwa [List.append_nil]
    · rw [Text.trimEnd, List.reverse_append, List.reverse_singleton, List.singleton_append,
        List.dropWhile_cons_of_pos (by simp)]
      exact hbare
  have hblanks : Text.trimBlanks name = name :=
    Text.trim_of_ends (fun c hc => (hends (hfirst c hc)).1) fun c hc => (hends (hlast c hc)).1
  rw [propertyName, hstripped, hmarked, hblanks]

/-- The characters of a word are trimmed nowhere. -/
theorem trims_no_word {c : Char} (h : Token.startsName c = true ∨ Token.continuesName c = true) :
    isPadding c = false ∧ isQuote c = false ∧ c ≠ ' ' := by
  have hblank : Text.isBlank c = false := by
    rw [← Bool.not_eq_true]
    intro hblank
    have hstops := (Token.separates_iff.mp (Token.separates_of_isBlank hblank)).1
    rcases h with hstarts | hcontinues
    · simp only [Token.continuesName, Text.isLetterOrNumeral, Bool.or_eq_false_iff] at hstops
      obtain rfl : c = '#' := by simpa [Token.startsName, hstops] using hstarts
      exact absurd hblank (by decide)
    · simp [hcontinues] at hstops
  have hnot : c ≠ '?' ∧ c ≠ '\x22' ∧ c ≠ '\x27' := by
    refine ⟨?_, ?_, ?_⟩ <;>
    · rintro rfl
      exact absurd h (by decide)
  refine ⟨by simp [isPadding, hblank, hnot.1], by simp [isQuote, hnot.2], ?_⟩
  rintro rfl
  exact absurd hblank (by decide)

theorem exists_of_isQuoted {t : Text} (h : isQuoted t = true) : ∃ quote inside,
    t = quote :: (inside ++ [quote]) ∧ isQuote quote = true ∧ ∀ c ∈ inside, isQuote c = false := by
  cases t with
  | nil => simp [isQuoted] at h
  | cons quote t =>
    simp only [isQuoted, Bool.and_eq_true, decide_eq_true_eq, List.all_eq_true,
      Bool.not_eq_true'] at h
    obtain ⟨⟨hquote, hlast⟩, hinside⟩ := h
    exact ⟨quote, t.dropLast, by rw [List.dropLast_append_getLast? quote hlast], hquote, hinside⟩

/-- The text in front of the colon of a member. -/
theorem joined_head {m : Member} (h : m.IsWritten) : ∃ modifier mark,
    Token.joined (m.head.map token) = modifier ++ (m.name.token.text ++ mark) ∧
      (modifier = [] ∨ modifier = "readonly ".toList) ∧ (mark = [] ∨ mark = ['?']) := by
  have hmark : ∃ mark, (m.mark.toList.map fun o => o.token.source).flatten = mark ∧
      (mark = [] ∨ mark = ['?']) := by
    cases hmark : m.mark with
    | none => exact ⟨_, rfl, Or.inl rfl⟩
    | some o =>
      obtain ⟨_, htext, hgap⟩ := h.mark o hmark
      exact ⟨_, rfl, Or.inr (by simp [Token.source, htext, hgap])⟩
  obtain ⟨mark, hsource, hmark⟩ := hmark
  cases hmodifier : m.modifier with
  | none =>
    refine ⟨[], mark, ?_, Or.inl rfl, hmark⟩
    simp [head, hmodifier, Token.joined, ← hsource, Function.comp_def]
  | some o =>
    obtain ⟨_, htext, hgap⟩ := h.modifier o hmodifier
    refine ⟨o.token.text ++ m.name.token.gap, mark, ?_, Or.inr ?_, hmark⟩
    · simp [head, hmodifier, Token.joined, Token.source, ← hsource, Function.comp_def]
    · rw [htext, hgap]
      decide

variable {f : SourceFile} {source : Text}

/-- The characters of identifiers and keywords. -/
theorem IsOf.word_of_isName (hf : f.IsOf source) {o : Occurrence} (ho : o ∈ f.occurrences)
    (hname : o.kind.isName = true) :
    ∀ c ∈ o.token.text, Token.startsName c = true ∨ Token.continuesName c = true := by
  obtain ⟨hending, _⟩ | ⟨offset, t, behind, hreads, _⟩ := hf.exists_reading ho
  · simp [hending, Kind.isName, Kind.isKeyword] at hname
  · obtain ⟨first, w, htext, hstarts, hcontinues⟩ := hreads.word_of_isName hname
    intro c hc
    rw [htext] at hc
    rcases List.mem_cons.mp hc with rfl | hc
    · exact Or.inl hstarts
    · exact Or.inr (hcontinues c hc)

/-- The name of a property is read off the text in front of the colon. -/
theorem IsOf.propertyName_head (hf : f.IsOf source) {m : Member} (h : m.IsWritten)
    (hname : m.name ∈ f.occurrences) :
    propertyName (Token.joined (m.head.map token)) = m.label := by
  obtain ⟨modifier, mark, hjoined, hmodifier, hmark⟩ := joined_head h
  rw [hjoined, label]
  rcases h.name with hword | ⟨hstring, hquoted⟩
  · have hchars := fun c hc => trims_no_word (hf.word_of_isName hname hword c hc)
    have hkind : m.name.kind ≠ .string := by
      intro hstring
      simp [hstring, Kind.isName, Kind.isKeyword] at hword
    have hbare : ¬ "readonly ".toList <+: m.name.token.text ++ mark := by
      intro hprefix
      have hblank : ' ' ∈ m.name.token.text ++ mark := hprefix.subset (by decide)
      rcases List.mem_append.mp hblank with hblank | hblank
      · exact (hchars ' ' hblank).2.2 rfl
      · rcases hmark with rfl | rfl <;> simp at hblank
    rw [if_neg hkind, propertyName_eq (hmodifier.imp_left fun hnil => ⟨hnil, hbare⟩) hmark
      (fun c hc => (hchars c (List.mem_of_mem_head? hc)).1)
      fun c hc => (hchars c (List.mem_of_getLast? hc)).1]
    exact Text.trim_of_ends (fun c hc => (hchars c (List.mem_of_mem_head? hc)).2.1)
      fun c hc => (hchars c (List.mem_of_getLast? hc)).2.1
  · obtain ⟨quote, inside, htext, hquote, hinside⟩ := exists_of_isQuoted hquoted
    have hends : isPadding quote = false ∧ 'r' ≠ quote := by
      rcases (by simpa [isQuote] using hquote : quote = '\x22' ∨ quote = '\x27') with rfl | rfl <;>
        decide
    have hbare : ¬ "readonly ".toList <+: m.name.token.text ++ mark := by
      rintro ⟨rest, hrest⟩
      rw [htext] at hrest
      exact hends.2 (List.cons.inj hrest).1
    rw [if_pos hstring, propertyName_eq (hmodifier.imp_left fun hnil => ⟨hnil, hbare⟩) hmark
      (by simp [htext, hends.1]) (by simp [htext, List.getLast?_cons, hends.1]), htext,
      Text.trim_around hquote hinside]
    simp

/-- The property that a member writes. -/
theorem IsOf.property?_own (hf : f.IsOf source) {m : Member} (h : m.IsWritten)
    (hname : m.name ∈ f.occurrences) :
    f.property? m.own = some ⟨m.label, f.marked m.type⟩ := by
  obtain ⟨o, rest, hhead⟩ := List.exists_cons_of_ne_nil m.head_ne_nil
  rw [property?, own, splitColon?_head h.inHead h.colon, hhead]
  dsimp only
  rw [← hhead, hf.propertyName_head h hname]

/-- Members that are written one behind the other are the properties that are found. -/
theorem IsOf.properties_row (hf : f.IsOf source) {ms : List Member} (h : AreWritten ms)
    (hmem : ∀ m ∈ ms, m.name ∈ f.occurrences) :
    f.properties (row ms) = ms.map fun m => ⟨m.label, f.marked m.type⟩ := by
  have hsingle {m : Member} (hm : m.IsWritten) (hname : m.name ∈ f.occurrences)
      (groups : List (List Occurrence)) : (joinFront m.own ([] :: groups)).filterMap f.property? =
        ⟨m.label, f.marked m.type⟩ :: groups.filterMap f.property? := by
    rw [joinFront_first, List.append_nil,
      List.filterMap_cons_some (hf.property?_own hm hname)]
  rw [properties]
  induction h with
  | nil => rfl
  | @cons m ms hm hapart hms ih =>
    have hname := hmem m List.mem_cons_self
    replace ih := ih fun m' hm' => hmem m' (List.mem_cons_of_mem m hm')
    cases hseparator : m.separator with
    | some separator =>
      rw [row_cons, hseparator, Option.toList_some, List.singleton_append, memberGroups_own hm,
        memberGroups, if_pos ⟨rfl, hm.separator separator hseparator⟩, hsingle hm hname, ih]
      rfl
    | none =>
      rw [row_cons, hseparator, Option.toList_none, List.nil_append, memberGroups_own hm]
      cases hms with
      | nil => exact hsingle hm hname []
      | @cons next ms hnext _ _ =>
        -- The line break in front of the next member takes the place of a separator.
        obtain ⟨hbegins, hends⟩ := hapart hseparator next rfl
        obtain ⟨last, hlast⟩ := Option.ne_none_iff_exists'.mp
          (mt List.getLast?_eq_none_iff.mp hm.type.1)
        rw [row_cons] at ih ⊢
        rw [hlast, Option.map_some, memberGroups_line hnext (hends last hlast) hbegins,
          hsingle hm hname, ih]
        rfl

end SourceFile

end TypeInliner
