import TypeInliner.Proofs.ImportGrammar
import TypeInliner.Proofs.RemainingTokens

/-! # Statements that cannot be read

An import for the effect of a module and an import of a default beside other bindings are found like
all others, with an error in place of a description, and they are handed back. Where such a
statement ends is told by its tokens alone: behind the module specifier, or in front of a token on a
new line outside of brackets, unless that is `from` or the module specifier. So it is whole exactly
if no line ends in front of one of its other tokens outside of brackets. -/

namespace TypeInliner

namespace ImportStatement

/-! ## Where a statement is taken to end -/

@[simp] theorem openBrackets_nil : openBrackets [] = 0 := rfl

theorem openBrackets_concat (us : List Token) (t : Token) :
    openBrackets (us ++ [t]) = nesting false (openBrackets us) t.kind := by
  simp [openBrackets]

/-- Behind some tokens of a statement a line ends in front of a token outside of brackets, and a
statement that cannot be read does not go on with the token. -/
def Breaks (inside : List Token) (t : Token) : Prop :=
  openBrackets inside = 0 ∧ t.newline = true ∧ t.kind.continuesLine = false

instance (inside : List Token) (t : Token) : Decidable (Breaks inside t) :=
  inferInstanceAs (Decidable (_ ∧ _ ∧ _))

/-- No line ends among the tokens of a statement where the statement would be taken to end. -/
def Unbroken (us : List Token) : Prop := ∀ inside t after, us = inside ++ t :: after →
  ¬ Breaks inside t

theorem unbroken_iff {us : List Token} :
    Unbroken us ↔ ∀ i : Fin us.length, ¬ Breaks (us.take i) us[i] := by
  constructor
  · intro h i
    refine h (us.take i) us[i] (us.drop (i + 1)) ?_
    rw [Fin.getElem_fin, ← List.drop_eq_getElem_cons, List.take_append_drop]
  · rintro h inside t after rfl
    simpa using h ⟨inside.length, by simp⟩

instance (us : List Token) : Decidable (Unbroken us) := decidable_of_iff _ unbroken_iff.symm

theorem Unbroken.left {us vs : List Token} (h : Unbroken (us ++ vs)) : Unbroken us :=
  fun inside t after hsplit => h inside t (after ++ vs) (by rw [hsplit]; simp)

/-- Where some tokens are broken, a first of them breaks them. -/
theorem exists_breaks {us : List Token} (h : ¬ Unbroken us) :
    ∃ inside t after, us = inside ++ t :: after ∧ Unbroken inside ∧ Breaks inside t := by
  induction us using List.reverseRecOn with
  | nil => exact absurd (fun inside t after hsplit => by simp at hsplit) h
  | append_singleton us t ih =>
    by_cases hus : Unbroken us
    · refine ⟨us, t, [], rfl, hus, ?_⟩
      by_contra hgoes
      refine h fun inside u after hsplit => ?_
      rcases List.eq_nil_or_concat after with rfl | ⟨after', v, rfl⟩
      · obtain ⟨rfl, hlast⟩ := List.append_inj' hsplit rfl
        rwa [← List.singleton_inj.mp hlast]
      · rw [List.concat_eq_append, ← List.cons_append, ← List.append_assoc] at hsplit
        exact hus inside u after' (List.append_inj' hsplit rfl).1
    · obtain ⟨inside, u, after, rfl, hinside, hbreaks⟩ := ih hus
      exact ⟨inside, u, after ++ [t], by simp, hinside, hbreaks⟩

/-- Behind some tokens, tokens that are no ending and, outside of brackets, neither a semicolon nor
a string: at none of them a statement ends for its kind. -/
inductive Inner : List Token → List Token → Prop
  | nil {front : List Token} : Inner front []
  | cons {front us : List Token} {t : Token} (visible : t.kind ≠ .ending)
      (outside : openBrackets front = 0 → t.kind ≠ .semicolon ∧ t.kind ≠ .string)
      (behind : Inner (front ++ [t]) us) : Inner front (t :: us)

theorem Inner.append {front us vs : List Token} (h : Inner front us)
    (h' : Inner (front ++ us) vs) : Inner front (us ++ vs) := by
  induction h with
  | nil => simpa using h'
  | cons visible outside _ ih => exact .cons visible outside (ih (by simpa using h'))

theorem Inner.kind_ne_ending {front us : List Token} (h : Inner front us) :
    ∀ t ∈ us, t.kind ≠ .ending := by
  induction h with
  | nil => simp
  | cons visible _ _ ih => exact List.forall_mem_cons.mpr ⟨visible, ih⟩

theorem Inner.of_append {front us vs : List Token} (h : Inner front (us ++ vs)) :
    Inner front us ∧ Inner (front ++ us) vs := by
  induction us generalizing front with
  | nil => exact ⟨.nil, by simpa using h⟩
  | cons t us ih =>
    obtain _ | ⟨visible, outside, behind⟩ := h
    obtain ⟨hus, hvs⟩ := ih behind
    exact ⟨.cons visible outside hus, by simpa using hvs⟩

theorem unreadSize_pass {front : List Token} {t : Token} (visible : t.kind ≠ .ending)
    (outside : openBrackets front = 0 → t.kind ≠ .semicolon ∧ t.kind ≠ .string)
    (hgoes : ¬ Breaks front t) (rest : List Token) : unreadSize (openBrackets front) (t :: rest) =
      1 + unreadSize (openBrackets (front ++ [t])) rest := by
  rw [unreadSize_cons, if_neg visible, if_neg fun h => (outside h.1).1 h.2,
    if_neg fun h => (outside h.1).2 h.2, openBrackets_concat]
  exact if_neg hgoes

theorem Breaks.unreadSize_eq {front : List Token} {t : Token} (h : Breaks front t)
    (visible : t.kind ≠ .ending) (hsemicolon : t.kind ≠ .semicolon) (rest : List Token) :
    unreadSize (openBrackets front) (t :: rest) = 0 := by
  have hstring : t.kind ≠ .string := by
    intro hstring
    have hgoes := h.2.2
    simp [hstring, Kind.continuesLine] at hgoes
  rw [unreadSize_cons, if_neg visible, if_neg fun h => hsemicolon h.2, if_neg fun h => hstring h.2]
  exact if_pos h

/-- A statement goes on over tokens among which no line breaks it. -/
theorem unreadSize_inner {front us : List Token} (h : Inner front us)
    (hgoes : ∀ inside t after, us = inside ++ t :: after → ¬ Breaks (front ++ inside) t)
    (rest : List Token) : unreadSize (openBrackets front) (us ++ rest) =
      us.length + unreadSize (openBrackets (front ++ us)) rest := by
  induction h with
  | nil => simp
  | @cons front us t visible outside _ ih =>
    have hfirst : ¬ Breaks front t := by simpa using hgoes [] t us rfl
    have htail := ih fun inside u after hsplit => by
      simpa using hgoes (t :: inside) u after (by rw [hsplit]; rfl)
    rw [List.cons_append, unreadSize_pass visible outside hfirst, htail, List.length_cons,
      List.append_assoc, List.singleton_append]
    omega

/-- Behind the keyword of a statement stand tokens at which it does not end, and its module
specifier behind them. -/
structure Specifies (body inner : List Token) (s : Token) : Prop where
  split : body = inner ++ [s]
  front : Inner [] inner
  outside : openBrackets inner = 0
  specifier : s.kind = .string

/-- What ends a statement behind its module specifier: a semicolon, or nothing if none follows. -/
def Terminates (terminator behind : List Token) : Prop :=
  terminator = [] ∧ Token.headKind behind ≠ .semicolon ∨
    ∃ t, terminator = [t] ∧ t.kind = .semicolon

theorem Specifies.kind_ne_ending {body inner : List Token} {s : Token}
    (h : Specifies body inner s) : ∀ t ∈ body, t.kind ≠ .ending := by
  rw [h.split]
  exact List.forall_mem_append.mpr ⟨h.front.kind_ne_ending, by simp [h.specifier]⟩

theorem unreadSize_specifier {s : Token} {terminator behind : List Token} (hs : s.kind = .string)
    (h : Terminates terminator behind) :
    unreadSize 0 (s :: (terminator ++ behind)) = 1 + terminator.length := by
  rw [unreadSize_cons, if_neg (by simp [hs]), if_neg (by simp [hs]), if_pos ⟨rfl, hs⟩]
  rcases h with ⟨rfl, hbehind⟩ | ⟨t, rfl, ht⟩
  · exact if_neg hbehind
  · exact if_pos ht

theorem not_breaks_specifier {s : Token} (hs : s.kind = .string) (inside : List Token) :
    ¬ Breaks inside s := by
  simp [Breaks, hs, Kind.continuesLine]

/-- Where the tokens behind the keyword of a statement that cannot be read are cut: those that the
statement takes, and those behind it. -/
def unreadCut (tokens : List Token) : List Token × List Token :=
  (tokens.take (unreadSize 0 tokens), tokens.drop (unreadSize 0 tokens))

theorem unreadCut_of_size {us vs : List Token} (h : unreadSize 0 (us ++ vs) = us.length) :
    unreadCut (us ++ vs) = (us, vs) := by
  rw [unreadCut, h, List.take_left, List.drop_left]

/-- Without a line that breaks it a statement ends where it is written to end. -/
theorem Specifies.unreadCut_of_unbroken {body inner terminator behind : List Token} {s : Token}
    (h : Specifies body inner s) (hgoes : Unbroken body)
    (hterminates : Terminates terminator behind) :
    unreadCut (body ++ (terminator ++ behind)) = (body ++ terminator, behind) := by
  have hinner : Unbroken inner := Unbroken.left (h.split ▸ hgoes)
  have hsize := unreadSize_inner h.front hinner ([s] ++ (terminator ++ behind))
  rw [openBrackets_nil, List.nil_append, h.outside, List.singleton_append,
    unreadSize_specifier h.specifier hterminates] at hsize
  rw [← List.append_assoc]
  apply unreadCut_of_size
  rw [h.split, List.append_assoc, List.append_assoc, List.singleton_append, hsize]
  simp [Nat.add_comm]

/-- A line that breaks a statement ends it, if no line before does. -/
theorem Specifies.unreadCut_of_breaks {body inner inside after : List Token} {s t : Token}
    (h : Specifies body inner s) (hsplit : body = inside ++ t :: after) (hgoes : Unbroken inside)
    (hbreaks : Breaks inside t) (rest : List Token) :
    unreadCut (body ++ rest) = (inside, t :: (after ++ rest)) := by
  -- The module specifier breaks nothing, so the token stands in front of it.
  obtain ⟨after', hafter⟩ : ∃ after', inner = inside ++ t :: after' := by
    rcases List.eq_nil_or_concat after with rfl | ⟨after', u, rfl⟩
    · obtain ⟨_, hlast⟩ := List.append_inj' (h.split.symm.trans hsplit) rfl
      obtain rfl := List.singleton_inj.mp hlast
      exact absurd hbreaks (not_breaks_specifier h.specifier inside)
    · rw [List.concat_eq_append, ← List.cons_append, ← List.append_assoc] at hsplit
      exact ⟨after', (List.append_inj' (h.split.symm.trans hsplit) rfl).1⟩
  have hinner := h.front
  rw [hafter] at hinner
  obtain ⟨hinside, hbehind⟩ := hinner.of_append
  obtain _ | ⟨visible, outside, _⟩ := hbehind
  have hsize := unreadSize_inner hinside hgoes (t :: (after ++ rest))
  rw [List.nil_append, hbreaks.unreadSize_eq visible (outside hbreaks.1).1, openBrackets_nil,
    Nat.add_zero] at hsize
  rw [hsplit, List.append_assoc, List.cons_append]
  exact unreadCut_of_size hsize

/-! ## Statements that are refused -/

/-- Tokens behind the keyword of a statement that is refused, up to its module specifier, with the
error it is refused with: it binds nothing, or it binds a default and, behind a comma, single
exports or the module as a whole. -/
inductive Refused (keyword : Token) : List Token → ParseError → Prop
  | effect {s : Token} (specifier : s.kind = .string) :
      Refused keyword [s] ⟨.noBindings, keyword.span.merge s.span⟩
  | named {w comma opening closing : Token} {us vs : List Token} {source : Text}
      (isName : w.kind.isName = true) (separator : comma.kind = .comma)
      (opens : opening.kind = .leftBrace)
      (clause : us = [] ∨ ∃ items, ImportSpec.WritesItems false us items)
      (closes : closing.kind = .rightBrace) (from' : ImportSpec.WritesSource vs source) :
      Refused keyword (w :: comma :: opening :: (us ++ closing :: vs))
        ⟨.mixedBindings, keyword.span.merge comma.span⟩
  | whole {w comma star a n : Token} {vs : List Token} {source : Text}
      (isName : w.kind.isName = true) (separator : comma.kind = .comma) (all : star.kind = .star)
      (as : a.kind = .keyword .asWord) (isName' : n.kind.isName = true)
      (from' : ImportSpec.WritesSource vs source) :
      Refused keyword (w :: comma :: star :: a :: n :: vs)
        ⟨.mixedBindings, keyword.span.merge comma.span⟩

theorem clauseModifier_comma {w comma : Token} (rest : List Token) (hcomma : comma.kind = .comma) :
    ImportSpec.clauseModifier (w :: comma :: rest) = (false, w :: comma :: rest) := by
  have hhead : Token.headKind (comma :: rest) = .comma := hcomma
  rw [ImportSpec.clauseModifier, if_neg fun h => h.2 (Or.inr hhead)]

/-- A name in front of a comma is refused. -/
theorem bindings_mixed {keyword : Span} {w comma : Token} (rest : List Token)
    (hw : w.kind.isName = true) (hcomma : comma.kind = .comma) :
    ImportSpec.bindings keyword false (w :: comma :: rest) =
      .error ⟨.mixedBindings, keyword.merge comma.span⟩ := by
  have hread : ImportSpec.defaultBinding keyword (w :: comma :: rest) =
      .error ⟨.mixedBindings, keyword.merge comma.span⟩ := by
    simp [ImportSpec.defaultBinding, ImportSpec.bindingName, hw, ImportSpec.current, hcomma, bind,
      Except.bind, throw, throwThe, MonadExceptOf.throw]
  rw [ImportSpec.bindings_eq]
  have hkind : (ImportSpec.current (w :: comma :: rest)).kind = w.kind := rfl
  rw [hkind]
  rcases ImportSpec.Kind.eq_of_isName hw with hw' | ⟨word, hw'⟩ <;> rw [hw'] <;> exact hread

theorem statement_of_bindings {keyword : Token} {tokens : List Token} {e : ParseError}
    (hkeyword : keyword.kind = .keyword .importWord)
    (hmodifier : ImportSpec.clauseModifier tokens = (false, tokens))
    (h : ImportSpec.bindings keyword.span false tokens = .error e) :
    ImportSpec.statement (keyword :: tokens) = .error e := by
  simp [ImportSpec.statement, ImportSpec.unterminated, ImportSpec.expect, hkeyword, hmodifier, h,
    bind, Except.bind, Except.map]

theorem Refused.statement_eq_error {keyword : Token} {body : List Token} {e : ParseError}
    (h : Refused keyword body e) (hkeyword : keyword.kind = .keyword .importWord)
    (rest : List Token) : ImportSpec.statement (keyword :: (body ++ rest)) = .error e := by
  cases h with
  | @effect s hs =>
    refine statement_of_bindings hkeyword ?_ ?_
    · rw [List.cons_append, ImportSpec.clauseModifier, if_neg fun h => by simp [hs] at h]
    · have hkind : (ImportSpec.current ([s] ++ rest)).kind = .string := hs
      rw [ImportSpec.bindings_eq, hkind]
      rfl
  | named isName separator =>
    exact statement_of_bindings hkeyword (clauseModifier_comma _ separator)
      (bindings_mixed _ isName separator)
  | whole isName separator =>
    exact statement_of_bindings hkeyword (clauseModifier_comma _ separator)
      (bindings_mixed _ isName separator)

/-! ## The tokens of a refused statement -/

/-- Kinds that no statement ends at inside of brackets and that open and close none. -/
def IsFlat (kind : Kind) : Prop := kind ≠ .ending ∧ ∀ depth, nesting false depth kind = depth

theorem IsFlat.of_isName {kind : Kind} (h : kind.isName = true) : IsFlat kind := by
  rcases ImportSpec.Kind.eq_of_isName h with rfl | ⟨word, rfl⟩ <;> exact ⟨by simp, fun _ => rfl⟩

theorem IsFlat.of_eq {kind other : Kind} (h : kind = other) (hflat : IsFlat other) :
    IsFlat kind := h ▸ hflat

theorem isFlat_string : IsFlat .string := ⟨by simp, fun _ => rfl⟩

theorem isFlat_comma : IsFlat .comma := ⟨by simp, fun _ => rfl⟩

theorem isFlat_keyword (word : Keyword) : IsFlat (.keyword word) := ⟨by simp, fun _ => rfl⟩

theorem isFlat_exportedName {t : Token} (h : ImportSpec.IsExportedName t) : IsFlat t.kind := by
  rcases h with h | h
  · exact isFlat_string.of_eq h
  · exact .of_isName h

theorem isFlat_item {clauseType : Bool} {us : List Token} {i : NamedImport}
    (h : ImportSpec.WritesItem clauseType us i) : ∀ t ∈ us, IsFlat t.kind := by
  cases h with
  | name exported => simpa using isFlat_exportedName exported
  | modified modifier exported =>
    simpa using ⟨(isFlat_keyword _).of_eq modifier, isFlat_exportedName exported⟩
  | renamed exported as isName =>
    simpa using ⟨isFlat_exportedName exported, (isFlat_keyword _).of_eq as, IsFlat.of_isName isName⟩
  | modifiedRenamed modifier exported as isName =>
    simpa using ⟨(isFlat_keyword _).of_eq modifier, isFlat_exportedName exported,
      (isFlat_keyword _).of_eq as, IsFlat.of_isName isName⟩

theorem isFlat_items {clauseType : Bool} {us : List Token} {items : List NamedImport}
    (h : ImportSpec.WritesItems clauseType us items) : ∀ t ∈ us, IsFlat t.kind := by
  induction h with
  | last item => exact isFlat_item item
  | trailing item separator =>
    exact List.forall_mem_append.mpr
      ⟨isFlat_item item, by simpa using isFlat_comma.of_eq separator⟩
  | more item separator _ ih =>
    exact List.forall_mem_append.mpr
      ⟨isFlat_item item, List.forall_mem_cons.mpr ⟨isFlat_comma.of_eq separator, ih⟩⟩

/-- Kinds that no statement ends at outside of brackets either. -/
def IsOuter (kind : Kind) : Prop := IsFlat kind ∧ kind ≠ .semicolon ∧ kind ≠ .string

theorem IsOuter.of_isName {kind : Kind} (h : kind.isName = true) : IsOuter kind := by
  refine ⟨.of_isName h, ?_⟩
  rcases ImportSpec.Kind.eq_of_isName h with rfl | ⟨word, rfl⟩ <;> simp

theorem IsOuter.of_eq {kind other : Kind} (h : kind = other) (houter : IsOuter other) :
    IsOuter kind := h ▸ houter

theorem isOuter_comma : IsOuter .comma := ⟨isFlat_comma, by simp⟩

theorem isOuter_star : IsOuter .star := ⟨⟨by simp, fun _ => rfl⟩, by simp⟩

theorem isOuter_keyword (word : Keyword) : IsOuter (.keyword word) :=
  ⟨isFlat_keyword word, by simp⟩

/-- No statement ends at tokens that open and close no bracket, provided that they are inside of
brackets or none of them is a semicolon or a string. -/
theorem inner_of_isFlat (front : List Token) {us : List Token} (hflat : ∀ t ∈ us, IsFlat t.kind)
    (houter : openBrackets front = 0 → ∀ t ∈ us, IsOuter t.kind) :
    Inner front us ∧ openBrackets (front ++ us) = openBrackets front := by
  induction us generalizing front with
  | nil => exact ⟨.nil, by simp⟩
  | cons t us ih =>
    obtain ⟨⟨visible, hnesting⟩, hus⟩ := List.forall_mem_cons.mp hflat
    have hsame : openBrackets (front ++ [t]) = openBrackets front := by
      rw [openBrackets_concat, hnesting]
    obtain ⟨hinner, hdepth⟩ := ih (front ++ [t]) hus
      (hsame ▸ fun h => (List.forall_mem_cons.mp (houter h)).2)
    refine ⟨.cons visible (fun h => (houter h t List.mem_cons_self).2) hinner, ?_⟩
    rw [← hsame, ← hdepth, List.append_assoc, List.singleton_append]

theorem inner_of_isOuter (front : List Token) {us : List Token} (h : ∀ t ∈ us, IsOuter t.kind) :
    Inner front us ∧ openBrackets (front ++ us) = openBrackets front :=
  inner_of_isFlat front (fun t ht => (h t ht).1) fun _ => h

/-- No statement ends between braces and at the braces. -/
theorem inner_of_braces (front : List Token) {us : List Token} {opening closing : Token}
    (opens : opening.kind = .leftBrace) (hflat : ∀ t ∈ us, IsFlat t.kind)
    (closes : closing.kind = .rightBrace) : Inner front (opening :: (us ++ [closing])) ∧
      openBrackets (front ++ (opening :: (us ++ [closing]))) = openBrackets front := by
  have hopen : openBrackets (front ++ [opening]) = openBrackets front + 1 := by
    rw [openBrackets_concat, opens]
    rfl
  obtain ⟨hus, hdepth⟩ := inner_of_isFlat (front ++ [opening]) hflat (by simp [hopen])
  have hclosing : Inner (front ++ [opening] ++ us) [closing] :=
    .cons (by simp [closes]) (by simp [closes]) .nil
  refine ⟨.cons (by simp [opens]) (by simp [opens]) (hus.append hclosing), ?_⟩
  have hsplit : front ++ (opening :: (us ++ [closing])) =
      front ++ [opening] ++ us ++ [closing] := by simp
  rw [hsplit, openBrackets_concat, hdepth, hopen, closes]
  rfl

theorem Refused.exists_specifies {keyword : Token} {body : List Token} {e : ParseError}
    (h : Refused keyword body e) : ∃ inner s, Specifies body inner s := by
  cases h with
  | @effect s specifier => exact ⟨[], s, rfl, .nil, rfl, specifier⟩
  | @named w comma opening closing us _ _ isName separator opens clause closes from' =>
    obtain @⟨f, s, hfrom, hspecifier⟩ := from'
    have hflat : ∀ t ∈ us, IsFlat t.kind := by
      rcases clause with rfl | ⟨items, hitems⟩
      · simp
      · exact isFlat_items hitems
    obtain ⟨hfront, hfrontDepth⟩ := inner_of_isOuter [] (List.forall_mem_cons.mpr
      ⟨IsOuter.of_isName isName, List.forall_mem_singleton.mpr (isOuter_comma.of_eq separator)⟩)
    obtain ⟨hbraces, hbracesDepth⟩ := inner_of_braces [w, comma] opens hflat closes
    obtain ⟨hbehind, hbehindDepth⟩ := inner_of_isOuter
      ([w, comma] ++ (opening :: (us ++ [closing])))
      (List.forall_mem_singleton.mpr ((isOuter_keyword _).of_eq hfrom))
    refine ⟨[w, comma] ++ (opening :: (us ++ [closing])) ++ [f], s, by simp, ?_, ?_, hspecifier⟩
    · exact (hfront.append hbraces).append hbehind
    · rw [hbehindDepth, hbracesDepth]
      exact hfrontDepth
  | @whole w comma star a n _ _ isName separator all as isName' from' =>
    obtain @⟨f, s, hfrom, hspecifier⟩ := from'
    have houter : ∀ t ∈ [w, comma, star, a, n, f], IsOuter t.kind := by
      simpa using ⟨IsOuter.of_isName isName, isOuter_comma.of_eq separator,
        isOuter_star.of_eq all, (isOuter_keyword _).of_eq as, IsOuter.of_isName isName',
        (isOuter_keyword _).of_eq hfrom⟩
    obtain ⟨hinner, hdepth⟩ := inner_of_isOuter [] houter
    exact ⟨[w, comma, star, a, n, f], s, rfl, hinner, hdepth, hspecifier⟩

/-! ## Where a refused statement is found -/

/-- A statement that is refused where it stands is one of the pieces, as far as it is taken to
reach. -/
theorem Refused.exists_piece {source : Text} {before body rest : List Token} {first : Token}
    {e : ParseError} (h : Refused first body e)
    (htokens : Token.ofText source = before ++ first :: (body ++ rest))
    (hbegins : BeginsAt before first (body ++ rest))
    (houtside : ¬ ∃ s ∈ ofText source,
      s.span.start < first.span.start ∧ first.span.start < s.span.stop) :
    ∃ front behind, pieces (Token.ofText source) =
          front ++ .statement ⟨first, (unreadCut (body ++ rest)).1, .error e⟩ :: behind ∧
      front.flatMap Piece.tokens = before ∧
      behind.flatMap Piece.tokens = (unreadCut (body ++ rest)).2 := by
  have hplaced := Token.placed_ofTextAt 0 source
  have hvisible : Visible (Token.ofText source) := fun t ht hkind => Token.start_lt_stop ht hkind
  have houtside' : ¬ ∃ s ∈ foundAfter none (Token.ofText source),
      s.span.start < first.span.start ∧ first.span.start < s.span.stop := houtside
  rw [← Token.ofText] at hplaced
  rw [htokens] at hplaced hvisible houtside'
  obtain ⟨front, hpieces, hfront⟩ := piecesAfter_append none hplaced hvisible houtside'
  have hextent : extent first (body ++ rest) = (unreadSize 0 (body ++ rest), .error e) := by
    rw [extent, h.statement_eq_error hbegins.1]
  rw [piecesAfter_cons, if_pos (starts_iff.mpr hbegins), hextent] at hpieces
  exact ⟨front, _, by rw [pieces, htokens]; exact hpieces, hfront, flatMap_tokens_piecesAfter _ _⟩

theorem endOf_cons (first : Token) (us : List Token) :
    Token.endOf (first :: us) = (us.getLastD first).stop := by
  rw [Token.endOf, List.getLast?_cons, List.getLastD_eq_getLast?]
  rfl

/-- A statement ranges to the end of its last token. -/
theorem span_eq_endOf {s : ImportStatement} {offset n : Nat} {rest : List Token}
    (h : Token.Placed offset (s.first :: rest)) (hothers : s.others = rest.take n) :
    s.span = ⟨s.first.span.start, Token.endOf s.tokens⟩ := by
  rw [span_eq h hothers, tokens, endOf_cons, hothers, (h.last n).1, text, tokens, hothers]
  rfl

/-- Tokens end behind the first of them. -/
theorem endOf_lt {offset : Nat} {first t : Token} {inside more behind : List Token}
    (h : Token.Placed offset (first :: (inside ++ t :: (more ++ behind))))
    (ht : t.span.start < t.span.stop) :
    Token.endOf (first :: inside) < Token.endOf (first :: (inside ++ t :: more)) := by
  have hinside := (h.last inside.length).1
  have hmore := (h.last (inside ++ t :: more).length).1
  rw [List.take_left] at hinside
  rw [← List.cons_append, ← List.append_assoc, List.take_left] at hmore
  rw [endOf_cons, endOf_cons, hinside, hmore]
  simp only [Token.span, Token.stop] at ht
  simp only [Token.joined, Token.source, List.map_append, List.map_cons, List.flatten_append,
    List.flatten_cons, Text.bytes_append]
  omega

end ImportStatement

/-! ## Statements that are handed back -/

namespace Inliner

variable [PatternCompiler]

theorem gather_preserved (inliner : Inliner) (d : Disk) (file : Option Path)
    (state : Context × Harvest) (s : ImportStatement) :
    state.2.preserved <+: (inliner.gather d file state s).2.preserved := by
  unfold gather
  dsimp only
  split
  · exact List.prefix_rfl
  · exact List.prefix_append _ _

/-- A statement that cannot be read is handed back. -/
theorem mem_preserved {inliner : Inliner} {d : Disk} {ctx : Context}
    {statements : List ImportStatement} {file : Option Path} {s : ImportStatement} {e : ParseError}
    (hs : s ∈ statements) (he : s.outcome = .error e) :
    s.text ∈ (inliner.harvest d ctx statements file).2.preserved := by
  unfold harvest
  induction statements using List.reverseRecOn with
  | nil => simp at hs
  | append_singleton statements u ih =>
    rw [List.foldl_append]
    rcases List.mem_append.mp hs with hs | hs
    · exact (gather_preserved inliner d file _ u).subset (ih hs)
    · obtain rfl := List.mem_singleton.mp hs
      simp [gather, resolveStatement, he]

end Inliner

namespace ImportStatement

/-- A statement that is refused, wherever it stands in a source, is found there, with the error it
is refused with, and its text is handed back. It ranges from the keyword to the module specifier, or
to the semicolon behind it, exactly if no line breaks it. If one does, it ends in front of the token
on the new line, which with all that follows is left in the code. -/
theorem refused_is_whole_iff_unbroken [PatternCompiler] (source : Text)
    {before body terminator behind : List Token} {first : Token} {e : ParseError}
    (htokens : Token.ofText source = before ++ first :: (body ++ (terminator ++ behind)))
    (hbegins : BeginsAt before first (body ++ (terminator ++ behind)))
    (houtside : ¬ ∃ s ∈ ofText source,
      s.span.start < first.span.start ∧ first.span.start < s.span.stop)
    (hrefused : Refused first body e) (hterminates : Terminates terminator behind) :
    ∃ front s rest, pieces (Token.ofText source) = front ++ .statement s :: rest ∧
      front.flatMap Piece.tokens = before ∧ s.first = first ∧ s.outcome = .error e ∧
      (∀ (inliner : Inliner) (d : Disk) (ctx : Context) (file : Option Path),
        s.text ∈ (inliner.inline d ctx source file).1.preserved) ∧
      (s.span = ⟨first.span.start, Token.endOf (first :: (body ++ terminator))⟩ ↔
        Unbroken body) ∧
      (Unbroken body →
        s.tokens = first :: (body ++ terminator) ∧ rest.flatMap Piece.tokens = behind) ∧
      ∀ inside t after, body = inside ++ t :: after → Unbroken inside → Breaks inside t →
        s.tokens = first :: inside ∧
          rest.flatMap Piece.tokens = t :: (after ++ (terminator ++ behind)) := by
  obtain ⟨front, rest, hpieces, hfront, hrest⟩ :=
    hrefused.exists_piece htokens hbegins houtside
  obtain ⟨inner, s, hspecifies⟩ := hrefused.exists_specifies
  obtain ⟨offset, hplaced⟩ : ∃ offset,
      Token.Placed offset (first :: (body ++ (terminator ++ behind))) := by
    have h := Token.placed_ofTextAt 0 source
    rw [← Token.ofText, htokens] at h
    exact h.exists_suffix
  have hspan := span_eq_endOf
    (s := ⟨first, (unreadCut (body ++ (terminator ++ behind))).1, .error e⟩) hplaced rfl
  have hwhole (hgoes : Unbroken body) := hspecifies.unreadCut_of_unbroken hgoes hterminates
  refine ⟨front, _, rest, hpieces, hfront, rfl, rfl, fun inliner d ctx file => ?_, ⟨?_, ?_⟩, ?_, ?_⟩
  · exact Inliner.mem_preserved (mem_foundAfter hpieces) rfl
  · intro hends
    by_contra hgoes
    obtain ⟨inside, t, after, rfl, hinside, hbreaks⟩ := exists_breaks hgoes
    have hvisible : t.span.start < t.span.stop :=
      Token.start_lt_stop (by rw [htokens]; simp) (hspecifies.kind_ne_ending t (by simp))
    rw [hspan, tokens, hspecifies.unreadCut_of_breaks rfl hinside hbreaks] at hends
    have hstop := congrArg Span.stop hends
    rw [List.append_assoc, List.cons_append, ← List.append_assoc] at hplaced
    rw [List.append_assoc, List.cons_append] at hstop
    exact absurd hstop (Nat.ne_of_lt (endOf_lt hplaced hvisible))
  · intro hgoes
    rw [hspan, tokens, hwhole hgoes]
  · intro hgoes
    rw [tokens, hrest, hwhole hgoes]
    exact ⟨rfl, rfl⟩
  · intro inside t after hsplit hinside hbreaks
    rw [tokens, hrest, hspecifies.unreadCut_of_breaks hsplit hinside hbreaks]
    exact ⟨rfl, rfl⟩

/-- The tokens of a statement that binds a default and one export. -/
theorem exists_refused_of_kinds (keyword : Token) (body : List Token)
    (h : body.map Token.kind = [.identifier, .comma, .leftBrace, .identifier, .rightBrace,
      .keyword .fromWord, .string]) : ∃ e, Refused keyword body e := by
  obtain ⟨w, _, rfl, hw, h⟩ := List.map_eq_cons_iff.mp h
  obtain ⟨comma, _, rfl, hcomma, h⟩ := List.map_eq_cons_iff.mp h
  obtain ⟨opening, _, rfl, hopening, h⟩ := List.map_eq_cons_iff.mp h
  obtain ⟨i, _, rfl, hi, h⟩ := List.map_eq_cons_iff.mp h
  obtain ⟨closing, _, rfl, hclosing, h⟩ := List.map_eq_cons_iff.mp h
  obtain ⟨f, _, rfl, hf, h⟩ := List.map_eq_cons_iff.mp h
  obtain ⟨s, _, rfl, hs, h⟩ := List.map_eq_cons_iff.mp h
  obtain rfl := List.map_eq_nil_iff.mp h
  have hitems : ImportSpec.WritesItems false [i] _ := .last (.name (Or.inr (by rw [hi]; rfl)))
  have hrefused : Refused keyword (w :: comma :: opening :: ([i] ++ closing :: [f, s])) _ :=
    .named (by rw [hw]; rfl) hcomma hopening (Or.inr ⟨_, hitems⟩) hclosing ⟨hf, hs⟩
  exact ⟨_, hrefused⟩

/-- No line breaks an import for the effect of a module: it is whole in every layout. -/
theorem unbroken_effect {s : Token} (hs : s.kind = .string) : Unbroken [s] := by
  intro inside t after hsplit
  have hmem : t ∈ [s] := by rw [hsplit]; simp
  obtain rfl := List.mem_singleton.mp hmem
  exact not_breaks_specifier hs inside

/-- A statement that is refused, with line breaks between its braces and in front of `from`. -/
def spreadImport : Text := "import A, \x7b // b\n  B\n\x7d\nfrom 'm';\nb;".toList

open scoped PatternCompiler in
theorem spreadImport_is_whole : ∃ front s rest,
    pieces (Token.ofText spreadImport) = front ++ .statement s :: rest ∧
    s.text = "import A, \x7b // b\n  B\n\x7d\nfrom 'm';".toList ∧
    ∀ (inliner : Inliner) (d : Disk) (ctx : Context) (file : Option Path),
      s.text ∈ (inliner.inline d ctx spreadImport file).1.preserved := by
  let tokens := Token.ofText spreadImport
  obtain ⟨e, hrefused⟩ := exists_refused_of_kinds (tokens.headD .nowhere) ((tokens.drop 1).take 7)
    (by decide +kernel)
  have hterminates : Terminates ((tokens.drop 8).take 1) (tokens.drop 9) :=
    Or.inr ⟨(tokens.drop 8).headD .nowhere, by decide +kernel⟩
  obtain ⟨front, s, rest, hpieces, _, _, _, hpreserved, _, hwhole, _⟩ :=
    @refused_is_whole_iff_unbroken _ spreadImport [] _ _ _ _ _ (by decide +kernel)
      ⟨by decide +kernel, Or.inl rfl, by decide +kernel⟩ (by decide +kernel) hrefused hterminates
  refine ⟨front, s, rest, hpieces, ?_, hpreserved⟩
  rw [text, (hwhole (by decide +kernel)).1]
  decide +kernel

/-- A statement that is refused, with a line break in front of its comma. -/
def brokenImport : Text := "import A\n  , \x7b B \x7d from 'm';\nb;".toList

/-- A refused statement at the beginning of a source, with a new line behind its semicolon, is taken
to end where its first line does, and the rest of it stays in the code. -/
theorem brokenImport_is_cut : ∃ first body terminator behind e,
    Token.ofText brokenImport = first :: (body ++ (terminator ++ behind)) ∧
    BeginsAt [] first (body ++ (terminator ++ behind)) ∧ Refused first body e ∧
    Terminates terminator behind ∧ (∀ u ∈ behind.head?, u.newline = true) ∧
    (⟨first.span.start, Token.endOf (first :: (body ++ terminator))⟩ : Span) = ⟨0, 28⟩ ∧
    (ofText brokenImport).map span = [⟨0, 8⟩] ∧
    remainder (pieces (Token.ofText brokenImport)) =
      "  , \x7b B \x7d from 'm';\nb;".toList := by
  let tokens := Token.ofText brokenImport
  obtain ⟨e, hrefused⟩ := exists_refused_of_kinds (tokens.headD .nowhere) ((tokens.drop 1).take 7)
    (by decide +kernel)
  have hterminates : Terminates ((tokens.drop 8).take 1) (tokens.drop 9) :=
    Or.inr ⟨(tokens.drop 8).headD .nowhere, by decide +kernel⟩
  refine ⟨_, _, _, _, e, ?_, ⟨?_, Or.inl rfl, ?_⟩, hrefused, hterminates, ?_⟩
  all_goals decide +kernel

end ImportStatement

end TypeInliner
