import TypeInliner.Inliner
import TypeInliner.Proofs.StatementStarts
import TypeInliner.Proofs.TokenNeighbours

/-! # The tokens that remain without the statements

A source without its import statements has the tokens that stood outside of them, and no other. A
statement begins on a new line or behind a mark that nothing continues, and what stood in front of
it then stands in front of the next token that remains. -/

namespace TypeInliner

namespace ImportStatement

/-! ## What stands behind a token that remains -/

/-- Texts that are the same up to a border, behind which both begin with the same separator or both
end. -/
def PartsAt (t t' : Text) : Prop :=
  ∃ s b b', t = s ++ b ∧ t' = s ++ b' ∧ b.head? = b'.head? ∧
    ∀ d ∈ b'.head?, Token.separates d = true

theorem PartsAt.refl (t : Text) : PartsAt t t := ⟨t, [], [], by simp, by simp, rfl, by simp⟩

theorem PartsAt.append {t t' : Text} (front : Text) (h : PartsAt t t') :
    PartsAt (front ++ t) (front ++ t') := by
  obtain ⟨s, b, b', rfl, rfl, hborder⟩ := h
  exact ⟨front ++ s, b, b', by rw [List.append_assoc], by rw [List.append_assoc], hborder⟩

/-- Texts that begin with a separator part at their beginning. -/
theorem PartsAt.of_front {front : Text} (hne : front ≠ [])
    (h : ∀ d ∈ front.head?, Token.separates d = true) (t t' : Text) :
    PartsAt (front ++ t) (front ++ t') := by
  obtain ⟨c, front, rfl⟩ := List.exists_cons_of_ne_nil hne
  exact ⟨[], _, _, rfl, rfl, rfl, h⟩

/-- A token is read again where what stands behind it parts from what stood there. -/
theorem PartsAt.readsFront {offset : Nat} {t behind behind' : Text} {tok : Token}
    (hparts : PartsAt behind behind') (h : Token.ReadsFront offset t tok behind) {gap : Text}
    (hspacing : Token.Spacing gap) (other : Nat) :
    Token.ReadsFront other (gap ++ (tok.text ++ behind')) (tok.withGap gap other) behind' := by
  obtain ⟨s, b, b', rfl, rfl, hhead, hseparates⟩ := hparts
  exact h.exchange hseparates (fun _ d hd => Or.inl (hhead.trans hd)) hspacing
    other

/-- A keyword on a new line has a gap. -/
theorem gap_ne_nil_of_newline {offset : Nat} {t behind : Text} {tok : Token}
    (h : Token.ReadsFront offset t tok behind) (hkind : tok.kind = .keyword .importWord)
    (hnewline : tok.newline = true) : tok.gap ≠ [] := by
  have hcomment : Token.opensComment tok.text = false := by
    by_contra hopens
    have hmalformed := (h.opensComment_iff_unfinished.mp (by simpa using hopens)).1
    simp [hkind] at hmalformed
  intro hgap
  rw [h.newline, hcomment, hgap] at hnewline
  simp at hnewline

theorem starts_iff_kinds {before : Option Kind} {t : Token} {rest : List Token} :
    starts before t rest = true ↔ t.kind = .keyword .importWord ∧
      Token.headKind rest ≠ .leftParen ∧ Token.headKind rest ≠ .dot ∧
        t.startsStatement before = true := by
  simp [starts, and_assoc]

theorem piecesAfter_ending (before : Option Kind) (offset : Nat) (gap : Text) :
    piecesAfter before [Token.endingAt offset gap] = [.other (Token.endingAt offset gap)] := by
  have hstarts : starts before (Token.endingAt offset gap) [] = false := by
    simp [starts, Token.endingAt]
  rw [piecesAfter_cons, hstarts, piecesAfter]
  rfl

/-- Behind a token the text that remains is the text that was there, up to a border in front of a
statement, unless the token is a mark that nothing continues. -/
theorem partsAt_remainder (kind : Kind) (offset : Nat) (t : Text) :
    Token.endsStatement kind = true ∨
      PartsAt t (remainderAfter false (piecesAfter (some kind) (Token.ofTextAt offset t))) := by
  induction hn : t.length using Nat.strongRecOn generalizing kind offset t with
  | ind n ih =>
    rcases Token.ofTextAt_cases offset t with hending | ⟨tok, behind, h⟩
    · right
      rw [hending, piecesAfter_ending]
      simpa [remainderAfter, Token.endingAt] using PartsAt.refl t
    have hsource : t = tok.gap ++ (tok.text ++ behind) := h.source
    rw [h.ofTextAt_eq, piecesAfter_cons]
    split
    · next hstarts =>
      obtain ⟨hkind, _, _, hstart⟩ := starts_iff_kinds.mp hstarts
      by_cases hends : Token.endsStatement kind = true
      · exact Or.inl hends
      have hnewline : tok.newline = true := by
        simp only [Token.endsStatement, Bool.or_eq_true, not_or] at hends
        simpa [Token.startsStatement, hends] using hstart
      right
      have hparts := PartsAt.of_front (gap_ne_nil_of_newline h hkind hnewline) h.spacing.separates
      conv_lhs => rw [hsource]
      exact hparts _ _
    · right
      have hremains : ∀ rest : List Piece, remainderAfter false (.other tok :: rest) =
          tok.gap ++ (tok.text ++ remainderAfter false rest) := by
        intro rest
        simp [remainderAfter]
      rw [hremains]
      conv_lhs => rw [hsource]
      rcases ih behind.length (by rw [← hn]; exact h.length_lt) tok.kind tok.stop behind rfl with
        hends | hparts
      · obtain ⟨c, htext, hc⟩ := h.text_of_endsStatement hends
        rw [htext, ← List.append_assoc, ← List.append_assoc]
        refine PartsAt.of_front (by simp) ?_ _ _
        intro d hd
        cases hgap : tok.gap with
        | nil =>
          rw [hgap] at hd
          obtain rfl := Option.some.inj hd
          rcases hc with rfl | rfl <;> decide
        | cons e gap =>
          rw [hgap] at hd
          exact h.spacing.separates d (by rw [hgap]; exact hd)
      · exact (hparts.append tok.text).append tok.gap

/-! ## The tokens that remain -/

/-- What stands in front of a token that remains: what stood in front of the statements before it,
and its own gap, without the line feed that goes with a statement. -/
def leftGap (lead : Text) (behindStatement : Bool) (gap : Text) : Text :=
  lead ++ (if behindStatement then Text.dropLineFeed gap else gap)

/-- The tokens of a text without its statements. -/
def remainingTokens (offset : Nat) (lead : Text) (behindStatement : Bool) :
    List Piece → List Token
  | [] => []
  | .other t :: rest =>
    let left := t.withGap (leftGap lead behindStatement t.gap) offset
    left :: remainingTokens left.stop [] false rest
  | .statement s :: rest =>
    remainingTokens offset (leftGap lead behindStatement s.first.gap) true rest

theorem leftGap_spacing {lead gap : Text} (hlead : Token.Spacing lead) (hgap : Token.Spacing gap)
    (behindStatement : Bool) : Token.Spacing (leftGap lead behindStatement gap) := by
  unfold leftGap
  split
  · exact hlead.append hgap.dropLineFeed
  · exact hlead.append hgap

theorem gapSize_dropLineFeed {t : Text} (h : Token.gapSize t = t.length) :
    Token.gapSize (Text.dropLineFeed t) = (Text.dropLineFeed t).length := by
  unfold Text.dropLineFeed
  split
  · next u =>
    rw [Token.gapSize_of_blank (by decide), List.length_cons] at h
    omega
  · exact h

theorem leftGap_ending {lead t : Text} (hlead : Token.Spacing lead)
    (ht : Token.gapSize t = t.length) (behindStatement : Bool) :
    Token.gapSize (leftGap lead behindStatement t) = (leftGap lead behindStatement t).length := by
  unfold leftGap
  rw [hlead.gapSize_append, List.length_append]
  split
  · rw [gapSize_dropLineFeed ht]
  · rw [ht]

theorem exists_mem_ending (offset : Nat) (t : Text) :
    ∃ u ∈ Token.ofTextAt offset t, u.kind = .ending := by
  induction hn : t.length using Nat.strongRecOn generalizing offset t with
  | ind n ih =>
    rcases Token.ofTextAt_cases offset t with hending | ⟨tok, behind, h⟩
    · exact ⟨_, by rw [hending]; exact List.mem_singleton_self _, rfl⟩
    · obtain ⟨u, hu, hkind⟩ := ih _ (by rw [← hn]; exact h.length_lt) tok.stop behind rfl
      exact ⟨u, by rw [h.ofTextAt_eq]; exact List.mem_cons_of_mem _ hu, hkind⟩

/-- Some text stands behind a statement, be it without tokens. -/
theorem exists_behind {offset : Nat} {t behind : Text} {tok : Token}
    (h : Token.ReadsFront offset t tok behind) (hkind : tok.kind = .keyword .importWord) :
    ∃ offset' t', t'.length < t.length ∧
      (Token.ofTextAt tok.stop behind).drop (extent tok (Token.ofTextAt tok.stop behind)).1 =
        Token.ofTextAt offset' t' := by
  generalize hrest : Token.ofTextAt tok.stop behind = rest
  have hne : rest.drop (extent tok rest).1 ≠ [] := by
    intro hnil
    have hstands : StandsIn ⟨tok, rest.take (extent tok rest).1, (extent tok rest).2⟩
        (tok :: rest) := ⟨[], rest, rfl, hkind, rfl, rfl⟩
    obtain ⟨u, hu, hending⟩ := exists_mem_ending tok.stop behind
    rw [hrest, ← List.take_append_drop (extent tok rest).1 rest, hnil, List.append_nil] at hu
    exact hstands.kind_ne_ending u (List.mem_cons_of_mem _ hu) hending
  obtain ⟨t', hsource, hbehind⟩ := Token.ofTextAt_behind
    (hrest.trans (List.take_append_drop (extent tok rest).1 rest).symm) hne
  refine ⟨_, t', ?_, hbehind.symm⟩
  have hlength := congrArg List.length hsource
  have hlt := h.length_lt
  rw [List.length_append] at hlength
  omega

/-- A text without its statements is cut into the tokens that remain. -/
theorem ofTextAt_remainder (before : Option Kind) (offset offset' : Nat) (t : Text) {lead : Text}
    (hlead : Token.Spacing lead) (behindStatement : Bool) :
    Token.ofTextAt offset' (lead ++ remainderAfter behindStatement
        (piecesAfter before (Token.ofTextAt offset t))) =
      remainingTokens offset' lead behindStatement
        (piecesAfter before (Token.ofTextAt offset t)) := by
  induction hn : t.length using Nat.strongRecOn
    generalizing before offset offset' t lead behindStatement with
  | ind n ih =>
    rcases Token.ofTextAt_cases offset t with hending | ⟨tok, behind, h⟩
    · have hgap := leftGap_ending hlead (Token.gapSize_of_ending hending) behindStatement
      have hremains : lead ++ remainderAfter behindStatement [.other (Token.endingAt offset t)] =
          leftGap lead behindStatement t := by
        simp [remainderAfter, leftGap, Token.endingAt]
      rw [hending, piecesAfter_ending, hremains, Token.ofTextAt_of_gap hgap]
      simp [remainingTokens, Token.endingAt, Token.withGap, Token.opensComment]
    have hremains : ∀ (gap tail : Text), lead ++
        ((if behindStatement then Text.dropLineFeed gap else gap) ++ tail) =
          leftGap lead behindStatement gap ++ tail := by
      intro gap tail
      rw [leftGap, List.append_assoc]
    have hspacing := leftGap_spacing hlead h.spacing behindStatement
    rw [h.ofTextAt_eq, piecesAfter_cons]
    split
    · next hstarts =>
      obtain ⟨offset₂, t₂, hlength, hrest⟩ := exists_behind h (starts_iff_kinds.mp hstarts).1
      rw [hrest, remainderAfter, hremains, remainingTokens]
      exact ih t₂.length (by omega) _ offset₂ offset' t₂ hspacing true rfl
    · rw [remainderAfter, List.append_assoc, hremains, remainingTokens]
      generalize hbehind' : remainderAfter false
        (piecesAfter (some tok.kind) (Token.ofTextAt tok.stop behind)) = behind'
      have hread : Token.ReadsFront offset'
          (leftGap lead behindStatement tok.gap ++ (tok.text ++ behind'))
          (tok.withGap (leftGap lead behindStatement tok.gap) offset') behind' := by
        rw [← hbehind']
        rcases partsAt_remainder tok.kind tok.stop behind with hends | hparts
        · exact h.exchange_mark hends _ hspacing offset'
        · exact hparts.readsFront h hspacing offset'
      rw [hread.ofTextAt_eq]
      have htail := ih behind.length (by rw [← hn]; exact h.length_lt) (some tok.kind) tok.stop
        (tok.withGap (leftGap lead behindStatement tok.gap) offset').stop behind .nil false rfl
      rw [List.nil_append, hbehind'] at htail
      rw [htail]

/-! ## Tokens outside of statements -/

/-- The token of a piece outside of all statements. -/
def Piece.other? : Piece → Option Token
  | other t => some t
  | statement _ => none

@[simp] theorem Piece.other?_other (t : Token) : (Piece.other t).other? = some t := rfl

@[simp] theorem Piece.other?_statement (s : ImportStatement) : (Piece.statement s).other? = none :=
  rfl

/-- The token that a piece begins with. -/
def Piece.first : Piece → Token
  | other t => t
  | statement s => s.first

/-- Whether a token lies in the range of a statement. -/
def holds (s : ImportStatement) (t : Token) : Bool :=
  s.span.start ≤ t.span.start && t.span.start < s.span.stop

theorem holds_iff {s : ImportStatement} {t : Token} :
    s.holds t = true ↔ s.span.start ≤ t.start ∧ t.start < s.span.stop := by
  rw [holds, Bool.and_eq_true, decide_eq_true_eq, decide_eq_true_eq]
  rfl

theorem seen_remainingTokens (offset : Nat) (lead : Text) (behindStatement : Bool)
    (pieces : List Piece) : (remainingTokens offset lead behindStatement pieces).map Token.seen =
      (pieces.filterMap Piece.other?).map Token.seen := by
  induction pieces generalizing offset lead behindStatement with
  | nil => rfl
  | cons piece pieces ih =>
    cases piece with
    | other t => simp [remainingTokens, ih]
    | statement s =>
      rw [List.filterMap_cons_none (Piece.other?_statement s), remainingTokens, ih]

theorem Covers.holds {s : ImportStatement} {t : Token} {inside behind : List Token}
    (h : Covers s t inside behind) (ht : t.start < t.stop) :
    (∀ u ∈ t :: inside, s.holds u = true) ∧ ∀ u ∈ behind, ¬ s.holds u = true := by
  have hstart := h.start
  have hstop := h.stop
  refine ⟨?_, ?_⟩
  · intro u hu
    rw [holds_iff]
    rcases List.mem_cons.mp hu with rfl | hu
    · omega
    · obtain ⟨hleft, hright⟩ := h.inside u hu
      omega
  · intro u hu
    have hle := (h.behind.resolve_left (List.ne_nil_of_mem hu)).le_start u hu
    rw [holds_iff]
    omega

/-- What is found behind a token begins behind the start of the token. -/
theorem start_lt_of_found {offset : Nat} {t : Token} {rest : List Token}
    (h : Token.Placed offset (t :: rest)) {s : ImportStatement}
    (hs : s ∈ foundAfter (some t.kind) rest) : t.start < s.span.start := by
  cases h with
  | ending => simp [foundAfter, piecesAfter] at hs
  | @cons _ _ _ c w _ text _ behind =>
    have hle := le_start_of_mem behind hs
    have hpos := c.utf8Size_pos
    simp only [Token.stop, text, Text.bytes_cons] at hle
    omega

/-- The tokens outside of all statements are those that no range of a statement holds. -/
theorem filterMap_other_eq (before : Option Kind) {offset : Nat} {tokens : List Token}
    (h : tokens = [] ∨ Token.Placed offset tokens) (hvisible : Visible tokens) :
    (piecesAfter before tokens).filterMap Piece.other? =
      tokens.filter fun t => !(foundAfter before tokens).any (·.holds t) := by
  induction hn : tokens.length using Nat.strongRecOn generalizing before offset tokens with
  | ind n ih =>
    cases tokens with
    | nil => simp [piecesAfter]
    | cons t rest =>
      have hplaced := h.resolve_left (by simp)
      rw [List.length_cons] at hn
      rw [piecesAfter_cons, foundAfter_cons]
      split
      · next hstarts =>
        have hkeyword := keyword_of_starts hstarts
        have hcovers := covers hplaced hvisible hkeyword
        have ht : t.start < t.stop := hvisible t List.mem_cons_self (by simp [hkeyword])
        generalize extent t rest = size at hcovers ⊢
        obtain ⟨hinside, hbehind⟩ := hcovers.holds ht
        have hsplit : t :: rest = (t :: rest.take size.1) ++ rest.drop size.1 := by
          rw [List.cons_append, List.take_append_drop]
        have htail := ih (rest.drop size.1).length (by rw [List.length_drop]; omega)
          (some ((rest.take size.1).getLastD t).kind) hcovers.behind
          (fun u hu => hvisible u (List.mem_cons_of_mem _ (List.mem_of_mem_drop hu))) rfl
        rw [List.filterMap_cons_none (Piece.other?_statement _), htail]
        conv_rhs =>
          rw [hsplit, List.filter_append,
            List.filter_eq_nil_iff.mpr fun u hu => by simp [hinside u hu], List.nil_append]
        exact List.filter_congr fun u hu => by simp [hbehind u hu]
      · have hleft : ∀ s ∈ foundAfter (some t.kind) rest, ¬ s.holds t = true := by
          intro s hs
          have hlt := start_lt_of_found hplaced hs
          rw [holds_iff]
          omega
        have htail := ih rest.length (by omega) (some t.kind) hplaced.tail
          (fun u hu => hvisible u (List.mem_cons_of_mem _ hu)) rfl
        rw [List.filterMap_cons_some (Piece.other?_other t), htail, List.filter_cons_of_pos]
        simpa using hleft

/-! ## Nothing is found again -/

theorem head?_piecesAfter (before : Option Kind) (tokens : List Token) :
    (piecesAfter before tokens).head?.map Piece.first = tokens.head? := by
  cases tokens with
  | nil => rw [piecesAfter]; rfl
  | cons t rest =>
    rw [piecesAfter_cons]
    split <;> rfl

theorem mem_foundAfter {before : Option Kind} {tokens : List Token} {front behind : List Piece}
    {s : ImportStatement} (h : piecesAfter before tokens = front ++ .statement s :: behind) :
    s ∈ foundAfter before tokens := by
  rw [foundAfter, h]
  exact List.mem_filterMap.mpr ⟨.statement s, by simp, rfl⟩

/-- The first of some tokens that begins at an offset or behind it. -/
def firstFrom (offset : Nat) (tokens : List Token) : Option Token :=
  tokens.find? fun u => offset ≤ u.span.start

theorem firstFrom_of_placed {offset : Nat} {tokens : List Token}
    (h : tokens = [] ∨ Token.Placed offset tokens) : firstFrom offset tokens = tokens.head? := by
  cases tokens with
  | nil => rfl
  | cons t rest =>
    have hle := (h.resolve_left (by simp)).le_start t List.mem_cons_self
    exact List.find?_cons_of_pos (decide_eq_true hle)

/-- No token of a statement begins where the statement or a later one has ended. -/
theorem firstFrom_behind {s : ImportStatement} {t : Token} {inside behind : List Token}
    (h : Covers s t inside behind) (ht : t.start < t.stop) {offset : Nat}
    (hoffset : s.span.stop ≤ offset) :
    firstFrom offset (t :: inside ++ behind) = firstFrom offset behind := by
  rw [firstFrom, List.find?_append, List.find?_eq_none.mpr, Option.none_or]
  · rfl
  intro u hu
  have hlt := (holds_iff.mp ((h.holds ht).1 u hu)).2
  rw [decide_eq_true_eq]
  exact Nat.not_le.mpr (Nat.lt_of_lt_of_le hlt hoffset)

/-- The first token that begins where a statement has ended begins the piece behind it. -/
theorem firstFrom_stop (before : Option Kind) {offset : Nat} {tokens : List Token}
    (h : tokens = [] ∨ Token.Placed offset tokens) (hvisible : Visible tokens)
    {front behind : List Piece} {s : ImportStatement}
    (hpieces : piecesAfter before tokens = front ++ .statement s :: behind) :
    firstFrom s.span.stop tokens = behind.head?.map Piece.first := by
  induction hn : tokens.length using Nat.strongRecOn generalizing before offset tokens front with
  | ind n ih =>
    cases tokens with
    | nil => simp [piecesAfter] at hpieces
    | cons t rest =>
      have hplaced := h.resolve_left (by simp)
      rw [List.length_cons] at hn
      rw [piecesAfter_cons] at hpieces
      split at hpieces
      · next hstarts =>
        have hkeyword := keyword_of_starts hstarts
        have hcovers := covers hplaced hvisible hkeyword
        have ht : t.start < t.stop := hvisible t List.mem_cons_self (by simp [hkeyword])
        generalize extent t rest = size at hcovers hpieces
        have hsplit : t :: rest = t :: rest.take size.1 ++ rest.drop size.1 := by
          rw [List.cons_append, List.take_append_drop]
        cases front with
        | nil =>
          obtain ⟨hs, rfl⟩ := List.cons.inj hpieces
          obtain rfl := Piece.statement.inj hs
          rw [hsplit, firstFrom_behind hcovers ht (Nat.le_refl _), head?_piecesAfter]
          exact firstFrom_of_placed hcovers.behind
        | cons piece front =>
          obtain ⟨_, htail⟩ := List.cons.inj hpieces
          have hle := le_start_of_behind hcovers.behind (mem_foundAfter htail)
          rw [hsplit, firstFrom_behind hcovers ht (Nat.le_trans hle (span_start_le_stop s))]
          exact ih (rest.drop size.1).length (by rw [List.length_drop]; omega) _ hcovers.behind
            (fun u hu => hvisible u (List.mem_cons_of_mem _ (List.mem_of_mem_drop hu))) htail rfl
      · cases front with
        | nil => exact absurd (List.cons.inj hpieces).1 (by simp)
        | cons piece front =>
          obtain ⟨_, htail⟩ := List.cons.inj hpieces
          have hlt := start_lt_of_found hplaced (mem_foundAfter htail)
          have hbefore : ¬ s.span.stop ≤ t.start :=
            Nat.not_le.mpr (Nat.lt_of_lt_of_le hlt (span_start_le_stop s))
          rw [firstFrom, List.find?_cons_of_neg (by rw [decide_eq_true_eq]; exact hbefore)]
          exact ih rest.length (by omega) (some t.kind) hplaced.tail
            (fun u hu => hvisible u (List.mem_cons_of_mem _ hu)) htail rfl

/-- Whether a statement of a source ends with a semicolon, or the token behind it stands on a new
line or is the ending. -/
def endsLine (code : Text) (s : ImportStatement) : Bool :=
  (s.others.getLastD s.first).kind = .semicolon ||
    ((Token.ofText code).find? fun u => s.span.stop ≤ u.span.start).all
      fun u => u.newline || u.kind = .ending

/-- The same, given the pieces behind a statement. -/
def EndsLineBefore (s : ImportStatement) (behind : List Piece) : Prop :=
  (s.others.getLastD s.first).kind = .semicolon ∨
    ∀ p ∈ behind.head?, p.first.newline = true ∨ p.first.kind = .ending

/-- Whether a line ends before a token is told by its gap, unless it is a comment. -/
def NewlineTold (t : Token) : Prop :=
  t.newline = (t.gap.contains '\n' || (Token.opensComment t.text && t.text.contains '\n'))

theorem newlineTold (offset : Nat) (text : Text) :
    ∀ t ∈ Token.ofTextAt offset text, NewlineTold t := by
  induction hn : text.length using Nat.strongRecOn generalizing offset text with
  | ind n ih =>
    rcases Token.ofTextAt_cases offset text with hending | ⟨tok, behind, h⟩
    · rw [hending]
      simp [NewlineTold, Token.endingAt, Token.opensComment]
    · rw [h.ofTextAt_eq]
      intro t ht
      rcases List.mem_cons.mp ht with rfl | ht
      · exact h.newline
      · exact ih behind.length (by rw [← hn]; exact h.length_lt) _ behind rfl t ht

/-- A token that begins no statement remains in front of the tokens behind it. -/
theorem headKind_remainingTokens {tokens : List Token} {kind : Kind}
    (h : Token.headKind tokens = kind) (hne : kind ≠ .keyword .importWord) (before : Option Kind)
    (offset : Nat) : Token.headKind (remainingTokens offset [] false (piecesAfter before tokens)) =
      kind := by
  cases tokens with
  | nil =>
    rw [piecesAfter]
    exact h
  | cons u rest =>
    have hstarts : ¬ starts before u rest = true := fun hstarts =>
      hne (h.symm.trans (keyword_of_starts hstarts))
    rw [piecesAfter_cons, if_neg hstarts]
    exact h

/-- Where every statement ends with a semicolon or a line, no other token begins a statement when
the statements are gone. -/
theorem foundAfter_remainingTokens (before before' : Option Kind) {tokens : List Token}
    (offset : Nat) (lead : Text) (behindStatement : Bool)
    (htold : ∀ t ∈ tokens, NewlineTold t)
    (hsame : behindStatement = false → lead = [] ∧ before' = before)
    (hends : behindStatement = true → before = some .semicolon ∨
      ∀ u ∈ tokens.head?, u.newline = true ∨ u.kind = .ending)
    (hall : ∀ front s behind, piecesAfter before tokens = front ++ .statement s :: behind →
      EndsLineBefore s behind) :
    foundAfter before' (remainingTokens offset lead behindStatement (piecesAfter before tokens)) =
      [] := by
  induction hn : tokens.length using Nat.strongRecOn
    generalizing before before' tokens offset lead behindStatement with
  | ind n ih =>
    cases tokens with
    | nil => simp [piecesAfter, remainingTokens, foundAfter]
    | cons t rest =>
      rw [List.length_cons] at hn
      rw [piecesAfter_cons] at hall ⊢
      split
      · next hstarts =>
        rw [if_pos hstarts] at hall
        generalize extent t rest = size at hall ⊢
        have htail := hall [] _ _ rfl
        rw [remainingTokens]
        refine ih (rest.drop size.1).length (by rw [List.length_drop]; omega) _ before' offset _
          true ?_ (by simp) ?_ ?_ rfl
        · exact fun u hu => htold u (List.mem_cons_of_mem _ (List.mem_of_mem_drop hu))
        · rintro -
          refine htail.imp (congrArg some) fun hline u hu => ?_
          rw [← head?_piecesAfter (some ((rest.take size.1).getLastD t).kind)] at hu
          obtain ⟨p, hp, rfl⟩ := Option.map_eq_some_iff.mp hu
          exact hline p hp
        · intro front s behind hpieces
          exact hall (_ :: front) s behind (by rw [hpieces]; rfl)
      · next hstarts =>
        rw [if_neg hstarts] at hall
        rw [remainingTokens, foundAfter_cons, if_neg]
        · refine ih rest.length (by omega) (some t.kind) _ _ [] false ?_ (by simp; rfl) (by simp)
            ?_ rfl
          · exact fun u hu => htold u (List.mem_cons_of_mem _ hu)
          · intro front s behind hpieces
            exact hall (_ :: front) s behind (by rw [hpieces]; rfl)
        · intro hagain
          obtain ⟨hkind, hparen, hdot, hstart⟩ := starts_iff_kinds.mp hagain
          refine hstarts (starts_iff_kinds.mpr ⟨hkind, ?_, ?_, ?_⟩)
          · exact fun h => hparen (headKind_remainingTokens h (by simp) _ _)
          · exact fun h => hdot (headKind_remainingTokens h (by simp) _ _)
          · cases behindStatement with
            | false =>
              obtain ⟨rfl, rfl⟩ := hsame rfl
              have hnewline : (t.withGap (leftGap [] false t.gap) offset).newline = t.newline :=
                (htold t List.mem_cons_self).symm
              simpa [Token.startsStatement, hnewline] using hstart
            | true =>
              have hkeyword : t.kind = .keyword .importWord := hkind
              rcases hends rfl with rfl | hline
              · simp [Token.startsStatement]
              · rcases hline t rfl with hnewline | hending
                · cases before <;> simp [Token.startsStatement, hnewline]
                · simp [hkeyword] at hending

/-- Taking the import statements out of a source, each with a line feed right behind it, leaves the
tokens outside of them as they are. If every statement ends with a semicolon or a line, no statement
is found in what remains. -/
theorem remainder_keeps_tokens (code : Text) :
    let left := remainder (pieces (Token.ofText code))
    (∀ [PatternCompiler] (inliner : Inliner) (d : Disk) (ctx : Context) (file : Option Path),
      ∃ block, (inliner.inline d ctx code file).1.source = Inliner.putAbove block left) ∧
    left = Text.withoutSpans code 0 ((ofText code).map span) ∧
    (Token.ofText left).map Token.seen =
      ((Token.ofText code).filter fun t => !(ofText code).any (·.holds t)).map Token.seen ∧
    ((∀ s ∈ ofText code, endsLine code s = true) → ofText left = []) := by
  intro left
  have hplaced : Token.ofText code = [] ∨ Token.Placed 0 (Token.ofText code) :=
    Or.inr (Token.placed_ofTextAt 0 code)
  have hvisible : Visible (Token.ofText code) := fun t ht hkind => Token.start_lt_stop ht hkind
  have htokens : Token.ofText left =
      remainingTokens 0 [] false (piecesAfter none (Token.ofText code)) :=
    ofTextAt_remainder none 0 0 code .nil false
  refine ⟨fun inliner d ctx file => ⟨_, rfl⟩, remainder_eq code, ?_, fun hends => ?_⟩
  · rw [htokens, seen_remainingTokens, filterMap_other_eq none hplaced hvisible]
    rfl
  · have hfound : ofText left = foundAfter none (Token.ofText left) := rfl
    rw [hfound, htokens]
    refine foundAfter_remainingTokens none none 0 [] false (newlineTold 0 code) (by simp) (by simp)
      fun front s behind hpieces => ?_
    have hline := hends s (mem_foundAfter hpieces)
    have hfirst := firstFrom_stop none hplaced hvisible hpieces
    rw [endsLine, ← firstFrom, hfirst] at hline
    cases behind with
    | nil => exact Or.inr (by simp)
    | cons p behind => simpa [EndsLineBefore] using hline

/-- Statements behind a semicolon, behind a brace without any gap, and in front of a comment. -/
def scatteredImports : Text :=
  "a;import b from 'b';\x7b\x7dimport c from 'c'//c\n.5+import('d')".toList

theorem scatteredImports_remain :
    (ofText scatteredImports).length = 2 ∧
    (∀ s ∈ ofText scatteredImports, endsLine scatteredImports s = true) ∧
    ofText (remainder (pieces (Token.ofText scatteredImports))) = [] :=
  ⟨by decide +kernel, by decide +kernel,
    (remainder_keeps_tokens scatteredImports).2.2.2 (by decide +kernel)⟩

end ImportStatement

end TypeInliner
