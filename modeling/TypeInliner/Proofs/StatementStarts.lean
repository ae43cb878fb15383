import TypeInliner.DeclarationSite
import TypeInliner.Proofs.SourceTiling

/-! # Where import statements are found

A source has an import statement exactly at those tokens that look like the beginning of one and
are not part of a statement found before. Brackets make no difference: a keyword at the beginning
of a line is taken for a statement also inside a block. -/

namespace TypeInliner

namespace ImportStatement

/-- Whether a token looks like the beginning of an import statement: the keyword `import`, first of
all, on a new line or behind a semicolon or a closing brace, and with no parenthesis and no dot
behind it. -/
def BeginsAt (before : List Token) (t : Token) (after : List Token) : Prop :=
  t.kind = .keyword .importWord ∧
    (before = [] ∨ t.newline = true ∨
      ∃ u ∈ before.getLast?, u.kind = .semicolon ∨ u.kind = .rightBrace) ∧
    ∀ u ∈ after.head?, u.kind ≠ .leftParen ∧ u.kind ≠ .dot

/-- Kind of the last of some tokens, or the kind of what stands in front of them. -/
def lastKind (before : Option Kind) (front : List Token) : Option Kind :=
  (front.getLast?.map Token.kind).or before

private theorem startsStatement_iff {front : List Token} {t : Token} :
    t.startsStatement (lastKind none front) = true ↔ front = [] ∨ t.newline = true ∨
      ∃ u ∈ front.getLast?, u.kind = .semicolon ∨ u.kind = .rightBrace := by
  rcases List.eq_nil_or_concat front with rfl | ⟨init, u, rfl⟩
  · simp [lastKind, Token.startsStatement]
  · rw [List.concat_eq_append]
    simp [lastKind, Token.startsStatement, or_assoc]

private theorem headKind_ne {after : List Token} {kind : Kind} (h : kind ≠ .ending) :
    Token.headKind after ≠ kind ↔ ∀ u ∈ after.head?, u.kind ≠ kind := by
  cases after with
  | nil => simpa [Token.headKind, Token.nowhere] using h.symm
  | cons u after => simp [Token.headKind]

theorem starts_iff {front after : List Token} {t : Token} :
    starts (lastKind none front) t after = true ↔ BeginsAt front t after := by
  simp only [starts, Bool.and_eq_true, decide_eq_true_eq, startsStatement_iff, BeginsAt,
    headKind_ne (show Kind.leftParen ≠ .ending by decide),
    headKind_ne (show Kind.dot ≠ .ending by decide)]
  constructor
  · rintro ⟨⟨⟨hkind, hparen⟩, hdot⟩, hstart⟩
    exact ⟨hkind, hstart, fun u hu => ⟨hparen u hu, hdot u hu⟩⟩
  · rintro ⟨hkind, hstart, hnext⟩
    exact ⟨⟨⟨hkind, fun u hu => (hnext u hu).1⟩, fun u hu => (hnext u hu).2⟩, hstart⟩

theorem keyword_of_starts {before : Option Kind} {t : Token} {rest : List Token}
    (h : starts before t rest = true) : t.kind = .keyword .importWord := by
  simp only [starts, Bool.and_eq_true, decide_eq_true_eq] at h
  exact h.1.1.1

/-! ## Ranges of statements -/

/-- The statements among tokens behind a token of a given kind. -/
def foundAfter (before : Option Kind) (tokens : List Token) : List ImportStatement :=
  (piecesAfter before tokens).filterMap Piece.statement?

theorem piecesAfter_cons (before : Option Kind) (t : Token) (rest : List Token) :
    piecesAfter before (t :: rest) =
      if starts before t rest then
        .statement ⟨t, rest.take (extent t rest).1, (extent t rest).2⟩ ::
          piecesAfter (some ((rest.take (extent t rest).1).getLastD t).kind)
            (rest.drop (extent t rest).1)
      else .other t :: piecesAfter (some t.kind) rest := by
  rw [piecesAfter]

theorem foundAfter_cons (before : Option Kind) (t : Token) (rest : List Token) :
    foundAfter before (t :: rest) =
      if starts before t rest then
        ⟨t, rest.take (extent t rest).1, (extent t rest).2⟩ ::
          foundAfter (some ((rest.take (extent t rest).1).getLastD t).kind)
            (rest.drop (extent t rest).1)
      else foundAfter (some t.kind) rest := by
  unfold foundAfter
  rw [piecesAfter]
  split <;> rfl

/-- A statement ranges from its keyword on, which is one of the tokens. -/
private theorem start_of_mem {before : Option Kind} {offset : Nat} {tokens : List Token}
    (h : Token.Placed offset tokens) {s : ImportStatement} (hs : s ∈ foundAfter before tokens) :
    s.first ∈ tokens ∧ s.first.kind = .keyword .importWord ∧ s.span.start = s.first.start := by
  obtain ⟨piece, hpiece, hs⟩ := List.mem_filterMap.mp hs
  cases piece with
  | other t => simp [Piece.statement?] at hs
  | statement s' =>
    obtain rfl := Option.some.inj hs
    obtain ⟨front, rest, rfl, hkeyword, hothers, _⟩ := standsIn_of_mem_piecesAfter hpiece
    obtain ⟨offset', h'⟩ := h.exists_suffix
    exact ⟨by simp, hkeyword, by rw [span_eq h' hothers]⟩

theorem le_start_of_mem {before : Option Kind} {offset : Nat} {tokens : List Token}
    (h : Token.Placed offset tokens) {s : ImportStatement} (hs : s ∈ foundAfter before tokens) :
    offset ≤ s.span.start := by
  obtain ⟨hmem, _, hstart⟩ := start_of_mem h hs
  rw [hstart]
  exact h.le_start _ hmem

/-- Tokens of which all but an ending take some of the source. -/
def Visible (tokens : List Token) : Prop :=
  ∀ t ∈ tokens, t.kind ≠ .ending → t.span.start < t.span.stop

private theorem stop_le_of_take {offset n : Nat} {t u : Token} {rest : List Token}
    (h : Token.Placed offset (t :: rest)) (hu : u ∈ rest.take n) :
    u.stop ≤ t.start + Text.bytes (Token.joined (t :: rest.take n)) := by
  obtain ⟨front, behind, hsplit⟩ := List.append_of_mem hu
  have htake : rest.take (front.length + 1) = front ++ [u] := by
    conv_lhs => rw [← List.take_append_drop n rest, hsplit]
    rw [List.append_assoc, List.take_length_add_append]
    rfl
  obtain ⟨hstop, _⟩ := h.last (front.length + 1)
  rw [htake, List.getLastD_concat] at hstop
  rw [hstop, hsplit]
  simp [Token.joined, Text.bytes_append]

/-- What a statement covers: it starts with its first token, the tokens it takes behind that one
start inside it, and the tokens behind the statement start where it has ended. -/
structure Covers (s : ImportStatement) (t : Token) (inside behind : List Token) : Prop where
  start : s.span.start = t.start
  inside : ∀ u ∈ inside, t.start < u.start ∧ u.start < s.span.stop
  stop : t.stop ≤ s.span.stop
  behind : behind = [] ∨ Token.Placed s.span.stop behind

theorem covers {offset : Nat} {t : Token} {rest : List Token}
    (h : Token.Placed offset (t :: rest)) (hvisible : Visible (t :: rest))
    (hkeyword : t.kind = .keyword .importWord) :
    Covers ⟨t, rest.take (extent t rest).1, (extent t rest).2⟩ t (rest.take (extent t rest).1)
      (rest.drop (extent t rest).1) where
  start := by rw [span_eq h rfl]
  inside u hu := by
    have hstands : StandsIn ⟨t, rest.take (extent t rest).1, (extent t rest).2⟩ (t :: rest) :=
      ⟨[], rest, rfl, hkeyword, rfl, rfl⟩
    have hstart := hvisible t List.mem_cons_self (by simp [hkeyword])
    have hstop := hvisible u (List.mem_cons_of_mem _ (List.mem_of_mem_take hu))
      (hstands.kind_ne_ending u (List.mem_cons_of_mem _ hu))
    have hbehind : t.span.stop ≤ u.span.start :=
      List.rel_of_pairwise_cons h.pairwise (List.mem_of_mem_take hu)
    have hle := stop_le_of_take h hu
    rw [span_eq h rfl]
    exact ⟨Nat.lt_of_lt_of_le hstart hbehind, Nat.lt_of_lt_of_le hstop hle⟩
  stop := by
    rw [span_eq h rfl]
    simp [text, tokens, Token.joined, Token.stop]
  behind := by
    rw [span_eq h rfl]
    cases hrest : rest.drop (extent t rest).1 with
    | nil => exact Or.inl rfl
    | cons u others => exact Or.inr (h.behind hrest)

theorem span_start_le_stop (s : ImportStatement) : s.span.start ≤ s.span.stop := by
  simp only [span, Span.merge, Token.span, Token.stop]
  omega

/-- No statement behind some place begins before it. -/
theorem le_start_of_behind {before : Option Kind} {offset : Nat} {behind : List Token}
    (h : behind = [] ∨ Token.Placed offset behind) {s : ImportStatement}
    (hs : s ∈ foundAfter before behind) : offset ≤ s.span.start := by
  rcases h with rfl | h
  · simp [foundAfter, piecesAfter] at hs
  · exact le_start_of_mem h hs

/-- Statements follow one another. -/
theorem pairwise_foundAfter (before : Option Kind) {offset : Nat} {tokens : List Token}
    (h : tokens = [] ∨ Token.Placed offset tokens) (hvisible : Visible tokens) :
    (foundAfter before tokens).Pairwise fun s s' => s.span.stop ≤ s'.span.start := by
  induction hn : tokens.length using Nat.strongRecOn generalizing before offset tokens with
  | ind n ih =>
    cases tokens with
    | nil => simp [foundAfter, piecesAfter]
    | cons t rest =>
      have hplaced := h.resolve_left (by simp)
      have hvisible' : Visible rest := fun u hu => hvisible u (List.mem_cons_of_mem _ hu)
      rw [List.length_cons] at hn
      rw [foundAfter_cons]
      split
      · next hstarts =>
        have hcovers := covers hplaced hvisible (keyword_of_starts hstarts)
        refine List.pairwise_cons.mpr ⟨fun s hs => le_start_of_behind hcovers.behind hs, ?_⟩
        exact ih (rest.drop (extent t rest).1).length (by rw [List.length_drop]; omega) _
          hcovers.behind (fun u hu => hvisible' u (List.mem_of_mem_drop hu)) rfl
      · exact ih rest.length (by omega) _ hplaced.tail hvisible' rfl

/-! ## Pieces -/

/-- The tokens that a piece takes. -/
def Piece.tokens : Piece → List Token
  | other t => [t]
  | statement s => s.tokens

/-- A statement among pieces begins at one of their tokens. -/
theorem first_mem_tokens {pieces : List Piece} {s : ImportStatement}
    (hs : s ∈ pieces.filterMap Piece.statement?) : s.first ∈ pieces.flatMap Piece.tokens := by
  obtain ⟨piece, hpiece, hs⟩ := List.mem_filterMap.mp hs
  refine List.mem_flatMap.mpr ⟨piece, hpiece, ?_⟩
  cases piece with
  | other t => simp [Piece.statement?] at hs
  | statement s' =>
    obtain rfl := Option.some.inj hs
    exact List.mem_cons_self

/-- The pieces of some tokens hold the tokens in their order. -/
theorem flatMap_tokens_piecesAfter (before : Option Kind) (tokens : List Token) :
    (piecesAfter before tokens).flatMap Piece.tokens = tokens := by
  induction hn : tokens.length using Nat.strongRecOn generalizing before tokens with
  | ind n ih =>
    cases tokens with
    | nil => simp [piecesAfter]
    | cons t rest =>
      rw [List.length_cons] at hn
      rw [piecesAfter_cons]
      split
      · generalize extent t rest = size
        have hlength : (rest.drop size.1).length < n := by
          rw [List.length_drop]
          omega
        rw [List.flatMap_cons, ih _ hlength _ _ rfl]
        simp [Piece.tokens, tokens]
      · rw [List.flatMap_cons, ih rest.length (by omega) _ _ rfl]
        rfl

/-! ## Found and not inside another -/

theorem lastKind_cons (before : Option Kind) (u : Token) (front : List Token) :
    lastKind before (u :: front) = lastKind (some u.kind) front := by
  cases hlast : front.getLast? with
  | none =>
    obtain rfl := List.getLast?_eq_none_iff.mp hlast
    rfl
  | some v => simp [lastKind, List.getLast?_cons, hlast]

theorem lastKind_append (before : Option Kind) (u : Token) (front front' : List Token) :
    lastKind before (u :: (front ++ front')) =
      lastKind (some (front.getLastD u).kind) front' := by
  induction front generalizing before u with
  | nil => exact lastKind_cons before u front'
  | cons v front ih =>
    rw [lastKind_cons, List.cons_append, ih, List.getLastD_cons]

/-- Tokens are divided in front of each of them, unless it is part of a statement that begins
before. -/
theorem piecesAfter_append (before : Option Kind) {offset : Nat} {front after : List Token}
    {t : Token} (h : Token.Placed offset (front ++ t :: after))
    (hvisible : Visible (front ++ t :: after))
    (houtside : ¬ ∃ s ∈ foundAfter before (front ++ t :: after),
      s.span.start < t.span.start ∧ t.span.start < s.span.stop) :
    ∃ pieces, piecesAfter before (front ++ t :: after) =
        pieces ++ piecesAfter (lastKind before front) (t :: after) ∧
      pieces.flatMap Piece.tokens = front := by
  induction hn : front.length using Nat.strongRecOn generalizing before offset front with
  | ind n ih =>
    cases front with
    | nil => exact ⟨[], by simp [lastKind], rfl⟩
    | cons u front =>
      rw [List.length_cons] at hn
      have hvisible' : Visible (front ++ t :: after) :=
        fun v hv => hvisible v (List.mem_cons_of_mem _ hv)
      rw [List.cons_append] at h hvisible houtside ⊢
      rw [foundAfter_cons] at houtside
      rw [piecesAfter_cons]
      split
      · next hstarts =>
        rw [if_pos hstarts] at houtside
        have hcovers := covers h hvisible (keyword_of_starts hstarts)
        generalize extent u (front ++ t :: after) = size at hcovers houtside ⊢
        by_cases hsize : size.1 ≤ front.length
        · have htake : (front ++ t :: after).take size.1 = front.take size.1 :=
            List.take_append_of_le_length hsize
          have hdrop : (front ++ t :: after).drop size.1 = front.drop size.1 ++ t :: after :=
            List.drop_append_of_le_length hsize
          rw [htake, hdrop] at hcovers houtside ⊢
          have hplaced := hcovers.behind.resolve_left (by simp)
          obtain ⟨pieces, hpieces, hfront⟩ := ih (front.drop size.1).length
            (by rw [List.length_drop]; omega) (some ((front.take size.1).getLastD u).kind) hplaced
            (fun v hv => hvisible' v (List.mem_of_mem_drop (by rw [hdrop]; exact hv)))
            (fun hinside => houtside
              (hinside.imp fun s hs => ⟨List.mem_cons_of_mem _ hs.1, hs.2⟩)) rfl
          rw [← lastKind_append before, List.take_append_drop] at hpieces
          refine ⟨_ :: pieces, congrArg _ hpieces, ?_⟩
          rw [List.flatMap_cons, hfront]
          simp [Piece.tokens, tokens]
        · -- The token would be part of the statement.
          have hmem : t ∈ (front ++ t :: after).take size.1 := by
            obtain ⟨k, hk⟩ := Nat.exists_eq_add_of_lt (Nat.not_le.mp hsize)
            rw [hk, Nat.add_assoc, List.take_length_add_append, List.take_succ_cons]
            simp
          obtain ⟨hleft, hright⟩ := hcovers.inside t hmem
          rw [← hcovers.start] at hleft
          exact absurd ⟨_, List.mem_cons_self, hleft, hright⟩ houtside
      · next hstarts =>
        rw [if_neg hstarts] at houtside
        obtain ⟨pieces, hpieces, hfront⟩ := ih front.length (by omega) (some u.kind)
          (h.tail.resolve_left (by simp)) hvisible' houtside rfl
        rw [← lastKind_cons before] at hpieces
        refine ⟨.other u :: pieces, congrArg _ hpieces, ?_⟩
        rw [List.flatMap_cons, hfront]
        rfl

/-- A statement is found at a token. -/
private def FoundAt (found : List ImportStatement) (t : Token) : Prop :=
  ∃ s ∈ found, s.span.start = t.span.start

/-- A token is part of a statement that begins before it. -/
private def IsInside (found : List ImportStatement) (t : Token) : Prop :=
  ∃ s ∈ found, s.span.start < t.span.start ∧ t.span.start < s.span.stop

/-- No statement is found at a token that is part of another one. -/
private theorem not_foundAt_of_isInside {found : List ImportStatement} {t : Token}
    (h : found.Pairwise fun s s' => s.span.stop ≤ s'.span.start) (hinside : IsInside found t) :
    ¬ FoundAt found t := by
  rintro ⟨s, hs, hstart⟩
  obtain ⟨s', hs', hleft, hright⟩ := hinside
  obtain ⟨front, behind, rfl⟩ := List.append_of_mem hs
  obtain ⟨_, hbehind, hfront⟩ := List.pairwise_append.mp h
  rcases List.mem_append.mp hs' with hs' | hs'
  · have hstop := hfront s' hs' s List.mem_cons_self
    omega
  rcases List.mem_cons.mp hs' with rfl | hs'
  · omega
  · have hstop := List.rel_of_pairwise_cons hbehind hs'
    have hrange := span_start_le_stop s
    omega

/-- At the first of some tokens a statement is found if one begins there. -/
private theorem foundAt_first {before : Option Kind} {offset : Nat} {t : Token} {after : List Token}
    (h : Token.Placed offset (t :: after)) (hvisible : Visible (t :: after)) :
    FoundAt (foundAfter before (t :: after)) t ↔
      starts before t after = true ∧ ¬ IsInside (foundAfter before (t :: after)) t := by
  rw [foundAfter_cons]
  split
  · next hstarts =>
    have hkeyword := keyword_of_starts hstarts
    have hcovers := covers h hvisible hkeyword
    refine iff_of_true ⟨_, List.mem_cons_self, hcovers.start⟩ ⟨hstarts, ?_⟩
    rintro ⟨s, hs, hbefore, _⟩
    rcases List.mem_cons.mp hs with rfl | hs
    · rw [hcovers.start] at hbefore
      exact absurd hbefore (Nat.lt_irrefl _)
    · have hstart := le_start_of_behind hcovers.behind hs
      have hstop := hcovers.stop
      simp only [Token.span, Token.stop] at hbefore hstop
      omega
  · next hstarts =>
    refine iff_of_false ?_ fun hboth => hstarts hboth.1
    rintro ⟨s, hs, hstart⟩
    cases h with
    | ending => simp [foundAfter, piecesAfter] at hs
    | @cons _ _ _ c w _ text _ behind =>
      have hle := le_start_of_mem behind hs
      have hpos := c.utf8Size_pos
      rw [hstart] at hle
      simp only [Token.span, Token.stop, text, Text.bytes_cons] at hle
      omega

/-- Among tokens that follow one another, statements are found where they look like beginning and
are not inside another. -/
private theorem foundAt_iff (before : Option Kind) {offset : Nat} {front after : List Token}
    {t : Token} (h : Token.Placed offset (front ++ t :: after))
    (hvisible : Visible (front ++ t :: after)) :
    FoundAt (foundAfter before (front ++ t :: after)) t ↔
      starts (lastKind before front) t after = true ∧
        ¬ IsInside (foundAfter before (front ++ t :: after)) t := by
  by_cases hinside : IsInside (foundAfter before (front ++ t :: after)) t
  · have hpairwise := pairwise_foundAfter before (Or.inr h) hvisible
    exact iff_of_false (not_foundAt_of_isInside hpairwise hinside) fun hboth => hboth.2 hinside
  obtain ⟨pieces, hpieces, hfront⟩ := piecesAfter_append before h hvisible hinside
  obtain ⟨offset', hplaced⟩ := h.exists_suffix
  have hfound : foundAfter before (front ++ t :: after) =
      pieces.filterMap Piece.statement? ++ foundAfter (lastKind before front) (t :: after) := by
    rw [foundAfter, hpieces, List.filterMap_append]
    rfl
  -- The statements in front begin at tokens in front.
  have hbefore : ∀ s ∈ pieces.filterMap Piece.statement?, s.span.start ≠ t.span.start := by
    intro s hs
    obtain ⟨_, hkeyword, hstart⟩ := start_of_mem h
      (by rw [hfound]; exact List.mem_append_left _ hs)
    have hmem : s.first ∈ front := hfront ▸ first_mem_tokens hs
    have hstop := (List.pairwise_append.mp h.pairwise).2.2 s.first hmem t List.mem_cons_self
    have hlt := hvisible s.first (List.mem_append_left _ hmem) (by simp [hkeyword])
    rw [hstart]
    exact Nat.ne_of_lt (Nat.lt_of_lt_of_le hlt hstop)
  have hfirst : FoundAt (foundAfter (lastKind before front) (t :: after)) t ↔ _ :=
    foundAt_first hplaced fun u hu => hvisible u (List.mem_append_right _ hu)
  have houtside : ¬ IsInside (foundAfter (lastKind before front) (t :: after)) t := fun htail =>
    hinside (hfound ▸ htail.imp fun s hs => ⟨List.mem_append_right _ hs.1, hs.2⟩)
  rw [and_iff_left houtside] at hfirst
  rw [and_iff_left hinside, ← hfirst, hfound]
  constructor
  · rintro ⟨s, hs, hstart⟩
    exact ⟨s, (List.mem_append.mp hs).resolve_left fun hs => hbefore s hs hstart, hstart⟩
  · rintro ⟨s, hs, hstart⟩
    exact ⟨s, List.mem_append_right _ hs, hstart⟩

/-- A source has an import statement at exactly those of its tokens that look like the beginning of
one and are not inside a statement that begins before. -/
theorem found_iff_beginsAt (source : Text) (i : Fin (Token.ofText source).length) :
    (∃ s ∈ ofText source, s.span.start = (Token.ofText source)[i].span.start) ↔
      BeginsAt ((Token.ofText source).take i) (Token.ofText source)[i]
          ((Token.ofText source).drop (i + 1)) ∧
        ¬ ∃ s ∈ ofText source, s.span.start < (Token.ofText source)[i].span.start ∧
          (Token.ofText source)[i].span.start < s.span.stop := by
  have hsplit : (Token.ofText source).take i ++
      (Token.ofText source)[i] :: (Token.ofText source).drop (i + 1) = Token.ofText source := by
    rw [Fin.getElem_fin, ← List.drop_eq_getElem_cons, List.take_append_drop]
  have hplaced := Token.placed_ofTextAt 0 source
  rw [← Token.ofText, ← hsplit] at hplaced
  have hfound := foundAt_iff none hplaced (by
    rw [hsplit]
    exact fun t ht hkind => Token.start_lt_stop ht hkind)
  rw [starts_iff, hsplit] at hfound
  exact hfound

/-- Number of round, square and curly brackets that some tokens leave open. -/
def openBrackets (tokens : List Token) : Nat :=
  tokens.foldl (fun depth t => nesting false depth t.kind) 0

/-- An import inside the block of a module. -/
def blockSource : Text := "declare module 'x' \x7b\n  import \x7b A \x7d from './a';\n\x7d".toList

/-- A property with the name `import`. -/
def propertySource : Text := "interface A \x7b\n  import: string;\n\x7d".toList

/-- Statements are found inside braces: an import in a block of a module, and a property that has
the keyword for its name. -/
theorem nested_imports_are_found :
    (∃ i : Fin (Token.ofText blockSource).length,
      openBrackets ((Token.ofText blockSource).take i) = 1 ∧
        ∃ s ∈ ofText blockSource, s.span.start = (Token.ofText blockSource)[i].span.start) ∧
    ∃ i : Fin (Token.ofText propertySource).length,
      openBrackets ((Token.ofText propertySource).take i) = 1 ∧
        ∃ s ∈ ofText propertySource,
          s.span.start = (Token.ofText propertySource)[i].span.start := by
  decide +kernel

end ImportStatement

end TypeInliner
