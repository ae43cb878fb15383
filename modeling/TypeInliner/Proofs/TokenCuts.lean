import TypeInliner.Proofs.LexicalCuts

/-! # Cutting a source between its tokens

The tokens of a source, each with what stands in front of it, make up the source. A piece of the
source from the beginning of one token to the end of another has the same tokens, moved to the
front and followed by an ending. -/

namespace TypeInliner.Token

theorem stringBody_size_le (quote : Char) (t : Text) : (stringBody quote t).size ≤ t.length := by
  fun_induction stringBody quote t with
  | case1 => simp [LiteralBody.size]
  | case2 => simp [LiteralBody.size]
  | case3 c t ih =>
    simp only [LiteralBody.size_grow, List.length_cons]
    omega
  | case4 => simp [LiteralBody.size]
  | case5 => simp [LiteralBody.size]
  | case6 c t _ _ _ _ ih =>
    simp only [LiteralBody.size_grow, List.length_cons]
    omega

theorem templateBody_size_le (depth : Nat) (t : Text) :
    (templateBody depth t).size ≤ t.length := by
  fun_induction templateBody depth t with
  | case1 => simp [LiteralBody.size]
  | case2 => simp [LiteralBody.size]
  | case3 depth c t ih =>
    simp only [LiteralBody.size_grow, List.length_cons]
    omega
  | case4 depth t ih =>
    simp only [LiteralBody.size_grow, List.length_cons]
    omega
  | case5 => simp [LiteralBody.size]
  | case6 depth c t _ _ _ _ ih =>
    simp only [LiteralBody.size_grow, List.length_cons]
    omega

theorem numberSize_le (hexadecimal : Bool) (before : Char) (t : Text) :
    numberSize hexadecimal before t ≤ t.length := by
  fun_induction numberSize hexadecimal before t with
  | case1 => simp
  | case2 before c t _ ih =>
    simp only [List.length_cons]
    omega
  | case3 => simp

/-- A token takes no more than there is. -/
theorem Reading.more_le (c : Char) (t : Text) : (Reading.ofText c t).more ≤ t.length := by
  have operator : (operatorReading t).more ≤ t.length := by
    simpa [operatorReading] using (List.takeWhile_prefix continuesOperator).length_le
  unfold Reading.ofText
  split
  · simpa using stringBody_size_le c t
  split
  · simpa using templateBody_size_le 0 t
  split
  · simpa [numberReading] using numberSize_le _ c t
  split
  · obtain ⟨kind, -, hword⟩ := wordReading_eq_plain c t
    rw [hword]
    exact (List.takeWhile_prefix continuesName).length_le
  split
  · unfold dotReading
    split <;> simp
  split
  · unfold equalsReading
    split
    · simp
    · exact operator
    · simp
  split
  · unfold jointReading
    split <;> first | exact operator | simp
  split
  · exact Nat.le_refl _
  split
  · exact operator
  split <;> simp

private theorem Reading.literal_kind_ne_ending {kind : Kind} (h : kind ≠ .ending) (message : Text)
    (body : LiteralBody) : (Reading.literal kind message body).kind ≠ .ending := by
  cases body with
  | closed => exact h
  | unclosed => simp [Reading.literal]

private theorem singleKind?_ne_ending {c : Char} {kind : Kind} (h : singleKind? c = some kind) :
    kind ≠ .ending := by
  rintro rfl
  unfold singleKind? at h
  split at h <;> simp at h

/-- A token is no ending. -/
theorem Reading.kind_ne_ending (c : Char) (t : Text) : (Reading.ofText c t).kind ≠ .ending := by
  have operator : (operatorReading t).kind ≠ .ending := by simp [operatorReading, Reading.plain]
  unfold Reading.ofText
  split
  · exact literal_kind_ne_ending (by simp) _ _
  split
  · exact literal_kind_ne_ending (by simp) _ _
  split
  · simp [numberReading, Reading.plain]
  split
  · obtain ⟨kind, hname, hword⟩ := wordReading_eq_plain c t
    rw [hword]
    rintro rfl
    exact absurd hname (by decide)
  split
  · unfold dotReading
    split <;> simp [Reading.plain]
  split
  · unfold equalsReading
    split
    · simp [Reading.plain]
    · exact operator
    · simp [Reading.plain]
  split
  · unfold jointReading
    split
    · exact operator
    · exact operator
    · exact operator
    · split <;> simp [Reading.plain]
  split
  · simp
  split
  · exact operator
  split
  · next kind hsingle => exact singleKind?_ne_ending hsingle
  · simp

/-! ## Reading from the front -/

/-- The ending of a text that holds only blanks and comments. -/
def endingAt (offset : Nat) (gap : Text) : Token :=
  ⟨.ending, gap, [], [], gap.contains '\n', offset + Text.bytes gap⟩

/-- A token with its gap is what a text at an offset begins with, and another text follows. -/
structure ReadsFront (offset : Nat) (t : Text) (tok : Token) (behind : Text) : Prop where
  source : t = tok.gap ++ (tok.text ++ behind)
  gap : gapSize t = tok.gap.length
  reading : ∃ c w, tok.text = c :: w ∧ (Reading.ofText c (w ++ behind)).more = w.length ∧
    tok.kind = (Reading.ofText c (w ++ behind)).kind ∧
    tok.value = (Reading.ofText c (w ++ behind)).value.getD tok.text
  newline : tok.newline = (tok.gap.contains '\n' ||
    (opensComment tok.text && tok.text.contains '\n'))
  start : tok.start = offset + Text.bytes tok.gap

theorem ReadsFront.kind_ne_ending {offset : Nat} {t behind : Text} {tok : Token}
    (h : ReadsFront offset t tok behind) : tok.kind ≠ .ending := by
  obtain ⟨c, w, _, _, hkind, _⟩ := h.reading
  rw [hkind]
  exact Reading.kind_ne_ending c _

/-- The token that begins with a character and continues in a text. -/
private def readAt (offset : Nat) (gap : Text) (c : Char) (rest : Text) : Token :=
  let reading := Reading.ofText c rest
  let text := c :: rest.take reading.more
  ⟨reading.kind, gap, text, reading.value.getD text,
    gap.contains '\n' || (opensComment text && text.contains '\n'), offset + Text.bytes gap⟩

private theorem ofTextAt_of_drop {offset : Nat} {t rest : Text} {c : Char}
    (h : t.drop (gapSize t) = c :: rest) : ofTextAt offset t =
      readAt offset (t.take (gapSize t)) c rest ::
        ofTextAt (readAt offset (t.take (gapSize t)) c rest).stop
          (rest.drop (Reading.ofText c rest).more) := by
  rw [ofTextAt]
  dsimp only
  split
  · next hnil => simp [hnil] at h
  · next hcons =>
    rw [hcons] at h
    obtain ⟨rfl, rfl⟩ := List.cons.inj h
    rfl

private theorem ReadsFront.eq_readAt {offset : Nat} {t behind w : Text} {tok : Token} {c : Char}
    (h : ReadsFront offset t tok behind) (htext : tok.text = c :: w)
    (hmore : (Reading.ofText c (w ++ behind)).more = w.length)
    (hkind : tok.kind = (Reading.ofText c (w ++ behind)).kind)
    (hvalue : tok.value = (Reading.ofText c (w ++ behind)).value.getD tok.text) :
    tok = readAt offset tok.gap c (w ++ behind) := by
  have htake : (w ++ behind).take (Reading.ofText c (w ++ behind)).more = w := by
    rw [hmore, List.take_left]
  obtain ⟨kind, gap, text, value, newline, start⟩ := tok
  have hnewline := h.newline
  have hstart := h.start
  dsimp only at htext hkind hvalue hnewline hstart
  simp only [readAt, htake, hkind, htext, hvalue, hnewline, hstart]

/-- What is read from the front comes first, and then the tokens of what follows. -/
theorem ReadsFront.ofTextAt_eq {offset : Nat} {t behind : Text} {tok : Token}
    (h : ReadsFront offset t tok behind) :
    ofTextAt offset t = tok :: ofTextAt tok.stop behind := by
  obtain ⟨c, w, htext, hmore, hkind, hvalue⟩ := h.reading
  have hdrop : t.drop (gapSize t) = c :: (w ++ behind) := by
    rw [h.gap, h.source, List.drop_left, htext]
    rfl
  have htake : t.take (gapSize t) = tok.gap := by rw [h.gap, h.source, List.take_left]
  rw [ofTextAt_of_drop hdrop, htake, ← h.eq_readAt htext hmore hkind hvalue, hmore, List.drop_left]

theorem ReadsFront.length_lt {offset : Nat} {t behind : Text} {tok : Token}
    (h : ReadsFront offset t tok behind) : behind.length < t.length := by
  obtain ⟨c, w, htext, _⟩ := h.reading
  rw [h.source, htext]
  simp only [List.length_append, List.length_cons]
  omega

/-- A text is only a gap, or a token is read from its front. -/
theorem ofTextAt_cases (offset : Nat) (t : Text) :
    ofTextAt offset t = [endingAt offset t] ∨
      ∃ tok behind, ReadsFront offset t tok behind := by
  cases hdrop : t.drop (gapSize t) with
  | nil =>
    left
    have htake : t.take (gapSize t) = t :=
      List.take_of_length_le (List.drop_eq_nil_iff.mp hdrop)
    rw [ofTextAt]
    dsimp only
    split
    · rw [htake]
      rfl
    · next hcons => simp [hcons] at hdrop
  | cons c rest =>
    right
    have hlength : gapSize t < t.length := by
      have := congrArg List.length hdrop
      simp only [List.length_drop, List.length_cons] at this
      omega
    have hsplit : rest.take (Reading.ofText c rest).more ++ rest.drop (Reading.ofText c rest).more =
        rest := List.take_append_drop _ _
    refine ⟨readAt offset (t.take (gapSize t)) c rest, rest.drop (Reading.ofText c rest).more,
      ?_, ?_, ⟨c, rest.take (Reading.ofText c rest).more, rfl, ?_, ?_, ?_⟩, rfl, rfl⟩
    · simp only [readAt, List.cons_append, hsplit, ← hdrop, List.take_append_drop]
    · simp only [readAt, List.length_take]
      omega
    · have := Reading.more_le c rest
      rw [hsplit, List.length_take]
      omega
    · rw [hsplit]
      rfl
    · rw [hsplit]
      rfl

/-- The tokens of a source with their gaps make up the source. -/
theorem flatten_source (offset : Nat) (t : Text) :
    ((ofTextAt offset t).map source).flatten = t := by
  induction hn : t.length using Nat.strongRecOn generalizing offset t with
  | ind n ih =>
    rcases ofTextAt_cases offset t with hending | ⟨tok, behind, h⟩
    · simp [hending, endingAt, source]
    · have hlength := h.length_lt
      rw [hn] at hlength
      rw [h.ofTextAt_eq, List.map_cons, List.flatten_cons, ih _ hlength _ _ rfl, source,
        List.append_assoc, ← h.source]

/-! ## Cutting behind a token and in front of one -/

/-- What follows a token may be cut short. -/
theorem ReadsFront.cut {offset : Nat} {t s b : Text} {tok : Token}
    (h : ReadsFront offset t tok (s ++ b)) :
    ReadsFront offset (tok.gap ++ (tok.text ++ s)) tok s := by
  have hsource : t = (tok.gap ++ (tok.text ++ s)) ++ b := by
    rw [h.source]
    simp only [List.append_assoc]
  obtain ⟨c, w, htext, hmore, hkind, hvalue⟩ := h.reading
  rw [← List.append_assoc] at hmore hkind hvalue
  have hreading : Reading.ofText c (w ++ s) = Reading.ofText c (w ++ s ++ b) :=
    Reading.ofText_append (by rw [hmore, List.length_append]; omega)
  refine ⟨rfl, ?_, ⟨c, w, htext, ?_, ?_, ?_⟩, h.newline, h.start⟩
  · have hgap := h.gap
    rw [hsource] at hgap
    rw [gapSize_append (by rw [hgap, List.length_append]; omega), hgap]
  · rw [hreading, hmore]
  · rw [hreading, hkind]
  · rw [hreading, hvalue]

/-- A token without its gap. -/
def withoutGap (tok : Token) : Token :=
  { tok with gap := [], newline := opensComment tok.text && tok.text.contains '\n' }

/-- The gap in front of a token may be cut off. -/
theorem ReadsFront.cut_gap {offset : Nat} {t behind : Text} {tok : Token}
    (h : ReadsFront offset t tok behind) :
    ReadsFront tok.start (tok.text ++ behind) tok.withoutGap behind where
  source := rfl
  gap := by
    have hdrop : t.drop (gapSize t) = tok.text ++ behind := by
      rw [h.gap, h.source, List.drop_left]
    rw [← hdrop]
    exact gapSize_drop t
  reading := h.reading
  newline := rfl
  start := rfl

/-- A source that ends behind one of its tokens keeps the tokens up to there. -/
theorem ofTextAt_sources {offset : Nat} {t : Text} {tokens others : List Token}
    (h : ofTextAt offset t = tokens ++ others) (hkind : ∀ tok ∈ tokens, tok.kind ≠ .ending) :
    ofTextAt offset (tokens.map source).flatten =
      tokens ++ [endingAt (offset + Text.bytes (tokens.map source).flatten) []] := by
  induction tokens generalizing offset t with
  | nil =>
    rcases ofTextAt_cases offset [] with hending | ⟨tok, behind, hreads⟩
    · exact hending
    · obtain ⟨c, w, htext, _⟩ := hreads.reading
      have := hreads.source
      simp [htext] at this
  | cons tok tokens ih =>
    rcases ofTextAt_cases offset t with hending | ⟨first, behind, hreads⟩
    · rw [hending] at h
      obtain ⟨rfl, _⟩ := List.cons.inj h
      exact absurd rfl (hkind _ List.mem_cons_self)
    · rw [hreads.ofTextAt_eq] at h
      obtain ⟨rfl, hrest⟩ := List.cons.inj h
      replace hrest : ofTextAt first.stop behind = tokens ++ others := hrest
      have hbehind : behind = (tokens.map source).flatten ++ (others.map source).flatten := by
        rw [← List.flatten_append, ← List.map_append, ← hrest, flatten_source]
      have htail := ih hrest fun tok htok => hkind tok (List.mem_cons_of_mem _ htok)
      rw [hbehind] at hreads
      have hfront := hreads.cut.ofTextAt_eq
      rw [htail, ← List.append_assoc] at hfront
      rw [List.map_cons, List.flatten_cons]
      apply hfront.trans
      have hstop : first.stop = offset + Text.bytes (source first) := by
        rw [stop, hreads.start, source, Text.bytes_append, Nat.add_assoc]
      rw [hstop, Text.bytes_append, Nat.add_assoc, List.cons_append]

/-- The tokens of a text behind some others are the tokens of what stands behind these. -/
theorem ofTextAt_behind {offset : Nat} {t : Text} {tokens others : List Token}
    (h : ofTextAt offset t = tokens ++ others) (hne : others ≠ []) :
    ∃ behind, t = (tokens.map source).flatten ++ behind ∧
      ofTextAt (offset + Text.bytes (tokens.map source).flatten) behind = others := by
  induction tokens generalizing offset t with
  | nil => exact ⟨t, rfl, h⟩
  | cons tok tokens ih =>
    rcases ofTextAt_cases offset t with hending | ⟨first, behind, hreads⟩
    · rw [hending] at h
      obtain ⟨_, hnil⟩ := List.cons.inj h
      exact absurd (List.append_eq_nil_iff.mp hnil.symm).2 hne
    · rw [hreads.ofTextAt_eq] at h
      obtain ⟨rfl, hrest⟩ := List.cons.inj h
      obtain ⟨rest, hbehind, hothers⟩ := ih hrest
      refine ⟨rest, ?_, ?_⟩
      · rw [List.map_cons, List.flatten_cons, source, List.append_assoc, List.append_assoc,
          ← hbehind, ← hreads.source]
      · rw [← hothers, stop, hreads.start, List.map_cons, List.flatten_cons, source]
        simp only [Text.bytes_append, Nat.add_assoc]

/-- A token that stands further back. -/
def moved (distance : Nat) (tok : Token) : Token := { tok with start := tok.start + distance }

private theorem ReadsFront.at_offset {offset : Nat} {t behind : Text} {tok : Token}
    (h : ReadsFront offset t tok behind) (other : Nat) :
    ReadsFront other t { tok with start := other + Text.bytes tok.gap } behind where
  source := h.source
  gap := h.gap
  reading := h.reading
  newline := h.newline
  start := rfl

/-- Where a text stands makes no difference to its tokens but their places. -/
theorem ofTextAt_moved (offset distance : Nat) (t : Text) :
    ofTextAt (offset + distance) t = (ofTextAt offset t).map (moved distance) := by
  induction hn : t.length using Nat.strongRecOn generalizing offset t with
  | ind n ih =>
    rcases ofTextAt_cases offset t with hending | ⟨tok, behind, h⟩
    · rcases ofTextAt_cases (offset + distance) t with hmoved | ⟨tok, behind, h⟩
      · rw [hmoved, hending]
        simp only [List.map_cons, List.map_nil, endingAt, moved, Nat.add_right_comm]
      · have hfront := (h.at_offset offset).ofTextAt_eq
        rw [hending] at hfront
        have hkind := (h.at_offset offset).kind_ne_ending
        rw [← (List.cons.inj hfront).1] at hkind
        exact absurd rfl hkind
    · have hlength := h.length_lt
      rw [hn] at hlength
      have hmoved : { tok with start := offset + distance + Text.bytes tok.gap } =
          moved distance tok := by
        rw [moved, h.start, Nat.add_right_comm]
      have hfront := (h.at_offset (offset + distance)).ofTextAt_eq
      rw [hmoved] at hfront
      have hstop : (moved distance tok).stop = tok.stop + distance := by
        simp only [stop, moved]
        omega
      rw [hfront, h.ofTextAt_eq, hstop, ih _ hlength _ _ rfl, List.map_cons]

theorem eq_endingAt_of_moved {distance offset : Nat} {t : Token}
    (h : t.moved distance = endingAt offset []) :
    t = endingAt t.start [] ∧ t.start + distance = offset := by
  obtain ⟨kind, gap, text, value, newline, start⟩ := t
  simp only [moved, endingAt, Token.mk.injEq] at h ⊢
  obtain ⟨rfl, rfl, rfl, rfl, rfl, hstart⟩ := h
  simpa using hstart

/-- A piece of a source from the beginning of one token to the end of another, moved back to its
place, has the tokens of the source between these ends, followed by an ending. -/
theorem ofText_joined {source : Text} {before others behind : List Token} {first : Token}
    (h : ofText source = before ++ (first :: others ++ behind))
    (hkind : ∀ tok ∈ first :: others, tok.kind ≠ .ending) :
    (ofText (joined (first :: others))).map (moved first.start) =
      first.withoutGap :: others ++
        [endingAt (first.start + Text.bytes (joined (first :: others))) []] := by
  obtain ⟨t, _, ht⟩ := ofTextAt_behind h (by simp)
  rcases ofTextAt_cases (0 + Text.bytes (before.map Token.source).flatten) t with
    hending | ⟨tok, rest, hreads⟩
  · rw [hending] at ht
    obtain ⟨rfl, _⟩ := List.cons.inj ht
    exact absurd rfl (hkind _ List.mem_cons_self)
  · rw [hreads.ofTextAt_eq] at ht
    obtain ⟨rfl, hothers⟩ := List.cons.inj ht
    replace hothers : ofTextAt tok.stop rest = others ++ behind := hothers
    have hrest : rest = (others.map Token.source).flatten ++ (behind.map Token.source).flatten := by
      rw [← List.flatten_append, ← List.map_append, ← hothers, flatten_source]
    have htail := ofTextAt_sources hothers fun tok htok => hkind tok (List.mem_cons_of_mem _ htok)
    rw [hrest] at hreads
    have hfront := hreads.cut.cut_gap.ofTextAt_eq
    have hstop : tok.withoutGap.stop = tok.stop := rfl
    have hend : tok.stop + Text.bytes (others.map Token.source).flatten =
        tok.start + Text.bytes (joined (tok :: others)) := by
      rw [stop, joined, Text.bytes_append, Nat.add_assoc]
    rw [hstop, htail, hend] at hfront
    rw [ofText, ← ofTextAt_moved, Nat.zero_add]
    exact hfront

/-- The kinds of tokens are the same wherever a text stands. -/
theorem exists_kind_of_mem {offset : Nat} {t : Text} {tok : Token} (h : tok ∈ ofTextAt offset t) :
    ∃ read ∈ ofText t, read.kind = tok.kind := by
  rw [← Nat.zero_add offset, ofTextAt_moved] at h
  obtain ⟨read, hread, rfl⟩ := List.mem_map.mp h
  exact ⟨read, hread, rfl⟩

/-- A token wherever it stands. -/
def unplaced (t : Token) : Token := { t with start := 0 }

/-- A piece of a source from the beginning of one token to the end of another has its tokens at any
place, only that the first one has no gap. -/
theorem ofTextAt_joined {source : Text} {before others behind : List Token} {first : Token}
    (h : ofText source = before ++ (first :: others ++ behind))
    (hkind : ∀ tok ∈ first :: others, tok.kind ≠ .ending) (offset : Nat) :
    ∃ tok rest last, ofTextAt offset (joined (first :: others)) =
        tok :: rest ++ [endingAt last []] ∧
      tok.unplaced = first.withoutGap.unplaced ∧ rest.map unplaced = others.map unplaced := by
  have hmoved := ofText_joined h hkind
  obtain ⟨read, ending, hread, hfront, hlast⟩ := List.map_eq_append_iff.mp hmoved
  obtain ⟨tok, rest, rfl, htok, hrest⟩ := List.map_eq_cons_iff.mp hfront
  obtain ⟨last, _, rfl, hending, hnil⟩ := List.map_eq_cons_iff.mp hlast
  obtain rfl := List.map_eq_nil_iff.mp hnil
  have hplace : last.moved offset = endingAt (last.start + offset) [] := by
    rw [(eq_endingAt_of_moved hending).1]
    rfl
  refine ⟨tok.moved offset, rest.map (moved offset), last.start + offset, ?_, ?_, ?_⟩
  · rw [← Nat.zero_add offset, ofTextAt_moved, ← ofText, hread, Nat.zero_add, List.map_append,
      List.map_cons, List.map_singleton, hplace]
  · have hunplaced := congrArg unplaced htok
    exact hunplaced
  · have hunplaced := congrArg (List.map unplaced) hrest
    rw [List.map_map] at hunplaced ⊢
    exact hunplaced

end TypeInliner.Token
