import TypeInliner.Proofs.StatementStarts

/-! # Statements range over their texts

The import statements of a source lie in it one behind the other, each from its keyword to the end
of its last token, and the text of a statement is what the source has there. Whatever a statement
has been read as among all tokens of the source, its text alone is read as. -/

namespace TypeInliner.ImportStatement

/-- A statement lies in a source: it takes some of it, between characters, from a keyword `import`
to the end of a token, and its text is what stands there. -/
structure LiesIn (s : ImportStatement) (source : Text) : Prop where
  visible : s.span.start < s.span.stop
  inside : s.span.stop ≤ Text.bytes source
  start : Text.IsBoundary source s.span.start
  stop : Text.IsBoundary source s.span.stop
  begins : ∃ t ∈ Token.ofText source, t.kind = .keyword .importWord ∧ s.span.start = t.span.start
  ends : ∃ t ∈ Token.ofText source, t.kind ≠ .ending ∧ s.span.stop = t.span.stop
  slice : s.span.slice source = s.text

variable {s : ImportStatement} {source : Text}

/-- A statement ranges from the beginning of its keyword to the end of its last token, behind what
stands in front of it in the source. -/
theorem StandsIn.exists_split (h : s.StandsIn (Token.ofText source)) :
    ∃ front behind, source = front ++ (s.text ++ behind) ∧
      s.span = ⟨Text.bytes front, Text.bytes front + Text.bytes s.text⟩ ∧
      s.span = ⟨s.first.span.start, (s.others.getLastD s.first).span.stop⟩ := by
  obtain ⟨before, rest, hsplit, _, hothers, _⟩ := h
  have hplaced := Token.placed_ofTextAt 0 source
  rw [← Token.ofText, hsplit] at hplaced
  obtain ⟨offset, hplaced⟩ := hplaced.exists_suffix
  obtain ⟨_, hstands, _⟩ := Token.exists_standsBetween hsplit
  have hfirst : Token.written (s.first :: rest) =
      s.first.gap ++ (s.first.text ++ Token.written rest) := by
    simp [Token.written, Token.source]
  have hsource : Token.written (Token.ofText source) = source := Token.flatten_source 0 source
  rw [hsplit, Token.written_append, hfirst, written_take_drop s.first rest
    (extent s.first rest).1, ← hothers] at hsource
  have hlast := (hplaced.last (extent s.first rest).1).1
  rw [← hothers] at hlast
  refine ⟨Token.written before ++ s.first.gap, Token.written (rest.drop (extent s.first rest).1),
    ?_, ?_, ?_⟩
  · rw [List.append_assoc]
    exact hsource.symm
  · rw [span_eq hplaced hothers, hstands.start, Text.bytes_append]
  · rw [span_eq hplaced hothers]
    exact congrArg (Span.mk s.first.start) hlast.symm

theorem StandsIn.mem_of_mem_tokens (h : s.StandsIn (Token.ofText source)) {t : Token}
    (ht : t ∈ s.tokens) : t ∈ Token.ofText source := by
  obtain ⟨before, rest, hsplit, _, hothers, _⟩ := h
  rw [hsplit]
  refine List.mem_append_right _ ?_
  rw [tokens, hothers] at ht
  rcases List.mem_cons.mp ht with rfl | ht
  · exact List.mem_cons_self
  · exact List.mem_cons_of_mem _ (List.mem_of_mem_take ht)

theorem liesIn_of_mem (h : s ∈ ofText source) : s.LiesIn source := by
  have hstands := standsIn_of_mem h
  obtain ⟨front, behind, hsource, hspan, htokens⟩ := hstands.exists_split
  have hkeyword : s.first.kind = .keyword .importWord := by
    obtain ⟨_, _, _, hkeyword, _⟩ := hstands
    exact hkeyword
  have hfirst := hstands.mem_of_mem_tokens (List.mem_cons_self (a := s.first) (l := s.others))
  have hlast : s.others.getLastD s.first ∈ s.tokens := List.getLastD_mem_cons
  have hstop : front ++ (s.text ++ behind) = (front ++ s.text) ++ behind := by
    rw [List.append_assoc]
  constructor
  case visible =>
    have hlt := Token.start_lt_stop hfirst (by simp [hkeyword])
    have hle : Text.bytes s.first.text ≤ Text.bytes s.text := by
      rw [text, tokens, Token.joined, Text.bytes_append]
      exact Nat.le_add_right _ _
    simp only [Token.span, Token.stop] at hlt
    rw [hspan]
    show Text.bytes front < Text.bytes front + Text.bytes s.text
    omega
  case inside =>
    rw [hspan, hsource, hstop, Text.bytes_append _ behind, Text.bytes_append]
    exact Nat.le_add_right _ _
  case start => exact ⟨front, _, hsource, by rw [hspan]⟩
  case stop =>
    exact ⟨front ++ s.text, behind, hsource.trans hstop, by rw [hspan, Text.bytes_append]⟩
  case begins => exact ⟨s.first, hfirst, hkeyword, by rw [htokens]⟩
  case ends =>
    exact ⟨_, hstands.mem_of_mem_tokens hlast, hstands.kind_ne_ending _ hlast, by rw [htokens]⟩
  case slice =>
    rw [hspan, hsource]
    exact Text.slice_between front s.text behind

/-- The statements of a source lie in it, one behind the other, and the text of each is read as
exactly what has been read of the statement. -/
theorem statements_read_alike (source : Text) :
    (∀ s ∈ ofText source, s.LiesIn source ∧
      ∀ spec, s.outcome = .ok spec ↔ ImportSpec.ofText s.text = .ok spec) ∧
    (ofText source).Pairwise fun s s' => s.span.stop ≤ s'.span.start := by
  refine ⟨fun s hs => ⟨liesIn_of_mem hs, fun spec => (ofText_text_eq_ok hs spec).symm⟩, ?_⟩
  exact pairwise_foundAfter none (Or.inr (Token.placed_ofTextAt 0 source))
    fun t ht hkind => Token.start_lt_stop ht hkind

end TypeInliner.ImportStatement
