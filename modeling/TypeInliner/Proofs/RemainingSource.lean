import TypeInliner.Proofs.StatementText

/-! # What remains of a source without its statements

The pieces of a source leave the same text as cutting the ranges of its statements out of it, each
with at most one line feed right behind it. -/

namespace TypeInliner

namespace Text

theorem takeBytes_bytes (t behind : Text) : takeBytes (bytes t) (t ++ behind) = t := by
  induction t with
  | nil =>
    cases behind with
    | nil => rfl
    | cons c behind =>
      have hsize := c.utf8Size_pos
      simp only [bytes_nil, List.nil_append, takeBytes]
      rw [if_neg (by omega)]
  | cons c t ih =>
    simp only [bytes_cons, List.cons_append, takeBytes]
    rw [if_pos (by omega), Nat.add_sub_cancel_left, ih]

theorem dropBytes_bytes (t behind : Text) : dropBytes (bytes t) (t ++ behind) = behind := by
  have hall := takeBytes_append_dropBytes (bytes t) (t ++ behind)
  rw [takeBytes_bytes] at hall
  exact List.append_cancel_left hall

/-- A text from a byte on without some later ranges of bytes, each of which takes one line feed
right behind it along. -/
def withoutSpans (code : Text) (cursor : Nat) : List Span → Text
  | [] => dropBytes cursor code
  | span :: spans =>
    takeBytes (span.start - cursor) (dropBytes cursor code) ++
      withoutSpans code
        (if (dropBytes span.stop code).head? = some '\n' then span.stop + 1 else span.stop) spans

end Text

namespace Token

/-- The text that tokens take up with their gaps. -/
def written (tokens : List Token) : Text := (tokens.map source).flatten

/-- Tokens that follow one another from an offset on, up to the ending, and none of which begins
with a line feed. -/
inductive Placed : Nat → List Token → Prop
  | ending {offset : Nat} {t : Token} (start : t.start = offset + Text.bytes t.gap)
      (text : t.text = []) : Placed offset [t]
  | cons {offset : Nat} {t : Token} {rest : List Token} {c : Char} {w : Text}
      (start : t.start = offset + Text.bytes t.gap) (text : t.text = c :: w) (visible : c ≠ '\n')
      (behind : Placed t.stop rest) : Placed offset (t :: rest)

theorem ReadsFront.visible {offset : Nat} {t behind : Text} {tok : Token}
    (h : ReadsFront offset t tok behind) : ∃ c w, tok.text = c :: w ∧ c ≠ '\n' := by
  obtain ⟨c, w, htext, _⟩ := h.reading
  refine ⟨c, w, htext, ?_⟩
  rintro rfl
  have hdrop : t.drop (gapSize t) = '\n' :: (w ++ behind) := by
    rw [h.gap, h.source, List.drop_left, htext]
    rfl
  have hgap := gapSize_drop t
  rw [hdrop, gapSize_of_blank (by decide)] at hgap
  omega

theorem placed_ofTextAt (offset : Nat) (t : Text) : Placed offset (ofTextAt offset t) := by
  induction hn : t.length using Nat.strongRecOn generalizing offset t with
  | ind n ih =>
    rcases ofTextAt_cases offset t with hending | ⟨tok, behind, h⟩
    · rw [hending]
      exact .ending rfl rfl
    · obtain ⟨c, w, htext, hvisible⟩ := h.visible
      have hlength := h.length_lt
      rw [hn] at hlength
      rw [h.ofTextAt_eq]
      exact .cons h.start htext hvisible (ih _ hlength _ _ rfl)

theorem Placed.start_eq {offset : Nat} {t : Token} {rest : List Token}
    (h : Placed offset (t :: rest)) : t.start = offset + Text.bytes t.gap := by
  cases h with
  | ending start => exact start
  | cons start => exact start

/-- What stands behind some tokens follows where their text ends. -/
theorem Placed.behind {offset n : Nat} {t u : Token} {rest others : List Token}
    (h : Placed offset (t :: rest)) (hrest : rest.drop n = u :: others) :
    Placed (t.start + Text.bytes (joined (t :: rest.take n))) (u :: others) := by
  induction n generalizing offset t rest with
  | zero =>
    rw [List.drop_zero] at hrest
    subst hrest
    cases h with
    | cons start text visible behind => simpa [joined, stop] using behind
  | succ n ih =>
    cases h with
    | ending => simp at hrest
    | cons start text visible behind =>
      cases rest with
      | nil => simp at hrest
      | cons v rest =>
        have hstart : v.start = t.start + Text.bytes t.text + Text.bytes v.gap := behind.start_eq
        have hoffset : v.start + Text.bytes (joined (v :: rest.take n)) =
            t.start + Text.bytes (joined (t :: (v :: rest).take (n + 1))) := by
          simp only [joined, List.take_succ_cons, List.map_cons, List.flatten_cons, source,
            Text.bytes_append, hstart]
          omega
        rw [← hoffset]
        exact ih behind hrest

/-- The last of some tokens ends where their text ends. -/
theorem Placed.last {offset : Nat} {t : Token} {rest : List Token} (h : Placed offset (t :: rest))
    (n : Nat) : ((rest.take n).getLastD t).stop = t.start + Text.bytes (joined (t :: rest.take n)) ∧
      t.start ≤ ((rest.take n).getLastD t).start := by
  induction n generalizing offset t rest with
  | zero => simp [joined, stop]
  | succ n ih =>
    cases h with
    | ending => simp [joined, stop]
    | cons start text visible behind =>
      cases rest with
      | nil => simp [joined, stop]
      | cons u rest =>
        obtain ⟨hstop, hle⟩ := ih behind
        have hstart : u.start = t.start + Text.bytes t.text + Text.bytes u.gap := behind.start_eq
        rw [List.take_succ_cons, List.getLastD_cons, hstop]
        refine ⟨?_, by omega⟩
        simp only [joined, List.map_cons, List.flatten_cons, source, Text.bytes_append, hstart]
        omega

end Token

namespace ImportStatement

/-- A statement ranges over its text. -/
theorem span_eq {s : ImportStatement} {offset n : Nat} {rest : List Token}
    (h : Token.Placed offset (s.first :: rest)) (hothers : s.others = rest.take n) :
    s.span = ⟨s.first.start, s.first.start + Text.bytes s.text⟩ := by
  obtain ⟨hstop, hle⟩ := h.last n
  have htext : s.first.stop ≤ s.first.start + Text.bytes s.text := by
    simp only [Token.stop, text, tokens, Token.joined, Text.bytes_append]
    omega
  rw [← hothers] at hstop hle
  simp only [span, Span.merge, Token.span, hstop]
  rw [Nat.min_eq_left hle]
  exact congrArg _ (Nat.max_eq_right htext)

/-- The ranges of the statements among some pieces. -/
def spans (pieces : List Piece) : List Span := (pieces.filterMap Piece.statement?).map span

theorem written_take_drop (t : Token) (rest : List Token) (n : Nat) :
    t.text ++ Token.written rest =
      Token.joined (t :: rest.take n) ++ Token.written (rest.drop n) := by
  rw [Token.joined, Token.written, Token.written, List.append_assoc, ← List.flatten_append,
    ← List.map_append, List.take_append_drop]

/-- A line feed right behind a statement stands in the gap of the next token. -/
theorem lineFeed_cases {offset : Nat} {u : Token} {rest : List Token}
    (h : Token.Placed offset (u :: rest)) : (∃ gap, u.gap = '\n' :: gap) ∨
      Text.dropLineFeed u.gap = u.gap ∧
        (u.gap ++ (u.text ++ Token.written rest)).head? ≠ some '\n' := by
  cases hgap : u.gap with
  | nil =>
    refine Or.inr ⟨rfl, ?_⟩
    cases h with
    | ending start text => simp [text, Token.written]
    | cons start text visible behind => simpa [text] using visible
  | cons c gap =>
    by_cases hc : c = '\n'
    · exact Or.inl ⟨gap, by rw [hc]⟩
    · refine Or.inr ⟨?_, by simpa using hc⟩
      unfold Text.dropLineFeed
      split
      · next heq => exact absurd (List.cons.inj heq).1 hc
      · rfl

/-- Cutting out the range of a statement behind a part of the source that is taken over. -/
theorem withoutSpans_cons {code front waiting text behind : Text} (spans : List Span)
    (hcode : code = front ++ (waiting ++ (text ++ behind))) :
    Text.withoutSpans code (Text.bytes front) (⟨Text.bytes (front ++ waiting),
      Text.bytes (front ++ waiting) + Text.bytes text⟩ :: spans) = waiting ++
        Text.withoutSpans code (if behind.head? = some '\n'
          then Text.bytes (front ++ waiting ++ text ++ ['\n'])
          else Text.bytes (front ++ waiting ++ text)) spans := by
  have hstop : Text.bytes (front ++ waiting) + Text.bytes text =
      Text.bytes (front ++ waiting ++ text) := by rw [Text.bytes_append _ text]
  have hfront : Text.dropBytes (Text.bytes front) code = waiting ++ (text ++ behind) := by
    rw [hcode, Text.dropBytes_bytes]
  have hbehind : Text.dropBytes (Text.bytes (front ++ waiting ++ text)) code = behind := by
    rw [hcode, ← List.append_assoc, ← List.append_assoc, Text.dropBytes_bytes]
  have hwaiting : Text.bytes (front ++ waiting) - Text.bytes front = Text.bytes waiting := by
    rw [Text.bytes_append, Nat.add_sub_cancel_left]
  have hnext : Text.bytes (front ++ waiting ++ text) + 1 =
      Text.bytes (front ++ waiting ++ text ++ ['\n']) := by
    rw [Text.bytes_append _ ['\n']]
    rfl
  rw [Text.withoutSpans, hstop, hfront, hbehind, hwaiting, Text.takeBytes_bytes, hnext]

/-- What remains of tokens that begin with a given one: behind the gap of that token the pieces
leave a text, and cutting the statements out leaves the same text behind a part of the source that
was waiting to be taken over. -/
structure Remains (code : Text) (t : Token) (rest : List Token) (pieces : List Piece)
    (tail : Text) : Prop where
  left (behindStatement : Bool) : remainderAfter behindStatement pieces =
    (if behindStatement then Text.dropLineFeed t.gap else t.gap) ++ tail
  cut (front waiting : Text) : code = front ++ (waiting ++ (t.text ++ Token.written rest)) →
    t.start = Text.bytes (front ++ waiting) →
      Text.withoutSpans code (Text.bytes front) (spans pieces) = waiting ++ tail

/-- A token outside of all statements remains. -/
theorem Remains.other {code tail : Text} {t u : Token} {rest : List Token} {pieces : List Piece}
    (h : Remains code u rest pieces tail) (hstart : u.start = t.stop + Text.bytes u.gap) :
    Remains code t (u :: rest) (.other t :: pieces) (t.text ++ (u.gap ++ tail)) where
  left behindStatement := by
    rw [remainderAfter, h.left]
    simp
  cut front waiting hcode hplace := by
    have hwaiting := h.cut front (waiting ++ (t.text ++ u.gap)) (by
      rw [hcode]
      simp [Token.written, Token.source])
    have hspans : spans (.other t :: pieces) = spans pieces := rfl
    rw [hspans, hwaiting]
    · simp
    · rw [hstart, Token.stop, hplace]
      simp only [Text.bytes_append]
      omega

/-- A statement goes with the line feed right behind it. -/
theorem Remains.statement {code tail : Text} {s : ImportStatement} {u : Token} {offset n : Nat}
    {rest others : List Token} {pieces : List Piece} (h : Remains code u others pieces tail)
    (hplaced : Token.Placed offset (s.first :: rest)) (hothers : s.others = rest.take n)
    (hrest : rest.drop n = u :: others) :
    Remains code s.first rest (.statement s :: pieces) (Text.dropLineFeed u.gap ++ tail) where
  left behindStatement := by
    rw [remainderAfter, h.left]
    simp
  cut front waiting hcode hplace := by
    have hspans : spans (.statement s :: pieces) = s.span :: spans pieces := rfl
    have htext : s.first.text ++ Token.written rest =
        s.text ++ (u.gap ++ (u.text ++ Token.written others)) := by
      rw [written_take_drop s.first rest n, hrest, text, tokens, hothers]
      simp [Token.written, Token.source]
    have hbehind := hplaced.behind hrest
    have hnext : u.start = Text.bytes (front ++ waiting ++ s.text) + Text.bytes u.gap := by
      rw [hbehind.start_eq, hplace, Text.bytes_append _ s.text, text, tokens, hothers]
    rw [htext] at hcode
    rw [hspans, span_eq hplaced hothers, hplace, withoutSpans_cons _ hcode]
    rcases lineFeed_cases hbehind with ⟨gap, hgap⟩ | ⟨hgap, hhead⟩
    · rw [hgap] at hcode hnext ⊢
      rw [if_pos (by simp), h.cut _ gap]
      · rfl
      · rw [hcode]
        simp
      · rw [hnext]
        simp [Nat.add_assoc]
    · rw [if_neg hhead, h.cut _ u.gap, hgap]
      · rw [hcode]
        simp
      · rw [hnext]
        simp [Nat.add_assoc]

/-- Behind the last statement nothing is left. -/
theorem remains_nothing {code : Text} {s : ImportStatement} {offset n : Nat} {rest : List Token}
    (hplaced : Token.Placed offset (s.first :: rest)) (hothers : s.others = rest.take n)
    (hrest : rest.drop n = []) : Remains code s.first rest [.statement s] [] where
  left _ := rfl
  cut front waiting hcode hplace := by
    have hspans : spans [.statement s] = [s.span] := rfl
    have htext : s.first.text ++ Token.written rest = s.text ++ [] := by
      rw [written_take_drop s.first rest n, hrest, text, tokens, hothers]
      rfl
    rw [htext] at hcode
    rw [hspans, span_eq hplaced hothers, hplace, withoutSpans_cons _ hcode, if_neg (by simp),
      Text.withoutSpans, hcode, ← List.append_assoc, ← List.append_assoc, Text.dropBytes_bytes]

/-- What remains of the tokens from some place on is what cutting their statements out leaves. -/
theorem exists_remains (code : Text) {offset : Nat} {t : Token} {rest : List Token}
    (before : Option Kind) (h : Token.Placed offset (t :: rest)) :
    ∃ tail, Remains code t rest (piecesAfter before (t :: rest)) tail := by
  induction hn : rest.length using Nat.strongRecOn generalizing before offset t rest with
  | ind n ih =>
    rw [piecesAfter]
    split
    · dsimp only
      cases hrest : rest.drop (extent t rest).1 with
      | nil =>
        rw [piecesAfter]
        exact ⟨[], remains_nothing (s := ⟨t, _, _⟩) h rfl hrest⟩
      | cons u others =>
        have hlength : others.length < n := by
          have := congrArg List.length hrest
          simp only [List.length_drop, List.length_cons] at this
          omega
        obtain ⟨tail, hremains⟩ := ih others.length hlength
          (some ((rest.take (extent t rest).1).getLastD t).kind) (h.behind hrest) rfl
        exact ⟨_, hremains.statement (s := ⟨t, _, _⟩) h rfl hrest⟩
    · cases h with
      | ending start text =>
        refine ⟨t.text, fun behindStatement => ?_, ?_⟩
        · simp [piecesAfter, remainderAfter]
        · intro front waiting hcode _
          have hspans : spans [.other t] = [] := rfl
          rw [piecesAfter, hspans, Text.withoutSpans, hcode, Text.dropBytes_bytes]
          simp [Token.written]
      | cons start text visible behind =>
        cases rest with
        | nil => cases behind
        | cons u rest =>
          rw [List.length_cons] at hn
          obtain ⟨tail, hremains⟩ := ih rest.length (by omega) (some t.kind) behind rfl
          exact ⟨_, hremains.other behind.start_eq⟩

/-- A source without its statements is the source with their ranges cut out. -/
theorem remainder_eq (code : Text) : remainder (pieces (Token.ofText code)) =
    Text.withoutSpans code 0 ((ofText code).map span) := by
  have hplaced := Token.placed_ofTextAt 0 code
  have hwritten : Token.written (Token.ofText code) = code := Token.flatten_source 0 code
  rw [← Token.ofText] at hplaced
  cases htokens : Token.ofText code with
  | nil =>
    rw [htokens] at hplaced
    cases hplaced
  | cons t rest =>
    rw [htokens] at hplaced hwritten
    obtain ⟨tail, hremains⟩ := exists_remains code none hplaced
    have hcut := hremains.cut [] t.gap
      (by rw [← hwritten]; simp [Token.written, Token.source])
      (by rw [hplaced.start_eq]; simp)
    rw [remainder, pieces, hremains.left false, ofText, ofTokens, htokens]
    exact hcut.symm

end ImportStatement

end TypeInliner
