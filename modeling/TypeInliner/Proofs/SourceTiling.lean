import TypeInliner.Proofs.RemainingSource
import TypeInliner.Proofs.TokenShapes

/-! # The tokens of a source tile it

Between two tokens of a source stand only blanks and complete comments, and what a token covers is
what the source has there. So a source can be divided along its tokens, and nothing is lost. -/

namespace TypeInliner

namespace Text

/-- A byte at which a character of a text begins, or the end of the text. -/
def IsBoundary (t : Text) (n : Nat) : Prop := ∃ front behind, t = front ++ behind ∧ bytes front = n

theorem slice_between (front part behind : Text) :
    (Span.mk (bytes front) (bytes front + bytes part)).slice (front ++ (part ++ behind)) =
      part := by
  have hstop : min (bytes front + bytes part) (bytes (front ++ (part ++ behind))) =
      bytes front + bytes part := by
    simp only [bytes_append]
    omega
  rw [Span.slice, hstop, Nat.min_eq_left (Nat.le_add_right _ _), Nat.add_sub_cancel_left]
  dsimp only
  rw [dropBytes_bytes, takeBytes_bytes]

end Text

namespace Token

/-! ## Blanks and comments -/

/-- Blanks and complete comments that stand in front of a text. A comment behind two slashes runs to
the end of its line, one between marks to the first closing mark. -/
inductive Skipped : Text → Text → Prop
  | nil {behind : Text} : Skipped [] behind
  | blank {c : Char} {gap behind : Text} (blank : Text.isBlank c = true)
      (rest : Skipped gap behind) : Skipped (c :: gap) behind
  | line {body gap behind : Text} (inside : '\n' ∉ body)
      (stops : ∀ c ∈ (gap ++ behind).head?, c = '\n') (rest : Skipped gap behind) :
      Skipped ('/' :: '/' :: (body ++ gap)) behind
  | block {body gap behind : Text} (inside : ¬ ['*', '/'] <:+: body ++ ['*'])
      (rest : Skipped gap behind) : Skipped ('/' :: '*' :: (body ++ '*' :: '/' :: gap)) behind

/-- What the three readers of blanks and comments pass over. -/
private structure PassesOver (t : Text) : Prop where
  gap : ∃ gap behind, t = gap ++ behind ∧ gap.length = gapSize t ∧ Skipped gap behind
  line : ∃ body gap behind, t = body ++ (gap ++ behind) ∧
    (body ++ gap).length = lineCommentSize t ∧ '\n' ∉ body ∧
    (∀ c ∈ (gap ++ behind).head?, c = '\n') ∧ Skipped gap behind
  block {n : Nat} : blockCommentSize? t = some n → ∃ body gap behind,
    t = body ++ '*' :: '/' :: (gap ++ behind) ∧ (body ++ '*' :: '/' :: gap).length = n ∧
    ¬ ['*', '/'] <:+: body ++ ['*'] ∧ Skipped gap behind

private theorem PassesOver.gap_cons {c : Char} {t : Text} (ht : PassesOver t)
    (hu : PassesOver (t.drop 1)) :
    ∃ gap behind, c :: t = gap ++ behind ∧ gap.length = gapSize (c :: t) ∧ Skipped gap behind := by
  have nothing (h : gapSize (c :: t) = 0) : ∃ gap behind, c :: t = gap ++ behind ∧
      gap.length = gapSize (c :: t) ∧ Skipped gap behind := ⟨[], c :: t, rfl, h.symm, .nil⟩
  by_cases hslash : c = '/' ∧ (t.head? = some '/' ∨ t.head? = some '*')
  · obtain ⟨rfl, hline | hblock⟩ := hslash
    · obtain ⟨u, rfl⟩ := List.head?_eq_some_iff.mp hline
      obtain ⟨body, gap, behind, hsplit, hlength, hbody, hstops, hskipped⟩ := hu.line
      rw [List.drop_one, List.tail_cons] at hsplit hlength
      refine ⟨'/' :: '/' :: (body ++ gap), behind, ?_, ?_, .line hbody hstops hskipped⟩
      · rw [hsplit]
        simp
      · rw [gapSize_line, ← hlength, List.length_cons, List.length_cons]
        omega
    · obtain ⟨u, rfl⟩ := List.head?_eq_some_iff.mp hblock
      have hsize := gapSize_block u
      cases hn : blockCommentSize? u with
      | some n =>
        rw [hn] at hsize
        change gapSize ('/' :: '*' :: u) = 2 + n at hsize
        obtain ⟨body, gap, behind, hsplit, hlength, hbody, hskipped⟩ := hu.block hn
        rw [List.drop_one, List.tail_cons] at hsplit
        refine ⟨'/' :: '*' :: (body ++ '*' :: '/' :: gap), behind, ?_, ?_, .block hbody hskipped⟩
        · rw [hsplit]
          simp
        · rw [hsize, ← hlength, List.length_cons, List.length_cons]
          omega
      | none =>
        rw [hn] at hsize
        exact nothing hsize
  · have hplain := gapSize_plain fun hc => not_or.mp fun h => hslash ⟨hc, h⟩
    by_cases hblank : Text.isBlank c = true
    · rw [if_pos hblank] at hplain
      obtain ⟨gap, behind, hsplit, hlength, hskipped⟩ := ht.gap
      refine ⟨c :: gap, behind, by rw [hsplit, List.cons_append], ?_, .blank hblank hskipped⟩
      rw [hplain, List.length_cons, hlength, Nat.add_comm]
    · rw [if_neg hblank] at hplain
      exact nothing hplain

private theorem PassesOver.line_cons {c : Char} {t : Text} (ht : PassesOver t) :
    ∃ body gap behind, c :: t = body ++ (gap ++ behind) ∧
      (body ++ gap).length = lineCommentSize (c :: t) ∧ '\n' ∉ body ∧
      (∀ d ∈ (gap ++ behind).head?, d = '\n') ∧ Skipped gap behind := by
  rw [lineCommentSize_cons]
  split
  · next hc =>
    obtain ⟨gap, behind, hsplit, hlength, hskipped⟩ := ht.gap
    refine ⟨[], c :: gap, behind, by rw [hsplit]; rfl, ?_, by simp, ?_, .blank ?_ hskipped⟩
    · rw [List.nil_append, List.length_cons, hlength, Nat.add_comm]
    · simpa using hc
    · rw [hc]
      decide
  · next hc =>
    obtain ⟨body, gap, behind, hsplit, hlength, hbody, hstops, hskipped⟩ := ht.line
    refine ⟨c :: body, gap, behind, by rw [hsplit]; rfl, ?_, ?_, hstops, hskipped⟩
    · rw [List.cons_append, List.length_cons, hlength, Nat.add_comm]
    · simpa [hbody] using fun h => hc h.symm

private theorem PassesOver.block_cons {c : Char} {t : Text} (ht : PassesOver t)
    (hu : PassesOver (t.drop 1)) {n : Nat} (h : blockCommentSize? (c :: t) = some n) :
    ∃ body gap behind, c :: t = body ++ '*' :: '/' :: (gap ++ behind) ∧
      (body ++ '*' :: '/' :: gap).length = n ∧ ¬ ['*', '/'] <:+: body ++ ['*'] ∧
      Skipped gap behind := by
  by_cases hclose : c = '*' ∧ t.head? = some '/'
  · obtain ⟨rfl, hs⟩ := hclose
    obtain ⟨u, rfl⟩ := List.head?_eq_some_iff.mp hs
    rw [blockCommentSize?_close, Option.some.injEq] at h
    obtain ⟨gap, behind, hsplit, hlength, hskipped⟩ := hu.gap
    rw [List.drop_one, List.tail_cons] at hsplit hlength
    refine ⟨[], gap, behind, by rw [hsplit]; rfl, ?_, ?_, hskipped⟩
    · rw [← h, ← hlength]
      simp only [List.nil_append, List.length_cons]
      omega
    · exact fun hinfix => absurd hinfix.length_le (by simp)
  · have hopen : c = '*' → t.head? ≠ some '/' := fun hc hs => hclose ⟨hc, hs⟩
    rw [blockCommentSize?_plain hopen] at h
    obtain ⟨m, hm, rfl⟩ := Option.map_eq_some_iff.mp h
    obtain ⟨body, gap, behind, rfl, hlength, hbody, hskipped⟩ := ht.block hm
    refine ⟨c :: body, gap, behind, rfl, ?_, ?_, hskipped⟩
    · rw [← hlength, List.cons_append, List.length_cons, Nat.add_comm]
    · rw [List.cons_append, List.infix_cons_iff]
      rintro (hfront | hinfix)
      · -- The mark would begin with the first character, which does not go on with a slash.
        obtain ⟨rfl, hnext⟩ := List.cons_prefix_cons.mp hfront
        cases body with
        | nil => simp at hnext
        | cons d body =>
          obtain ⟨rfl, _⟩ := List.cons_prefix_cons.mp hnext
          exact hopen rfl rfl
      · exact hbody hinfix

private theorem passesOver (t : Text) : PassesOver t := by
  induction hn : t.length using Nat.strongRecOn generalizing t with
  | ind n ih =>
    cases t with
    | nil =>
      exact ⟨⟨[], [], rfl, by simp [gapSize], .nil⟩,
        ⟨[], [], [], rfl, by simp [lineCommentSize], by simp, by simp, .nil⟩,
        fun h => by simp [blockCommentSize?] at h⟩
    | cons c t =>
      rw [List.length_cons] at hn
      have ht : PassesOver t := ih t.length (by omega) t rfl
      have hu : PassesOver (t.drop 1) :=
        ih (t.drop 1).length (by rw [List.length_drop]; omega) _ rfl
      exact ⟨ht.gap_cons hu, ht.line_cons, fun h => ht.block_cons hu h⟩

/-- In front of a token stand blanks and complete comments. -/
theorem skipped_of_gapSize {gap behind : Text} (h : gapSize (gap ++ behind) = gap.length) :
    Skipped gap behind := by
  obtain ⟨gap', behind', hsplit, hlength, hskipped⟩ := (passesOver (gap ++ behind)).gap
  obtain ⟨rfl, rfl⟩ := List.append_inj hsplit (by rw [hlength, h])
  exact hskipped

/-- A text without tokens is passed over. -/
theorem gapSize_of_ending {offset : Nat} {t : Text} (h : ofTextAt offset t = [endingAt offset t]) :
    gapSize t = t.length := by
  have hdrop : t.drop (gapSize t) = [] := by
    rw [ofTextAt] at h
    dsimp only at h
    split at h
    · next hnil => exact hnil
    · next c rest _ =>
      have hkind := congrArg Token.kind (List.cons.inj h).1
      exact absurd hkind (Reading.kind_ne_ending c rest)
  obtain ⟨gap, behind, rfl, hlength, _⟩ := (passesOver t).gap
  rw [← hlength, List.drop_left] at hdrop
  rw [← hlength, hdrop, List.append_nil]

/-- A text without tokens holds blanks and complete comments. -/
theorem skipped_of_ending {offset : Nat} {t : Text} (h : ofTextAt offset t = [endingAt offset t]) :
    Skipped t [] := by
  apply skipped_of_gapSize
  rw [List.append_nil]
  exact gapSize_of_ending h

/-! ## What a token stands for -/

/-- A token that is the rest of a source behind the opening mark of a comment. -/
def IsUnfinishedComment (t : Token) : Prop := t.kind = .malformed ∧ t.value = unfinishedComment

/-- Apart from literals and what is malformed, what is read stands for its characters. -/
theorem Reads.value_eq_none {c : Char} {t : Text} {r : Reading} (h : Reads c t r)
    (hstring : r.kind ≠ .string) (htemplate : r.kind ≠ .template)
    (hmalformed : r.kind ≠ .malformed) : r.value = none := by
  cases h with
  | string => cases hbody : stringBody c t <;> simp [hbody, Reading.literal] at hstring hmalformed
  | template =>
    cases hbody : templateBody 0 t <;> simp [hbody, Reading.literal] at htemplate hmalformed
  | number => rfl
  | word =>
    obtain ⟨kind, -, hword⟩ := wordReading_eq_plain c t
    rw [hword]
    rfl
  | mark => rfl
  | comment => exact absurd rfl hmalformed
  | unexpected => exact absurd rfl hmalformed

/-- What is malformed has a message. -/
theorem Reads.exists_message {c : Char} {t : Text} {r : Reading} (h : Reads c t r)
    (hkind : r.kind = .malformed) : ∃ message, r.value = some message := by
  cases h with
  | string => cases hbody : stringBody c t <;> exact ⟨_, rfl⟩
  | template => cases hbody : templateBody 0 t <;> exact ⟨_, rfl⟩
  | number => simp [numberReading, Reading.plain] at hkind
  | word =>
    obtain ⟨kind, hname, hword⟩ := wordReading_eq_plain c t
    rw [hword] at hkind
    obtain rfl : kind = .malformed := hkind
    exact absurd hname (by decide)
  | @mark kind more isMark =>
    obtain rfl : kind = .malformed := hkind
    exact absurd isMark (by decide)
  | comment => exact ⟨_, rfl⟩
  | unexpected => exact ⟨_, rfl⟩

/-- Only the opening mark of a comment is malformed with the message of a comment. -/
theorem Reads.opens_of_value {c : Char} {t : Text} {r : Reading} (h : Reads c t r)
    (hkind : r.kind = .malformed) (hvalue : r.value = some unfinishedComment) :
    c = '/' ∧ t.head? = some '*' := by
  cases h with
  | string =>
    cases hbody : stringBody c t with
    | closed => simp [hbody, Reading.literal] at hkind
    | unclosed =>
      simp only [hbody, Reading.literal, Option.some.injEq] at hvalue
      exact absurd hvalue (by decide)
  | template =>
    cases hbody : templateBody 0 t with
    | closed => simp [hbody, Reading.literal] at hkind
    | unclosed =>
      simp only [hbody, Reading.literal, Option.some.injEq] at hvalue
      exact absurd hvalue (by decide)
  | number => simp [numberReading, Reading.plain] at hvalue
  | word =>
    obtain ⟨kind, -, hword⟩ := wordReading_eq_plain c t
    simp [hword, Reading.plain] at hvalue
  | mark => simp [Reading.plain] at hvalue
  | comment opens => exact opens
  | unexpected =>
    have hlength := congrArg List.length (Option.some.inj hvalue)
    exact absurd hlength (by decide : ¬ 23 = 31)

/-- The rest of a source behind the opening mark of a comment is one token. -/
theorem Reading.ofText_comment {t : Text} (h : t.head? = some '*') :
    Reading.ofText '/' t = ⟨.malformed, t.length, some unfinishedComment⟩ := by
  obtain ⟨u, rfl⟩ := List.head?_eq_some_iff.mp h
  have hnumber : opensNumber '/' ('*' :: u) = false := rfl
  have hname : startsName '/' = false := by decide
  unfold Reading.ofText
  rw [if_neg (by decide), if_neg (by decide), if_neg (by simp [hnumber]), if_neg (by simp [hname]),
    if_neg (by decide), if_neg (by decide), if_neg (by decide), if_pos (by simp)]
  rfl

theorem opensComment_iff {text : Text} :
    opensComment text = true ↔ ∃ t, text = '/' :: '*' :: t := by
  unfold opensComment
  split
  · next t => exact ⟨fun _ => ⟨t, rfl⟩, fun _ => rfl⟩
  · next hnone => exact ⟨fun h => by simp at h, fun ⟨t, ht⟩ => absurd ht (hnone t)⟩

/-- A token begins with the opening mark of a comment where the comment is not closed. -/
theorem ReadsFront.opensComment_iff_unfinished {offset : Nat} {t behind : Text} {tok : Token}
    (h : ReadsFront offset t tok behind) :
    opensComment tok.text = true ↔ tok.IsUnfinishedComment := by
  obtain ⟨c, w, htext, hmore, hkind, hvalue⟩ := h.reading
  rw [opensComment_iff, htext]
  constructor
  · rintro ⟨u, hu⟩
    obtain ⟨rfl, rfl⟩ := List.cons.inj hu
    rw [Reading.ofText_comment rfl] at hkind hvalue
    exact ⟨hkind, hvalue⟩
  · rintro ⟨hmalformed, hcomment⟩
    rw [hkind] at hmalformed
    have hreads := Reading.reads c (w ++ behind)
    have hmessage : (Reading.ofText c (w ++ behind)).value = some unfinishedComment := by
      obtain ⟨message, hsome⟩ := hreads.exists_message hmalformed
      rw [hsome] at hvalue ⊢
      rw [← hcomment, hvalue]
      rfl
    obtain ⟨rfl, hhead⟩ := hreads.opens_of_value hmalformed hmessage
    obtain ⟨u, hu⟩ := List.head?_eq_some_iff.mp hhead
    rw [Reading.ofText_comment hhead] at hmore
    have hbehind : behind = [] := by
      change (w ++ behind).length = w.length at hmore
      rw [List.length_append] at hmore
      exact List.length_eq_zero_iff.mp (by omega)
    rw [hbehind, List.append_nil] at hu
    exact ⟨u, by rw [hu]⟩

/-! ## Places -/

/-- Where the last of some tokens ends, or the beginning of the source if there are none. -/
def endOf (before : List Token) : Nat := (before.getLast?.map (·.span.stop)).getD 0

/-- A token of a source with what stands in front of it and behind it. -/
structure StandsBetween (source : Text) (before : List Token) (t : Token) (behind : Text) :
    Prop where
  split : source = written before ++ (t.gap ++ (t.text ++ behind))
  start : t.start = Text.bytes (written before) + Text.bytes t.gap
  skipped : Skipped t.gap (t.text ++ behind)

/-- A token is the ending, behind which nothing stands, or it has been read. -/
theorem exists_standsBetween {source : Text} {before after : List Token} {t : Token}
    (h : ofText source = before ++ t :: after) : ∃ behind, StandsBetween source before t behind ∧
      (t = endingAt (Text.bytes (written before)) t.gap ∧ behind = [] ∧ after = [] ∨
        ReadsFront (Text.bytes (written before)) (t.gap ++ (t.text ++ behind)) t behind ∧
          after = ofTextAt t.stop behind) := by
  obtain ⟨rest, hsource, hrest⟩ := ofTextAt_behind h (by simp)
  rw [Nat.zero_add] at hrest
  rcases ofTextAt_cases (Text.bytes (written before)) rest with hending | ⟨tok, behind, hreads⟩
  · have hlist := hrest.symm.trans hending
    obtain ⟨rfl, rfl⟩ := List.cons.inj hlist
    refine ⟨[], ⟨?_, rfl, ?_⟩, Or.inl ⟨rfl, rfl, rfl⟩⟩
    · simpa [endingAt, written] using hsource
    · simpa [endingAt] using skipped_of_ending hending
  · have hlist := hrest.symm.trans hreads.ofTextAt_eq
    obtain ⟨rfl, rfl⟩ := List.cons.inj hlist
    refine ⟨behind, ⟨?_, hreads.start, ?_⟩, Or.inr ⟨?_, rfl⟩⟩
    · rw [← hreads.source]
      exact hsource
    · apply skipped_of_gapSize
      rw [← hreads.source]
      exact hreads.gap
    · rw [← hreads.source]
      exact hreads

theorem written_append (tokens others : List Token) :
    written (tokens ++ others) = written tokens ++ written others := by
  simp [written]

theorem endOf_eq {source : Text} {before others : List Token}
    (h : ofText source = before ++ others) : endOf before = Text.bytes (written before) := by
  rcases List.eq_nil_or_concat before with rfl | ⟨init, u, rfl⟩
  · rfl
  · rw [List.concat_eq_append, List.append_assoc] at h
    obtain ⟨behind, hstands, _⟩ := exists_standsBetween h
    rw [List.concat_eq_append, written_append, Text.bytes_append]
    simp only [endOf, List.getLast?_append, List.getLast?_singleton, Option.some_or,
      Option.map_some, Option.getD_some, span, stop, hstands.start]
    simp [written, Token.source, Nat.add_assoc]

namespace StandsBetween

variable {source : Text} {before : List Token} {t : Token} {behind : Text}

theorem stop_eq (h : StandsBetween source before t behind) :
    t.stop = Text.bytes (written before ++ (t.gap ++ t.text)) := by
  simp only [stop, h.start, Text.bytes_append]
  omega

/-- The characters of a token are those that the source has in its range. -/
theorem slice_span (h : StandsBetween source before t behind) : t.span.slice source = t.text := by
  have hslice := Text.slice_between (written before ++ t.gap) t.text behind
  rw [Text.bytes_append, ← h.start, List.append_assoc, ← h.split] at hslice
  exact hslice

/-- The gap in front of a token is what the source has there. -/
theorem slice_gap (h : StandsBetween source before t behind) :
    (Span.mk (Text.bytes (written before)) t.span.start).slice source = t.gap := by
  have hslice := Text.slice_between (written before) t.gap (t.text ++ behind)
  rw [← h.start, ← h.split] at hslice
  exact hslice

theorem dropBytes_start (h : StandsBetween source before t behind) :
    Text.dropBytes t.span.start source = t.text ++ behind := by
  have hdrop := Text.dropBytes_bytes (written before ++ t.gap) (t.text ++ behind)
  rw [Text.bytes_append, ← h.start, List.append_assoc, ← h.split] at hdrop
  exact hdrop

theorem isBoundary_start (h : StandsBetween source before t behind) :
    Text.IsBoundary source t.span.start := by
  refine ⟨written before ++ t.gap, t.text ++ behind, ?_, ?_⟩
  · rw [List.append_assoc]
    exact h.split
  · rw [Text.bytes_append]
    exact h.start.symm

theorem isBoundary_stop (h : StandsBetween source before t behind) :
    Text.IsBoundary source t.span.stop := by
  refine ⟨written before ++ (t.gap ++ t.text), behind, ?_, h.stop_eq.symm⟩
  rw [List.append_assoc, List.append_assoc]
  exact h.split

theorem stop_le (h : StandsBetween source before t behind) : t.span.stop ≤ Text.bytes source := by
  have hstop : t.span.stop = _ := h.stop_eq
  rw [hstop, h.split]
  simp only [Text.bytes_append]
  omega

end StandsBetween

/-- What a source has from the beginning of one token to the end of another is their texts with what
stands between them. -/
theorem slice_joined {source : Text} {before others behind : List Token} {first : Token}
    (h : ofText source = before ++ (first :: others ++ behind)) :
    (Span.mk first.start (endOf (before ++ first :: others))).slice source =
      joined (first :: others) := by
  obtain ⟨_, hstands, _⟩ := exists_standsBetween h
  have hown : written (first :: others) = first.gap ++ joined (first :: others) := by
    simp [written, joined, Token.source]
  have hstop : endOf (before ++ first :: others) =
      Text.bytes (written before ++ first.gap) + Text.bytes (joined (first :: others)) := by
    rw [endOf_eq (h.trans (List.append_assoc _ _ _).symm), written_append, hown,
      ← Text.bytes_append, List.append_assoc]
  have hsource : source = written before ++ first.gap ++
      (joined (first :: others) ++ written behind) := by
    have hflatten : written (ofText source) = source := flatten_source 0 source
    rw [h, written_append, written_append, hown] at hflatten
    rw [← hflatten]
    simp only [List.append_assoc]
  rw [hstop, hstands.start, ← Text.bytes_append]
  conv_lhs => rw [hsource]
  exact Text.slice_between _ _ _

/-- A token that is no ending takes some of the source. -/
theorem start_lt_stop {source : Text} {t : Token} (ht : t ∈ ofText source)
    (hkind : t.kind ≠ .ending) : t.span.start < t.span.stop := by
  obtain ⟨before, after, hsplit⟩ := List.append_of_mem ht
  obtain ⟨behind, hstands, ⟨hending, _⟩ | ⟨hreads, _⟩⟩ := exists_standsBetween hsplit
  · rw [hending] at hkind
    exact absurd rfl hkind
  · obtain ⟨c, w, htext, _⟩ := hreads.reading
    have hpos := c.utf8Size_pos
    simp only [span, stop, htext, Text.bytes_cons]
    omega

theorem ofTextAt_ne_nil (offset : Nat) (t : Text) : ofTextAt offset t ≠ [] := by
  rcases ofTextAt_cases offset t with h | ⟨tok, behind, h⟩
  · simp [h]
  · simp [h.ofTextAt_eq]

/-- The last token is an ending that takes nothing, and it stands at the end of the source. -/
theorem exists_ending (source : Text) : ∃ others last, ofText source = others ++ [last] ∧
    last.kind = .ending ∧ last.span = ⟨Text.bytes source, Text.bytes source⟩ ∧
    ∀ t ∈ others, t.kind ≠ .ending := by
  rcases List.eq_nil_or_concat (ofText source) with hnil | ⟨others, last, hlast⟩
  · exact absurd hnil (ofTextAt_ne_nil 0 source)
  rw [List.concat_eq_append] at hlast
  obtain ⟨behind, hstands, ⟨hending, rfl, _⟩ | ⟨_, hafter⟩⟩ := exists_standsBetween hlast
  · have hkind : last.kind = .ending := by rw [hending]; rfl
    have htext : last.text = [] := by rw [hending]; rfl
    have hstart : last.start = Text.bytes source := by
      rw [hstands.split, hstands.start, htext]
      simp
    refine ⟨others, last, hlast, hkind, ?_, ?_⟩
    · simp [span, stop, htext, hstart]
    · intro t ht
      obtain ⟨before, after, rfl⟩ := List.append_of_mem ht
      rw [List.append_assoc, List.cons_append] at hlast
      obtain ⟨_, _, ⟨_, _, hafter⟩ | ⟨hreads, _⟩⟩ := exists_standsBetween hlast
      · simp at hafter
      · exact hreads.kind_ne_ending
  · exact absurd hafter.symm (ofTextAt_ne_nil _ _)

/-- Tokens of a source whose last one is no ending have no ending at all. -/
theorem ne_ending_of_last {source : Text} {before own behind : List Token}
    (h : ofText source = before ++ (own ++ behind)) (hlast : ∀ t ∈ own.getLast?, t.kind ≠ .ending) :
    ∀ t ∈ own, t.kind ≠ .ending := by
  obtain ⟨others, ending, hsource, hending, _, hothers⟩ := exists_ending source
  rw [hsource, ← List.append_assoc] at h
  rcases List.eq_nil_or_concat' behind with rfl | ⟨behind, last, rfl⟩
  · rcases List.eq_nil_or_concat' own with rfl | ⟨own, last, rfl⟩
    · simp
    · rw [List.append_nil, ← List.append_assoc] at h
      obtain ⟨_, hsame⟩ := List.append_inj' h rfl
      obtain ⟨rfl, _⟩ := List.cons.inj hsame
      exact absurd hending (hlast ending (by simp))
  · rw [← List.append_assoc] at h
    obtain ⟨rfl, _⟩ := List.append_inj' h rfl
    exact fun t ht => hothers t (by simp [ht])

theorem Placed.le_start {offset : Nat} {tokens : List Token} (h : Placed offset tokens) :
    ∀ t ∈ tokens, offset ≤ t.start := by
  induction h with
  | ending start text => simp [start]
  | cons start text visible behind ih =>
    intro u hu
    rcases List.mem_cons.mp hu with rfl | hu
    · omega
    · have := ih u hu
      rw [stop] at this
      omega

/-- Each token begins where the ones before it have ended. -/
theorem Placed.pairwise {offset : Nat} {tokens : List Token} (h : Placed offset tokens) :
    tokens.Pairwise fun t u => t.span.stop ≤ u.span.start := by
  induction h with
  | ending start text => simp
  | cons start text visible behind ih => exact List.pairwise_cons.mpr ⟨behind.le_start, ih⟩

theorem Placed.tail {offset : Nat} {t : Token} {rest : List Token}
    (h : Placed offset (t :: rest)) : rest = [] ∨ Placed t.stop rest := by
  cases h with
  | ending => exact Or.inl rfl
  | cons start text visible behind => exact Or.inr behind

theorem Placed.exists_suffix {offset : Nat} {front rest : List Token} {t : Token}
    (h : Placed offset (front ++ t :: rest)) : ∃ offset', Placed offset' (t :: rest) := by
  induction front generalizing offset with
  | nil => exact ⟨offset, h⟩
  | cons u front ih => exact ih (h.tail.resolve_left (by simp))

/-- Tokens that a source can be divided along. -/
structure Tiles (source : Text) (tokens : List Token) : Prop where
  /-- The last token and no other is an ending, and it stands at the end of the source. -/
  ending : ∃ others last, tokens = others ++ [last] ∧ last.kind = .ending ∧
    last.span = ⟨Text.bytes source, Text.bytes source⟩ ∧ ∀ t ∈ others, t.kind ≠ .ending
  /-- Every other token takes some of the source, between characters. -/
  inside : ∀ t ∈ tokens, t.kind ≠ .ending → t.span.start < t.span.stop ∧
    t.span.stop ≤ Text.bytes source ∧ Text.IsBoundary source t.span.start ∧
    Text.IsBoundary source t.span.stop
  /-- Ranges follow one another and do not overlap. -/
  ordered : tokens.Pairwise fun t u => t.span.stop ≤ u.span.start
  /-- What stands between a token and the one before it is blanks and complete comments. -/
  skipped : ∀ before t after, tokens = before ++ t :: after →
    Skipped ((Span.mk (endOf before) t.span.start).slice source)
      (Text.dropBytes t.span.start source)
  /-- A token is on a new line if there is a line feed in front of it; in a comment that is not
  closed the line feeds inside count as well. -/
  newline : ∀ before t after, tokens = before ++ t :: after →
    (t.newline = true ↔ '\n' ∈ (Span.mk (endOf before) t.span.start).slice source ∨
      t.IsUnfinishedComment ∧ '\n' ∈ t.span.slice source)
  /-- Apart from literals and what is malformed, a token stands for its characters. -/
  value : ∀ t ∈ tokens, t.kind ≠ .string → t.kind ≠ .template → t.kind ≠ .malformed →
    t.value = t.span.slice source

/-- Every source can be divided along its tokens. -/
theorem ofText_tiles (source : Text) : Tiles source (ofText source) where
  ending := exists_ending source
  ordered := (placed_ofTextAt 0 source).pairwise
  inside t ht hkind := by
    obtain ⟨before, after, hsplit⟩ := List.append_of_mem ht
    obtain ⟨behind, hstands, _⟩ := exists_standsBetween hsplit
    exact ⟨start_lt_stop ht hkind, hstands.stop_le, hstands.isBoundary_start,
      hstands.isBoundary_stop⟩
  skipped before t after hsplit := by
    obtain ⟨behind, hstands, _⟩ := exists_standsBetween hsplit
    rw [endOf_eq hsplit, hstands.slice_gap, hstands.dropBytes_start]
    exact hstands.skipped
  newline before t after hsplit := by
    obtain ⟨behind, hstands, ⟨hending, _⟩ | ⟨hreads, _⟩⟩ := exists_standsBetween hsplit
    · rw [endOf_eq hsplit, hstands.slice_gap, hending]
      simp [endingAt, IsUnfinishedComment]
    · rw [endOf_eq hsplit, hstands.slice_gap, hstands.slice_span, hreads.newline,
        ← hreads.opensComment_iff_unfinished]
      simp
  value t ht hstring htemplate hmalformed := by
    obtain ⟨before, after, hsplit⟩ := List.append_of_mem ht
    obtain ⟨behind, hstands, ⟨hending, _⟩ | ⟨hreads, _⟩⟩ := exists_standsBetween hsplit
    · rw [hstands.slice_span, hending]
      rfl
    · obtain ⟨c, w, _, _, hkind, hvalue⟩ := hreads.reading
      rw [hkind] at hstring htemplate hmalformed
      rw [hstands.slice_span, hvalue,
        (Reading.reads c _).value_eq_none hstring htemplate hmalformed]
      rfl

end Token

end TypeInliner
