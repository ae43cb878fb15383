import TypeInliner.Proofs.ReferenceMarkers
import TypeInliner.Proofs.SourceTiling

/-! # What may stand next to a token

A token is read from what it begins with, and its reading stops where the longest token ends. So it
is read again wherever blanks and complete comments stand in front of it and what stands behind it
does not continue it. -/

namespace TypeInliner

namespace Token

/-! ## Spacing -/

/-- Blanks and comments that are complete by themselves, whatever stands behind them: a comment
behind two slashes ends with its line feed, one between marks with the first closing mark. -/
inductive Spacing : Text → Prop
  | nil : Spacing []
  | blank {c : Char} {gap : Text} (blank : Text.isBlank c = true) (rest : Spacing gap) :
      Spacing (c :: gap)
  | line {body gap : Text} (inside : '\n' ∉ body) (rest : Spacing gap) :
      Spacing ('/' :: '/' :: (body ++ '\n' :: gap))
  | block {body gap : Text} (inside : ¬ ['*', '/'] <:+: body) (rest : Spacing gap) :
      Spacing ('/' :: '*' :: (body ++ '*' :: '/' :: gap))

theorem lineCommentSize_body {body : Text} (h : '\n' ∉ body) (t : Text) :
    lineCommentSize (body ++ '\n' :: t) = body.length + 1 + gapSize t := by
  induction body with
  | nil =>
    rw [List.nil_append, lineCommentSize_cons, if_pos rfl, List.length_nil]
  | cons c body ih =>
    obtain ⟨hc, hbody⟩ := not_or.mp fun hmem => h (List.mem_cons.mpr hmem)
    rw [List.cons_append, lineCommentSize_cons, if_neg (Ne.symm hc), ih hbody, List.length_cons]
    omega

theorem blockCommentSize?_body {body : Text} (h : ¬ ['*', '/'] <:+: body) (t : Text) :
    blockCommentSize? (body ++ '*' :: '/' :: t) = some (body.length + 2 + gapSize t) := by
  induction body with
  | nil => rw [List.nil_append, blockCommentSize?_close, List.length_nil, Nat.zero_add]
  | cons c body ih =>
    have hplain : c = '*' → (body ++ '*' :: '/' :: t).head? ≠ some '/' := by
      rintro rfl hhead
      cases body with
      | nil => simp at hhead
      | cons d body =>
        obtain rfl := Option.some.inj hhead
        exact h ⟨[], body, rfl⟩
    have hbody : ¬ ['*', '/'] <:+: body :=
      fun hmarks => h (hmarks.trans (List.infix_cons List.infix_rfl))
    rw [List.cons_append, blockCommentSize?_plain hplain, ih hbody, Option.map_some,
      List.length_cons]
    congr 1
    omega

namespace Spacing

/-- Spacing is passed over whatever stands behind it. -/
theorem gapSize_append {gap : Text} (h : Spacing gap) (t : Text) :
    gapSize (gap ++ t) = gap.length + gapSize t := by
  induction h with
  | nil => rw [List.nil_append, List.length_nil, Nat.zero_add]
  | blank hc _ ih =>
    rw [List.cons_append, gapSize_of_blank hc, ih, List.length_cons]
    omega
  | @line body gap inside _ ih =>
    rw [List.cons_append, List.cons_append, List.append_assoc, List.cons_append, gapSize_line,
      lineCommentSize_body inside, ih]
    simp only [List.length_cons, List.length_append]
    omega
  | @block body gap inside _ ih =>
    rw [List.cons_append, List.cons_append, List.append_assoc, List.cons_append, List.cons_append,
      gapSize_block, blockCommentSize?_body inside, ih]
    simp only [List.length_cons, List.length_append]
    omega

theorem append {gap gap' : Text} (h : Spacing gap) (h' : Spacing gap') : Spacing (gap ++ gap') := by
  induction h with
  | nil => exact h'
  | blank hc _ ih => exact .blank hc ih
  | line inside _ ih =>
    rw [List.cons_append, List.cons_append, List.append_assoc, List.cons_append]
    exact .line inside ih
  | block inside _ ih =>
    rw [List.cons_append, List.cons_append, List.append_assoc, List.cons_append, List.cons_append]
    exact .block inside ih

theorem tail {gap : Text} (h : Spacing ('\n' :: gap)) : Spacing gap := by
  cases h with
  | blank _ rest => exact rest

theorem dropLineFeed {gap : Text} (h : Spacing gap) : Spacing (Text.dropLineFeed gap) := by
  unfold Text.dropLineFeed
  split
  · exact h.tail
  · exact h

/-- Spacing begins with a blank or a slash. -/
theorem first {gap : Text} (h : Spacing gap) :
    ∀ c ∈ gap.head?, Text.isBlank c = true ∨ c = '/' := by
  cases h with
  | nil => simp
  | blank hc => simpa using Or.inl hc
  | line => simp
  | block => simp

end Spacing

/-- What is skipped in front of a text is complete by itself, unless it ends with a comment and the
text with its line feed. -/
theorem Skipped.spacing {gap behind : Text} (h : Skipped gap behind) (hne : behind ≠ [])
    (hline : behind.head? ≠ some '\n') : Spacing gap := by
  induction h with
  | nil => exact .nil
  | blank hc _ ih => exact .blank hc (ih hne hline)
  | @line body gap behind inside stops _ ih =>
    cases gap with
    | nil =>
      obtain ⟨c, behind, rfl⟩ := List.exists_cons_of_ne_nil hne
      exact absurd (congrArg some (stops c rfl)) hline
    | cons c gap =>
      obtain rfl := stops c rfl
      exact .line inside (ih hne hline).tail
  | @block body gap behind inside _ ih =>
    exact .block (fun hmarks => inside (hmarks.trans (List.prefix_append _ _).isInfix))
      (ih hne hline)

/-- What is passed over in front of a character that no comment needs is spacing. -/
theorem spacing_of_gapSize {gap : Text} {c : Char} (h : gapSize (gap ++ [c]) = gap.length)
    (hc : c ≠ '\n') : Spacing gap :=
  (skipped_of_gapSize h).spacing (by simp) (by simpa using hc)

/-- A text that is passed over holds only its ending. -/
theorem ofTextAt_of_gap {offset : Nat} {t : Text} (h : gapSize t = t.length) :
    ofTextAt offset t = [endingAt offset t] := by
  rcases ofTextAt_cases offset t with hending | ⟨tok, behind, hreads⟩
  · exact hending
  · obtain ⟨c, w, htext, _⟩ := hreads.reading
    have hlength := congrArg List.length hreads.source
    have hgap := hreads.gap
    simp only [htext, List.length_append, List.length_cons] at hlength
    omega

/-- In front of a token that is read stands spacing. -/
theorem ReadsFront.spacing {offset : Nat} {t behind : Text} {tok : Token}
    (h : ReadsFront offset t tok behind) : Spacing tok.gap := by
  obtain ⟨c, w, htext, hvisible⟩ := h.visible
  have hskipped : Skipped tok.gap (tok.text ++ behind) := by
    apply skipped_of_gapSize
    rw [← h.source]
    exact h.gap
  refine hskipped.spacing ?_ ?_
  · simp [htext]
  · simpa [htext] using hvisible

/-! ## Separators -/

theorem separates_of_isBlank {c : Char} (h : Text.isBlank c = true) : separates c = true := by
  have hall : ∀ n ∈ TypeReference.blankCodes, separates (Char.ofNat n) = true := by decide +kernel
  have hc := hall c.toNat (TypeReference.toNat_mem_blankCodes h)
  rwa [Char.ofNat_toNat] at hc

theorem Spacing.separates {gap : Text} (h : Spacing gap) :
    ∀ c ∈ gap.head?, separates c = true := by
  intro c hc
  rcases h.first c hc with hblank | rfl
  · exact separates_of_isBlank hblank
  · decide

/-! ## Other neighbours -/

/-- A token with another gap, at the place it then has behind an offset. -/
def withGap (tok : Token) (gap : Text) (offset : Nat) : Token :=
  { tok with
    gap := gap
    newline := gap.contains '\n' || (opensComment tok.text && tok.text.contains '\n')
    start := offset + Text.bytes gap }

@[simp] theorem seen_withGap (tok : Token) (gap : Text) (offset : Nat) :
    (tok.withGap gap offset).seen = tok.seen := rfl

/-- A text that may replace another one behind a token: it begins in the same way, or the token is
not malformed and the two do not begin a comment. -/
def Admits (tok : Token) (behind behind' : Text) : Prop :=
  ∀ d ∈ behind'.head?, behind.head? = some d ∨
    tok.kind ≠ .malformed ∧ (tok.text = ['/'] → d ≠ '/' ∧ d ≠ '*')

/-- A token that stands with spacing in front of it where it is read in the same way. -/
theorem ReadsFront.reread {offset : Nat} {t behind behind' : Text} {tok : Token}
    (h : ReadsFront offset t tok behind)
    (hgap : gapSize (tok.text ++ behind') = 0)
    (hreading : ∀ c w, tok.text = c :: w →
      Reading.ofText c (w ++ behind') = Reading.ofText c (w ++ behind))
    {gap : Text} (hspacing : Spacing gap) (other : Nat) :
    ReadsFront other (gap ++ (tok.text ++ behind')) (tok.withGap gap other) behind' where
  source := rfl
  gap := by rw [hspacing.gapSize_append, hgap, Nat.add_zero]; rfl
  reading := by
    obtain ⟨c, w, htext, hread⟩ := h.reading
    rw [← hreading c w htext] at hread
    exact ⟨c, w, htext, hread⟩
  newline := rfl
  start := rfl

/-- A token itself begins with no gap. -/
theorem ReadsFront.gap_behind {offset : Nat} {t behind : Text} {tok : Token}
    (h : ReadsFront offset t tok behind) : gapSize (tok.text ++ behind) = 0 := by
  have hdrop := gapSize_drop t
  rwa [h.gap, h.source, List.drop_left] at hdrop

theorem gapSize_slash {t : Text} (h : t.head? = some '/') : gapSize ('/' :: t) ≠ 0 := by
  obtain ⟨u, rfl⟩ := List.head?_eq_some_iff.mp h
  rw [gapSize_line]
  omega

theorem head?_exchange {u b b' : Text} {d : Char} (h : (u ++ b').head? = some d) :
    (u ++ b).head? = some d ∨ u = [] ∧ b'.head? = some d := by
  cases u with
  | nil => exact Or.inr ⟨rfl, h⟩
  | cons c u => exact Or.inl h

section Exchange

/-! What stands behind a token goes on in the same way up to a border, behind which another text
may follow. -/

variable {offset : Nat} {t s b b' : Text} {tok : Token} (h : ReadsFront offset t tok (s ++ b))
  (hb : ∀ d ∈ b'.head?, separates d = true) (hadmits : s = [] → tok.Admits b b')

include h

/-- Behind a slash no comment begins. -/
private theorem ReadsFront.slash_exchange (hadmits : tok.Admits b b') (hs : s = [])
    (htext : tok.text = ['/']) : b'.head? ≠ some '/' ∧ b'.head? ≠ some '*' := by
  subst hs
  have hfront := h.gap_behind
  obtain ⟨c, w, htext', hmore, _⟩ := h.reading
  obtain ⟨rfl, rfl⟩ := List.cons.inj (htext'.symm.trans htext)
  rw [htext] at hfront
  refine ⟨fun hline => ?_, fun hblock => ?_⟩
  · rcases hadmits '/' hline with hsame | ⟨_, hother⟩
    · exact gapSize_slash hsame hfront
    · exact (hother htext).1 rfl
  · rcases hadmits '*' hblock with hsame | ⟨_, hother⟩
    · rw [List.nil_append, List.nil_append, Reading.ofText_comment hsame] at hmore
      obtain ⟨u, rfl⟩ := List.head?_eq_some_iff.mp hsame
      simp at hmore
    · exact (hother htext).2 rfl

include hb hadmits

private theorem ReadsFront.text_exchange :
    ∀ c w, tok.text = c :: w →
      Reading.ofText c (w ++ (s ++ b')) = Reading.ofText c (w ++ (s ++ b)) := by
  obtain ⟨c, w, htext, hmore, hkind, _⟩ := h.reading
  intro c' w' htext'
  obtain ⟨rfl, rfl⟩ := List.cons.inj (htext.symm.trans htext')
  rw [← List.append_assoc] at hmore hkind
  rw [← List.append_assoc, ← List.append_assoc]
  refine Reading.ofText_exchange hb ?_ ?_ (by rw [hmore, List.length_append]; omega)
  · rintro rfl hnil
    obtain ⟨rfl, hs⟩ := List.append_eq_nil_iff.mp hnil
    exact (h.slash_exchange (hadmits hs) hs htext).2
  · rw [← hkind, hmore, List.length_append]
    intro hmalformed hlength d hd
    have hs : s = [] := List.length_eq_zero_iff.mp (by omega)
    exact (hadmits hs d hd).resolve_right fun hother => hother.1 hmalformed

/-- No comment arises at the beginning of the token. -/
private theorem ReadsFront.gap_exchange : gapSize (tok.text ++ (s ++ b')) = 0 := by
  have hfront := h.gap_behind
  obtain ⟨c, w, htext, hmore, hkind, _⟩ := h.reading
  rw [htext, List.cons_append, ← List.append_assoc] at hfront ⊢
  by_cases hc : c = '/'
  · subst hc
    by_cases hline : (w ++ s ++ b').head? = some '/'
    · rcases head?_exchange hline with hsame | ⟨hnil, hslash⟩
      · exact absurd hfront (gapSize_slash hsame)
      · obtain ⟨rfl, hs⟩ := List.append_eq_nil_iff.mp hnil
        exact absurd hslash (h.slash_exchange (hadmits hs) hs htext).1
    by_cases hblock : (w ++ s ++ b').head? = some '*'
    · rcases head?_exchange hblock with hsame | ⟨hnil, hstar⟩
      · -- The token is a comment that is not closed, so nothing stands behind it.
        rw [← List.append_assoc, Reading.ofText_comment hsame] at hmore hkind
        have hnil : s = [] ∧ b = [] := by
          simp only [List.length_append] at hmore
          exact ⟨List.length_eq_zero_iff.mp (by omega), List.length_eq_zero_iff.mp (by omega)⟩
        obtain ⟨rfl, rfl⟩ := hnil
        cases b' with
        | nil => exact hfront
        | cons d b' =>
          rcases hadmits rfl d rfl with hsame | ⟨hother, _⟩
          · simp at hsame
          · exact absurd hkind hother
      · obtain ⟨rfl, hs⟩ := List.append_eq_nil_iff.mp hnil
        exact absurd hstar (h.slash_exchange (hadmits hs) hs htext).2
    · rw [gapSize_plain fun _ => ⟨hline, hblock⟩]
      rfl
  · rw [gapSize_plain fun h => absurd h hc] at hfront ⊢
    split at hfront
    · omega
    · next hblank => rw [if_neg hblank]

/-- A token is read again behind any spacing if what stands behind it is the same up to a border. -/
theorem ReadsFront.exchange {gap : Text} (hspacing : Spacing gap) (other : Nat) :
    ReadsFront other (gap ++ (tok.text ++ (s ++ b'))) (tok.withGap gap other) (s ++ b') :=
  h.reread (h.gap_exchange hb hadmits) (h.text_exchange hb hadmits) hspacing other

end Exchange

/-! ## Marks of one character -/

/-- A character that is a mark by itself is read whatever stands behind it. -/
theorem Reading.ofText_single {c : Char} {kind : Kind} (h : singleKind? c = some kind) (t : Text) :
    Reading.ofText c t = .plain kind 0 := by
  unfold singleKind? at h
  split at h <;> first | (obtain rfl := Option.some.inj h; rfl) | simp at h

/-- Kinds of marks behind which a statement begins. -/
def endsStatement (kind : Kind) : Bool := kind = .semicolon || kind = .rightBrace

private theorem not_endsStatement_literal {kind : Kind} (h : endsStatement kind = false)
    (message : Text) (body : LiteralBody) :
    endsStatement (Reading.literal kind message body).kind = false := by
  cases body with
  | closed => exact h
  | unclosed => rfl

/-- Marks behind which a statement begins are read from one character. -/
theorem Reading.single_of_endsStatement {c : Char} {t : Text}
    (h : endsStatement (Reading.ofText c t).kind = true) : ∃ kind, singleKind? c = some kind := by
  have operator : endsStatement (operatorReading t).kind = false := rfl
  unfold Reading.ofText at h
  split at h
  · simp [not_endsStatement_literal (show endsStatement .string = false from rfl)] at h
  split at h
  · simp [not_endsStatement_literal (show endsStatement .template = false from rfl)] at h
  split at h
  · simp [numberReading, Reading.plain, endsStatement] at h
  split at h
  · obtain ⟨kind, hname, hword⟩ := wordReading_eq_plain c t
    rw [hword] at h
    have hends : endsStatement kind = true := h
    simp only [endsStatement, Bool.or_eq_true, decide_eq_true_eq] at hends
    rcases hends with rfl | rfl <;> exact absurd hname (by decide)
  split at h
  · unfold dotReading at h
    split at h <;> simp [Reading.plain, endsStatement] at h
  split at h
  · unfold equalsReading at h
    split at h
    · simp [Reading.plain, endsStatement] at h
    · simp [operator] at h
    · simp [Reading.plain, endsStatement] at h
  split at h
  · unfold jointReading at h
    split at h
    · simp [operator] at h
    · simp [operator] at h
    · simp [operator] at h
    · split at h <;> simp [Reading.plain, endsStatement] at h
  split at h
  · simp [endsStatement] at h
  split at h
  · simp [operator] at h
  split at h
  · next kind hsingle => exact ⟨kind, hsingle⟩
  · simp [endsStatement] at h

theorem singleKind?_gap {c : Char} {kind : Kind} (h : singleKind? c = some kind) (t : Text) :
    gapSize (c :: t) = 0 := by
  have hplain : c ≠ '/' ∧ Text.isBlank c = false := by
    unfold singleKind? at h
    split at h <;> first | decide | simp at h
  rw [gapSize_plain fun hc => absurd hc hplain.1, hplain.2]
  rfl

theorem singleKind?_of_endsStatement {c : Char} {kind : Kind} (h : singleKind? c = some kind)
    (hends : endsStatement kind = true) : c = ';' ∨ c = '\x7d' := by
  unfold singleKind? at h
  split at h <;> first | decide | (obtain rfl := Option.some.inj h; simp [endsStatement] at hends) |
    simp at h

/-- A mark behind which a statement begins is a semicolon or a brace. -/
theorem ReadsFront.text_of_endsStatement {offset : Nat} {t behind : Text} {tok : Token}
    (h : ReadsFront offset t tok behind) (hends : endsStatement tok.kind = true) :
    ∃ c, tok.text = [c] ∧ (c = ';' ∨ c = '\x7d') := by
  obtain ⟨c, w, htext, hmore, hkind, _⟩ := h.reading
  rw [hkind] at hends
  obtain ⟨kind, hsingle⟩ := Reading.single_of_endsStatement hends
  rw [Reading.ofText_single hsingle] at hmore hends
  obtain rfl : w = [] := List.length_eq_zero_iff.mp hmore.symm
  exact ⟨c, htext, singleKind?_of_endsStatement hsingle hends⟩

/-- A mark behind which a statement begins is read again whatever stands behind it. -/
theorem ReadsFront.exchange_mark {offset : Nat} {t behind : Text} {tok : Token}
    (h : ReadsFront offset t tok behind) (hends : endsStatement tok.kind = true) (behind' : Text)
    {gap : Text} (hspacing : Spacing gap) (other : Nat) :
    ReadsFront other (gap ++ (tok.text ++ behind')) (tok.withGap gap other) behind' := by
  obtain ⟨c, htext, hc⟩ := h.text_of_endsStatement hends
  obtain ⟨kind, hsingle⟩ : ∃ kind, singleKind? c = some kind := by
    rcases hc with rfl | rfl
    · exact ⟨.semicolon, rfl⟩
    · exact ⟨.rightBrace, rfl⟩
  refine h.reread ?_ ?_ hspacing other
  · rw [htext]
    exact singleKind?_gap hsingle _
  · intro c' w htext'
    obtain ⟨rfl, rfl⟩ := List.cons.inj (htext.symm.trans htext')
    rw [Reading.ofText_single hsingle, Reading.ofText_single hsingle]

end Token

end TypeInliner
