import TypeInliner.Proofs.SourceTiling
import TypeInliner.Reference

/-! # Where tokens meet

Tokens take as many characters as they can, so two words never touch, and neither does a number
touch the word that follows it, unless this begins with a dollar sign. Literals end with a quote and
punctuation with a symbol; an unfinished literal is followed by a line feed or by nothing. -/

namespace TypeInliner

namespace Token

/-- The characters between which literals stand. -/
def isDelimiter (c : Char) : Bool := c = '\x22' || c = '\x27' || c = '\x60'

/-- The characters that continue every number. -/
def isDigitLike (c : Char) : Bool := Text.isAsciiLetter c || Text.isAsciiDigit c || c = '_'

/-- How a token begins and ends, and what can stand right behind it. -/
inductive Borders (t : Token) (behind : Text) : Prop
  | word (named : t.kind.isName = true) (starts : ∀ c ∈ t.text.head?, startsName c = true)
      (stops : ∀ c ∈ behind.head?, continuesName c = false)
  | number (kind : t.kind = .number)
      (starts : ∀ c ∈ t.text.head?, Text.isAsciiDigit c = true ∨ c = '.')
      (dots : ∀ front rest, t.text = front ++ '.' :: rest → startsWithDigit rest = true)
      (stops : ∀ c ∈ behind.head?, isDigitLike c = false)
  | literal (kind : t.kind = .string ∨ t.kind = .template)
      (starts : ∀ c ∈ t.text.head?, isDelimiter c = true)
      (ends : ∀ c ∈ t.text.getLast?, isDelimiter c = true)
  | mark (isMark : t.kind.isMark = true) (symbols : ∀ c ∈ t.text, isSymbol c = true)
      (dots : '.' ∈ t.text → t.kind = .dot ∨ ['.', '.'] <:+ t.text)
  | unfinished (kind : t.kind = .malformed) (stops : ∀ c ∈ behind.head?, c = '\n')
  | unexpected (kind : t.kind = .malformed)
      (single : ∃ c, t.text = [c] ∧ c ≠ '.' ∧ startsName c = false)

/-! ## Literals -/

/-- A closed body ends with its closing mark, an unclosed one in front of a line feed or nothing. -/
def LiteralBody.BordersIn (mark : Char) (t : Text) : LiteralBody → Prop
  | closed n _ => ∃ u, t.take n = u ++ [mark]
  | unclosed n => ∀ c ∈ (t.drop n).head?, c = '\n'

theorem LiteralBody.BordersIn.grow {mark : Char} {t : Text} {body : LiteralBody}
    (h : body.BordersIn mark t) (front value : Text) :
    (body.grow front.length value).BordersIn mark (front ++ t) := by
  cases body with
  | closed n v =>
    obtain ⟨u, hu⟩ := h
    exact ⟨front ++ u, by rw [List.take_length_add_append, hu, List.append_assoc]⟩
  | unclosed n =>
    intro c hc
    rw [List.drop_length_add_append] at hc
    exact h c hc

theorem stringBody_bordersIn (quote : Char) (t : Text) :
    (stringBody quote t).BordersIn quote t := by
  fun_induction stringBody quote t with
  | case1 => simp [LiteralBody.BordersIn]
  | case2 => simp [LiteralBody.BordersIn]
  | case3 c t ih => exact ih.grow ['\\', c] [unescape c]
  | case4 t hlast hpair => exact ⟨[], rfl⟩
  | case5 t hlast hpair hquote => simp [LiteralBody.BordersIn]
  | case6 c t hlast hpair hquote hline ih => exact ih.grow [c] [c]

theorem templateBody_bordersIn (depth : Nat) (t : Text) :
    (templateBody depth t).BordersIn '\x60' t := by
  fun_induction templateBody depth t with
  | case1 => simp [LiteralBody.BordersIn]
  | case2 => simp [LiteralBody.BordersIn]
  | case3 depth c t ih => exact ih.grow ['\\', c] ['\\', c]
  | case4 depth t ih => exact ih.grow ['$', '\x7b'] ['$', '\x7b']
  | case5 depth c t hlast hpair hopen hclose => exact ⟨[], by rw [hclose.1]; rfl⟩
  | case6 depth c t hlast hpair hopen hclose ih => exact ih.grow [c] [c]

/-- A literal token is closed by the mark that opens it, or unfinished. -/
theorem borders_of_literal {t : Token} {mark : Char} {kind : Kind} {message w behind : Text}
    {body : LiteralBody} (hmark : isDelimiter mark = true)
    (hliteral : kind = .string ∨ kind = .template) (hbody : body.BordersIn mark (w ++ behind))
    (htext : t.text = mark :: w) (hmore : (Reading.literal kind message body).more = w.length)
    (hkind : t.kind = (Reading.literal kind message body).kind) : t.Borders behind := by
  cases body with
  | closed n value =>
    obtain rfl : n = w.length := hmore
    obtain ⟨u, hu⟩ := hbody
    rw [List.take_left] at hu
    refine .literal (by rw [hkind]; exact hliteral) ?_ ?_
    · simpa [htext] using hmark
    · intro c hc
      rw [htext, hu, ← List.cons_append, List.getLast?_concat] at hc
      rwa [← Option.some.inj hc]
  | unclosed n =>
    obtain rfl : n = w.length := hmore
    refine .unfinished hkind fun c hc => hbody c ?_
    rwa [List.drop_left]

/-! ## Numbers -/

theorem startsWithDigit_take {t : Text} (h : startsWithDigit t = true) {n : Nat} (hn : 1 ≤ n) :
    startsWithDigit (t.take n) = true := by
  cases t with
  | nil => simp [startsWithDigit] at h
  | cons c t =>
    obtain ⟨m, rfl⟩ := Nat.exists_eq_add_of_le' hn
    exact h

/-- Behind a dot in a number stands a digit. -/
theorem digit_behind_dot {hexadecimal : Bool} {before : Char} {t front rest : Text}
    (h : t.take (numberSize hexadecimal before t) = front ++ '.' :: rest) :
    startsWithDigit rest = true := by
  induction t generalizing before front with
  | nil => simp at h
  | cons c t ih =>
    rw [numberSize_cons] at h
    split at h
    · next hcontinues =>
      rw [Nat.add_comm, List.take_succ_cons] at h
      cases front with
      | nil =>
        obtain ⟨rfl, rfl⟩ := List.cons.inj h
        have hdigit : startsWithDigit t = true := by
          simpa [continuesNumber, Text.isAsciiLetter, Text.isAsciiDigit] using hcontinues
        exact startsWithDigit_take hdigit (numberSize_pos hdigit _ _)
      | cons d front => exact ih (List.cons.inj h).2
    · simp at h

/-- What follows a number does not look like a digit. -/
theorem not_digit_behind_number {hexadecimal : Bool} (before : Char) (t : Text) :
    ∀ c ∈ (t.drop (numberSize hexadecimal before t)).head?, isDigitLike c = false := by
  induction t generalizing before with
  | nil => simp
  | cons c t ih =>
    rw [numberSize_cons]
    split
    · rw [Nat.add_comm, List.drop_succ_cons]
      exact ih _
    · next hstops =>
      intro d hd
      obtain rfl := Option.some.inj hd
      simp only [continuesNumber, Bool.or_eq_true, not_or, Bool.not_eq_true] at hstops
      simp [isDigitLike, hstops]

theorem borders_of_number {t : Token} {c : Char} {w behind : Text}
    (hopens : opensNumber c (w ++ behind) = true) (htext : t.text = c :: w)
    (hmore : (numberReading c (w ++ behind)).more = w.length)
    (hkind : t.kind = (numberReading c (w ++ behind)).kind) : t.Borders behind := by
  have hsize : numberSize (isHexadecimal c (w ++ behind)) c (w ++ behind) = w.length := hmore
  simp only [opensNumber, Bool.or_eq_true, Bool.and_eq_true, decide_eq_true_eq] at hopens
  refine .number hkind ?_ ?_ ?_
  · intro d hd
    rw [htext] at hd
    obtain rfl := Option.some.inj hd
    exact hopens.imp_right And.left
  · intro front rest hsplit
    rw [htext] at hsplit
    cases front with
    | nil =>
      obtain ⟨rfl, rfl⟩ := List.cons.inj hsplit
      have hdigit : startsWithDigit (w ++ behind) = true := by
        simpa [Text.isAsciiDigit] using hopens
      have htake := startsWithDigit_take hdigit
        (numberSize_pos hdigit (isHexadecimal '.' (w ++ behind)) '.')
      rwa [hsize, List.take_left] at htake
    | cons d front =>
      have htake : (w ++ behind).take (numberSize (isHexadecimal c (w ++ behind)) c (w ++ behind)) =
          front ++ '.' :: rest := by
        rw [hsize, List.take_left]
        exact (List.cons.inj hsplit).2
      exact digit_behind_dot htake
  · intro d hd
    apply not_digit_behind_number c (w ++ behind)
    rwa [hsize, List.drop_left]

/-! ## Words and all others -/

theorem borders_of_word {t : Token} {c : Char} {w behind : Text} (hstarts : startsName c = true)
    (htext : t.text = c :: w) (hmore : (wordReading c (w ++ behind)).more = w.length)
    (hkind : t.kind = (wordReading c (w ++ behind)).kind) : t.Borders behind := by
  obtain ⟨kind, hname, hword⟩ := wordReading_eq_plain c (w ++ behind)
  rw [hword] at hmore hkind
  refine .word (by rw [hkind]; exact hname) (by simpa [htext] using hstarts) ?_
  have hlength : ((w ++ behind).takeWhile continuesName).length = w.length := hmore
  have hdrop : behind = (w ++ behind).dropWhile continuesName := by
    have hsplit := List.takeWhile_append_dropWhile (p := continuesName) (l := w ++ behind)
    exact (List.append_inj' hsplit.symm (by
      have := congrArg List.length hsplit
      simp only [List.length_append] at this
      omega)).2
  intro d hd
  have hstop := List.head?_dropWhile_not continuesName (w ++ behind)
  rw [← hdrop, hd] at hstop
  simpa using hstop

/-- A token that is read has borders of one of these forms. -/
theorem ReadsFront.borders {offset : Nat} {t behind : Text} {tok : Token}
    (h : ReadsFront offset t tok behind) : tok.Borders behind := by
  obtain ⟨c, w, htext, hmore, hkind, _⟩ := h.reading
  have hreads := Reading.reads c (w ++ behind)
  generalize Reading.ofText c (w ++ behind) = r at hreads hmore hkind
  cases hreads with
  | string quote =>
    refine borders_of_literal ?_ (Or.inl rfl) (stringBody_bordersIn c _) htext hmore hkind
    rcases quote with rfl | rfl <;> decide
  | template quote =>
    obtain rfl := quote
    exact borders_of_literal (by decide) (Or.inr rfl) (templateBody_bordersIn 0 _) htext hmore hkind
  | number opens => exact borders_of_number opens htext hmore hkind
  | word starts => exact borders_of_word starts htext hmore hkind
  | @mark kind more isMark symbols dots =>
    obtain rfl : more = w.length := hmore
    rw [List.take_left, ← htext] at symbols dots
    refine .mark (by rw [hkind]; exact isMark) symbols fun hdot => ?_
    rcases dots hdot with rfl | ⟨_, rfl⟩
    · exact Or.inl hkind
    · exact Or.inr ⟨[c], htext.symm⟩
  | comment opens =>
    have hbehind : behind = [] := by
      change (w ++ behind).length = w.length at hmore
      rw [List.length_append] at hmore
      exact List.length_eq_zero_iff.mp (by omega)
    exact .unfinished hkind (by simp [hbehind])
  | unexpected strange =>
    obtain rfl : w = [] := List.length_eq_zero_iff.mp hmore.symm
    exact .unexpected hkind ⟨c, htext, strange⟩

/-! ## Gaps -/

theorem Skipped.first {gap behind : Text} (h : Skipped gap behind) :
    ∀ c ∈ gap.head?, Text.isBlank c = true ∨ c = '/' := by
  cases h with
  | nil => simp
  | blank hc => simpa using Or.inl hc
  | line => simp
  | block => simp

/-- A gap ends with a blank or with the closing mark of a comment, since a comment that runs to the
end of its line is followed by the line feed. -/
theorem Skipped.last {gap behind : Text} (h : Skipped gap behind) (hne : behind ≠ [])
    (hline : behind.head? ≠ some '\n') :
    ∀ c ∈ gap.getLast?, Text.isBlank c = true ∨ c = '/' := by
  induction h with
  | nil => simp
  | @blank c gap behind hc _ ih =>
    cases gap with
    | nil => simpa using Or.inl hc
    | cons d gap =>
      rw [List.getLast?_cons_cons]
      exact ih hne hline
  | @line body gap behind _ hstops _ ih =>
    cases gap with
    | nil =>
      obtain ⟨c, behind, rfl⟩ := List.exists_cons_of_ne_nil hne
      exact absurd (congrArg some (hstops c rfl)) hline
    | cons d gap =>
      rw [← List.cons_append, ← List.cons_append, List.getLast?_append_of_ne_nil _ (by simp)]
      exact ih hne hline
  | @block body gap behind _ _ ih =>
    cases gap with
    | nil =>
      intro c hc
      rw [List.append_cons, ← List.cons_append, ← List.cons_append, List.getLast?_concat] at hc
      exact Or.inr (Option.some.inj hc).symm
    | cons d gap =>
      intro c hc
      rw [List.append_cons, List.append_cons, ← List.cons_append, ← List.cons_append,
        List.getLast?_append_of_ne_nil _ (by simp)] at hc
      exact ih hne hline c hc

/-! ## Tokens of a source -/

/-- The ending stands last; every other token has borders against the rest of the source. -/
theorem borders_of_split {source : Text} {before after : List Token} {t : Token}
    (h : ofText source = before ++ t :: after) :
    t.text = [] ∧ after = [] ∨ t.text ≠ [] ∧ t.Borders (written after) := by
  obtain ⟨behind, _, ⟨hending, _, hafter⟩ | ⟨hreads, hafter⟩⟩ := exists_standsBetween h
  · exact Or.inl ⟨by rw [hending]; rfl, hafter⟩
  · have hwritten : written after = behind := by
      rw [hafter]
      exact flatten_source _ _
    obtain ⟨c, w, htext, _⟩ := hreads.reading
    exact Or.inr ⟨by simp [htext], hwritten ▸ hreads.borders⟩

theorem skipped_of_split {source : Text} {before after : List Token} {t : Token}
    (h : ofText source = before ++ t :: after) : Skipped t.gap (t.text ++ written after) := by
  obtain ⟨behind, hstands, ⟨_, rfl, rfl⟩ | ⟨_, hafter⟩⟩ := exists_standsBetween h
  · exact hstands.skipped
  · have hwritten : written after = behind := by
      rw [hafter]
      exact flatten_source _ _
    exact hwritten ▸ hstands.skipped

/-! ## Characters at the borders -/

theorem startsName_cases {c : Char} (h : startsName c = true) :
    c = '#' ∨ continuesName c = true := by
  simp only [startsName, Bool.or_eq_true, decide_eq_true_eq] at h
  rcases h with ((hletter | hc) | hc) | hc
  · exact Or.inr (by simp [continuesName, Text.isLetterOrNumeral, hletter])
  · exact Or.inr (by simp [continuesName, hc])
  · exact Or.inr (by simp [continuesName, hc])
  · exact Or.inl hc

theorem continuesName_of_isAsciiDigit {c : Char} (h : Text.isAsciiDigit c = true) :
    continuesName c = true := by
  simp [continuesName, Text.isLetterOrNumeral, Text.isDigit, h]

/-- The characters of punctuation and operators. -/
def symbols : Text := "=+-|&!%^.~/()\x7b\x7d[]<>;,:?*@".toList

theorem mem_symbols_of_single {c : Char} (h : (singleKind? c).isSome = true) : c ∈ symbols := by
  unfold singleKind? at h
  split at h <;> first | decide | simp at h

theorem mem_symbols {c : Char} (h : isSymbol c = true) : c ∈ symbols := by
  simp only [isSymbol, continuesOperator, Bool.or_eq_true, decide_eq_true_eq] at h
  rcases h with ((((((((((h | h) | h) | h) | h) | h) | h) | h) | h) | h) | h) | h
  case inr => exact mem_symbols_of_single h
  all_goals
    subst h
    decide

/-- Neither punctuation nor the marks of literals are part of words. -/
theorem not_word_of_symbol {c : Char} (h : isSymbol c = true ∨ isDelimiter c = true) :
    TypeReference.continuesName c = false := by
  have hall : (symbols ++ ['\x22', '\x27', '\x60']).all fun d =>
      !TypeReference.continuesName d := by decide
  have hmem : c ∈ symbols ++ ['\x22', '\x27', '\x60'] := by
    rw [List.mem_append]
    refine h.imp mem_symbols fun hdelimiter => ?_
    simpa [isDelimiter, or_assoc] using hdelimiter
  simpa using List.all_eq_true.mp hall c hmem

end Token

end TypeInliner
