import TypeInliner.Proofs.TokenCuts

/-! # The shapes of tokens

A token is a literal, a number, a word, a mark, or it is malformed. Which of these begins with a
character decides what the other characters of the token can be. -/

namespace TypeInliner

/-- The kinds of punctuation and operators. -/
def Kind.isMark : Kind → Bool
  | .keyword _ | .string | .template | .number | .identifier | .ending | .malformed => false
  | _ => true

namespace Token

/-- A character of punctuation or of an operator. -/
def isSymbol (c : Char) : Bool :=
  continuesOperator c || c = '.' || c = '~' || c = '/' || (singleKind? c).isSome

def unfinishedString : Text := "Unterminated string literal".toList

def unfinishedTemplate : Text := "Unterminated template literal".toList

def unfinishedComment : Text := "Unterminated multi-line comment".toList

/-- What can be read at a character, given what follows it. -/
inductive Reads (c : Char) (t : Text) : Reading → Prop
  | string (quote : c = '\x22' ∨ c = '\x27') :
      Reads c t (.literal .string unfinishedString (stringBody c t))
  | template (quote : c = '\x60') :
      Reads c t (.literal .template unfinishedTemplate (templateBody 0 t))
  | number (opens : opensNumber c t = true) : Reads c t (numberReading c t)
  | word (starts : startsName c = true) : Reads c t (wordReading c t)
  | mark {kind : Kind} {more : Nat} (isMark : kind.isMark = true)
      (symbols : ∀ d ∈ c :: t.take more, isSymbol d = true)
      (dots : '.' ∈ c :: t.take more → kind = .dot ∨ kind = .ellipsis ∧ t.take more = ['.', '.']) :
      Reads c t (.plain kind more)
  | comment (opens : c = '/' ∧ t.head? = some '*') :
      Reads c t ⟨.malformed, t.length, some unfinishedComment⟩
  | unexpected (strange : c ≠ '.' ∧ startsName c = false) :
      Reads c t ⟨.malformed, 0, some (Token.unexpected c)⟩

private theorem isSymbol_of_continuesOperator {c : Char} (h : continuesOperator c = true) :
    isSymbol c = true := by
  simp [isSymbol, h]

private theorem continuesOperator_dot : continuesOperator '.' = false := by decide

/-- An operator has no dot. -/
private theorem reads_operator {c : Char} (t : Text) (hsymbol : isSymbol c = true)
    (hdot : c ≠ '.') : Reads c t (operatorReading t) := by
  have htake : t.take (t.takeWhile continuesOperator).length = t.takeWhile continuesOperator :=
    List.prefix_iff_eq_take.mp (List.takeWhile_prefix _) |>.symm
  have hall : ∀ d ∈ t.takeWhile continuesOperator, continuesOperator d = true :=
    List.all_eq_true.mp List.all_takeWhile
  refine .mark rfl ?_ ?_
  · rw [htake]
    intro d hd
    rcases List.mem_cons.mp hd with rfl | hd
    · exact hsymbol
    · exact isSymbol_of_continuesOperator (hall d hd)
  · rw [htake]
    intro hmem
    rcases List.mem_cons.mp hmem with h | hmem
    · exact absurd h.symm hdot
    · exact absurd (hall _ hmem) (by simp [continuesOperator_dot])

private theorem reads_single {c : Char} (t : Text) {kind : Kind} (h : singleKind? c = some kind) :
    Reads c t (.plain kind 0) := by
  have hsymbol : isSymbol c = true := by simp [isSymbol, h]
  have hkind : kind.isMark = true ∧ c ≠ '.' := by
    unfold singleKind? at h
    split at h <;> cases h <;> decide
  refine .mark hkind.1 (by simpa using hsymbol) ?_
  intro hmem
  exact absurd (by simpa using hmem) hkind.2.symm

private theorem reads_dot (t : Text) : Reads '.' t (dotReading t) := by
  unfold dotReading
  split
  · exact .mark rfl (by simp; decide) fun _ => Or.inr ⟨rfl, rfl⟩
  · exact .mark rfl (by simp; decide) fun _ => Or.inl rfl

private theorem reads_equals (t : Text) : Reads '=' t (equalsReading t) := by
  unfold equalsReading
  split
  · exact .mark rfl (by simp; decide) (by simp)
  · exact reads_operator _ (by decide) (by decide)
  · exact .mark rfl (by simp; decide) (by simp)

private theorem reads_joint {c : Char} {alone : Kind} (t : Text) (hkind : alone.isMark = true)
    (hc : continuesOperator c = true) (hdot : c ≠ '.') : Reads c t (jointReading alone t) := by
  have hsymbol := isSymbol_of_continuesOperator hc
  unfold jointReading
  split
  · exact reads_operator _ hsymbol hdot
  · exact reads_operator _ hsymbol hdot
  · exact reads_operator _ hsymbol hdot
  · exact .mark hkind (by simpa using hsymbol) (by simpa using fun h => absurd h.symm hdot)

/-- Every character is read in one of these ways. -/
theorem Reading.reads (c : Char) (t : Text) : Reads c t (Reading.ofText c t) := by
  unfold Reading.ofText
  split
  · next h => exact .string (by simpa using h)
  split
  · next h => exact .template h
  split
  · next h => exact .number h
  next hnumber =>
  split
  · next h => exact .word h
  next hname =>
  split
  · next h =>
    subst h
    exact reads_dot t
  next hdot =>
  split
  · next h =>
    subst h
    exact reads_equals t
  split
  · next h =>
    refine reads_joint t (by split <;> rfl) ?_ hdot
    simp only [Bool.or_eq_true, decide_eq_true_eq] at h
    rcases h with rfl | rfl <;> decide
  split
  · next h => exact .comment (by simpa using h)
  split
  · next h =>
    refine reads_operator t ?_ hdot
    simp only [Bool.or_eq_true, decide_eq_true_eq] at h
    rcases h with (((((rfl | rfl) | rfl) | rfl) | rfl) | rfl) | rfl <;> decide
  split
  · next kind h => exact reads_single t h
  · exact .unexpected ⟨hdot, by simpa using hname⟩

/-! ## Words -/

/-- Only a word has the kind of a name. -/
theorem Reads.eq_wordReading {c : Char} {t : Text} {r : Reading} (h : Reads c t r)
    (hname : r.kind.isName = true) : startsName c = true ∧ r = wordReading c t := by
  cases h with
  | string =>
    cases hbody : stringBody c t <;>
      simp [hbody, Reading.literal, Kind.isName, Kind.isKeyword] at hname
  | template =>
    cases hbody : templateBody 0 t <;>
      simp [hbody, Reading.literal, Kind.isName, Kind.isKeyword] at hname
  | number => simp [numberReading, Reading.plain, Kind.isName, Kind.isKeyword] at hname
  | word starts => exact ⟨starts, rfl⟩
  | @mark kind more isMark =>
    have hkind : kind.isName = true := hname
    cases kind <;> simp [Kind.isName, Kind.isKeyword] at hkind <;> simp [Kind.isMark] at isMark
  | comment => simp [Kind.isName, Kind.isKeyword] at hname
  | unexpected => simp [Kind.isName, Kind.isKeyword] at hname

/-- A word takes the characters that continue it. -/
theorem take_wordReading (c : Char) (t : Text) :
    t.take (wordReading c t).more = t.takeWhile continuesName := by
  obtain ⟨kind, -, hword⟩ := wordReading_eq_plain c t
  rw [hword]
  exact (List.prefix_iff_eq_take.mp (List.takeWhile_prefix _)).symm

/-- An identifier or keyword begins like a name and goes on like one. -/
theorem ReadsFront.word_of_isName {offset : Nat} {t behind : Text} {tok : Token}
    (h : ReadsFront offset t tok behind) (hname : tok.kind.isName = true) :
    ∃ c w, tok.text = c :: w ∧ startsName c = true ∧ ∀ d ∈ w, continuesName d = true := by
  obtain ⟨c, w, htext, hmore, hkind, _⟩ := h.reading
  rw [hkind] at hname
  obtain ⟨hstarts, hword⟩ := (Reading.reads c (w ++ behind)).eq_wordReading hname
  have htake := take_wordReading c (w ++ behind)
  rw [← hword, hmore, List.take_left] at htake
  refine ⟨c, w, htext, hstarts, fun d hd => ?_⟩
  rw [htake] at hd
  exact List.all_eq_true.mp List.all_takeWhile d hd

end Token

end TypeInliner
