import TypeInliner.Proofs.LexemeLayout
import TypeInliner.Proofs.ReferenceMarkers

/-! # Names that markers carry

The names written into markers are identifiers of a source, and they are read back by another
definition of what a name is. A marker carries an identifier whole if it begins with an ASCII
letter, an underscore or a dollar sign and goes on with word characters. Of one that goes on with a
numeral that is no decimal digit it carries the beginning, and of one that begins with any other
letter or a number sign it carries nothing. -/

namespace TypeInliner

/-- Whether a text is read as one identifier that has all its characters. -/
def Token.isIdentifier (word : Text) : Bool :=
  match ofText word with
  | [t, _] => t.kind = .identifier && t.text = word
  | _ => false

theorem Token.isName_of_isIdentifier {word : Text} (h : isIdentifier word = true) :
    Lexeme.isName word = true := by
  unfold isIdentifier at h
  split at h
  · next t last htokens =>
    have hname : Lexeme.isName word = (t.kind.isName && t.text = word) := by
      rw [Lexeme.isName, htokens]
    simp only [Bool.and_eq_true, decide_eq_true_eq] at h
    simp [hname, Kind.isName, h]
  · simp at h

/-- An identifier begins like a name and goes on like one. -/
theorem Token.word_of_isIdentifier {word : Text} (h : isIdentifier word = true) :
    ∃ c w, word = c :: w ∧ startsName c = true ∧ ∀ d ∈ w, continuesName d = true := by
  obtain ⟨tok, hreads, hname, rfl⟩ := Lexeme.exists_readsFront_of_isName (isName_of_isIdentifier h)
  exact hreads.word_of_isName hname

namespace TypeReference

/-! ## Texts with few quotes -/

theorem two_le_count_marker (r : TypeReference) : 2 ≤ r.marker.count '\x22' := by
  have hopening : opening.count '\x22' = 1 := by decide
  have hclosing : closing.count '\x22' = 1 := by decide
  rw [marker, List.count_append, List.count_append, List.count_append, hopening, hclosing]
  omega

/-- Where no suffix begins with a marker, none is found. -/
theorem find_eq_nil {t : Text} (h : ∀ s, s <:+ t → ofFront? s = none) : find t = [] := by
  induction t with
  | nil => rfl
  | cons c t ih =>
    rw [find_cons (h _ List.suffix_rfl)]
    exact ih fun s hs => h s (hs.trans (List.suffix_cons c t))

/-- A text with at most one quote has no marker. -/
theorem find_eq_nil_of_count {t : Text} (h : t.count '\x22' < 2) : find t = [] := by
  refine find_eq_nil fun s hs => ?_
  cases hread : ofFront? s with
  | none => rfl
  | some r =>
    obtain ⟨_, rest, rfl, _⟩ := ofFront?_eq_some.mp hread
    have hmarker := r.two_le_count_marker
    have hle := hs.sublist.count_le '\x22'
    rw [List.count_append] at hle
    omega

/-! ## One marker alone -/

/-- What can be read back of a name in a marker. -/
def carried? : Text → Option Text
  | [] => none
  | c :: rest => if startsName c then some (c :: rest.takeWhile continuesName) else none

theorem carried?_eq_self_iff {name : Text} : carried? name = some name ↔
    ∃ c rest, name = c :: rest ∧ startsName c = true ∧ ∀ d ∈ rest, continuesName d = true := by
  cases name with
  | nil => simp [carried?]
  | cons c rest =>
    have htail : rest.takeWhile continuesName = rest ↔ ∀ d ∈ rest, continuesName d = true :=
      List.takeWhile_eq_self_iff
    by_cases hc : startsName c = true <;> simp [carried?, hc, htail]

variable {r : TypeReference}

/-- Only from its front a marker without quotes in its module and name can be read. -/
theorem find_eq_nil_of_ofFront? (hsource : '\x22' ∉ r.source) (hname : '\x22' ∉ r.name)
    (hfront : ofFront? r.marker = none) : find r.marker = [] := by
  refine find_eq_nil fun s hs => ?_
  cases hread : ofFront? s with
  | none => rfl
  | some r' =>
    obtain ⟨_, rest, hsplit, _⟩ := ofFront?_eq_some.mp hread
    obtain ⟨before, hbefore⟩ := hs
    -- Both quotes of the text belong to the marker that is read, so none stands before it.
    have hnone : '\x22' ∉ before := by
      have htotal : r.marker.count '\x22' = 2 := by
        rw [marker, List.count_append, List.count_append, List.count_append,
          List.count_eq_zero.mpr hsource, List.count_eq_zero.mpr hname]
        decide
      have hread := r'.two_le_count_marker
      rw [← hbefore, hsplit, List.count_append, List.count_append] at htotal
      exact List.count_eq_zero.mp (by omega)
    have hopens : before ++ opening.dropLast ++
        '\x22' :: (r'.source ++ closing ++ r'.name ++ rest) =
          opening.dropLast ++ '\x22' :: (r.source ++ closing ++ r.name) := by
      rw [hsplit] at hbefore
      simpa [marker, opening_eq, List.append_assoc] using hbefore
    have hsame := (append_quote_inj (by simp [hnone, opening_eq]) (by decide) hopens).1
    obtain rfl : before = [] := List.append_left_eq_self.mp hsame
    rw [List.nil_append] at hbefore
    rw [hbefore, hfront] at hread
    simp at hread

/-- What is found in a marker is what its name can carry. -/
theorem find_marker_eq {c : Char} {rest : Text} (hne : r.source ≠ []) (hsource : '\x22' ∉ r.source)
    (hname : r.name = c :: rest) (hquote : '\x22' ∉ r.name) :
    find r.marker = (carried? r.name).toList.map fun name => ⟨r.source, name⟩ := by
  have hmarker : r.marker = opening ++ (r.source ++ (closing ++ c :: rest)) := by
    simp [marker, hname]
  have hfront : ofFront? (opening ++ (r.source ++ (closing ++ c :: rest))) = _ :=
    ofFront?_cons hne hsource
  by_cases hc : startsName c = true
  · obtain ⟨behind, hsplit, hends⟩ := exists_behind_takeWhile continuesName rest
    let whole : TypeReference := ⟨r.source, c :: rest.takeWhile continuesName⟩
    have hreadable : whole.IsReadable :=
      ⟨hne, hsource, c, _, rfl, hc, fun d hd => List.mem_takeWhile_imp hd⟩
    have hwhole : r.marker = whole.marker ++ behind := by
      rw [hmarker]
      conv_lhs => rw [hsplit]
      simp [whole, marker]
    have hbehind : find behind = [] := by
      apply find_eq_nil_of_count
      have hnone : '\x22' ∉ behind := by
        intro hmem
        rw [hname, hsplit] at hquote
        exact hquote (List.mem_cons_of_mem _ (List.mem_append_right _ hmem))
      rw [List.count_eq_zero.mpr hnone]
      decide
    rw [hwhole, find_marker hreadable hends, hbehind, hname, carried?, if_pos hc]
    rfl
  · rw [if_neg hc, ← hmarker] at hfront
    rw [find_eq_nil_of_ofFront? hsource hquote hfront, hname, carried?, if_neg hc]
    rfl

/-! ## Identifiers in markers -/

/-- An ASCII character that goes on with a name in a source does so in a marker. -/
theorem continuesName_of_ascii {c : Char} (hascii : c.toNat < 0x80)
    (h : Token.continuesName c = true) : continuesName c = true := by
  have hlow : (decide (0x80 ≤ c.toNat)) = false := decide_eq_false (by omega)
  simp only [Token.continuesName, Text.isLetterOrNumeral, Text.isLetter, Text.isDigit, hlow,
    Bool.false_and, Bool.or_false, Bool.or_eq_true] at h
  simp only [continuesName, Text.isWordCharacter, Bool.or_eq_true]
  tauto

/-- An ASCII character that begins a name in a source does so in a marker, unless it is the sign of
private names. -/
theorem startsName_iff_of_ascii {c : Char} (hascii : c.toNat < 0x80)
    (h : Token.startsName c = true) : startsName c = true ↔ c ≠ '#' := by
  have hlow : (decide (0x80 ≤ c.toNat)) = false := decide_eq_false (by omega)
  simp only [Token.startsName, Text.isLetter, hlow, Bool.false_and, Bool.or_false, Bool.or_eq_true,
    decide_eq_true_eq] at h
  constructor
  · rintro hstarts rfl
    exact absurd hstarts (by decide)
  · intro hne
    simp only [startsName, Bool.or_eq_true, decide_eq_true_eq]
    tauto

theorem not_mem_quote_of_isIdentifier {word : Text} (h : Token.isIdentifier word = true) :
    '\x22' ∉ word := by
  obtain ⟨c, w, rfl, hstarts, hcontinues⟩ := Token.word_of_isIdentifier h
  intro hmem
  rcases List.mem_cons.mp hmem with rfl | hmem
  · exact absurd hstarts (by decide)
  · exact absurd (hcontinues _ hmem) (by decide)

/-- In the marker of an identifier what the pattern accepts of the identifier is found: all of it if
and only if it begins and goes on as the pattern wants it to, and of ASCII identifiers all that are
no private names. -/
theorem find_identifier_marker (hne : r.source ≠ []) (hsource : '\x22' ∉ r.source)
    (hname : Token.isIdentifier r.name = true) :
    (find r.marker = (carried? r.name).toList.map fun name => ⟨r.source, name⟩) ∧
    (find r.marker = [r] ↔
      ∃ c rest, r.name = c :: rest ∧ startsName c = true ∧ ∀ d ∈ rest, continuesName d = true) ∧
    ((∀ c ∈ r.name, c.toNat < 0x80) → (find r.marker = [r] ↔ r.name.head? ≠ some '#')) := by
  obtain ⟨c, rest, hchars, hstarts, hcontinues⟩ := Token.word_of_isIdentifier hname
  have hfind := find_marker_eq hne hsource hchars (not_mem_quote_of_isIdentifier hname)
  have hwhole : find r.marker = [r] ↔
      ∃ c rest, r.name = c :: rest ∧ startsName c = true ∧ ∀ d ∈ rest, continuesName d = true := by
    rw [hfind, ← carried?_eq_self_iff]
    obtain ⟨source, name⟩ := r
    cases carried? name <;> simp
  refine ⟨hfind, hwhole, fun hascii => ?_⟩
  rw [hchars] at hascii
  rw [hwhole, hchars, List.head?_cons, ne_eq, Option.some.injEq, ← ne_eq,
    ← startsName_iff_of_ascii (hascii c List.mem_cons_self) hstarts]
  constructor
  · rintro ⟨d, rest', heq, hd, _⟩
    obtain ⟨rfl, _⟩ := List.cons.inj heq
    exact hd
  · intro hc
    refine ⟨c, rest, rfl, hc, fun d hd => ?_⟩
    exact continuesName_of_ascii (hascii d (List.mem_cons_of_mem _ hd)) (hcontinues d hd)

/-- A marker carries an identifier with digits, underscores and dollar signs. -/
theorem find_marker_of_ascii_identifier :
    let r : TypeReference := ⟨"./m".toList, "_a$1".toList⟩
    r.source ≠ [] ∧ '\x22' ∉ r.source ∧ Token.isIdentifier r.name = true ∧
      (∀ c ∈ r.name, c.toNat < 0x80) ∧ find r.marker = [r] :=
  have hsource : ("./m".toList : Text) ≠ [] ∧ '\x22' ∉ "./m".toList := by
    decide +kernel
  have hname : Token.isIdentifier "_a$1".toList = true := by decide +kernel
  have hall : "_a$1".toList.all (fun c => decide (c.toNat < 0x80)) = true := by decide +kernel
  have hascii : ∀ c ∈ "_a$1".toList, c.toNat < 0x80 := fun c hc =>
    of_decide_eq_true (List.all_eq_true.mp hall c hc)
  ⟨hsource.1, hsource.2, hname, hascii,
    ((find_identifier_marker (r := ⟨"./m".toList, "_a$1".toList⟩) hsource.1 hsource.2 hname).2.2
      hascii).mpr (by decide +kernel)⟩

/-- Of an identifier that begins with a letter beyond ASCII or with a number sign a marker carries
nothing, and of one with a superior digit the characters in front of it. -/
theorem some_identifiers_are_not_carried :
    (Token.isIdentifier "Über".toList = true ∧ find (marker ⟨"m".toList, "Über".toList⟩) = []) ∧
    (Token.isIdentifier "#x".toList = true ∧ find (marker ⟨"m".toList, "#x".toList⟩) = []) ∧
    (Token.isIdentifier "x²".toList = true ∧
      find (marker ⟨"m".toList, "x²".toList⟩) = [⟨"m".toList, "x".toList⟩]) := by
  decide +kernel

end TypeReference

end TypeInliner
