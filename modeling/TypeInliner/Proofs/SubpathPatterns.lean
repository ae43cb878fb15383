import TypeInliner.Proofs.ExportResolution
import TypeInliner.Proofs.KeyExpressions
import TypeInliner.Proofs.PathIdentity

/-! # The keys of export maps as patterns

The stars of a key cut it into pieces. A subject matches the key if it is the pieces with texts in
between, none of which has a line feed; what the stars stand for is the row of such texts in which
the first one is longest, then the second, and so on. A key that is refused as a pattern makes the
export map unusable. -/

namespace TypeInliner

namespace Text

variable {separator : Char}

theorem splitAt_cons_self (t : Text) :
    splitAt separator (separator :: t) = [] :: splitAt separator t :=
  splitAt_append_cons List.not_mem_nil t

theorem splitAt_cons_of_ne {c : Char} (h : c ≠ separator) (t : Text) :
    ∃ piece pieces, splitAt separator t = piece :: pieces ∧
      splitAt separator (c :: t) = (c :: piece) :: pieces := by
  obtain ⟨piece, pieces, hsplit⟩ := List.exists_cons_of_ne_nil (splitAt_ne_nil separator t)
  exact ⟨piece, pieces, hsplit, by rw [splitAt, hsplit]; exact if_neg h⟩

end Text

namespace Glob

/-- The pieces of a pattern between its stars, from left to right. -/
def pieces (pattern : Text) : List Text := Text.splitAt '*' pattern

/-- Pieces and texts put together in turn. -/
def interleave : List Text → List Text → Text
  | piece :: pieces, text :: texts => piece ++ text ++ interleave pieces texts
  | pieces, _ => pieces.flatten

/-- A subject is the pieces of a pattern with a text without line feeds in place of each star. -/
structure Decomposes (pattern : Text) (stars : List Text) (subject : Text) : Prop where
  count : (pieces pattern).length = stars.length + 1
  line : ∀ text ∈ stars, '\n' ∉ text
  whole : subject = interleave (pieces pattern) stars

theorem interleave_cons_piece (c : Char) (piece : Text) (pieces stars : List Text) :
    interleave ((c :: piece) :: pieces) stars = c :: interleave (piece :: pieces) stars := by
  cases stars <;> rfl

theorem Matches.decomposes {pattern subject : Text} {stars : List Text}
    (h : Matches pattern stars subject) : Decomposes pattern stars subject := by
  induction h with
  | nil => exact ⟨rfl, by simp, rfl⟩
  | @literal p pattern subject stars plain _ ih =>
    obtain ⟨piece, others, hpieces, hcons⟩ := Text.splitAt_cons_of_ne plain pattern
    obtain ⟨count, line, whole⟩ := ih
    rw [pieces, hpieces] at count whole
    refine ⟨?_, line, ?_⟩
    · rw [pieces, hcons]
      exact count
    · rw [pieces, hcons, interleave_cons_piece, whole]
  | @star text pattern subject stars hline _ ih =>
    have hcons : pieces ('*' :: pattern) = [] :: pieces pattern := Text.splitAt_cons_self pattern
    refine ⟨?_, List.forall_mem_cons.mpr ⟨hline, ih.line⟩, ?_⟩
    · rw [hcons, List.length_cons, ih.count, List.length_cons]
    · rw [hcons, interleave, ih.whole]
      rfl

theorem Decomposes.matches {pattern subject : Text} {stars : List Text}
    (h : Decomposes pattern stars subject) : Matches pattern stars subject := by
  induction pattern generalizing stars subject with
  | nil =>
    obtain ⟨count, _, rfl⟩ := h
    obtain rfl : stars = [] := List.length_eq_zero_iff.mp (Nat.succ.inj count).symm
    exact .nil
  | cons p pattern ih =>
    by_cases hp : p = '*'
    · subst hp
      have hcons : pieces ('*' :: pattern) = [] :: pieces pattern :=
        Text.splitAt_cons_self pattern
      obtain ⟨count, line, rfl⟩ := h
      rw [hcons] at count ⊢
      cases stars with
      | nil => exact absurd (Nat.succ.inj count) (by simpa [pieces] using Text.splitAt_ne_nil _ _)
      | cons text stars =>
        obtain ⟨hline, hlines⟩ := List.forall_mem_cons.mp line
        exact .star hline (ih ⟨Nat.succ.inj count, hlines, rfl⟩)
    · obtain ⟨piece, others, hpieces, hcons⟩ := Text.splitAt_cons_of_ne hp pattern
      obtain ⟨count, line, rfl⟩ := h
      rw [pieces, hcons] at count ⊢
      rw [interleave_cons_piece, ← hpieces]
      refine .literal hp (ih ⟨?_, line, rfl⟩)
      rw [pieces, hpieces]
      exact count

theorem matches_iff_decomposes {pattern subject : Text} {stars : List Text} :
    Matches pattern stars subject ↔ Decomposes pattern stars subject :=
  ⟨Matches.decomposes, Decomposes.matches⟩

/-- A pattern taken as a template is filled to the subject by what its stars stand for. -/
theorem Matches.fillEach_eq {pattern subject : Text} {stars : List Text}
    (h : Matches pattern stars subject) : fillEach stars pattern = subject := by
  induction h with
  | nil => rfl
  | @literal p pattern subject stars plain _ ih =>
    cases stars with
    | nil => rw [fillEach_nil] at ih ⊢; rw [ih]
    | cons text stars => rw [fillEach, if_neg plain, ih]
  | star _ _ ih => rw [fillEach, if_pos rfl, ih]

end Glob

namespace ExportTable

open Glob

theorem refused?_of_refused [PatternCompiler] {entry : ExportEntry} {reason : Text}
    (others : ExportTable) (h : PatternCompiler.refusal? entry.key = some reason) :
    refused? (entry :: others) = some (entry.key, reason) := by
  rw [refused?, List.findSome?_cons, h]
  rfl

/-- An export map with a key that is refused as a pattern has no table. -/
theorem ofManifest_of_refused [PatternCompiler] {m : Manifest} {key reason : Text}
    (hkey : key ∈ (entries m).map (·.key)) (hreason : PatternCompiler.refusal? key = some reason) :
    ∃ refused why, PatternCompiler.refusal? refused = some why ∧
      ofManifest m = .error (.refusedPattern refused why) := by
  obtain ⟨entry, hentry, rfl⟩ := List.mem_map.mp hkey
  have hsome : (refused? (entries m)).isSome = true :=
    List.findSome?_isSome_iff.mpr ⟨entry, hentry, by simp [hreason]⟩
  obtain ⟨⟨refused, why⟩, hfound⟩ := Option.isSome_iff_exists.mp hsome
  obtain ⟨first, -, hfirst⟩ := List.exists_of_findSome?_eq_some hfound
  obtain ⟨found, hrefusal, heq⟩ := Option.map_eq_some_iff.mp hfirst
  obtain ⟨rfl, rfl⟩ := Prod.mk.inj heq
  exact ⟨first.key, found, hrefusal, by rw [ofManifest, hfound]⟩

/-- A key captures what its expression captures. It matches what is its pieces with texts without
line feeds in between, and of these texts its stars stand for those of which the first is longest,
then the second, and so on. With a key that is refused as a pattern an export map has no table. -/
theorem keys_are_greedy_globs [PatternCompiler] (key subject : Text) :
    (∃ parts, Expression.parts? (Expression.ofKey key) = some parts ∧
        Expression.captures? parts subject = captures? key subject) ∧
      (accepts key subject = true ↔ ∃ stars, Decomposes key stars subject) ∧
      (∀ stars, captures? key subject = some stars ↔ Decomposes key stars subject ∧
        ∀ others, Decomposes key others subject → NotLonger others stars) ∧
      (∀ stars, captures? key subject = some stars → fillEach stars key = subject) ∧
      ∀ (m : Manifest) (reason : Text), key ∈ (entries m).map (·.key) →
        PatternCompiler.refusal? key = some reason →
          ∃ refused why, PatternCompiler.refusal? refused = some why ∧
            ofManifest m = .error (.refusedPattern refused why) := by
  refine ⟨?_, ?_, fun stars => ?_, fun stars h => ?_, fun m reason => ofManifest_of_refused⟩
  · exact ⟨_, Expression.parts?_ofKey key, Expression.captures?_ofChar key subject⟩
  · simp only [accepts_iff, matches_iff_decomposes]
  · simp only [captures?_eq_some_iff, ← matches_iff_decomposes]
    exact ⟨fun h => ⟨h.holds, h.longest⟩, fun h => ⟨h.1, h.2⟩⟩
  · exact (captures?_eq_some_iff.mp h).holds.fillEach_eq

/-- A key with more stars than a pattern can have. -/
def oversizedKey : Text := "./".toList ++ List.replicate 10400 '*'

def oversizedManifest : Manifest :=
  { Manifest.empty with exports := some (.object [(oversizedKey, .string "./x.d.ts".toList)]) }

def tooLarge : Text := "Compiled regex exceeds size limit of 10485760 bytes.".toList

/-- A compiler for patterns with fewer stars. -/
abbrev fewStars : PatternCompiler where
  refusal? pattern := if pattern.count '*' < 10400 then none else some tooLarge
  refusal?_root := by decide

theorem fewStars_refuses_oversizedKey : fewStars.refusal? oversizedKey = some tooLarge := by
  have hcount : oversizedKey.count '*' = 10400 := by
    rw [oversizedKey, List.count_append, List.count_replicate_self]
    rfl
  exact if_neg (by omega)

theorem entries_oversizedManifest :
    entries oversizedManifest = [⟨oversizedKey, some "./x.d.ts".toList⟩] := by
  have hsubpath : isConditionMap [(oversizedKey, .string "./x.d.ts".toList)] = false := rfl
  have hlisted : ofExports oversizedManifest.exports =
      [⟨oversizedKey, some "./x.d.ts".toList⟩] := by
    rw [oversizedManifest, ofExports, hsubpath]
    rfl
  rw [entries, hlisted]
  rfl

/-- Points, plus signs and backslashes of a key stand for themselves, and its first star goes up to
the last backslash; but an export map with too many stars has no table. -/
theorem backslashed_key_captures :
    Decomposes ".+*\\**".toList ["a\\b".toList, "c".toList, []] ".+a\\b\\c".toList ∧
      fewStars.refusal? oversizedKey = some tooLarge ∧
      ∃ refused why, @ofManifest fewStars oversizedManifest =
        .error (.refusedPattern refused why) := by
  refine ⟨?_, fewStars_refuses_oversizedKey, ?_⟩
  · have hcaptures : captures? ".+*\\**".toList ".+a\\b\\c".toList =
        some ["a\\b".toList, "c".toList, []] := by decide
    exact (((@keys_are_greedy_globs fewStars _ _).2.2.1 _).mp hcaptures).1
  · have hkey : oversizedKey ∈ (entries oversizedManifest).map (·.key) := by
      rw [entries_oversizedManifest]
      exact List.mem_singleton_self oversizedKey
    obtain ⟨refused, why, -, hrefused⟩ := (@keys_are_greedy_globs fewStars oversizedKey []).2.2.2.2
      oversizedManifest tooLarge hkey fewStars_refuses_oversizedKey
    exact ⟨refused, why, hrefused⟩

theorem matches_replicate (n : Nat) :
    Matches (List.replicate n '*') (List.replicate n []) [] := by
  induction n with
  | zero => exact .nil
  | succ n ih => exact ih.addEmpty

/-- The subject is the pieces of the key with empty texts in between, but the key has no pattern. -/
theorem oversizedKey_has_no_pattern :
    Decomposes oversizedKey (List.replicate 10400 []) "./".toList ∧
      @ofManifest fewStars oversizedManifest =
        .error (.refusedPattern oversizedKey tooLarge) := by
  constructor
  · refine (Matches.literal (by decide) (.literal (by decide) ?_)).decomposes
    exact matches_replicate 10400
  · have hfound := @refused?_of_refused fewStars ⟨oversizedKey, some "./x.d.ts".toList⟩ tooLarge []
      fewStars_refuses_oversizedKey
    rw [← entries_oversizedManifest] at hfound
    unfold ofManifest
    rw [hfound]

end ExportTable

end TypeInliner
