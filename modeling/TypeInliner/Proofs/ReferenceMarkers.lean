import Mathlib.Data.List.Infix
import Mathlib.Data.List.TakeWhile
import TypeInliner.Reference

/-! # Reading markers back

The markers of a text are found from the front, and a marker that is found takes as many characters
as it can. A marker is therefore found wherever its name ends behind it, unless what stands in front
of it is the beginning of another marker whose name the characters of this one would continue. -/

namespace TypeInliner

namespace TypeReference

/-- A marker that can be read back: the module is not empty and has no quote, and the name is one
that patterns accept. -/
structure IsReadable (r : TypeReference) : Prop where
  source_ne_nil : r.source ≠ []
  no_quote : '\x22' ∉ r.source
  name : ∃ c rest, r.name = c :: rest ∧ startsName c = true ∧ ∀ d ∈ rest, continuesName d = true

theorem opening_eq : opening = ['i', 'm', 'p', 'o', 'r', 't', '(', '\x22'] := by decide

theorem closing_eq : closing = ['\x22', ')', '.'] := by decide

theorem marker_ne_nil (r : TypeReference) : r.marker ≠ [] := by
  simp [marker, opening_eq]

/-- What follows a name does not continue it. -/
def EndsName (behind : Text) : Prop := ∀ c ∈ behind.head?, continuesName c = false

/-! ## One marker -/

theorem continuesName_of_startsName {c : Char} (h : startsName c = true) :
    continuesName c = true := by
  simp only [startsName, Bool.or_eq_true, decide_eq_true_eq] at h
  rcases h with (hletter | rfl) | rfl
  · simp [continuesName, Text.isWordCharacter, hletter]
  · decide
  · decide

theorem continuesName_of_isAsciiDigit {c : Char} (h : Text.isAsciiDigit c = true) :
    continuesName c = true := by
  simp [continuesName, Text.isWordCharacter, h]

theorem takeWhile_append_stop {p : Char → Bool} {body behind : Text} (h : ∀ c ∈ body, p c = true)
    (hbehind : ∀ c ∈ behind.head?, p c = false) : (body ++ behind).takeWhile p = body := by
  rw [List.takeWhile_append_of_pos h]
  cases behind with
  | nil => simp
  | cons c behind => simp [hbehind c rfl]

theorem exists_behind_takeWhile (p : Char → Bool) (t : Text) :
    ∃ behind, t = t.takeWhile p ++ behind ∧ ∀ c ∈ behind.head?, p c = false := by
  refine ⟨t.dropWhile p, List.takeWhile_append_dropWhile.symm, ?_⟩
  intro c hc
  have hstop := List.head?_dropWhile_not p t
  rw [hc] at hstop
  simpa using hstop

theorem ofFront?_cons {source behind : Text} {c : Char} (hsource : source ≠ [])
    (hquote : '\x22' ∉ source) : ofFront? (opening ++ (source ++ (closing ++ c :: behind))) =
      if startsName c then some ⟨source, c :: behind.takeWhile continuesName⟩ else none := by
  have htake : (source ++ (closing ++ c :: behind)).takeWhile (· ≠ '\x22') = source := by
    refine takeWhile_append_stop (fun d hd => decide_eq_true ?_) (by simp [closing_eq])
    rintro rfl
    exact hquote hd
  have hopens (t : Text) : opening.isPrefixOf? (opening ++ t) = some t :=
    List.isPrefixOf?_eq_some_iff_append_eq.mpr rfl
  have hcloses : closing.isPrefixOf? (closing ++ c :: behind) = some (c :: behind) :=
    List.isPrefixOf?_eq_some_iff_append_eq.mpr rfl
  simp only [ofFront?, hopens, Option.bind_eq_bind, Option.bind_some, htake, if_neg hsource,
    List.drop_left, hcloses]

/-- A reference is read exactly where its marker stands in full. -/
theorem ofFront?_eq_some {t : Text} {r : TypeReference} : ofFront? t = some r ↔
    r.IsReadable ∧ ∃ rest, t = r.marker ++ rest ∧ EndsName rest := by
  constructor
  · intro h
    simp only [ofFront?, Option.bind_eq_bind, Option.bind_eq_some_iff,
      List.isPrefixOf?_eq_some_iff_append_eq] at h
    obtain ⟨t, rfl, h⟩ := h
    obtain ⟨behind, hsplit, _⟩ := exists_behind_takeWhile (· ≠ '\x22') t
    have hquote : '\x22' ∉ t.takeWhile (· ≠ '\x22') := by
      intro hmem
      simpa using List.mem_takeWhile_imp hmem
    generalize t.takeWhile (· ≠ '\x22') = source at h hsplit hquote
    obtain rfl := hsplit
    rw [List.drop_left] at h
    split at h
    · simp at h
    next hsource =>
    obtain ⟨named, hnamed, hread⟩ := Option.bind_eq_some_iff.mp h
    clear h
    obtain rfl := List.isPrefixOf?_eq_some_iff_append_eq.mp hnamed
    cases named with
    | nil => simp at hread
    | cons c behind =>
      dsimp only at hread
      split at hread
      · next hstarts =>
        obtain rfl := Option.some.inj hread
        obtain ⟨rest, hrest, hends⟩ := exists_behind_takeWhile continuesName behind
        refine ⟨⟨hsource, hquote, c, _, rfl, hstarts, fun d hd => List.mem_takeWhile_imp hd⟩, rest,
          ?_, hends⟩
        conv_lhs => rw [hrest]
        simp [marker, List.append_assoc]
      · simp at hread
  · rintro ⟨⟨hsource, hquote, c, name, hname, hstarts, hcontinues⟩, rest, rfl, hends⟩
    have hmarker : r.marker ++ rest =
        opening ++ (r.source ++ (closing ++ c :: (name ++ rest))) := by
      simp [marker, hname, List.append_assoc]
    rw [hmarker, ofFront?_cons hsource hquote, if_pos hstarts,
      takeWhile_append_stop hcontinues hends, ← hname]

/-! ## Markers do not overlap -/

/-- A text in front of a marker ends like the name of a marker before it, which the marker would
continue. -/
def IsOpen (front : Text) : Prop :=
  ∃ run, closing.tail ++ run <:+ front ∧ (∀ c ∈ run.head?, startsName c = true) ∧
    ∀ c ∈ run, continuesName c = true

theorem not_isOpen_nil : ¬ IsOpen [] := by
  rintro ⟨run, hsuffix, _⟩
  have hlength := hsuffix.length_le
  simp [closing_eq] at hlength

/-- Behind the beginning of a marker up to a part of its name, a text is open. -/
theorem isOpen_of_run {r : TypeReference} (hr : r.IsReadable) {before run part : Text}
    (hname : r.name = run ++ part) : IsOpen (before ++ closing ++ run) := by
  obtain ⟨c, name, hchars, hstarts, hcontinues⟩ := hr.name
  refine ⟨run, ?_, ?_, ?_⟩
  · rw [closing_eq]
    exact ⟨before ++ ['\x22'], by simp⟩
  · intro d hd
    cases run with
    | nil => simp at hd
    | cons e run =>
      obtain ⟨rfl, _⟩ := List.cons.inj (hchars.symm.trans hname)
      obtain rfl := Option.some.inj hd
      exact hstarts
  · intro d hd
    have hmem : d ∈ r.name := by
      rw [hname]
      exact List.mem_append_left _ hd
    rw [hchars] at hmem
    rcases List.mem_cons.mp hmem with rfl | hmem
    · exact continuesName_of_startsName hstarts
    · exact hcontinues d hmem

theorem IsOpen.of_suffix {front text : Text} (h : IsOpen front) (hsuffix : front <:+ text) :
    IsOpen text := by
  obtain ⟨run, hrun, hstarts, hcontinues⟩ := h
  exact ⟨run, hrun.trans hsuffix, hstarts, hcontinues⟩

/-- Two texts with a quote behind a part without one have the same parts. -/
theorem append_quote_inj {s t u v : Text} (hs : '\x22' ∉ s) (ht : '\x22' ∉ t)
    (h : s ++ '\x22' :: u = t ++ '\x22' :: v) : s = t ∧ u = v := by
  have takes (w x : Text) (hw : '\x22' ∉ w) :
      (w ++ '\x22' :: x).takeWhile (· ≠ '\x22') = w := by
    refine takeWhile_append_stop (fun d hd => decide_eq_true ?_) (by simp)
    rintro rfl
    exact hw hd
  have hsame : s = t := by rw [← takes s u hs, h, takes t v ht]
  subst hsame
  exact ⟨rfl, List.cons.inj (List.append_cancel_left h) |>.2⟩

/-- The quote that ends one module is the quote that begins another only if this module begins as
the text behind a module does. -/
theorem prefix_closing_tail {r : TypeReference} {front rest behind : Text} (hr : r.IsReadable)
    (hfront : '\x22' ∉ front) (h : front ++ (closing ++ rest) = r.marker ++ behind) :
    closing.tail <+: r.source := by
  have hsplit : front ++ '\x22' :: ([')', '.'] ++ rest) =
      ['i', 'm', 'p', 'o', 'r', 't', '('] ++
        '\x22' :: (r.source ++ ('\x22' :: ([')', '.'] ++ (r.name ++ behind)))) := by
    simpa [marker, opening_eq, closing_eq] using h
  obtain ⟨_, hsource⟩ := append_quote_inj hfront (by decide) hsplit
  cases hchars : r.source with
  | nil => exact absurd hchars hr.source_ne_nil
  | cons c source =>
    rw [hchars] at hsource
    cases source with
    | nil => simp at hsource
    | cons d source =>
      simp only [List.cons_append, List.nil_append, List.cons.injEq] at hsource
      obtain ⟨rfl, rfl, _⟩ := hsource
      exact ⟨source, by simp [closing_eq]⟩

/-- What begins like a marker behind the first character of a marker begins in the name of that. -/
theorem exists_run_of_overlap {r r' : TypeReference} {front part rest behind : Text}
    (hr : r.IsReadable) (hr' : r'.IsReadable) (hsource : ¬ closing.tail <+: r.source)
    (hne : part ≠ []) (hfront : front ≠ []) (hmarker : r'.marker = front ++ part)
    (hpart : part ++ rest = r.marker ++ behind) : ∃ run, r'.name = run ++ part ∧
      front = opening ++ r'.source ++ closing ++ run := by
  have hhead : part.head? = some 'i' := by
    obtain ⟨c, part, rfl⟩ := List.exists_cons_of_ne_nil hne
    have hc := congrArg List.head? hpart
    rw [marker, opening_eq] at hc
    exact hc
  -- The quote behind the module of the first marker cannot be the quote of the second one.
  have hquote {inner : Text} (hinner : '\x22' ∉ inner)
      (h : part = inner ++ closing ++ r'.name) : False := by
    have hbehind : inner ++ (closing ++ (r'.name ++ rest)) = r.marker ++ behind := by
      rw [← hpart, h]
      simp
    exact hsource (prefix_closing_tail hr hinner hbehind)
  rw [marker] at hmarker
  rcases List.append_eq_append_iff.mp hmarker with ⟨run, hrun, hname⟩ | ⟨inner, hinner, rfl⟩
  · exact ⟨run, hname, hrun⟩
  rcases List.append_eq_append_iff.mp hinner with ⟨before, hbefore, hclosing⟩ | ⟨inner, hopens, rfl⟩
  · cases inner with
    | nil =>
      rw [List.append_nil] at hclosing
      exact ⟨[], rfl, by rw [hbefore, hclosing, List.append_nil]⟩
    | cons c inner =>
      obtain rfl : c = 'i' := Option.some.inj hhead
      have hmem : 'i' ∈ closing := by
        rw [hclosing]
        simp
      exact absurd hmem (by decide)
  rcases List.append_eq_append_iff.mp hopens with ⟨before, _, hmodule⟩ | ⟨inner', hopening, rfl⟩
  · have hinner : '\x22' ∉ inner := by
      intro hmem
      apply hr'.no_quote
      rw [hmodule]
      exact List.mem_append_right _ hmem
    exact (hquote hinner rfl).elim
  · cases inner' with
    | nil => exact (hquote hr'.no_quote rfl).elim
    | cons c inner' =>
      obtain rfl : c = 'i' := Option.some.inj hhead
      obtain ⟨d, front, rfl⟩ := List.exists_cons_of_ne_nil hfront
      have hmem : 'i' ∈ opening.tail := by
        rw [hopening]
        simp
      exact absurd hmem (by decide)

/-! ## All markers -/

theorem findAfter_eq (skipped : Nat) (t : Text) : findAfter skipped t = find (t.drop skipped) := by
  induction skipped generalizing t with
  | zero => rfl
  | succ skipped ih =>
    cases t with
    | nil => rfl
    | cons c t => exact ih t

/-- A marker at the front is found, and what follows it is searched on. -/
theorem find_marker {r : TypeReference} {rest : Text} (hr : r.IsReadable) (hrest : EndsName rest) :
    find (r.marker ++ rest) = r :: find rest := by
  obtain ⟨c, t, hmarker⟩ := List.exists_cons_of_ne_nil r.marker_ne_nil
  have hfront : ofFront? (r.marker ++ rest) = some r := ofFront?_eq_some.mpr ⟨hr, rest, rfl, hrest⟩
  rw [hmarker, List.cons_append] at hfront ⊢
  simp only [find, findAfter, hfront]
  rw [findAfter_eq, hmarker, List.length_cons, Nat.add_sub_cancel, List.drop_left, find]

theorem find_cons {c : Char} {t : Text} (h : ofFront? (c :: t) = none) :
    find (c :: t) = find t := by
  simp only [find, findAfter, h]

/-- A marker is found wherever its name ends behind it and what stands in front of it is not
open. -/
theorem mem_find {r : TypeReference} {front behind : Text} (hr : r.IsReadable)
    (hsource : ¬ closing.tail <+: r.source) (hfront : ¬ IsOpen front) (hbehind : EndsName behind) :
    r ∈ find (front ++ (r.marker ++ behind)) := by
  induction hn : front.length using Nat.strongRecOn generalizing front with
  | ind n ih =>
    cases front with
    | nil =>
      rw [List.nil_append, find_marker hr hbehind]
      exact List.mem_cons_self
    | cons c front =>
      cases hread : ofFront? (c :: front ++ (r.marker ++ behind)) with
      | none =>
        rw [List.cons_append] at hread ⊢
        rw [find_cons hread]
        refine ih front.length ?_ (fun hopen => ?_) rfl
        · rw [← hn, List.length_cons]
          exact Nat.lt_succ_self _
        · exact hfront (hopen.of_suffix (List.suffix_cons c front))
      | some r' =>
        obtain ⟨hr', rest, hsplit, hrest⟩ := ofFront?_eq_some.mp hread
        rw [hsplit, find_marker hr' hrest]
        refine List.mem_cons_of_mem _ ?_
        rcases List.append_eq_append_iff.mp hsplit with
          ⟨part, hmarker, hpart⟩ | ⟨between, hbetween, rfl⟩
        · by_cases hne : part = []
          · subst hne
            rw [List.nil_append] at hpart
            rw [← hpart]
            exact ih 0 (by rw [← hn, List.length_cons]; exact Nat.succ_pos _) not_isOpen_nil rfl
          · obtain ⟨run, hname, hopen⟩ := exists_run_of_overlap hr hr' hsource hne
              (List.cons_ne_nil c front) hmarker hpart.symm
            rw [hopen] at hfront
            exact absurd (isOpen_of_run hr' hname) hfront
        · have hlength := congrArg List.length hbetween
          rw [List.length_append, hn] at hlength
          have hpos := List.length_pos_iff.mpr r'.marker_ne_nil
          refine ih between.length (by omega) (fun hopen => ?_) rfl
          rw [hbetween] at hfront
          exact hfront (hopen.of_suffix (List.suffix_append _ _))

/-! ## Trimmed texts -/

/-- The code points of blanks. -/
def blankCodes : List Nat :=
  [0x9, 0xa, 0xb, 0xc, 0xd, 0x20, 0x85, 0xa0, 0x1680, 0x2000, 0x2001, 0x2002, 0x2003, 0x2004,
    0x2005, 0x2006, 0x2007, 0x2008, 0x2009, 0x200a, 0x2028, 0x2029, 0x202f, 0x205f, 0x3000]

theorem toNat_mem_blankCodes {c : Char} (h : Text.isBlank c = true) : c.toNat ∈ blankCodes := by
  have hspace : c = ' ' → c.toNat = 0x20 := by
    rintro rfl
    rfl
  have hcontrol : '\t' ≤ c ∧ c ≤ '\r' ↔ 0x9 ≤ c.toNat ∧ c.toNat ≤ 0xd := Iff.rfl
  simp only [Text.isBlank, Text.inRanges, List.any_cons, List.any_nil, Bool.or_eq_true,
    Bool.and_eq_true, decide_eq_true_eq, Bool.or_false, hcontrol] at h
  simp only [blankCodes, List.mem_cons, List.not_mem_nil, or_false]
  rcases h with (hc | _) | _
  · have hcode := hspace hc
    omega
  all_goals omega

/-- No name goes on with a blank. -/
theorem not_continuesName_of_isBlank {c : Char} (h : Text.isBlank c = true) :
    continuesName c = false := by
  have hall : ∀ n ∈ blankCodes, continuesName (Char.ofNat n) = false := by decide +kernel
  have hc := hall c.toNat (toNat_mem_blankCodes h)
  rwa [Char.ofNat_toNat] at hc

theorem trimEnd_prefix (p : Char → Bool) (t : Text) : Text.trimEnd p t <+: t := by
  have hsuffix := List.reverse_prefix.mpr (List.dropWhile_suffix (l := t.reverse) p)
  rwa [List.reverse_reverse] at hsuffix

/-- At the end only what follows a character that stays is trimmed. -/
theorem trimEnd_append {p : Char → Bool} {front : Text} {c : Char} (hc : p c = false)
    (behind : Text) :
    Text.trimEnd p (front ++ [c] ++ behind) = front ++ [c] ++ Text.trimEnd p behind := by
  unfold Text.trimEnd
  rw [List.reverse_append, List.reverse_append, List.reverse_singleton, List.singleton_append,
    List.dropWhile_append]
  split
  · next hempty =>
    rw [List.isEmpty_iff.mp hempty, List.dropWhile_cons_of_neg (by simp [hc])]
    simp
  · simp

/-- At the beginning only what precedes a character that stays is trimmed. -/
theorem exists_suffix_of_dropWhile {p : Char → Bool} {c : Char} (front behind : Text)
    (hc : p c = false) : ∃ front', front' <:+ front ∧
      (front ++ c :: behind).dropWhile p = front' ++ c :: behind := by
  rw [List.dropWhile_append]
  split
  · exact ⟨[], List.nil_suffix, List.dropWhile_cons_of_neg (by simp [hc])⟩
  · exact ⟨_, List.dropWhile_suffix p, rfl⟩

theorem IsReadable.exists_last {r : TypeReference} (hr : r.IsReadable) :
    ∃ front c, r.marker = front ++ [c] ∧ continuesName c = true := by
  obtain ⟨c, name, hchars, hstarts, hcontinues⟩ := hr.name
  rcases List.eq_nil_or_concat name with rfl | ⟨inner, d, rfl⟩
  · exact ⟨opening ++ r.source ++ closing, c, by rw [marker, hchars],
      continuesName_of_startsName hstarts⟩
  · refine ⟨opening ++ r.source ++ closing ++ c :: inner, d, ?_, hcontinues d (by simp)⟩
    rw [marker, hchars, List.concat_eq_append]
    simp only [List.append_assoc, List.cons_append]

/-- A marker is found in a text without the blanks around it where it is found in the text. -/
theorem mem_find_trimBlanks {r : TypeReference} {front behind : Text} (hr : r.IsReadable)
    (hsource : ¬ closing.tail <+: r.source) (hfront : ¬ IsOpen front) (hbehind : EndsName behind) :
    r ∈ find (Text.trimBlanks (front ++ (r.marker ++ behind))) := by
  obtain ⟨marked, c, hmarked, hc⟩ := hr.exists_last
  have hblank : Text.isBlank c = false := by
    rw [← Bool.not_eq_true]
    intro h
    simp [not_continuesName_of_isBlank h] at hc
  obtain ⟨tail, hopens⟩ : ∃ tail, r.marker = 'i' :: tail := by
    rw [marker, opening_eq]
    exact ⟨_, rfl⟩
  obtain ⟨front', hsuffix, hdrop⟩ := exists_suffix_of_dropWhile front (tail ++ behind)
    (by decide : Text.isBlank 'i' = false)
  have htrim : Text.trimBlanks (front ++ (r.marker ++ behind)) =
      front' ++ (r.marker ++ Text.trimEnd Text.isBlank behind) := by
    rw [Text.trimBlanks, Text.trim, hopens, List.cons_append, hdrop, ← List.cons_append, ← hopens,
      hmarked, ← List.append_assoc, ← List.append_assoc, trimEnd_append hblank]
    simp
  rw [htrim]
  refine mem_find hr hsource (fun hopen => hfront (hopen.of_suffix hsuffix)) ?_
  intro d hd
  obtain ⟨rest, hrest⟩ := trimEnd_prefix Text.isBlank behind
  apply hbehind
  rw [← hrest]
  obtain ⟨u, hu⟩ := List.head?_eq_some_iff.mp hd
  rw [hu]
  rfl

end TypeReference

end TypeInliner
