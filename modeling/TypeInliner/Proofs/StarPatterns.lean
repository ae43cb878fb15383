import TypeInliner.Glob

/-! # What patterns with stars match

A subject matches a pattern if it is the pattern with texts in place of its stars. Of all rows of
texts that will do, the first star takes as much as it can, then the second, and so on; a template
is filled with the texts of this row. -/

namespace TypeInliner.Glob

/-- A subject is a pattern with texts without line feeds in place of its stars. -/
inductive Matches : Text → List Text → Text → Prop
  | nil : Matches [] [] []
  | literal {p : Char} {pattern subject : Text} {stars : List Text} (plain : p ≠ '*')
      (rest : Matches pattern stars subject) : Matches (p :: pattern) stars (p :: subject)
  | star {text pattern subject : Text} {stars : List Text} (line : '\n' ∉ text)
      (rest : Matches pattern stars subject) :
      Matches ('*' :: pattern) (text :: stars) (text ++ subject)

/-- Whether the first of the texts that have another length than those beside them is the shorter
one. -/
def NotLonger : List Text → List Text → Prop
  | text :: texts, other :: others =>
    text.length < other.length ∨ text.length = other.length ∧ NotLonger texts others
  | texts, _ => texts = []

theorem NotLonger.refl (texts : List Text) : NotLonger texts texts := by
  induction texts with
  | nil => rfl
  | cons text texts ih => exact Or.inr ⟨rfl, ih⟩

theorem NotLonger.length_eq {texts others : List Text} (h : NotLonger texts others)
    (h' : NotLonger others texts) : texts.map List.length = others.map List.length := by
  induction texts generalizing others with
  | nil =>
    cases others with
    | nil => rfl
    | cons other others => exact absurd h' (List.cons_ne_nil other others)
  | cons text texts ih =>
    cases others with
    | nil => exact absurd h (List.cons_ne_nil text texts)
    | cons other others =>
      rcases h with hlt | ⟨heq, h⟩
      · rcases h' with hlt' | ⟨heq', _⟩ <;> omega
      · rcases h' with hlt' | ⟨_, h'⟩
        · omega
        · rw [List.map_cons, List.map_cons, heq, ih h h']

/-- Of all texts that stand for the stars the first one is longest, then the second, and so on. -/
structure Captures (pattern : Text) (stars : List Text) (subject : Text) : Prop where
  holds : Matches pattern stars subject
  longest : ∀ others, Matches pattern others subject → NotLonger others stars

namespace Matches

variable {pattern subject : Text} {stars : List Text}

theorem of_nil (h : Matches [] stars subject) : stars = [] ∧ subject = [] := by
  cases h
  exact ⟨rfl, rfl⟩

theorem of_literal {p : Char} (hp : p ≠ '*') (h : Matches (p :: pattern) stars subject) :
    ∃ rest, subject = p :: rest ∧ Matches pattern stars rest := by
  cases h with
  | literal _ rest => exact ⟨_, rfl, rest⟩
  | star => exact absurd rfl hp

theorem of_star (h : Matches ('*' :: pattern) stars subject) :
    ∃ text others rest, stars = text :: others ∧ subject = text ++ rest ∧ '\n' ∉ text ∧
      Matches pattern others rest := by
  cases h with
  | literal plain => exact absurd rfl plain
  | star line rest => exact ⟨_, _, _, rfl, rfl, line, rest⟩

/-- A star takes the first character, or nothing. -/
theorem of_star_cons {c : Char} (h : Matches ('*' :: pattern) stars (c :: subject)) :
    (∃ text others, stars = (c :: text) :: others ∧ c ≠ '\n' ∧
        Matches ('*' :: pattern) (text :: others) subject) ∨
      ∃ others, stars = [] :: others ∧ Matches pattern others (c :: subject) := by
  obtain ⟨text, others, rest, rfl, hsubject, hline, hrest⟩ := h.of_star
  cases text with
  | nil =>
    obtain rfl : c :: subject = rest := hsubject
    exact Or.inr ⟨others, rfl, hrest⟩
  | cons d text =>
    obtain ⟨rfl, rfl⟩ := List.cons.inj hsubject
    simp only [List.mem_cons, not_or] at hline
    exact Or.inl ⟨text, others, rfl, Ne.symm hline.1, .star hline.2 hrest⟩

theorem lengthen {c : Char} {text : Text} (hc : c ≠ '\n')
    (h : Matches ('*' :: pattern) (text :: stars) subject) :
    Matches ('*' :: pattern) ((c :: text) :: stars) (c :: subject) := by
  obtain ⟨text', others, rest, hstars, rfl, hline, hrest⟩ := h.of_star
  obtain ⟨rfl, rfl⟩ := List.cons.inj hstars
  have hline' : '\n' ∉ c :: text := by simp [hline, Ne.symm hc]
  exact .star hline' hrest

theorem addEmpty (h : Matches pattern stars subject) :
    Matches ('*' :: pattern) ([] :: stars) subject :=
  have hline : '\n' ∉ ([] : Text) := List.not_mem_nil
  .star hline h

/-- The stars stand for parts of the subject. -/
theorem infix_of_mem (h : Matches pattern stars subject) : ∀ text ∈ stars, text <:+: subject := by
  induction h with
  | nil => simp
  | literal _ _ ih => exact fun text htext => (ih text htext).trans (List.suffix_cons _ _).isInfix
  | @star star pattern subject stars _ _ ih =>
    intro text htext
    rcases List.mem_cons.mp htext with rfl | htext
    · exact (List.prefix_append _ _).isInfix
    · exact (ih text htext).trans (List.suffix_append _ _).isInfix

/-- Texts of the same lengths that stand for the stars of a pattern in a subject are the same. -/
theorem eq_of_length {others : List Text} (h : Matches pattern stars subject)
    (h' : Matches pattern others subject)
    (hlength : others.map List.length = stars.map List.length) : others = stars := by
  induction h generalizing others with
  | nil => exact h'.of_nil.1
  | literal plain _ ih =>
    obtain ⟨rest, hsubject, hrest⟩ := h'.of_literal plain
    obtain ⟨_, rfl⟩ := List.cons.inj hsubject
    exact ih hrest hlength
  | star _ _ ih =>
    obtain ⟨text, others, rest, rfl, hsubject, _, hrest⟩ := h'.of_star
    obtain ⟨hfirst, hothers⟩ := List.cons.inj hlength
    obtain ⟨rfl, rfl⟩ := List.append_inj hsubject hfirst.symm
    rw [ih hrest hothers]

end Matches

/-! ## Captures -/

namespace Captures

variable {pattern subject : Text} {stars : List Text}

theorem unique {others : List Text} (h : Captures pattern stars subject)
    (h' : Captures pattern others subject) : others = stars :=
  h.holds.eq_of_length h'.holds ((h.longest _ h'.holds).length_eq (h'.longest _ h.holds))

theorem literal {p : Char} (hp : p ≠ '*') (h : Captures pattern stars subject) :
    Captures (p :: pattern) stars (p :: subject) where
  holds := .literal hp h.holds
  longest others hothers := by
    obtain ⟨rest, hsubject, hrest⟩ := hothers.of_literal hp
    obtain ⟨_, rfl⟩ := List.cons.inj hsubject
    exact h.longest others hrest

theorem addEmpty (h : Captures pattern stars subject)
    (hnone : ∀ text others, text ≠ [] → ¬ Matches ('*' :: pattern) (text :: others) subject) :
    Captures ('*' :: pattern) ([] :: stars) subject where
  holds := h.holds.addEmpty
  longest others hothers := by
    obtain ⟨text, others, rest, rfl, rfl, _, hrest⟩ := hothers.of_star
    by_cases hne : text = []
    · subst hne
      exact Or.inr ⟨rfl, h.longest others hrest⟩
    · exact absurd hothers (hnone text others hne)

theorem lengthen {c : Char} {text : Text} (hc : c ≠ '\n')
    (h : Captures ('*' :: pattern) (text :: stars) subject) :
    Captures ('*' :: pattern) ((c :: text) :: stars) (c :: subject) where
  holds := h.holds.lengthen hc
  longest others hothers := by
    rcases hothers.of_star_cons with ⟨text', others, rfl, _, hrest⟩ | ⟨others, rfl, _⟩
    · exact (h.longest _ hrest).imp Nat.succ_lt_succ (And.imp_left (congrArg Nat.succ))
    · exact Or.inl (Nat.succ_pos _)

end Captures

/-- What has been found are the captures, or nothing has been found and nothing matches. -/
def Finds (pattern subject : Text) (found : Option (List Text)) : Prop :=
  (∀ stars, found = some stars → Captures pattern stars subject) ∧
    (found = none → ∀ stars, ¬ Matches pattern stars subject)

theorem finds_none {pattern subject : Text} (h : ∀ stars, ¬ Matches pattern stars subject) :
    Finds pattern subject none :=
  ⟨fun _ hfound => (nomatch hfound), fun _ => h⟩

theorem finds_some {pattern subject : Text} {stars : List Text}
    (h : Captures pattern stars subject) : Finds pattern subject (some stars) :=
  ⟨fun _ hfound => Option.some.inj hfound ▸ h, fun hfound => (nomatch hfound)⟩

theorem Finds.literal {p : Char} {pattern subject : Text} {found : Option (List Text)}
    (hp : p ≠ '*') (h : Finds pattern subject found) :
    Finds (p :: pattern) (p :: subject) found := by
  refine ⟨fun stars hfound => (h.1 stars hfound).literal hp, fun hfound stars hstars => ?_⟩
  obtain ⟨rest, hsubject, hrest⟩ := hstars.of_literal hp
  obtain ⟨_, rfl⟩ := List.cons.inj hsubject
  exact h.2 hfound stars hrest

/-- If no star that takes something will do, the first star takes nothing. -/
theorem Finds.addEmpty {pattern subject : Text} {found : Option (List Text)}
    (h : Finds pattern subject found)
    (hnone : ∀ text others, text ≠ [] → ¬ Matches ('*' :: pattern) (text :: others) subject) :
    Finds ('*' :: pattern) subject (addEmpty found) := by
  cases found with
  | some stars => exact finds_some ((h.1 stars rfl).addEmpty hnone)
  | none =>
    refine finds_none fun stars hstars => ?_
    obtain ⟨text, others, rest, rfl, rfl, _, hrest⟩ := hstars.of_star
    by_cases hne : text = []
    · subst hne
      exact h.2 rfl others hrest
    · exact hnone text others hne hstars

/-- The texts that are found for the stars are the captures, and if there are none, the pattern does
not match. -/
theorem finds_captures? (pattern subject : Text) :
    Finds pattern subject (captures? pattern subject) := by
  induction pattern generalizing subject with
  | nil =>
    cases subject with
    | nil =>
      refine finds_some ⟨.nil, fun others hothers => ?_⟩
      exact hothers.of_nil.1 ▸ .refl []
    | cons c t => exact finds_none fun stars h => by simpa using h.of_nil.2
  | cons p pattern ih =>
    by_cases hp : p = '*'
    · subst hp
      induction subject with
      | nil =>
        rw [captures?_star_nil]
        refine (ih []).addEmpty fun text others hne h => ?_
        obtain ⟨text', others', rest, hstars, hsubject, _⟩ := h.of_star
        obtain ⟨rfl, _⟩ := List.cons.inj hstars
        exact hne (List.append_eq_nil_iff.mp hsubject.symm).1
      | cons c t iht =>
        rw [captures?_star_cons]
        -- A first star that takes something takes the first character and goes on.
        have hgoesOn (hfails : c = '\n' ∨ captures? ('*' :: pattern) t = none) :
            ∀ text others, text ≠ [] → ¬ Matches ('*' :: pattern) (text :: others) (c :: t) := by
          intro text others hne h
          rcases h.of_star_cons with ⟨text', others', _, hc, hrest⟩ | ⟨others', hstars, _⟩
          · exact iht.2 (hfails.resolve_left hc) _ hrest
          · exact hne (List.cons.inj hstars).1
        by_cases hline : c = '\n'
        · rw [if_pos hline]
          exact (ih (c :: t)).addEmpty (hgoesOn (Or.inl hline))
        rw [if_neg hline]
        cases hlonger : captures? ('*' :: pattern) t with
        | none => exact (ih (c :: t)).addEmpty (hgoesOn (Or.inr hlonger))
        | some stars =>
          have hcaptures := iht.1 stars hlonger
          obtain ⟨text, others, rest, rfl, _⟩ := hcaptures.holds.of_star
          exact finds_some (hcaptures.lengthen hline)
    · cases subject with
      | nil =>
        rw [captures?_literal_nil hp]
        refine finds_none fun stars h => ?_
        obtain ⟨rest, hsubject, _⟩ := h.of_literal hp
        simp at hsubject
      | cons c t =>
        rw [captures?_literal_cons hp]
        split
        · next heq =>
          subst heq
          exact (ih t).literal hp
        · next hne =>
          refine finds_none fun stars h => ?_
          obtain ⟨rest, hsubject, _⟩ := h.of_literal hp
          exact hne (List.cons.inj hsubject).1.symm

theorem captures?_eq_some_iff {pattern subject : Text} {stars : List Text} :
    captures? pattern subject = some stars ↔ Captures pattern stars subject := by
  constructor
  · exact (finds_captures? pattern subject).1 stars
  · intro h
    cases hfound : captures? pattern subject with
    | none => exact absurd h.holds ((finds_captures? pattern subject).2 hfound stars)
    | some others => rw [h.unique ((finds_captures? pattern subject).1 others hfound)]

theorem accepts_iff {pattern subject : Text} :
    accepts pattern subject = true ↔ ∃ stars, Matches pattern stars subject := by
  rw [accepts, Option.isSome_iff_exists]
  constructor
  · rintro ⟨stars, hfound⟩
    exact ⟨stars, (captures?_eq_some_iff.mp hfound).holds⟩
  · rintro ⟨stars, h⟩
    cases hfound : captures? pattern subject with
    | none => exact absurd h ((finds_captures? pattern subject).2 hfound stars)
    | some others => exact ⟨others, rfl⟩

/-! ## Filling templates -/

/-- A template in which each star is replaced by the value at its place, as far as there are
values. -/
def fillEach : List Text → Text → Text
  | _, [] => []
  | [], c :: t => c :: t
  | value :: values, c :: t =>
    if c = '*' then value ++ fillEach values t else c :: fillEach (value :: values) t

theorem fillEach_nil (t : Text) : fillEach [] t = t := by
  cases t <;> rfl

theorem fillFirst_append {front : Text} (h : '*' ∉ front) (value t : Text) :
    fillFirst value (front ++ t) = front ++ fillFirst value t := by
  induction front with
  | nil => rfl
  | cons c front ih =>
    simp only [List.mem_cons, not_or] at h
    rw [List.cons_append, fillFirst, if_neg (Ne.symm h.1), ih h.2, List.cons_append]

/-- Behind a text without stars, a template is filled as if it stood alone. -/
theorem fill_append {front : Text} (h : '*' ∉ front) (values : List Text) (t : Text) :
    fill values (front ++ t) = front ++ fill values t := by
  induction values generalizing t with
  | nil => rfl
  | cons value values ih =>
    simp only [fill, List.foldl_cons, fillFirst_append h]
    exact ih _

/-- Values without stars are filled in all at once. -/
theorem fill_eq_fillEach {values : List Text} (h : ∀ value ∈ values, '*' ∉ value)
    (template : Text) : fill values template = fillEach values template := by
  induction template generalizing values with
  | nil =>
    induction values with
    | nil => rfl
    | cons value values ih => exact ih fun v hv => h v (List.mem_cons_of_mem _ hv)
  | cons c t ih =>
    cases values with
    | nil => rfl
    | cons value values =>
      by_cases hc : c = '*'
      · subst hc
        have hrest := ih fun v hv => h v (List.mem_cons_of_mem _ hv)
        rw [fillEach, if_pos rfl, ← hrest, ← fill_append (h value List.mem_cons_self)]
        rfl
      · rw [fillEach, if_neg hc, ← ih h]
        have hplain : '*' ∉ [c] := by simp [Ne.symm hc]
        exact fill_append hplain (value :: values) t

end TypeInliner.Glob
