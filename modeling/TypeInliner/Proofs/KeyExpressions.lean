import TypeInliner.Glob

/-! # Keys as regular expressions

A key of an export map can be written as a regular expression: characters with a meaning stand
behind a backslash, a group of any characters but line feeds takes the place of each star, and the
whole is anchored at both ends. Read as such, the expression captures what the stars of the key
stand for. -/

namespace TypeInliner

namespace Expression

/-- Whether a character has a meaning in expressions. -/
def isSpecial (c : Char) : Bool := "\\.+*?()|[]\x7b\x7d^$#&-~".toList.contains c

/-- A text with a backslash in front of each character that has a meaning. -/
def escape : Text → Text
  | [] => []
  | c :: t => if isSpecial c then '\\' :: c :: escape t else c :: escape t

/-- A text with a group in place of each star behind a backslash. -/
def groupStars : Text → Text
  | [] => []
  | '\\' :: '*' :: t => "(.*)".toList ++ groupStars t
  | c :: t => c :: groupStars t

/-- The expression of a key. -/
def ofKey (key : Text) : Text := '^' :: (groupStars (escape key) ++ ['$'])

/-! ## Reading expressions -/

inductive Part
  | char (c : Char)
  /-- A group that captures any characters but line feeds, as many as it can. -/
  | group
  deriving DecidableEq, Repr

/-- The parts of an expression up to the anchor at its end. -/
def partsToEnd? : Text → Option (List Part)
  | [] => none
  | ['$'] => some []
  | '\\' :: c :: t => if isSpecial c then (partsToEnd? t).map (.char c :: ·) else none
  | '(' :: '.' :: '*' :: ')' :: t => (partsToEnd? t).map (.group :: ·)
  | c :: t => if isSpecial c then none else (partsToEnd? t).map (.char c :: ·)

/-- The parts of an expression that is anchored at both ends and holds nothing else than characters
and groups. -/
def parts? : Text → Option (List Part)
  | '^' :: t => partsToEnd? t
  | _ => none

/-- What the groups capture in a whole subject. A group takes one more character if what follows can
still be matched. -/
def captures? : List Part → Text → Option (List Text)
  | [], [] => some []
  | [], _ :: _ => none
  | .char _ :: _, [] => none
  | .char p :: parts, c :: t => if p = c then captures? parts t else none
  | .group :: parts, [] => (captures? parts []).map ([] :: ·)
  | .group :: parts, c :: t =>
    let longer := if c = '\n' then none else captures? (.group :: parts) t
    match longer with
    | some (text :: texts) => some ((c :: text) :: texts)
    | _ => (captures? parts (c :: t)).map ([] :: ·)
termination_by parts subject => (parts.length, subject.length)

/-! ## The expression of a key -/

/-- The part that a character of a key becomes. -/
def Part.ofChar (c : Char) : Part := if c = '*' then .group else .char c

theorem head?_escape (t : Text) : (escape t).head? ≠ some '*' := by
  cases t with
  | nil => simp [escape]
  | cons c t =>
    rw [escape]
    split
    · simp
    · next h =>
      rintro heq
      obtain rfl : c = '*' := by simpa using heq
      exact h (by decide)

theorem groupStars_cons {c : Char} {t : Text} (h : c ≠ '\\' ∨ t.head? ≠ some '*') :
    groupStars (c :: t) = c :: groupStars t := by
  rw [groupStars]
  rintro rest rfl rfl
  simp at h

/-- The groups come where the stars of the key are, and all else stays escaped. -/
theorem groupStars_escape_cons (c : Char) (t : Text) :
    groupStars (escape (c :: t)) =
      (if c = '*' then "(.*)".toList else if isSpecial c then ['\\', c] else [c]) ++
        groupStars (escape t) := by
  by_cases hstar : c = '*'
  · subst hstar
    rfl
  rw [escape, if_neg hstar]
  by_cases hc : isSpecial c = true
  · -- The character behind the backslash is no star, and what follows does not begin with one.
    have hback : groupStars ('\\' :: c :: escape t) = '\\' :: groupStars (c :: escape t) :=
      groupStars_cons (Or.inr (by simpa using hstar))
    rw [if_pos hc, if_pos hc, hback, groupStars_cons (Or.inr (head?_escape t))]
    rfl
  · have hne : c ≠ '\\' := by
      rintro rfl
      exact hc (by decide)
    rw [if_neg hc, if_neg hc, groupStars_cons (Or.inl hne)]
    rfl

theorem partsToEnd?_special {c : Char} (h : isSpecial c = true) (t : Text) :
    partsToEnd? ('\\' :: c :: t) = (partsToEnd? t).map (.char c :: ·) := by
  rw [partsToEnd?, if_pos h]

theorem partsToEnd?_plain {c : Char} (h : isSpecial c = false) (t : Text) :
    partsToEnd? (c :: t) = (partsToEnd? t).map (.char c :: ·) := by
  have hne {special : Char} (hspecial : isSpecial special = true) : c ≠ special := by
    rintro rfl
    simp [h] at hspecial
  rw [partsToEnd?, if_neg (by simp [h])]
  · exact fun hc => absurd hc (hne (by decide))
  · exact fun _ _ hc => absurd hc (hne (by decide))
  · exact fun _ hc => absurd hc (hne (by decide))

/-- An expression of a key is read back part by part. -/
theorem partsToEnd?_key (key : Text) :
    partsToEnd? (groupStars (escape key) ++ ['$']) = some (key.map Part.ofChar) := by
  induction key with
  | nil => rfl
  | cons c key ih =>
    rw [groupStars_escape_cons, List.append_assoc, List.map_cons, Part.ofChar]
    split
    · have hgroup (t : Text) : partsToEnd? ("(.*)".toList ++ t) =
          (partsToEnd? t).map (.group :: ·) := rfl
      rw [hgroup, ih, Option.map_some]
    · split
      · next hc => exact (partsToEnd?_special hc _).trans (congrArg _ ih)
      · next hc => exact (partsToEnd?_plain (by simpa using hc) _).trans (congrArg _ ih)

theorem parts?_ofKey (key : Text) : parts? (ofKey key) = some (key.map Part.ofChar) :=
  partsToEnd?_key key

/-! ## What it captures -/

theorem captures?_ofChar (key subject : Text) :
    captures? (key.map Part.ofChar) subject = Glob.captures? key subject := by
  induction key generalizing subject with
  | nil => cases subject <;> simp [captures?, Glob.captures?_nil_nil, Glob.captures?_nil_cons]
  | cons p key ih =>
    rw [List.map_cons, Part.ofChar]
    by_cases hp : p = '*'
    · rw [if_pos hp, hp]
      induction subject with
      | nil =>
        rw [captures?, ih, Glob.captures?_star_nil]
        rfl
      | cons c t iht =>
        rw [captures?, ih, iht, Glob.captures?_star_cons]
        generalize (if c = '\n' then none else Glob.captures? ('*' :: key) t) = longer
        match longer with
        | none => rfl
        | some [] => rfl
        | some (text :: texts) => rfl
    · rw [if_neg hp]
      cases subject with
      | nil => rw [captures?, Glob.captures?_literal_nil hp]
      | cons c t => rw [captures?, ih, Glob.captures?_literal_cons hp]

end Expression

end TypeInliner
