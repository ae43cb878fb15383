import TypeInliner.Text

/-! # Patterns with stars

In a pattern a star stands for any text without line feeds, every other character for itself.
`Glob.captures?` matches a whole subject and answers what the stars stand for, the first star taking
as much as it can, then the second, and so on. From the first star on it fills a row with the
answers for all ends of the subject, so that no end is matched twice against the same end of the
pattern. Whether a pattern can be used at all is up to a `PatternCompiler`. -/

namespace TypeInliner

/-- What compiles patterns before they are matched. It may refuse a pattern, for a reason in its own
words, but not the pattern that stands for a package itself. -/
class PatternCompiler where
  refusal? : Text → Option Text
  refusal?_root : refusal? ['.'] = none

namespace PatternCompiler

/-- A compiler that refuses nothing. -/
scoped instance unlimited : PatternCompiler := ⟨fun _ => none, rfl⟩

end PatternCompiler

namespace Glob

/-- What the stars of a pattern stand for in a subject and in each of its ends, longest first; none
where the pattern does not match. -/
abbrev Row := List (Option (List Text))

/-- What the stars stand for in the whole subject of a row. -/
def Row.first (row : Row) : Option (List Text) := row.headD none

/-- The row of the empty pattern, which matches the empty end only. -/
def endRow : Text → Row
  | [] => [some []]
  | _ :: t => none :: endRow t

/-- The row of a pattern that begins with a character, given the row of what follows it. -/
def literalRow (p : Char) : Text → Row → Row
  | [], _ => [none]
  | c :: t, below => (if p = c then Row.first below.tail else none) :: literalRow p t below.tail

/-- What the stars stand for when the first one takes one more character in front. -/
def lengthen (c : Char) : Option (List Text) → Option (List Text)
  | some (star :: others) => some ((c :: star) :: others)
  | _ => none

/-- What the stars stand for when a new first one takes nothing. -/
def addEmpty (stars : Option (List Text)) : Option (List Text) := stars.map ([] :: ·)

/-- The row of a pattern that begins with a star, given the row of what follows it. -/
def starRow : Text → Row → Row
  | [], below => [addEmpty below.first]
  | c :: t, below =>
    let shorter := starRow t below.tail
    (lengthen c (if c = '\n' then none else shorter.first)).or (addEmpty below.first) :: shorter

/-- The row of a pattern and a subject. -/
def row : Text → Text → Row
  | [], subject => endRow subject
  | p :: pattern, subject =>
    if p = '*' then starRow subject (row pattern subject)
    else literalRow p subject (row pattern subject)

/-- The texts that the stars of a pattern stand for in a subject. -/
def captures? : Text → Text → Option (List Text)
  | [], subject => (endRow subject).first
  | p :: pattern, subject =>
    if p = '*' then (row (p :: pattern) subject).first
    else
      match subject with
      | [] => none
      | c :: rest => if p = c then captures? pattern rest else none

theorem tail_starRow (c : Char) (t : Text) (below : Row) :
    (starRow (c :: t) below).tail = starRow t below.tail := rfl

/-- The row of a subject continues with the row of the subject without its first character. -/
theorem tail_row (pattern : Text) (c : Char) (t : Text) :
    (row pattern (c :: t)).tail = row pattern t := by
  induction pattern with
  | nil => rfl
  | cons p pattern ih =>
    by_cases hp : p = '*'
    · simp only [row, hp, if_true, tail_starRow, ih]
    · simp only [row, hp, if_false, literalRow, List.tail_cons, ih]

/-- A row begins with what the stars stand for in the whole subject. -/
theorem first_row (pattern subject : Text) :
    (row pattern subject).first = captures? pattern subject := by
  induction pattern generalizing subject with
  | nil => cases subject <;> rfl
  | cons p pattern ih =>
    by_cases hp : p = '*'
    · cases subject <;> simp only [captures?, hp, if_true]
    · cases subject with
      | nil => simp [row, hp, captures?, literalRow, Row.first]
      | cons c t =>
        rw [row, if_neg hp, literalRow, captures?, if_neg hp, tail_row]
        simp only [Row.first, List.headD_cons, ← ih]

theorem captures?_nil_nil : captures? [] [] = some [] := rfl

theorem captures?_nil_cons (c : Char) (t : Text) : captures? [] (c :: t) = none := rfl

theorem captures?_literal_nil {p : Char} (hp : p ≠ '*') (pattern : Text) :
    captures? (p :: pattern) [] = none := by
  rw [captures?, if_neg hp]

theorem captures?_literal_cons {p : Char} (hp : p ≠ '*') (pattern : Text) (c : Char) (t : Text) :
    captures? (p :: pattern) (c :: t) = if p = c then captures? pattern t else none := by
  rw [captures?, if_neg hp]

theorem captures?_star_nil (pattern : Text) :
    captures? ('*' :: pattern) [] = addEmpty (captures? pattern []) := by
  rw [← first_row, ← first_row, row, if_pos rfl, starRow, Row.first, List.headD_cons]

/-- A star takes one more character if what follows can still be matched, and nothing otherwise. -/
theorem captures?_star_cons (pattern : Text) (c : Char) (t : Text) :
    captures? ('*' :: pattern) (c :: t) =
      (lengthen c (if c = '\n' then none else captures? ('*' :: pattern) t)).or
        (addEmpty (captures? pattern (c :: t))) := by
  rw [← first_row, ← first_row, ← first_row, row, if_pos rfl, starRow, tail_row, row, if_pos rfl]
  rfl

def accepts (pattern subject : Text) : Bool := (captures? pattern subject).isSome

/-! ## Filling templates -/

/-- A template with its first star replaced. -/
def fillFirst (value : Text) : Text → Text
  | [] => []
  | c :: t => if c = '*' then value ++ t else c :: fillFirst value t

/-- A template with its first star replaced by each value in turn; a star inside a value counts from
then on. -/
def fill (values : List Text) (template : Text) : Text :=
  values.foldl (fun path value => fillFirst value path) template

end Glob

end TypeInliner
