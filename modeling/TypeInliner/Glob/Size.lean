import TypeInliner.Glob

/-! # The size of a pattern

A pattern is turned into two matchers, one that reads a subject forwards and one that reads it
backwards. They consist of states of equal size: some that every matcher has, one for each byte of a
literal character, and for each star those that recognize the bytes of any character but a line
feed. Reading backwards takes more of these, because there each form of a character has its own
states. -/

namespace TypeInliner.Glob

/-- Number of bytes that the matchers of a pattern may take, each by itself. -/
def sizeLimit : Nat := 10 * Nat.pow 2 20

def stateSize : Nat := 32

def starCount (pattern : Text) : Nat := pattern.count '*'

/-- Number of bytes of the other characters of a pattern. -/
def literalBytes (pattern : Text) : Nat := Text.bytes (pattern.filter (· ≠ '*'))

/-- Size of the matcher that reads forwards. A star takes twelve states and the lists of where they
lead: two ways out of its choice and a transition for each of seventeen ranges of bytes. -/
def forwardSize (pattern : Text) : Nat :=
  stateSize * (6 + literalBytes pattern) +
    starCount pattern * (stateSize * 12 + 4 * 2 + 8 * 17)

/-- Size of the matcher that reads backwards. A star takes thirty-one states and the lists of where
they lead: two ways out of its choice and one for each of the ten forms of a character. -/
def backwardSize (pattern : Text) : Nat :=
  stateSize * (4 + literalBytes pattern) +
    starCount pattern * (stateSize * 31 + 4 * 2 + 4 * 10)

/-- Whether both matchers of a pattern stay within the limit. -/
def fits (pattern : Text) : Bool :=
  forwardSize pattern ≤ sizeLimit && backwardSize pattern ≤ sizeLimit

theorem fits_root : fits ['.'] = true := by decide

/-- A compiler that refuses the patterns that do not fit. -/
abbrev sizeLimited : PatternCompiler where
  refusal? pattern :=
    if fits pattern then none
    else some ("Compiled regex exceeds size limit of ".toList ++ Text.ofNat sizeLimit ++
      " bytes.".toList)
  refusal?_root := if_pos fits_root

end TypeInliner.Glob
