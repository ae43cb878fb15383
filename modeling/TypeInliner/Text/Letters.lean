import TypeInliner.Text
import TypeInliner.Text.LetterRanges

/-! # Classes of characters

Letters, digits and blanks in the sense of the Unicode character database. Every class begins with
its ASCII members, so that a test of ASCII text never reaches the tables. -/

namespace TypeInliner.Text

/-- Whether a character lies in one of the closed ranges. -/
def inRanges (ranges : List (Nat × Nat)) (c : Char) : Bool :=
  ranges.any fun range => range.1 ≤ c.toNat && c.toNat ≤ range.2

def isAsciiLetter (c : Char) : Bool := ('a' ≤ c && c ≤ 'z') || ('A' ≤ c && c ≤ 'Z')

def isAsciiDigit (c : Char) : Bool := '0' ≤ c && c ≤ '9'

/-- A character with the property White_Space. -/
def isBlank (c : Char) : Bool :=
  c = ' ' || ('\t' ≤ c && c ≤ '\r') ||
    inRanges [(0x85, 0x85), (0xa0, 0xa0), (0x1680, 0x1680), (0x2000, 0x200a), (0x2028, 0x2029),
      (0x202f, 0x202f), (0x205f, 0x205f), (0x3000, 0x3000)] c

/-- A character with the property Alphabetic. -/
def isLetter (c : Char) : Bool :=
  isAsciiLetter c || (0x80 ≤ c.toNat &&
    (inRanges alphabeticLow c || inRanges alphabeticMiddle c || inRanges alphabeticHigh c))

/-- A decimal digit of any script. -/
def isDigit (c : Char) : Bool :=
  isAsciiDigit c || (0x80 ≤ c.toNat && inRanges decimalDigits c)

/-- A letter or any numeral. -/
def isLetterOrNumeral (c : Char) : Bool :=
  isLetter c || isDigit c || (0x80 ≤ c.toNat && inRanges otherNumerals c)

/-- A word character as patterns understand it: a letter, a decimal digit, an underscore or another
connector, a combining mark, or a join control. Patterns follow edition 16 of the character
database, everything else follows edition 17. -/
def isWordCharacter (c : Char) : Bool :=
  isAsciiLetter c || isAsciiDigit c || c = '_' ||
    ((isLetter c || isDigit c || (0x80 ≤ c.toNat && inRanges wordJoiners c)) &&
      !inRanges addedWordCharacters c)

def trimBlanks (t : Text) : Text := trim isBlank t

end TypeInliner.Text
