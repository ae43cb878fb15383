import TypeInliner.Text

/-! # Bytes that may be text

Paths are bytes. `Utf8.encode` writes a text in bytes, and `Utf8.decode` reads any bytes as a text:
whatever is no UTF-8 appears as replacement characters, one for each beginning of a character that
breaks off and one for each byte that begins no character. -/

namespace TypeInliner

abbrev Bytes := List UInt8

namespace Utf8

def encode (t : Text) : Bytes := t.flatMap String.utf8EncodeChar

def ofString (s : String) : Bytes := encode s.toList

/-- What stands for bytes that are no text. -/
def replacement : Char := '\uFFFD'

/-- The bits read so far together with those of the next byte. -/
def extended (value byte : Nat) : Nat := value * 64 + (byte - 0x80)

/-- How many values the bits of a number of bytes behind the first can have. -/
def tailCount : Nat → Nat
  | 0 => 1
  | missing + 1 => tailCount missing * 64

/-- A character of which some bytes have not been read. -/
structure Pending where
  /-- The bits read so far. -/
  value : Nat
  /-- How many bytes are missing behind the next one. -/
  missing : Nat
  /-- The bounds of the next byte. -/
  least : Nat
  greatest : Nat
  isTail : 0x80 ≤ least
  /-- Within the bounds, all missing bytes lead to a character, and to none with a shorter form. -/
  isChar : ∀ byte bits, least ≤ byte → byte ≤ greatest → bits < tailCount missing →
    0x80 ≤ extended value byte * tailCount missing + bits ∧
      (extended value byte * tailCount missing + bits).isValidChar

/-- What the first of two bytes begins. -/
def Pending.two (byte : Nat) (h : 0xC2 ≤ byte ∧ byte ≤ 0xDF) : Pending where
  value := byte - 0xC0
  missing := 0
  least := 0x80
  greatest := 0xBF
  isTail := Nat.le_refl _
  isChar := by
    unfold extended tailCount Nat.isValidChar
    omega

/-- What the first of three bytes begins. -/
def Pending.three (byte : Nat) (h : 0xE0 ≤ byte ∧ byte ≤ 0xEF) : Pending where
  value := byte - 0xE0
  missing := 1
  least := if byte = 0xE0 then 0xA0 else 0x80
  greatest := if byte = 0xED then 0x9F else 0xBF
  isTail := by split <;> omega
  isChar := by
    have htail : tailCount 1 = 64 := rfl
    unfold extended Nat.isValidChar
    rw [htail]
    split <;> split <;> omega

/-- What the first of four bytes begins. -/
def Pending.four (byte : Nat) (h : 0xF0 ≤ byte ∧ byte ≤ 0xF4) : Pending where
  value := byte - 0xF0
  missing := 2
  least := if byte = 0xF0 then 0x90 else 0x80
  greatest := if byte = 0xF4 then 0x8F else 0xBF
  isTail := by split <;> omega
  isChar := by
    have htail : tailCount 2 = 64 * 64 := rfl
    unfold extended Nat.isValidChar
    rw [htail]
    split <;> split <;> omega

/-- The character that a byte begins, if it is the first byte of several. -/
def pending? (byte : Nat) : Option Pending :=
  if h : 0xC2 ≤ byte ∧ byte ≤ 0xDF then some (.two byte h)
  else if h : 0xE0 ≤ byte ∧ byte ≤ 0xEF then some (.three byte h)
  else if h : 0xF0 ≤ byte ∧ byte ≤ 0xF4 then some (.four byte h)
  else none

/-- One more byte keeps to the bounds of what has been read. -/
theorem Pending.isChar_extended (p : Pending) {missing byte : Nat}
    (hmissing : p.missing = missing + 1) (hleast : p.least ≤ byte)
    (hgreatest : byte ≤ p.greatest) (next bits : Nat)
    (hnext : next ≤ 0xBF) (hbits : bits < tailCount missing) :
    0x80 ≤ extended (extended p.value byte) next * tailCount missing + bits ∧
      (extended (extended p.value byte) next * tailCount missing + bits).isValidChar := by
  have hchar := p.isChar byte ((next - 0x80) * tailCount missing + bits) hleast hgreatest
  rw [hmissing, tailCount] at hchar
  generalize tailCount missing = power at hbits hchar ⊢
  generalize extended p.value byte = value at hchar ⊢
  have hnumber : extended value next * power + bits =
      value * (power * 64) + ((next - 0x80) * power + bits) := by
    unfold extended
    rw [Nat.add_mul, Nat.mul_assoc, Nat.mul_comm 64, Nat.add_assoc]
  have hmore := Nat.mul_le_mul_right power (show next - 0x80 ≤ 63 by omega)
  rw [hnumber]
  exact hchar (by omega)

/-- What is read at a byte between two characters, and what is pending behind it. -/
def readBetween (byte : Nat) : Text × Option Pending :=
  if byte < 0x80 then ([Char.ofNat byte], none)
  else
    match pending? byte with
    | some p => ([], some p)
    | none => ([replacement], none)

/-- What is read at a byte inside a character, and what is pending behind it. A byte that the
character cannot go on with breaks it off. -/
def readWithin (p : Pending) (byte : Nat) : Text × Option Pending :=
  if h : p.least ≤ byte ∧ byte ≤ p.greatest then
    match hmissing : p.missing with
    | 0 => ([Char.ofNat (extended p.value byte)], none)
    | missing + 1 =>
      ([], some ⟨extended p.value byte, missing, 0x80, 0xBF, Nat.le_refl _,
        fun next bits _ => p.isChar_extended hmissing h.1 h.2 next bits⟩)
  else (replacement :: (readBetween byte).1, (readBetween byte).2)

def read : Option Pending → Nat → Text × Option Pending
  | none, byte => readBetween byte
  | some p, byte => readWithin p byte

/-- The text of bytes behind a character of which some bytes have been read. -/
def decodeFrom : Option Pending → Bytes → Text
  | state, [] => if state.isSome then [replacement] else []
  | state, byte :: rest =>
    (read state byte.toNat).1 ++ decodeFrom (read state byte.toNat).2 rest

/-- The text of bytes, with replacement characters for what is no text. -/
def decode (bytes : Bytes) : Text := decodeFrom none bytes

/-- The text of bytes that are nothing but text. -/
def text? (bytes : Bytes) : Option Text :=
  if encode (decode bytes) = bytes then some (decode bytes) else none

end Utf8

end TypeInliner
