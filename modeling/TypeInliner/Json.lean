import TypeInliner.Table
import TypeInliner.Text

/-! # JSON values

A JSON text is first read as it is written (`Json.Raw`) and then judged: only a text whose strings
are well formed, whose numbers fit a double and whose nesting is not too deep has a value (`Json`).
Parts of a text that nobody asks for are never judged. -/

namespace TypeInliner

inductive Json
  | null
  | bool (b : Bool)
  /-- A number as it is written. -/
  | number (literal : Text)
  | string (t : Text)
  | array (items : List Json)
  /-- An object with its members in the order in which their keys appear first. -/
  | object (members : List (Text × Json))

namespace Json

/-- JSON as it is written. A string has no text if it holds half of a surrogate pair. -/
inductive Raw
  | null
  | bool (b : Bool)
  | number (literal : Text)
  | string (t : Option Text)
  | array (items : List Raw)
  | object (members : List (Option Text × Raw))

/-! ## Numbers that fit a double -/

def digitValue (c : Char) : Nat := c.toNat - '0'.toNat

def isDigit (c : Char) : Bool := '0' ≤ c && c ≤ '9'

def decimalValue (digits : Text) : Nat := digits.foldl (fun n c => n * 10 + digitValue c) 0

/-- The largest significand that is kept exactly. -/
def significandLimit : Nat := Nat.pow 2 64 - 1

/-- Appends digits to a significand until it would exceed the limit, and counts those left out. -/
def extendSignificand : Nat → Text → Nat × Nat
  | n, [] => (n, 0)
  | n, c :: digits =>
    if n * 10 + digitValue c ≤ significandLimit then
      extendSignificand (n * 10 + digitValue c) digits
    else (n, digits.length + 1)

/-- The exponent of a number, written behind its exponent mark. -/
def exponentValue : Text → Int
  | '-' :: digits => -(decimalValue digits : Int)
  | '+' :: digits => decimalValue digits
  | digits => decimalValue digits

/-- The nearest number with 53 binary digits in front of zeros; of two nearest ones the one whose
last digit is even. -/
def roundToDouble (n : Nat) : Nat :=
  let unit := Nat.pow 2 (n.log2 + 1 - 53)
  let kept := n / unit
  let twice := 2 * (n % unit)
  if unit < twice ∨ (twice = unit ∧ kept % 2 = 1) then (kept + 1) * unit else kept * unit

/-- Numbers from here on round to infinity. -/
def doubleLimit : Nat := Nat.pow 2 1024 - Nat.pow 2 970

/-- Whether a significand times a power of ten is finite. Both factors are rounded to doubles before
they are multiplied. -/
def isFinite (significand : Nat) (exponent : Int) : Bool :=
  significand = 0 || exponent < 0 ||
    (exponent ≤ 308 &&
      roundToDouble significand * roundToDouble (Nat.pow 10 exponent.toNat) < doubleLimit)

/-- Whether a number as it is written is finite as a double. -/
def fitsDouble (literal : Text) : Bool :=
  let t := if literal.head? = some '-' then literal.drop 1 else literal
  let whole := t.takeWhile isDigit
  let t := t.dropWhile isDigit
  let fraction := if t.head? = some '.' then (t.drop 1).takeWhile isDigit else []
  let t := if t.head? = some '.' then (t.drop 1).dropWhile isDigit else t
  let (significand, left) := extendSignificand 0 whole
  let (significand, ignored) := extendSignificand significand fraction
  isFinite significand
    (exponentValue (t.drop 1) + (left : Int) - ((fraction.length - ignored : Nat) : Int))

/-! ## Values -/

/-- The largest number of arrays and objects around a value. -/
def nestingLimit : Nat := 127

mutual

/-- The value of a raw JSON that may nest a number of arrays and objects. A key that appears again
replaces the value at the place of its first appearance. -/
def Raw.value? : Nat → Raw → Option Json
  | _, .null => some .null
  | _, .bool b => some (.bool b)
  | _, .number literal => if fitsDouble literal then some (.number literal) else none
  | _, .string t => t.map .string
  | 0, .array _ => none
  | depth + 1, .array items => (itemValues? depth items).map .array
  | 0, .object _ => none
  | depth + 1, .object members =>
    (memberValues? depth members).map fun values => .object (Table.insertAll [] values)

def itemValues? : Nat → List Raw → Option (List Json)
  | _, [] => some []
  | depth, item :: rest => do
    let first ← item.value? depth
    let others ← itemValues? depth rest
    return first :: others

def memberValues? : Nat → List (Option Text × Raw) → Option (List (Text × Json))
  | _, [] => some []
  | depth, (key, item) :: rest => do
    let key ← key
    let first ← item.value? depth
    let others ← memberValues? depth rest
    return (key, first) :: others

end

/-! ## Records

A record has fields of given names. It is written as an object, whose other members are ignored, or
as an array of the fields' values in order, from which values at the end may be left out. -/

/-- The raw value of a field; a field that is written twice is an error. -/
def field? (name : Text) (members : List (Option Text × Raw)) : Option (Option Raw) :=
  match members.filter (·.1 = some name) with
  | [] => some none
  | [member] => some (some member.2)
  | _ => none

/-- The raw values of the fields of a record, none for a field that is not written. -/
def Raw.fields? (names : List Text) : Raw → Option (List (Option Raw))
  | .object members =>
    if members.all (·.1.isSome) then names.mapM (field? · members) else none
  | .array items =>
    if items.length ≤ names.length then
      some ((items.map some) ++ List.replicate (names.length - items.length) none)
    else none
  | _ => none

def Raw.text? : Raw → Option Text
  | .string t => t
  | _ => none

def Raw.bool? : Raw → Option Bool
  | .bool b => some b
  | _ => none

/-- The table of an object whose values are strings. -/
def Raw.textTable? : Raw → Option (Table Text Text)
  | .object members => do
    let entries ← members.mapM fun (key, item) => do return (← key, ← item.text?)
    return Table.insertAll [] entries
  | _ => none

/-- A field with a default for when it is not written. -/
def Raw.orDefault {α : Type} (default : α) (read : Raw → Option α) : Option Raw → Option α
  | none => some default
  | some raw => read raw

/-- A field that may be null or left out. -/
def Raw.nullable? {α : Type} (read : Raw → Option α) : Option Raw → Option (Option α)
  | none => some none
  | some .null => some none
  | some raw => (read raw).map some

end Json

end TypeInliner
