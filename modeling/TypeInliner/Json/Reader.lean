import TypeInliner.Json

/-! # Reading JSON texts

`Json.Raw.ofText?` reads a text that holds one JSON value and nothing else. The grammar is strict:
no comments, no trailing commas, no control characters in strings, no leading zeros. -/

namespace TypeInliner.Json

def isBlank (c : Char) : Bool := c = ' ' || c = '\n' || c = '\t' || c = '\r'

def skipBlanks (t : Text) : Text := t.dropWhile isBlank

def hexValue? (c : Char) : Option Nat :=
  if '0' ≤ c && c ≤ '9' then some (c.toNat - '0'.toNat)
  else if 'a' ≤ c && c ≤ 'f' then some (c.toNat - 'a'.toNat + 10)
  else if 'A' ≤ c && c ≤ 'F' then some (c.toNat - 'A'.toNat + 10)
  else none

def hexValues? (a b c d : Char) : Option Nat := do
  return (((← hexValue? a) * 16 + (← hexValue? b)) * 16 + (← hexValue? c)) * 16 + (← hexValue? d)

/-- The character behind a backslash that stands for one character. -/
def shortEscape? : Char → Option Char
  | '\x22' => some '\x22'
  | '\\' => some '\\'
  | '/' => some '/'
  | 'b' => some '\x08'
  | 'f' => some '\x0c'
  | 'n' => some '\n'
  | 'r' => some '\r'
  | 't' => some '\t'
  | _ => none

/-- The code points and surrogates of a string behind its opening quote, and what follows the
closing quote. -/
def stringUnits? : Text → Option (List Nat × Text)
  | [] => none
  | '\x22' :: t => some ([], t)
  | '\\' :: 'u' :: a :: b :: c :: d :: t => do
    let unit ← hexValues? a b c d
    let (units, rest) ← stringUnits? t
    return (unit :: units, rest)
  | '\\' :: c :: t => do
    let c ← shortEscape? c
    let (units, rest) ← stringUnits? t
    return (c.toNat :: units, rest)
  | c :: t =>
    if c = '\\' ∨ c.toNat < 0x20 then none
    else do
      let (units, rest) ← stringUnits? t
      return (c.toNat :: units, rest)

def isHighSurrogate (n : Nat) : Bool := 0xd800 ≤ n && n ≤ 0xdbff

def isLowSurrogate (n : Nat) : Bool := 0xdc00 ≤ n && n ≤ 0xdfff

/-- The text of code points in which surrogates stand in pairs. -/
def composeUnits? : List Nat → Option Text
  | [] => some []
  | [n] => if isHighSurrogate n || isLowSurrogate n then none else some [Char.ofNat n]
  | n :: m :: rest =>
    if isLowSurrogate n then none
    else if isHighSurrogate n then
      if isLowSurrogate m then
        (composeUnits? rest).map (Char.ofNat (0x10000 + (n - 0xd800) * 0x400 + (m - 0xdc00)) :: ·)
      else none
    else (composeUnits? (m :: rest)).map (Char.ofNat n :: ·)

def string? (t : Text) : Option (Option Text × Text) :=
  (stringUnits? t).map fun (units, rest) => (composeUnits? units, rest)

def digits? (t : Text) : Option (Text × Text) :=
  match t.takeWhile isDigit with
  | [] => none
  | digits => some (digits, t.dropWhile isDigit)

/-- Reads the whole part of a number, in which a zero stands alone. -/
def whole? : Text → Option (Text × Text)
  | '0' :: t => some (['0'], t)
  | t => digits? t

def fraction? : Text → Option (Text × Text)
  | '.' :: t => (digits? t).map fun (digits, rest) => ('.' :: digits, rest)
  | t => some ([], t)

def exponent? : Text → Option (Text × Text)
  | [] => some ([], [])
  | c :: t =>
    if c = 'e' ∨ c = 'E' then
      match t with
      | '+' :: t => (digits? t).map fun (digits, rest) => (c :: '+' :: digits, rest)
      | '-' :: t => (digits? t).map fun (digits, rest) => (c :: '-' :: digits, rest)
      | t => (digits? t).map fun (digits, rest) => (c :: digits, rest)
    else some ([], c :: t)

/-- Reads a number and answers it as it is written. -/
def number? (t : Text) : Option (Text × Text) := do
  let sign : Text := if t.head? = some '-' then ['-'] else []
  let (whole, t) ← whole? (t.drop sign.length)
  let (fraction, t) ← fraction? t
  let (exponent, t) ← exponent? t
  return (sign ++ whole ++ fraction ++ exponent, t)

/-- Reads a word that stands for a value, or else a number. -/
def scalar? (t : Text) : Option (Raw × Text) :=
  match "null".toList.isPrefixOf? t, "true".toList.isPrefixOf? t, "false".toList.isPrefixOf? t with
  | some rest, _, _ => some (.null, rest)
  | _, some rest, _ => some (.bool true, rest)
  | _, _, some rest => some (.bool false, rest)
  | none, none, none => (number? t).map fun (literal, rest) => (.number literal, rest)

mutual

/-- Reads a value. The first argument bounds the number of steps; the length of the text is
enough. -/
def read? : Nat → Text → Option (Raw × Text)
  | 0, _ => none
  | steps + 1, t =>
    match skipBlanks t with
    | '[' :: t =>
      match skipBlanks t with
      | ']' :: rest => some (.array [], rest)
      | t => (readItems? steps t).map fun (items, rest) => (.array items, rest)
    | '\x7b' :: t =>
      match skipBlanks t with
      | '\x7d' :: rest => some (.object [], rest)
      | t => (readMembers? steps t).map fun (members, rest) => (.object members, rest)
    | '\x22' :: t => (string? t).map fun (text, rest) => (.string text, rest)
    | t => scalar? t

/-- Reads the items of an array, of which there is at least one, and the closing bracket. -/
def readItems? : Nat → Text → Option (List Raw × Text)
  | 0, _ => none
  | steps + 1, t => do
    let (first, t) ← read? steps t
    match skipBlanks t with
    | ']' :: rest => return ([first], rest)
    | ',' :: t =>
      let (others, rest) ← readItems? steps t
      return (first :: others, rest)
    | _ => none

/-- Reads the members of an object, of which there is at least one, and the closing brace. -/
def readMembers? : Nat → Text → Option (List (Option Text × Raw) × Text)
  | 0, _ => none
  | steps + 1, t =>
    match skipBlanks t with
    | '\x22' :: t => do
      let (key, t) ← string? t
      match skipBlanks t with
      | ':' :: t =>
        let (first, t) ← read? steps t
        match skipBlanks t with
        | '\x7d' :: rest => return ([(key, first)], rest)
        | ',' :: t =>
          let (others, rest) ← readMembers? steps t
          return ((key, first) :: others, rest)
        | _ => none
      | _ => none
    | _ => none

end

/-- Reads a text that holds one JSON value and nothing else but blanks. -/
def Raw.ofText? (t : Text) : Option Raw :=
  match read? (t.length + 1) t with
  | some (raw, rest) => if skipBlanks rest = [] then some raw else none
  | none => none

end TypeInliner.Json
