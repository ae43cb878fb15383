import TypeInliner.Json

/-! # Writing JSON texts

`Json.pretty` writes a value over several lines, two blanks deeper for each array and object around
a part. -/

namespace TypeInliner.Json

def hexDigit (n : Nat) : Char := if n < 10 then Char.ofNat (0x30 + n) else Char.ofNat (0x57 + n)

/-- A character inside a string. Only quotes, backslashes and control characters are escaped. -/
def escape (c : Char) : Text :=
  if c = '\x22' then ['\\', '\x22']
  else if c = '\\' then ['\\', '\\']
  else if c = '\n' then ['\\', 'n']
  else if c = '\r' then ['\\', 'r']
  else if c = '\t' then ['\\', 't']
  else if c = '\x08' then ['\\', 'b']
  else if c = '\x0c' then ['\\', 'f']
  else if c.toNat < 0x20 then
    ['\\', 'u', '0', '0', hexDigit (c.toNat / 16), hexDigit (c.toNat % 16)]
  else [c]

def quote (t : Text) : Text := '\x22' :: (t.map escape).flatten ++ ['\x22']

/-- A line break and the blanks in front of a part at a depth. -/
def lineBreak (depth : Nat) : Text := '\n' :: List.replicate (2 * depth) ' '

mutual

/-- A value at a depth, over several lines. -/
def prettyAt (depth : Nat) : Json → Text
  | .null => "null".toList
  | .bool true => "true".toList
  | .bool false => "false".toList
  | .number literal => literal
  | .string t => quote t
  | .array [] => "[]".toList
  | .array (item :: items) =>
    '[' :: lineBreak (depth + 1) ++ prettyAt (depth + 1) item ++
      prettyItems (depth + 1) items ++ lineBreak depth ++ [']']
  | .object [] => ['\x7b', '\x7d']
  | .object ((key, value) :: members) =>
    '\x7b' :: lineBreak (depth + 1) ++ quote key ++ ": ".toList ++ prettyAt (depth + 1) value ++
      prettyMembers (depth + 1) members ++ lineBreak depth ++ ['\x7d']

def prettyItems (depth : Nat) : List Json → Text
  | [] => []
  | item :: items => ',' :: lineBreak depth ++ prettyAt depth item ++ prettyItems depth items

def prettyMembers (depth : Nat) : List (Text × Json) → Text
  | [] => []
  | (key, value) :: members =>
    ',' :: lineBreak depth ++ quote key ++ ": ".toList ++ prettyAt depth value ++
      prettyMembers depth members

end

def pretty (value : Json) : Text := prettyAt 0 value

end TypeInliner.Json
