import TypeInliner.Token
import TypeInliner.Text.Letters

/-! # Cutting a source into tokens

`Token.ofText` cuts a text into tokens, the last of which is the ending. A token takes the
characters that `Reading.ofText` counts; blanks and comments before it are counted by `gapSize`.
What has no token form, such as an unfinished literal, becomes a malformed token, so every text can
be cut. -/

namespace TypeInliner

namespace Token

mutual

/-- Number of characters of the blanks and finished comments that a text begins with. -/
def gapSize : Text → Nat
  | [] => 0
  | '/' :: '/' :: t => 2 + lineCommentSize t
  | '/' :: '*' :: t => match blockCommentSize? t with
    | some n => 2 + n
    | none => 0
  | c :: t => if Text.isBlank c then 1 + gapSize t else 0

/-- The same, inside a comment that runs to the end of its line. -/
def lineCommentSize : Text → Nat
  | [] => 0
  | '\n' :: t => 1 + gapSize t
  | _ :: t => 1 + lineCommentSize t

/-- The same, inside a comment between marks; nothing if the closing mark is missing. -/
def blockCommentSize? : Text → Option Nat
  | [] => none
  | '*' :: '/' :: t => some (2 + gapSize t)
  | _ :: t => (blockCommentSize? t).map (1 + ·)

end

/-- Where a literal ends, counted from behind its opening mark, and what it stands for. -/
inductive LiteralBody
  | closed (size : Nat) (value : Text)
  | unclosed (size : Nat)

/-- The body with further characters in front of it. -/
def LiteralBody.grow (size : Nat) (value : Text) : LiteralBody → LiteralBody
  | closed n v => closed (size + n) (value ++ v)
  | unclosed n => unclosed (size + n)

/-- The character that a backslash in front of a character stands for in a string. -/
def unescape : Char → Char
  | 'n' => '\n'
  | 'r' => '\r'
  | 't' => '\t'
  | '0' => '\x00'
  | c => c

/-- The body of a string behind its opening quote. A line feed that no backslash protects ends the
string unfinished. -/
def stringBody (quote : Char) : Text → LiteralBody
  | [] => .unclosed 0
  | '\\' :: [] => .unclosed 1
  | '\\' :: c :: t => (stringBody quote t).grow 2 [unescape c]
  | c :: t =>
    if c = quote then .closed 1 []
    else if c = '\n' then .unclosed 0
    else (stringBody quote t).grow 1 [c]

/-- The body of a template behind its opening mark, inside a number of substitutions. -/
def templateBody : Nat → Text → LiteralBody
  | _, [] => .unclosed 0
  | _, '\\' :: [] => .unclosed 1
  | depth, '\\' :: c :: t => (templateBody depth t).grow 2 ['\\', c]
  | depth, '$' :: '\x7b' :: t => (templateBody (depth + 1) t).grow 2 ['$', '\x7b']
  | depth, c :: t =>
    if c = '\x60' ∧ depth = 0 then .closed 1 []
    else (templateBody (if c = '\x7d' then depth - 1 else depth) t).grow 1 [c]

def startsWithDigit : Text → Bool
  | [] => false
  | c :: _ => Text.isAsciiDigit c

/-- Number of characters that continue a number behind a given character. A sign belongs to the
number only behind the exponent mark, which hexadecimal numbers do not have. -/
def numberSize (hexadecimal : Bool) : Char → Text → Nat
  | _, [] => 0
  | before, c :: t =>
    if Text.isAsciiLetter c || Text.isAsciiDigit c || c = '_' ||
        ((c = '+' || c = '-') && (before = 'e' || before = 'E') && !hexadecimal) ||
        (c = '.' && startsWithDigit t) then
      1 + numberSize hexadecimal c t
    else 0

def isHexadecimal (first : Char) : Text → Bool
  | 'x' :: _ => first = '0'
  | _ => false

def continuesName (c : Char) : Bool := Text.isLetterOrNumeral c || c = '_' || c = '$'

def startsName (c : Char) : Bool :=
  Text.isLetter c || c = '_' || c = '$' || c = '#'

def continuesOperator (c : Char) : Bool :=
  c = '=' || c = '+' || c = '-' || c = '|' || c = '&' || c = '!' || c = '%' || c = '^'

def opensComment : Text → Bool
  | '/' :: '*' :: _ => true
  | _ => false

def unexpected (c : Char) : Text := "Unexpected character: ".toList ++ [c]

/-- What a text begins with that begins with no blank and no finished comment: a kind, the number
of characters behind the first one, and a value where it is not the characters themselves. -/
structure Reading where
  kind : Kind
  more : Nat
  value : Option Text

/-- A token that stands for its own characters. -/
def Reading.plain (kind : Kind) (more : Nat) : Reading := ⟨kind, more, none⟩

def Reading.literal (kind : Kind) (message : Text) : LiteralBody → Reading
  | .closed size value => ⟨kind, size, some value⟩
  | .unclosed size => ⟨.malformed, size, some message⟩

def singleKind? : Char → Option Kind
  | '(' => some .leftParen
  | ')' => some .rightParen
  | '\x7b' => some .leftBrace
  | '\x7d' => some .rightBrace
  | '[' => some .leftBracket
  | ']' => some .rightBracket
  | '<' => some .less
  | '>' => some .greater
  | ';' => some .semicolon
  | ',' => some .comma
  | ':' => some .colon
  | '?' => some .question
  | '*' => some .star
  | '@' => some .atSign
  | _ => none

def operatorReading (t : Text) : Reading := .plain .operator (t.takeWhile continuesOperator).length

/-- Whether a number begins with a character, given what follows it. -/
def opensNumber (c : Char) (t : Text) : Bool :=
  Text.isAsciiDigit c || (c = '.' && startsWithDigit t)

def numberReading (c : Char) (t : Text) : Reading :=
  .plain .number (numberSize (isHexadecimal c t) c t)

def wordReading (c : Char) (t : Text) : Reading :=
  let more := (t.takeWhile continuesName).length
  match Keyword.ofText? (c :: t.take more) with
  | some word => .plain (.keyword word) more
  | none => .plain .identifier more

/-- A word has the kind of a name and takes all characters that continue it. -/
theorem wordReading_eq_plain (c : Char) (t : Text) : ∃ kind : Kind, kind.isName = true ∧
    wordReading c t = .plain kind (t.takeWhile continuesName).length := by
  unfold wordReading
  dsimp only
  split
  · exact ⟨_, rfl, rfl⟩
  · exact ⟨_, rfl, rfl⟩

/-- Reads what begins with a dot that begins no number. -/
def dotReading (t : Text) : Reading :=
  match t with
  | '.' :: '.' :: _ => .plain .ellipsis 2
  | _ => .plain .dot 0

/-- Reads what begins with an equals sign. -/
def equalsReading (t : Text) : Reading :=
  match t with
  | '>' :: _ => .plain .arrow 1
  | '=' :: _ => operatorReading t
  | _ => .plain .equals 0

/-- Reads what begins with a bar or an ampersand, which has a kind of its own if it stands alone. -/
def jointReading (alone : Kind) (t : Text) : Reading :=
  match t with
  | '|' :: _ => operatorReading t
  | '&' :: _ => operatorReading t
  | '=' :: _ => operatorReading t
  | _ => .plain alone 0

/-- Reads the token that begins with a character and continues in a text. -/
def Reading.ofText (c : Char) (t : Text) : Reading :=
  if c = '\x22' || c = '\x27' then
    .literal .string "Unterminated string literal".toList (stringBody c t)
  else if c = '\x60' then
    .literal .template "Unterminated template literal".toList (templateBody 0 t)
  else if opensNumber c t then numberReading c t
  else if startsName c then wordReading c t
  else if c = '.' then dotReading t
  else if c = '=' then equalsReading t
  else if c = '|' || c = '&' then jointReading (if c = '|' then .bar else .ampersand) t
  else if c = '/' && t.head? = some '*' then
    ⟨.malformed, t.length, some "Unterminated multi-line comment".toList⟩
  else if c = '+' || c = '-' || c = '/' || c = '%' || c = '!' || c = '~' || c = '^' then
    operatorReading t
  else
    match singleKind? c with
    | some kind => .plain kind 0
    | none => ⟨.malformed, 0, some (unexpected c)⟩

/-- The tokens of a text that stands at an offset of the source. -/
def ofTextAt (offset : Nat) (t : Text) : List Token :=
  let size := gapSize t
  let gap := t.take size
  let start := offset + Text.bytes gap
  match _h : t.drop size with
  | [] => [⟨.ending, gap, [], [], gap.contains '\n', start⟩]
  | c :: rest =>
    let reading := Reading.ofText c rest
    let text := c :: rest.take reading.more
    let newline := gap.contains '\n' || (opensComment text && text.contains '\n')
    ⟨reading.kind, gap, text, reading.value.getD text, newline, start⟩ ::
      ofTextAt (start + Text.bytes text) (rest.drop reading.more)
termination_by t.length
decreasing_by
  have : (t.drop size).length = rest.length + 1 := by rw [_h]; rfl
  simp only [List.length_drop] at this ⊢
  omega

/-- The tokens of a source, ending with its one ending token. -/
def ofText (source : Text) : List Token := ofTextAt 0 source

end Token

end TypeInliner
