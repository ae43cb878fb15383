import TypeInliner.Import.Parser

/-! # Finding the import statements of a source

`ImportStatement.pieces` divides the tokens of a source into import statements and other tokens.
A statement that cannot be read is reported as well, with the error in place of the description. -/

namespace TypeInliner

/-- One import statement of a source. -/
structure ImportStatement where
  /-- The token of the keyword `import`. -/
  first : Token
  /-- The tokens behind the keyword, including a semicolon at the end. -/
  others : List Token
  outcome : Except ParseError ImportSpec

namespace ImportStatement

def tokens (s : ImportStatement) : List Token := s.first :: s.others

/-- The range from the keyword to the last token. -/
def span (s : ImportStatement) : Span := s.first.span.merge (s.others.getLastD s.first).span

def text (s : ImportStatement) : Text := Token.joined s.tokens

/-- Whether an import statement begins with a token. Calls of `import` and accesses to its members
are expressions. -/
def starts (before : Option Kind) (t : Token) (rest : List Token) : Bool :=
  t.kind = .keyword .importWord && Token.headKind rest ≠ .leftParen && Token.headKind rest ≠ .dot &&
    t.startsStatement before

/-- Number of tokens behind the keyword that belong to a statement which cannot be read: up to its
module specifier or a semicolon, or up to a line break outside of brackets. -/
def unreadSize : Nat → List Token → Nat
  | _, [] => 0
  | depth, t :: rest =>
    match t.kind with
    | .ending => 0
    | .leftBrace | .leftParen | .leftBracket => 1 + unreadSize (depth + 1) rest
    | .rightBrace | .rightParen | .rightBracket => 1 + unreadSize (depth - 1) rest
    | kind =>
      if depth = 0 then
        if kind = .semicolon then 1
        else if kind = .string then if Token.headKind rest = .semicolon then 2 else 1
        else if t.newline ∧ kind ≠ .keyword .fromWord then 0
        else 1 + unreadSize depth rest
      else 1 + unreadSize depth rest

/-- Number of tokens behind the keyword that a statement takes, and its description. -/
def extent (first : Token) (rest : List Token) : Nat × Except ParseError ImportSpec :=
  match ImportSpec.statement (first :: rest) with
  | .ok (spec, behind) => (rest.length - behind.length, .ok spec)
  | .error e => (unreadSize 0 rest, .error e)

/-- A part of a source: an import statement or a token outside of all of them. -/
inductive Piece
  | other (token : Token)
  | statement (s : ImportStatement)

/-- Divides tokens that stand behind a token of a given kind. -/
def piecesAfter (before : Option Kind) : List Token → List Piece
  | [] => []
  | t :: rest =>
    if starts before t rest then
      let (size, outcome) := extent t rest
      let s : ImportStatement := ⟨t, rest.take size, outcome⟩
      .statement s :: piecesAfter (some (s.others.getLastD t).kind) (rest.drop size)
    else .other t :: piecesAfter (some t.kind) rest
termination_by tokens => tokens.length
decreasing_by all_goals simp only [List.length_drop, List.length_cons]; omega

/-- The pieces of a source in their order, given its tokens. -/
def pieces (tokens : List Token) : List Piece := piecesAfter none tokens

def Piece.statement? : Piece → Option ImportStatement
  | other _ => none
  | statement s => some s

/-- The import statements of a source in their order, given its tokens. -/
def ofTokens (tokens : List Token) : List ImportStatement :=
  (pieces tokens).filterMap Piece.statement?

def ofText (source : Text) : List ImportStatement := ofTokens (Token.ofText source)

/-- The text of pieces without their statements; one line feed right behind a statement goes with
it. -/
def remainderAfter (behindStatement : Bool) : List Piece → Text
  | [] => []
  | .other t :: rest =>
    (if behindStatement then Text.dropLineFeed t.gap else t.gap) ++ t.text ++
      remainderAfter false rest
  | .statement s :: rest =>
    (if behindStatement then Text.dropLineFeed s.first.gap else s.first.gap) ++
      remainderAfter true rest

/-- The text of a source without its import statements. -/
def remainder (pieces : List Piece) : Text := remainderAfter false pieces

end ImportStatement

end TypeInliner
