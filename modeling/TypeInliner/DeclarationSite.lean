import TypeInliner.Token

/-! # Where types are declared

`Site.ofOccurrences` finds the type aliases and interfaces at the top level of a source. A site
keeps all tokens of the declaration and, apart from them, the tokens of the parts that describe its
type. -/

namespace TypeInliner

/-- A token of a source together with what its neighbours say about it. -/
structure Occurrence where
  token : Token
  /-- Whether the token is an identifier that stands alone, neither part of a qualified name nor the
  key of a property. -/
  free : Bool
  deriving DecidableEq, Repr

namespace Occurrence

def kind (o : Occurrence) : Kind := o.token.kind

def headKind : List Occurrence → Kind
  | [] => .ending
  | o :: _ => o.kind

/-- Whether a token stands alone, given the kind of the token before it and the tokens behind it. -/
def isFree (before : Option Kind) (t : Token) (rest : List Token) : Bool :=
  t.kind = .identifier && before ≠ some .dot && Token.headKind rest ≠ .dot &&
    Token.headKind rest ≠ .colon &&
    !(Token.headKind rest = .question && Token.headKind (rest.drop 1) = .colon)

/-- The occurrences of tokens that stand behind a token of a given kind. -/
def ofTokensAfter (before : Option Kind) : List Token → List Occurrence
  | [] => []
  | t :: rest => ⟨t, isFree before t rest⟩ :: ofTokensAfter (some t.kind) rest

def ofTokens (tokens : List Token) : List Occurrence := ofTokensAfter none tokens

end Occurrence

/-- The number of open brackets behind a token. Angle brackets count only where types are written;
a closing bracket without an opening one is ignored. -/
def nesting (angles : Bool) (depth : Nat) : Kind → Nat
  | .leftParen | .leftBracket | .leftBrace => depth + 1
  | .rightParen | .rightBracket | .rightBrace => depth - 1
  | .less => if angles then depth + 1 else depth
  | .greater => if angles then depth - 1 else depth
  | _ => depth

/-- The parts of a declaration that describe its type. -/
inductive SiteBody
  /-- The type behind the equals sign of an alias. -/
  | alias (type : List Occurrence)
  /-- What follows `extends`, and what stands between the braces. -/
  | interface (bases members : List Occurrence)

/-- A declaration at the top level of a source. -/
structure Site where
  name : Text
  /-- All tokens of the declaration, from its first modifier on. -/
  occurrences : List Occurrence
  body : SiteBody

namespace Site

open Occurrence

/-- Number of occurrences of the modifiers that a declaration begins with. -/
def modifierCount : List Occurrence → Nat
  | [] => 0
  | o :: rest =>
    if o.kind = .keyword .exportWord then
      if headKind rest = .keyword .declareWord then 2 else 1
    else if o.kind = .keyword .declareWord then 1
    else 0

/-- Number of occurrences up to the bracket that closes the open ones, angle brackets counted. -/
def nestedSize : Nat → List Occurrence → Nat
  | _, [] => 0
  | depth, o :: rest =>
    if o.kind = .ending then 0
    else if nesting true depth o.kind = 0 then 1
    else 1 + nestedSize (nesting true depth o.kind) rest

/-- Number of occurrences of the type parameters, if there are any. -/
def parametersSize (os : List Occurrence) : Nat :=
  if headKind os = .less then nestedSize 0 os else 0

/-- Whether a statement begins with an occurrence, which stands at the beginning of a line. -/
def opensStatement (o : Occurrence) (rest : List Occurrence) : Bool :=
  match o.kind with
  | .keyword .exportWord | .keyword .importWord | .keyword .declareWord => true
  | .keyword .constWord | .keyword .letWord | .keyword .varWord | .keyword .functionWord
  | .keyword .classWord | .keyword .enumWord => true
  | .keyword .typeWord | .keyword .interfaceWord | .keyword .namespaceWord
  | .keyword .abstractWord => (headKind rest).isName
  | _ => false

def isClosing (kind : Kind) : Bool :=
  kind = .rightParen || kind = .rightBracket || kind = .rightBrace

/-- The type of an alias, with the semicolon behind it. It ends at a semicolon outside of brackets,
before the next statement on a new line, or before the bracket that closes the block around it. -/
def aliasType (first : Bool) : Nat → List Occurrence → List Occurrence
  | _, [] => []
  | depth, o :: rest =>
    if o.kind = .ending then []
    else if depth = 0 ∧ o.kind = .semicolon then [o]
    else if depth = 0 ∧ isClosing o.kind then []
    else if depth = 0 ∧ ¬ first ∧ o.token.newline ∧ opensStatement o rest then []
    else o :: aliasType false (nesting false depth o.kind) rest

def dropSemicolon (os : List Occurrence) : List Occurrence :=
  match os.getLast? with
  | some o => if o.kind = .semicolon then os.dropLast else os
  | none => os

/-- The head of an interface up to its opening brace, and what follows the brace. -/
def interfaceHead? : Nat → List Occurrence → Option (List Occurrence × List Occurrence)
  | _, [] => none
  | depth, o :: rest =>
    if o.kind = .ending then none
    else if depth = 0 ∧ o.kind = .leftBrace then some ([], rest)
    else (interfaceHead? (nesting true depth o.kind) rest).map fun (head, rest) => (o :: head, rest)

/-- What follows the first `extends` outside of brackets. -/
def afterExtends : Nat → List Occurrence → List Occurrence
  | _, [] => []
  | depth, o :: rest =>
    if depth = 0 ∧ o.kind = .keyword .extendsWord then rest
    else afterExtends (nesting true depth o.kind) rest

/-- What stands in front of the brace that closes a block, inside a number of further braces. -/
def block? : Nat → List Occurrence → Option (List Occurrence)
  | _, [] => none
  | depth, o :: rest =>
    if o.kind = .ending then none
    else if depth = 0 ∧ o.kind = .rightBrace then some []
    else
      let inner :=
        if o.kind = .leftBrace then depth + 1
        else if o.kind = .rightBrace then depth - 1
        else depth
      (block? inner rest).map (o :: ·)

/-- The declaration that begins with the first of some occurrences. -/
def ofFront? (os : List Occurrence) : Option Site :=
  match os.drop (modifierCount os) with
  | keyword :: name :: rest =>
    -- The modifiers, the keyword, the name and the type parameters.
    let headSize := modifierCount os + 2 + parametersSize rest
    if ¬ name.kind.isName then none
    else if keyword.kind = .keyword .typeWord then
      match rest.drop (parametersSize rest) with
      | sign :: rest =>
        if sign.kind = .equals then
          let type := aliasType true 0 rest
          some ⟨name.token.value, os.take (headSize + 1 + type.length), .alias (dropSemicolon type)⟩
        else none
      | [] => none
    else if keyword.kind = .keyword .interfaceWord then do
      let (head, rest) ← interfaceHead? 0 (rest.drop (parametersSize rest))
      let members ← block? 0 rest
      return ⟨name.token.value, os.take (headSize + head.length + 1 + members.length + 1),
        .interface (afterExtends 0 head) members⟩
    else none
  | _ => none

/-- The declarations among occurrences that stand behind a token of a given kind, inside a number of
open brackets. -/
def collect (before : Option Kind) (depth : Nat) : List Occurrence → List Site
  | [] => []
  | o :: rest =>
    let found := if depth = 0 ∧ o.token.startsStatement before then ofFront? (o :: rest) else none
    match found with
    | some site =>
      site :: collect ((site.occurrences.getLast?).map Occurrence.kind) 0
        (rest.drop (site.occurrences.length - 1))
    | none => collect (some o.kind) (nesting false depth o.kind) rest
termination_by os => os.length
decreasing_by all_goals simp only [List.length_drop, List.length_cons]; omega

def ofOccurrences (os : List Occurrence) : List Site := collect none 0 os

/-- The declaration exactly as it is written. -/
def text (site : Site) : Text := Token.joined (site.occurrences.map Occurrence.token)

end Site

end TypeInliner
