import TypeInliner.Import
import TypeInliner.Token.Lexer

/-! # Reading an import statement

A statement is read from the front of a list of tokens. Every reader answers what it read together
with the tokens behind it, or the first place at which the statement is wrong. `ImportSpec.ofText`
reads a text that holds one statement and nothing else. -/

namespace TypeInliner

/-- The token at which a statement goes wrong, as messages show it. -/
inductive Found
  | ending
  | malformed (message : Text)
  | token (value : Text)
  deriving DecidableEq, Repr

namespace Found

def ofToken (t : Token) : Found :=
  match t.kind with
  | .ending => ending
  | .malformed => malformed t.value
  | _ => token t.value

def quoted (value : Text) : Text := ['\x27'] ++ value ++ ['\x27']

def description : Found → Text
  | ending => "end of input".toList
  | malformed message => message
  | token value => quoted value

end Found

/-- What can be wrong with an import statement. -/
inductive ParseCause
  /-- The text holds characters that form no token. -/
  | malformedToken (message : Text)
  | expectedKind (kind : Kind) (found : Found)
  | expectedName (found : Found)
  | expectedBindings (value : Text)
  | trailingToken (value : Text)
  /-- The statement imports a module for its effect only. -/
  | noBindings
  /-- A default binding is followed by further bindings. -/
  | mixedBindings
  | emptyClause
  deriving DecidableEq, Repr

def ParseCause.message : ParseCause → Text
  | malformedToken message => message
  | expectedKind kind found =>
    "expected ".toList ++ kind.label ++ ", found ".toList ++ found.description
  | expectedName found => "expected identifier, found ".toList ++ found.description
  | expectedBindings value => "expected import bindings, found ".toList ++ Found.quoted value
  | trailingToken value =>
    "unexpected ".toList ++ Found.quoted value ++ " after import statement".toList
  | noBindings => "side-effect import declares no bindings".toList
  | mixedBindings => "mixing a default binding with other bindings is not supported".toList
  | emptyClause => "empty import clause declares no bindings".toList

structure ParseError where
  cause : ParseCause
  span : Span
  deriving DecidableEq, Repr

def ParseError.message (e : ParseError) : Text :=
  "Invalid import statement at ".toList ++ Text.ofNat e.span.start ++ "..".toList ++
    Text.ofNat e.span.stop ++ ": ".toList ++ e.cause.message

namespace ImportSpec

abbrev Reader (α : Type) := List Token → Except ParseError (α × List Token)

/-- The current token; behind the last one, the end. -/
def current (tokens : List Token) : Token := tokens.headD .nowhere

def errorAt (tokens : List Token) (cause : ParseCause) : ParseError :=
  ⟨cause, (current tokens).span⟩

def expect (kind : Kind) : Reader Token
  | [] => .error (errorAt [] (.expectedKind kind .ending))
  | t :: rest =>
    if t.kind = kind then .ok (t, rest)
    else .error (errorAt (t :: rest) (.expectedKind kind (.ofToken t)))

/-- Reads an identifier or a keyword that serves as a name. -/
def bindingName : Reader Text
  | [] => .error (errorAt [] (.expectedName .ending))
  | t :: rest =>
    if t.kind.isName then .ok (t.value, rest)
    else .error (errorAt (t :: rest) (.expectedName (.ofToken t)))

/-- Reads the module specifier with the keyword in front of it. -/
def fromClause : Reader Text := fun tokens => do
  let (_, tokens) ← expect (.keyword .fromWord) tokens
  let (specifier, tokens) ← expect .string tokens
  return (specifier.value, tokens)

/-- Whether the keyword `type`, given what follows it, modifies the next name. Otherwise it is the
imported name itself. -/
def modifies (following : List Token) : Bool :=
  match following with
  | [] => false
  | t :: rest =>
    if t.kind = .keyword .asWord then
      match rest with
      | [] => true
      | u :: _ => u.kind = .keyword .asWord || !u.kind.isName
    else t.kind.isName || t.kind = .string

/-- Drops the keyword `type` where it modifies an item, and says whether it did. -/
def typeModifier : List Token → Bool × List Token
  | [] => (false, [])
  | t :: rest =>
    if t.kind = .keyword .typeWord ∧ modifies rest then (true, rest) else (false, t :: rest)

/-- Reads the exported name of an item, which may be written as a string. -/
def exportedName : Reader Text
  | [] => bindingName []
  | t :: rest => if t.kind = .string then .ok (t.value, rest) else bindingName (t :: rest)

/-- Reads the new name of an item, if it gets one. -/
def newName : Reader (Option Text)
  | [] => .ok (none, [])
  | t :: rest =>
    if t.kind = .keyword .asWord then
      (bindingName rest).map fun (name, rest) => (some name, rest)
    else .ok (none, t :: rest)

/-- Reads one item of a clause that is itself marked as a type import or not. -/
def item (clauseType : Bool) : Reader NamedImport := fun tokens => do
  let (itemType, tokens) := typeModifier tokens
  let (content, tokens) ← exportedName tokens
  let (rename, tokens) ← newName tokens
  return (⟨clauseType || itemType, rename, content⟩, tokens)

theorem bindingName_length {tokens rest : List Token} {name : Text}
    (h : bindingName tokens = .ok (name, rest)) : rest.length < tokens.length := by
  cases tokens with
  | nil => simp [bindingName] at h
  | cons t tokens =>
    rw [bindingName] at h
    split at h
    · cases h; simp
    · simp at h

theorem exportedName_length {tokens rest : List Token} {name : Text}
    (h : exportedName tokens = .ok (name, rest)) : rest.length < tokens.length := by
  cases tokens with
  | nil => exact bindingName_length h
  | cons t tokens =>
    rw [exportedName] at h
    split at h
    · cases h; simp
    · exact bindingName_length h

theorem newName_length {tokens rest : List Token} {name : Option Text}
    (h : newName tokens = .ok (name, rest)) : rest.length ≤ tokens.length := by
  cases tokens with
  | nil => cases h; simp
  | cons t tokens =>
    rw [newName] at h
    split at h
    · cases hb : bindingName tokens with
      | error e => simp [hb, Except.map] at h
      | ok r =>
        have : r.2.length < tokens.length := bindingName_length hb
        simp only [hb, Except.map, Except.ok.injEq, Prod.mk.injEq] at h
        rw [← h.2]; simp only [List.length_cons]; omega
    · cases h; simp

theorem typeModifier_length (tokens : List Token) :
    (typeModifier tokens).2.length ≤ tokens.length := by
  cases tokens with
  | nil => simp [typeModifier]
  | cons t tokens => rw [typeModifier]; split <;> simp

theorem item_length {clauseType : Bool} {tokens rest : List Token} {i : NamedImport}
    (h : item clauseType tokens = .ok (i, rest)) : rest.length < tokens.length := by
  have hm := typeModifier_length tokens
  simp only [item, bind, Except.bind] at h
  cases he : exportedName (typeModifier tokens).2 with
  | error e => simp [he] at h
  | ok r =>
    have h1 : r.2.length < (typeModifier tokens).2.length := exportedName_length he
    simp only [he] at h
    cases hr : newName r.2 with
    | error e => simp [hr] at h
    | ok s =>
      have h2 : s.2.length ≤ r.2.length := newName_length hr
      simp only [hr, pure, Except.pure, Except.ok.injEq, Prod.mk.injEq] at h
      rw [← h.2]; omega

/-- Reads the items of a clause behind its opening brace, up to the closing brace, which is not
read. -/
def clauseItems (clauseType : Bool) (tokens : List Token) :
    Except ParseError (List NamedImport × List Token) :=
  if (current tokens).kind = .rightBrace ∨ (current tokens).kind = .ending then .ok ([], tokens)
  else
    match _h : item clauseType tokens with
    | .error e => .error e
    | .ok (first, []) => .ok ([first], [])
    | .ok (first, t :: rest) =>
      if t.kind = .rightBrace then .ok ([first], t :: rest)
      else if t.kind = .comma then
        match clauseItems clauseType rest with
        | .error e => .error e
        | .ok (others, rest) => .ok (first :: others, rest)
      else .error (errorAt (t :: rest) (.expectedKind .comma (.ofToken t)))
termination_by tokens.length
decreasing_by
  have := item_length _h
  simp only [List.length_cons] at this
  omega

def namedClause (clauseType : Bool) : Reader (List NamedImport) := fun tokens => do
  let (opening, tokens) ← expect .leftBrace tokens
  let (items, tokens) ← clauseItems clauseType tokens
  let (closing, tokens) ← expect .rightBrace tokens
  if items.isEmpty then throw ⟨.emptyClause, opening.span.merge closing.span⟩
  return (items, tokens)

/-- Drops the keyword `type` behind `import` where it belongs to the clause, and says whether it
did. Before `from` and a comma it is the default binding itself. -/
def clauseModifier : List Token → Bool × List Token
  | [] => (false, [])
  | t :: rest =>
    if t.kind = .keyword .typeWord ∧
        ¬(Token.headKind rest = .keyword .fromWord ∨ Token.headKind rest = .comma) then
      (true, rest)
    else (false, t :: rest)

def dropSemicolon : List Token → List Token
  | [] => []
  | t :: rest => if t.kind = .semicolon then rest else t :: rest

/-- Reads the bindings and the module specifier of a statement whose keyword has a given span. -/
def bindings (keyword : Span) (clauseType : Bool) : Reader ImportSpec := fun tokens =>
  let t := current tokens
  if t.kind = .string then .error ⟨.noBindings, keyword.merge t.span⟩
  else if t.kind = .star then do
    let (_, tokens) ← expect (.keyword .asWord) (tokens.drop 1)
    let (name, tokens) ← bindingName tokens
    let (source, tokens) ← fromClause tokens
    return (.whole name source, tokens)
  else if t.kind = .leftBrace then do
    let (items, tokens) ← namedClause clauseType tokens
    let (source, tokens) ← fromClause tokens
    return (.named items source, tokens)
  else if t.kind.isName then do
    let (name, tokens) ← bindingName tokens
    if (current tokens).kind = .comma then
      throw ⟨.mixedBindings, keyword.merge (current tokens).span⟩
    let (source, tokens) ← fromClause tokens
    return (.default name source, tokens)
  else .error (errorAt tokens (.expectedBindings t.value))

/-- Reads a statement that begins with the keyword `import`, up to its module specifier. -/
def unterminated : Reader ImportSpec := fun tokens => do
  let (keyword, tokens) ← expect (.keyword .importWord) tokens
  let (clauseType, tokens) := clauseModifier tokens
  bindings keyword.span clauseType tokens

/-- Reads a statement and a semicolon behind it. -/
def statement : Reader ImportSpec := fun tokens =>
  (unterminated tokens).map fun (spec, tokens) => (spec, dropSemicolon tokens)

/-- Reads a list of tokens that holds one statement and nothing else. -/
def ofTokens (tokens : List Token) : Except ParseError ImportSpec := do
  match tokens.find? (·.kind = .malformed) with
  | some bad => throw ⟨.malformedToken bad.value, bad.span⟩
  | none =>
    let (spec, rest) ← statement tokens
    let next := current rest
    if next.kind = .ending then return spec
    throw (errorAt rest (.trailingToken next.value))

def ofText (text : Text) : Except ParseError ImportSpec := ofTokens (Token.ofText text)

end ImportSpec

end TypeInliner
