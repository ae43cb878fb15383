import TypeInliner.Text.Span

/-! # Tokens

A token knows its kind, its own characters, the blanks and comments in front of it and where it
stands. The tokens of a source, each with what precedes it, make up the source. -/

namespace TypeInliner

/-- Words with a meaning of their own; all of them may also serve as names. -/
inductive Keyword
  | importWord | exportWord | fromWord | asWord | typeWord | interfaceWord | declareWord
  | defaultWord | extendsWord | typeofWord | keyofWord | constWord | letWord | varWord
  | functionWord | classWord | enumWord | namespaceWord | moduleWord | abstractWord
  deriving DecidableEq, Repr

namespace Keyword

def all : List Keyword :=
  [importWord, exportWord, fromWord, asWord, typeWord, interfaceWord, declareWord, defaultWord,
    extendsWord, typeofWord, keyofWord, constWord, letWord, varWord, functionWord, classWord,
    enumWord, namespaceWord, moduleWord, abstractWord]

def spelling : Keyword → Text
  | importWord => "import".toList
  | exportWord => "export".toList
  | fromWord => "from".toList
  | asWord => "as".toList
  | typeWord => "type".toList
  | interfaceWord => "interface".toList
  | declareWord => "declare".toList
  | defaultWord => "default".toList
  | extendsWord => "extends".toList
  | typeofWord => "typeof".toList
  | keyofWord => "keyof".toList
  | constWord => "const".toList
  | letWord => "let".toList
  | varWord => "var".toList
  | functionWord => "function".toList
  | classWord => "class".toList
  | enumWord => "enum".toList
  | namespaceWord => "namespace".toList
  | moduleWord => "module".toList
  | abstractWord => "abstract".toList

/-- The name under which messages speak of a keyword. -/
def label : Keyword → Text
  | importWord => "Import".toList
  | exportWord => "Export".toList
  | fromWord => "From".toList
  | asWord => "As".toList
  | typeWord => "Type".toList
  | interfaceWord => "Interface".toList
  | declareWord => "Declare".toList
  | defaultWord => "Default".toList
  | extendsWord => "Extends".toList
  | typeofWord => "Typeof".toList
  | keyofWord => "Keyof".toList
  | constWord => "Const".toList
  | letWord => "Let".toList
  | varWord => "Var".toList
  | functionWord => "Function".toList
  | classWord => "Class".toList
  | enumWord => "Enum".toList
  | namespaceWord => "Namespace".toList
  | moduleWord => "Module".toList
  | abstractWord => "Abstract".toList

def ofText? (word : Text) : Option Keyword := all.find? (·.spelling = word)

theorem spelling_of_ofText? {word : Text} {k : Keyword} (h : ofText? word = some k) :
    k.spelling = word := by
  simpa using List.find?_some h

theorem ofText?_spelling (k : Keyword) : ofText? k.spelling = some k := by cases k <;> decide

end Keyword

/-- Kinds of tokens. Operators that play no part in the structure of declarations share one kind. -/
inductive Kind
  | keyword (word : Keyword)
  | string | template | number | identifier
  | leftParen | rightParen | leftBrace | rightBrace | leftBracket | rightBracket
  | less | greater | semicolon | comma | dot | ellipsis | colon | question | star
  | equals | arrow | bar | ampersand | atSign | operator
  | ending
  /-- Characters that form no token; the token's value says why. -/
  | malformed
  deriving DecidableEq, Repr

namespace Kind

/-- The name under which messages speak of a kind. -/
def label : Kind → Text
  | keyword word => word.label
  | string => "StringLiteral".toList
  | template => "TemplateLiteral".toList
  | number => "NumberLiteral".toList
  | identifier => "Identifier".toList
  | leftParen => "LParen".toList
  | rightParen => "RParen".toList
  | leftBrace => "LBrace".toList
  | rightBrace => "RBrace".toList
  | leftBracket => "LBracket".toList
  | rightBracket => "RBracket".toList
  | less => "Lt".toList
  | greater => "Gt".toList
  | semicolon => "Semicolon".toList
  | comma => "Comma".toList
  | dot => "Dot".toList
  | ellipsis => "DotDotDot".toList
  | colon => "Colon".toList
  | question => "Question".toList
  | star => "Star".toList
  | equals => "Eq".toList
  | arrow => "FatArrow".toList
  | bar => "Pipe".toList
  | ampersand => "Amp".toList
  | atSign => "At".toList
  | operator => "Punct".toList
  | ending => "Eof".toList
  | malformed => "Error".toList

def isKeyword : Kind → Bool
  | keyword _ => true
  | _ => false

/-- Whether a token of this kind can name something: an identifier or any keyword. -/
def isName (kind : Kind) : Bool := kind = identifier || kind.isKeyword

end Kind

structure Token where
  kind : Kind
  /-- The blanks and comments between the previous token and this one. -/
  gap : Text
  /-- The characters of the token itself. -/
  text : Text
  /-- What a literal stands for; the message of a malformed token; else the token's characters. -/
  value : Text
  /-- Whether a line ends before the token, or inside it if it is an unfinished comment. -/
  newline : Bool
  /-- Offset of the token's first byte in the source. -/
  start : Nat
  deriving DecidableEq, Repr

namespace Token

def stop (t : Token) : Nat := t.start + Text.bytes t.text

def span (t : Token) : Span := ⟨t.start, t.stop⟩

/-- The characters a token takes in the source together with those in front of it. -/
def source (t : Token) : Text := t.gap ++ t.text

/-- The end of an empty source, which stands for the current token where there is none. -/
def nowhere : Token := ⟨.ending, [], [], [], false, 0⟩

def headKind (tokens : List Token) : Kind := (tokens.headD nowhere).kind

/-- Whether a statement can begin at a token, given the kind of the token before it: at the
beginning of the source, on a new line, or behind a semicolon or a closing brace. -/
def startsStatement (before : Option Kind) (t : Token) : Bool :=
  match before with
  | none => true
  | some kind => t.newline || kind = .semicolon || kind = .rightBrace

/-- The source text from the first to the last token of a list, without what precedes the first. -/
def joined : List Token → Text
  | [] => []
  | t :: rest => t.text ++ (rest.map source).flatten

end Token

end TypeInliner
