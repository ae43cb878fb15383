import TypeInliner.DeclarationSite
import TypeInliner.DeclaredType
import TypeInliner.Import.Statement
import TypeInliner.Location
import TypeInliner.Specifier

/-! # The type declarations of a source file

`SourceFile.declaration?` describes a declaration of the file; in its type texts every free name
that the file imports or declares is written as a reference marker. `SourceFile.forwards` lists the
files from which the file exports a name that it does not declare itself. -/

namespace TypeInliner

structure SourceFile where
  path : Path
  occurrences : List Occurrence
  sites : List Site
  /-- The types that local names stand for. -/
  imports : Table Text TypeReference

namespace SourceFile

/-- The types that the named imports of a source stand for, by their local names. A relative module
is written as an absolute path. -/
def importsOf (home : Place) (path : Path) (tokens : List Token) : Table Text TypeReference :=
  (ImportStatement.ofTokens tokens).foldl (fun table s =>
    match s.outcome with
    | .ok (.named items specifier) =>
      let origin :=
        if Specifier.isRelative specifier then (Path.resolveRelative home specifier path).text
        else specifier
      items.foldl (fun table item => table.insert item.localName ⟨origin, item.content⟩) table
    | _ => table) []

def ofText (home : Place) (path : Path) (source : Text) : SourceFile :=
  let tokens := Token.ofText source
  let occurrences := Occurrence.ofTokens tokens
  ⟨path, occurrences, Site.ofOccurrences occurrences, importsOf home path tokens⟩

/-- The type that an occurrence mentions, if it is a free name that the file knows. Imports come
before the file's own declarations. -/
def reference? (f : SourceFile) (o : Occurrence) : Option TypeReference :=
  if o.free then
    match f.imports.find? o.token.value with
    | some r => some r
    | none =>
      if f.sites.any (·.name = o.token.value) then some ⟨f.path.text, o.token.value⟩ else none
  else none

/-- An occurrence as a type text shows it. -/
def shown (f : SourceFile) (o : Occurrence) : Text :=
  match f.reference? o with
  | some r => r.marker
  | none => o.token.text

/-- The source text of occurrences with the known names written as markers. -/
def marked (f : SourceFile) : List Occurrence → Text
  | [] => []
  | o :: rest => Text.trimBlanks (f.shown o ++ (rest.map fun o => o.token.gap ++ f.shown o).flatten)

def consFirst {α : Type} (a : α) : List (List α) → List (List α)
  | [] => [[a]]
  | first :: others => (a :: first) :: others

/-- The parts between separators that stand outside of brackets, angle brackets counted. -/
def splitTop (isSeparator : Kind → Bool) : Nat → List Occurrence → List (List Occurrence)
  | _, [] => [[]]
  | depth, o :: rest =>
    if depth = 0 ∧ isSeparator o.kind then [] :: splitTop isSeparator 0 rest
    else consFirst o (splitTop isSeparator (nesting true depth o.kind) rest)

/-- Whether a new property can begin on a new line with a token, given the kind of the token before
it. -/
def startsMember (before kind : Kind) : Bool :=
  !(before = .bar || before = .ampersand || before = .colon || before = .arrow ||
      before = .question || before = .equals || before = .less || before = .dot) &&
    (kind.isName || kind = .string || kind = .number || kind = .leftBracket)

/-- The groups of occurrences that each write one property. A group ends at a semicolon or a comma,
or at a line break behind which a property can begin, once the group has a colon. The first argument
is the kind of the token before in the same group. -/
def memberGroups : Option Kind → Bool → Nat → List Occurrence → List (List Occurrence)
  | _, _, _, [] => [[]]
  | before, seenColon, depth, o :: rest =>
    if depth = 0 ∧ (o.kind = .semicolon ∨ o.kind = .comma) then
      [] :: memberGroups none false 0 rest
    else if depth = 0 ∧ o.token.newline ∧ seenColon ∧
        before.any (startsMember · o.kind) then
      [] :: consFirst o (memberGroups (some o.kind) false (nesting true depth o.kind) rest)
    else
      consFirst o (memberGroups (some o.kind) (seenColon || (depth = 0 && o.kind = .colon))
        (nesting true depth o.kind) rest)

/-- What stands in front of and behind the first colon outside of brackets. -/
def splitColon? : Nat → List Occurrence → Option (List Occurrence × List Occurrence)
  | _, [] => none
  | depth, o :: rest =>
    if depth = 0 ∧ o.kind = .colon then some ([], rest)
    else
      (splitColon? (nesting true depth o.kind) rest).map fun (before, behind) =>
        (o :: before, behind)

def isQuote (c : Char) : Bool := c = '\x22' || c = '\x27'

/-- The name of a property without its modifier, its question mark and its quotes. -/
def propertyName (raw : Text) : Text :=
  let name := ("readonly ".toList.isPrefixOf? raw).getD raw
  Text.trim isQuote (Text.trimBlanks (Text.trimEnd (· = '?') name))

/-- The property that a group writes, if it has a colon behind a name. -/
def property? (f : SourceFile) (group : List Occurrence) : Option Property :=
  match splitColon? 0 group with
  | some (o :: name, type) =>
    some ⟨propertyName (Token.joined ((o :: name).map Occurrence.token)), f.marked type⟩
  | _ => none

def properties (f : SourceFile) (members : List Occurrence) : List Property :=
  (memberGroups none false 0 members).filterMap f.property?

/-- Whether the bracket that closes the open ones is the last occurrence. -/
def closesAtEnd : Nat → List Occurrence → Bool
  | _, [] => false
  | depth, o :: rest =>
    if nesting false depth o.kind = 0 then rest.isEmpty
    else closesAtEnd (nesting false depth o.kind) rest

/-- What stands between two braces that enclose all occurrences. -/
def objectMembers? : List Occurrence → Option (List Occurrence)
  | [] => none
  | o :: rest => if o.kind = .leftBrace && closesAtEnd 1 rest then some rest.dropLast else none

/-- The properties and base types of an alias. Members of a union or intersection that are objects
list properties, the others are base types. -/
def aliasShape (f : SourceFile) (type : List Occurrence) : List Property × List Text :=
  let members := splitTop (fun kind => kind = .bar || kind = .ampersand) 0 type
  (members.flatMap fun member => ((objectMembers? member).map f.properties).getD [],
    members.filterMap fun member =>
      match objectMembers? member with
      | some _ => none
      | none => match f.marked member with
        | [] => none
        | text => some text)

def extended (f : SourceFile) (bases : List Occurrence) : List Text :=
  ((splitTop (· = .comma) 0 bases).map f.marked).filter (!·.isEmpty)

def shape (f : SourceFile) : SiteBody → List Property × List Text
  | .alias type => f.aliasShape type
  | .interface bases members => (f.properties members, f.extended bases)

def declaration? (f : SourceFile) (name : Text) : Option DeclaredType :=
  (f.sites.find? (·.name = name)).map fun site =>
    let (properties, bases) := f.shape site.body
    ⟨site.name, f.path, site.text, properties, bases⟩

/-! ## Names exported from other files -/

/-- What stands in front of the bracket that closes the open ones, and what follows it. -/
def untilClose? : Nat → List Occurrence → Option (List Occurrence × List Occurrence)
  | _, [] => none
  | depth, o :: rest =>
    if nesting false depth o.kind = 0 then some ([], rest)
    else
      (untilClose? (nesting false depth o.kind) rest).map fun (inside, rest) => (o :: inside, rest)

/-- Whether an item of an export clause exports a name without changing it. -/
def itemExports (name : Text) (item : List Occurrence) : Bool :=
  match (item.filter (·.kind.isName)).map (·.token.value) with
  | [n] => n = name
  | [t, n] => t = "type".toList && n = name
  | [n, a, r] => a = "as".toList && n = name && r = name
  | [t, n, a, r] => t = "type".toList && a = "as".toList && n = name && r = name
  | _ => false

def fromSpecifier? : List Occurrence → Option Text
  | o :: specifier :: _ =>
    if o.kind = .keyword .fromWord ∧ specifier.kind = .string then some specifier.token.value
    else none
  | _ => none

def dropType : List Occurrence → List Occurrence
  | [] => []
  | o :: rest => if o.kind = .keyword .typeWord then rest else o :: rest

/-- The module from which an export statement forwards a name, given what follows `export`. -/
def forwarded? (name : Text) (os : List Occurrence) : Option Text :=
  match dropType os with
  | o :: rest =>
    if o.kind = .star then fromSpecifier? rest
    else if o.kind = .leftBrace then do
      let (clause, rest) ← untilClose? 1 rest
      if (splitTop (· = .comma) 0 clause).any (itemExports name) then fromSpecifier? rest else none
    else none
  | [] => none

/-- The modules from which export statements outside of brackets forward a name, in order. -/
def forwardedFrom (name : Text) : Nat → List Occurrence → List Text
  | _, [] => []
  | depth, o :: rest =>
    let others := forwardedFrom name (nesting false depth o.kind) rest
    if depth = 0 ∧ o.kind = .keyword .exportWord then
      match forwarded? name rest with
      | some specifier => specifier :: others
      | none => others
    else others

/-- The files from which the file forwards a name. Only relative modules are followed. -/
def forwards (d : Disk) (f : SourceFile) (name : Text) : List Path :=
  ((forwardedFrom name 0 f.occurrences).filter Specifier.isRelative).map fun specifier =>
    d.locate (Path.resolveRelative d.home specifier f.path)

end SourceFile

end TypeInliner
