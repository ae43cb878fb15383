import TypeInliner.Path
import TypeInliner.Table

/-! # Reading the arguments of a run

Arguments are bytes, because those that are paths need not be text. They are read from left to
right, on two levels: before the command's name and behind it.
Options that hold for every command may stand on both levels; then the one behind the name counts.
On each level an option stands at most once. -/

namespace TypeInliner.CommandLine

/-- The options, by what they set. -/
inductive Setting
  | root | workspaceRoot | config | nearby | verbose | path
  deriving DecidableEq, Repr

/-- How an option is written behind two dashes. -/
def Setting.word : Setting → Bytes
  | root => Utf8.ofString "root"
  | workspaceRoot => Utf8.ofString "workspace-root"
  | config => Utf8.ofString "config"
  | nearby => Utf8.ofString "nearby"
  | verbose => Utf8.ofString "verbose"
  | path => Utf8.ofString "path"

def Setting.takesValue : Setting → Bool
  | nearby | verbose => false
  | _ => true

/-- The options that hold for every command. -/
def globalSettings : List Setting := [.root, .workspaceRoot, .config, .nearby, .verbose]

inductive UsageError
  | unexpected (argument : Bytes)
  | missingValue (setting : Setting)
  | repeated (setting : Setting)
  | emptyValue
  | missingCommand
  | missingArgument
  /-- An argument that must be text is none. -/
  | notText
  deriving DecidableEq, Repr

def UsageError.message : UsageError → Text
  | unexpected argument => "unexpected argument ".toList ++ Utf8.decode argument
  | missingValue setting => "a value is required for --".toList ++ Utf8.decode setting.word
  | repeated setting =>
    "--".toList ++ Utf8.decode setting.word ++ " cannot be used multiple times".toList
  | emptyValue => "a value must not be empty".toList
  | missingCommand => "a command is required".toList
  | missingArgument => "required arguments were not provided".toList
  | notText => "invalid UTF-8 was detected in one or more arguments".toList

/-- The options of one level with their values, and the arguments that are no options. -/
structure Collected where
  settings : Table Setting Bytes
  values : List Bytes

def Collected.empty : Collected := ⟨[], []⟩

/-- How reading the arguments of one level ends. -/
inductive Ending
  | done (found : Collected)
  /-- A command's name is met. -/
  | command (found : Collected) (name : Bytes) (rest : List Bytes)
  | help
  | version

/-- What one level allows. -/
structure Level where
  settings : List Setting
  /-- How many values are expected; none where a command's name is. -/
  values : Option Nat

/-- The level before the command's name, which also tells the version. -/
def Level.isTop (level : Level) : Bool := level.values.isNone

def addSetting (found : Collected) (setting : Setting) (value : Bytes) :
    Except UsageError Collected :=
  if found.settings.contains setting then .error (.repeated setting)
  else if setting.takesValue && value.isEmpty then .error .emptyValue
  else .ok { found with settings := found.settings.insert setting value }

def addValue (level : Level) (found : Collected) (value : Bytes) : Except UsageError Collected :=
  if found.values.length < level.values.getD 0 then
    .ok { found with values := found.values ++ [value] }
  else .error (.unexpected value)

/-- The byte in front of an option. -/
abbrev dash : UInt8 := 0x2D

/-- Reads a group of one-letter options behind a dash. -/
def shortOptions (level : Level) (found : Collected) : Bytes → Except UsageError Ending
  | [] => .ok (.done found)
  | c :: rest =>
    if [c] = Utf8.ofString "v" then
      match addSetting found .verbose [] with
      | .ok found => shortOptions level found rest
      | .error e => .error e
    else if [c] = Utf8.ofString "h" then .ok .help
    else if [c] = Utf8.ofString "V" ∧ level.isTop then .ok .version
    else .error (.unexpected (dash :: c :: rest))

/-- The byte between an option and its value. -/
abbrev equalsSign : UInt8 := 0x3D

/-- An option as it is written: its word, and a value behind an equals sign. -/
def splitOption (body : Bytes) : Bytes × Option Bytes :=
  let word := body.takeWhile (· ≠ equalsSign)
  match body.drop word.length with
  | [] => (word, none)
  | _ :: value => (word, some value)

/-- What an argument is by its dashes. -/
inductive Form
  /-- Two dashes alone, behind which everything is a value. -/
  | separator
  /-- An option that is written out. -/
  | long (body : Bytes)
  /-- A group of one-letter options. -/
  | short (letters : Bytes)
  | value
  deriving DecidableEq

def Form.ofArgument : Bytes → Form
  | first :: second :: rest =>
    if first ≠ dash then value
    else if second ≠ dash then short (second :: rest)
    else if rest = [] then separator
    else long rest
  | _ => value

/-- Whether an argument can be the value of the option before it. -/
def canBeValue (argument : Bytes) : Bool := Form.ofArgument argument = .value

/-- Reads the arguments of one level. -/
def collect (level : Level) : Collected → List Bytes → Except UsageError Ending
  | found, [] => .ok (.done found)
  | found, argument :: rest =>
    match Form.ofArgument argument with
    | .separator => do return .done (← rest.foldlM (addValue level) found)
    | .long body =>
      let (word, attached) := splitOption body
      if word = Utf8.ofString "help" ∧ attached = none then .ok .help
      else if word = Utf8.ofString "version" ∧ attached = none ∧ level.isTop then .ok .version
      else
        match level.settings.find? (·.word = word) with
        | none => .error (.unexpected argument)
        | some setting =>
          if setting.takesValue then
            match attached, rest with
            | some value, rest => do collect level (← addSetting found setting value) rest
            | none, value :: rest =>
              if canBeValue value then do collect level (← addSetting found setting value) rest
              else .error (.missingValue setting)
            | none, [] => .error (.missingValue setting)
          else if attached.isSome then .error (.unexpected argument)
          else do collect level (← addSetting found setting []) rest
    | .short letters => do
      match ← shortOptions level found letters with
      | .done found => collect level found rest
      | ending => return ending
    | .value =>
      if level.isTop then .ok (.command found argument rest)
      else do collect level (← addValue level found argument) rest

inductive Command
  | file (input : Path)
  | folder (input output : Path)
  | code (path : Option Path)
  | parseImport (statement : Text)

structure Invocation where
  root : Option Path
  workspaceRoot : Option Path
  config : Option Path
  nearby : Bool
  verbose : Bool
  command : Command

inductive Request
  | run (invocation : Invocation)
  | help
  | version

/-- The commands with the places behind their names. -/
def commandLevels : Table Bytes Level :=
  [(Utf8.ofString "file", ⟨globalSettings, some 1⟩),
    (Utf8.ofString "dir", ⟨globalSettings, some 2⟩),
    (Utf8.ofString "code", ⟨globalSettings ++ [.path], some 0⟩),
    (Utf8.ofString "parse-import", ⟨globalSettings, some 1⟩)]

def pathSetting? (settings : Table Setting Bytes) (setting : Setting) : Option Path :=
  (settings.find? setting).map Path.mk

/-- A value that is a path, which must not be empty. -/
def pathValue (value : Bytes) : Except UsageError Path :=
  if value = [] then .error .emptyValue else .ok ⟨value⟩

/-- The command of a name with the values behind it. -/
def commandOf (name : Bytes) (found : Collected) : Except UsageError Command :=
  match found.values with
  | [] =>
    if name = Utf8.ofString "code" then .ok (.code (pathSetting? found.settings .path))
    else .error .missingArgument
  | [value] =>
    if name = Utf8.ofString "parse-import" then
      match Utf8.text? value with
      | some statement => .ok (.parseImport statement)
      | none => .error .notText
    else if name = Utf8.ofString "file" then (pathValue value).map .file
    else .error .missingArgument
  | input :: output :: _ => do return .folder (← pathValue input) (← pathValue output)

def commandRequest (top : Collected) (name : Bytes) (rest : List Bytes) :
    Except UsageError Request :=
  if name = Utf8.ofString "help" then
    match rest with
    | [] => .ok .help
    | [topic] =>
      if topic = Utf8.ofString "help" || commandLevels.contains topic then .ok .help
      else .error (.unexpected topic)
    | _ :: topic :: _ => .error (.unexpected topic)
  else
    match commandLevels.find? name with
    | none => .error (.unexpected name)
    | some level => do
      match ← collect level .empty rest with
      | .done found =>
        let settings := Table.insertAll top.settings found.settings
        return .run {
          root := pathSetting? settings .root
          workspaceRoot := pathSetting? settings .workspaceRoot
          config := pathSetting? settings .config
          nearby := settings.contains .nearby
          verbose := settings.contains .verbose
          command := ← commandOf name found }
      | .help => return .help
      | .version => return .version
      | .command _ name _ => throw (.unexpected name)

def request (arguments : List Bytes) : Except UsageError Request := do
  match ← collect ⟨globalSettings, none⟩ .empty arguments with
  | .done _ => throw .missingCommand
  | .command top name rest => commandRequest top name rest
  | .help => return .help
  | .version => return .version

end TypeInliner.CommandLine
