/-
  RegularLang.CommandLine.Request — what one run of the program is asked to do, read from
  its arguments.

  A setting is `--name` or `-n`; its value is the next argument, or follows `=`, or, after
  `-n`, stands right behind it. Settings without values may share one dash. An argument
  after `--` is never a setting.
-/

import RegularLang.Automaton.Edit

namespace RegularLang.CommandLine

/-! ## Settings

What a command can be told: its settings by name, which of them take a value, and the values
given so far. A setting is given at most once. -/

inductive Setting where
  | verbose
  | help
  | version
  | polish
  | file
  | alphabet
  | word
  | stage
  | letter
  | count
  deriving DecidableEq

namespace Setting

/-- The name after two dashes. -/
def long : Setting → String
  | verbose => "verbose"
  | help => "help"
  | version => "version"
  | polish => "polish"
  | file => "file"
  | alphabet => "alphabet"
  | word => "word"
  | stage => "stage"
  | letter => "char"
  | count => "count"

/-- The letter after one dash. -/
def short? : Setting → Option Char
  | verbose => some 'v'
  | help => some 'h'
  | version => some 'V'
  | polish => some 'p'
  | file => some 'f'
  | alphabet => some 'a'
  | word => some 'w'
  | stage => none
  | letter => some 'c'
  | count => some 'k'

def takesValue : Setting → Bool
  | verbose | help | version | polish => false
  | _ => true

def findLong? (known : List Setting) (name : List Char) : Option Setting :=
  known.find? fun s => s.long.toList = name

def findShort? (known : List Setting) (c : Char) : Option Setting :=
  known.find? fun s => s.short? = some c

end Setting

inductive UsageError where
  | help
  | version
  | noArguments
  | noCommand
  | unknownCommand
  | unknownArgument
  | missingArgument
  | missingValue
  | unexpectedValue
  | valueNotAllowed
  | malformedValue
  | conflict
  deriving DecidableEq

/-- The values given to a command. `operand` is its argument that is no setting. -/
structure Settings where
  operand : Option (List Char)
  verbose : Bool
  polish : Bool
  file : Option (List Char)
  alphabet : Option (List Char)
  word : Option (List Char)
  stage : Option Stage
  letter : Option Char
  count : Option Nat

namespace Settings

def none : Settings := ⟨.none, false, false, .none, .none, .none, .none, .none, .none⟩

/-- Turns on a setting that takes no value. -/
def turnOn (s : Settings) : Setting → Except UsageError Settings
  | .verbose => if s.verbose then .error .conflict else .ok { s with verbose := true }
  | .polish => if s.polish then .error .conflict else .ok { s with polish := true }
  | .version => .error .version
  | _ => .error .help

def digit? (c : Char) : Option Nat :=
  if '0' ≤ c ∧ c ≤ '9' then some (c.toNat - '0'.toNat) else .none

def digits? (n : Nat) : List Char → Option Nat
  | [] => some n
  | c :: cs => do digits? (10 * n + (← digit? c)) cs

/-- A count has one or more digits, perhaps after a plus sign, and fits in 64 bits. -/
def count? (value : List Char) : Option Nat :=
  let ds := if value.head? = some '+' then value.tail else value
  if ds.isEmpty then .none else (digits? 0 ds).filter (· < UInt64.size)

def fill {α : Type} (old : Option α) (value : Except UsageError α) (put : Option α → Settings) :
    Except UsageError Settings :=
  if old.isSome then .error .conflict else value.map fun v => put (some v)

/-- Gives a value to a setting that takes one. -/
def give (s : Settings) (setting : Setting) (value : List Char) : Except UsageError Settings :=
  match setting with
  | .file => fill s.file (if value.isEmpty then .error .missingValue else .ok value)
      fun v => { s with file := v }
  | .alphabet => fill s.alphabet (.ok value) fun v => { s with alphabet := v }
  | .word => fill s.word (.ok value) fun v => { s with word := v }
  | .stage => fill s.stage (match Stage.ofName? (String.ofList value) with
      | some stage => .ok stage
      | .none => .error .valueNotAllowed) fun v => { s with stage := v }
  | .letter => fill s.letter (match value with
      | [c] => .ok c
      | _ => .error .malformedValue) fun v => { s with letter := v }
  | .count => fill s.count (match count? value with
      | some n => .ok n
      | .none => .error .malformedValue) fun v => { s with count := v }
  | _ => .error .unexpectedValue

end Settings

/-! ## Arguments

A value in an argument of its own is looked at when the next setting or operand arrives, or at
the end, so an unknown setting right behind it is reported first. -/

abbrev Argument := List Char

/-- A setting whose value is not settled yet; `none` until the value arrives. -/
abbrev Pending := Option (Setting × Option (List Char))

structure Arguments where
  settings : Settings
  pending : Pending
  /-- Only operands follow. -/
  settingsEnded : Bool

namespace Arguments

def start : Arguments := ⟨.none, none, false⟩

/-- Settles the setting that waits for its value. -/
def settle (r : Arguments) : Except UsageError Arguments :=
  match r.pending with
  | none => .ok r
  | some (_, none) => .error .missingValue
  | some (setting, some value) =>
    (r.settings.give setting value).map fun s => { r with settings := s, pending := none }

def turnOn (r : Arguments) (setting : Setting) : Except UsageError Arguments := do
  let r ← r.settle
  return { r with settings := ← r.settings.turnOn setting }

/-- Gives the setting the value attached to it, or lets it wait for one. -/
def give (r : Arguments) (setting : Setting) (attached : Option (List Char)) :
    Except UsageError Arguments := do
  let r ← r.settle
  match attached with
  | some value => return { r with settings := ← r.settings.give setting value }
  | none => return { r with pending := some (setting, none) }

/-- Reads `--name` or `--name=value`, without its dashes. -/
def readLong (known : List Setting) (r : Arguments) (text : List Char) :
    Except UsageError Arguments :=
  let value := match text.dropWhile (· ≠ '=') with
    | [] => none
    | _ :: value => some value
  match Setting.findLong? known (text.takeWhile (· ≠ '=')) with
  | none => .error .unknownArgument
  | some setting =>
    if setting.takesValue then r.give setting value
    else if value.isSome then .error .unexpectedValue
    else r.turnOn setting

/-- Reads the letters behind one dash. -/
def readShort (known : List Setting) (r : Arguments) : List Char → Except UsageError Arguments
  | [] => .ok r
  | c :: rest =>
    match Setting.findShort? known c with
    | none => .error .unknownArgument
    | some setting =>
      if setting.takesValue then
        r.give setting (match rest with
          | [] => none
          | '=' :: value => some value
          | value => some value)
      else do readShort known (← r.turnOn setting) rest

def readOperand (r : Arguments) (text : Argument) : Except UsageError Arguments :=
  if r.settings.operand.isSome then .error .unknownArgument
  else do
    let r ← r.settle
    return { r with settings := { r.settings with operand := some text } }

def readNext (known : List Setting) (r : Arguments) (arg : Argument) :
    Except UsageError Arguments :=
  if r.settingsEnded then r.readOperand arg
  else match arg with
    | ['-', '-'] => .ok { r with settingsEnded := true }
    | '-' :: '-' :: text => r.readLong known text
    | '-' :: c :: text => r.readShort known (c :: text)
    | text =>
      match r.pending with
      | some (setting, none) => .ok { r with pending := some (setting, some text) }
      | _ => r.readOperand text

/-- The settings that all arguments together give. -/
def readAll (known : List Setting) (args : List Argument) : Except UsageError Settings := do
  let r ← args.foldlM (readNext known) start
  return (← r.settle).settings

end Arguments

/-! ## Requests -/

inductive Command where
  | accepts
  | complement
  | minimize
  | dot
  | suffix
  deriving DecidableEq

namespace Command

def all : List Command := [accepts, complement, minimize, dot, suffix]

def name : Command → String
  | accepts => "accepts"
  | complement => "complement"
  | minimize => "minimize"
  | dot => "dot"
  | suffix => "suffix"

def ofName? (name : Argument) : Option Command := all.find? fun c => c.name.toList = name

/-- The settings that only this command has. -/
def ownSettings : Command → List Setting
  | accepts => [.word]
  | complement | minimize => []
  | dot => [.stage]
  | suffix => [.letter, .count]

def settings (c : Command) : List Setting :=
  [.verbose, .help, .polish, .file, .alphabet] ++ c.ownSettings

end Command

inductive Task where
  | accepts (word : List Char)
  | complement
  | minimize
  | dot (stage : Stage)
  | suffix (letter : Char) (count : Nat)
  deriving DecidableEq

/-- Where the text of the regex comes from. -/
inductive Source where
  | inline (text : List Char)
  | file (path : List Char)
  deriving DecidableEq

structure Request where
  task : Task
  source : Source
  /-- The text is in postfix form. -/
  polish : Bool
  letters : Alphabet
  verbose : Bool

namespace Request

/-- A regex comes either as an operand or from a file. -/
def sourceOf (s : Settings) : Except UsageError Source :=
  match s.operand, s.file with
  | some _, some _ => .error .conflict
  | some text, none => .ok (.inline text)
  | none, some path => .ok (.file path)
  | none, none => .error .missingArgument

def taskOf (s : Settings) : Command → Except UsageError Task
  | .accepts => .ok (.accepts (s.word.getD []))
  | .complement => .ok .complement
  | .minimize => .ok .minimize
  | .dot => .ok (.dot (s.stage.getD .minify))
  | .suffix =>
    match s.letter, s.count with
    | some c, some k => .ok (.suffix c k)
    | _, _ => .error .missingArgument

def ofSettings (c : Command) (s : Settings) (verbose : Bool) : Except UsageError Request := do
  let source ← sourceOf s
  let task ← taskOf s c
  return ⟨task, source, s.polish, .ofList (s.alphabet.getD []), verbose || s.verbose⟩

/-- What may stand before the command. -/
def leadingSettings : List Setting := [.verbose, .help, .version]

def helpName : Argument := "help".toList

/-- Help takes the name of a command, or its own, and nothing more. -/
def readHelp : List Argument → UsageError
  | [] => .help
  | [name] => if name = helpName ∨ (Command.ofName? name).isSome then .help else .unknownCommand
  | _ => .unknownCommand

/-- Settings before the command, the command, and its arguments. -/
def readFrom (leading : Settings) : List Argument → Except UsageError Request
  | [] => .error (if leading.verbose then .noCommand else .noArguments)
  | arg :: rest =>
    let leads := arg.head? = some '-' && arg.length ≥ 2
    if arg = ['-', '-'] then
      match rest with
      | [] => .error (if leading.verbose then .noCommand else .noArguments)
      | name :: _ =>
        .error (if name = helpName ∨ (Command.ofName? name).isSome then .unknownArgument
          else .unknownCommand)
    else if leads then do
      let r ← Arguments.readNext leadingSettings ⟨leading, none, false⟩ arg
      readFrom r.settings rest
    else if arg = helpName then .error (readHelp rest)
    else match Command.ofName? arg with
      | none => .error .unknownCommand
      | some c => do ofSettings c (← Arguments.readAll c.settings rest) leading.verbose

def read (args : List Argument) : Except UsageError Request := readFrom .none args

end Request

end RegularLang.CommandLine
