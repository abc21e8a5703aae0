import ApiAtlas.Outline.Format
import ApiAtlas.Text.Split

/-!
# Arguments of a command line

There are two levels of arguments: those in front of a command, and those behind it, which the
command reads. An argument is a switch in its long or short form, a value that a switch waits
for, or an operand; behind `--` everything is an operand. A switch whose value may still come is
judged only when the next switch or operand shows up, so a fault of that one can come first.
-/
namespace ApiAtlas.CommandLine

/-- Why arguments are refused, or what they ask for instead of a command. -/
inductive UsageFault where
  | help
  | version
  /-- Nothing was given. -/
  | nothingGiven
  /-- No command was given. -/
  | missingCommand
  | unknownCommand
  | missingOperand
  | unknownArgument
  /-- A switch has no value, or one that it does not take. -/
  | invalidValue
  /-- A switch that takes no value has one. -/
  | needlessValue
  /-- A switch is given twice. -/
  | repeated
  deriving DecidableEq, Repr

/-- Everything that starts with a dash. -/
inductive Switch where
  | help
  | version
  | verbose
  | format
  | output
  deriving DecidableEq, Repr

namespace Switch

/-- The name behind two dashes. -/
def long : Switch → String
  | help => "help"
  | version => "version"
  | verbose => "verbose"
  | format => "format"
  | output => "output"

/-- The letter behind one dash. -/
def short : Switch → Char
  | help => 'h'
  | version => 'V'
  | verbose => 'v'
  | format => 'f'
  | output => 'o'

/-- Whether the switch waits for a value. -/
def takesValue : Switch → Bool
  | format | output => true
  | help | version | verbose => false

end Switch

/-- A level of arguments: its switches, the commands that end it, and whether it has an operand. -/
structure Level where
  switches : List Switch
  commands : List String := []
  hasOperand : Bool := false

/-- The command that explains the others. -/
def helpCommand : String := "help"

def parseTypeCommand : String := "parse-type"

def demoCommand : String := "demo"

namespace Level

def root : Level :=
  ⟨[.verbose, .help, .version], [parseTypeCommand, demoCommand, helpCommand], false⟩

def parseType : Level := ⟨[.format, .verbose, .help], [], true⟩

def demo : Level := ⟨[.format, .output, .verbose, .help], [], false⟩

def long? (level : Level) (name : String) : Option Switch :=
  level.switches.find? fun switch => switch.long = name

def short? (level : Level) (letter : Char) : Option Switch :=
  level.switches.find? fun switch => switch.short = letter

end Level

structure Given where
  verbose : Bool := false
  format : Option Format := none
  output : Option String := none
  operand : Option String := none
  deriving DecidableEq, Repr

structure Scan where
  given : Given := {}
  /-- A switch that is not judged yet, and its value once it is there. -/
  pending : Option (Switch × Option String) := none
  /-- Whether everything that follows is an operand. -/
  isTrailing : Bool := false
  deriving DecidableEq, Repr

namespace Given

def take (given : Given) : Switch → Option String → Except UsageFault Given
  | .help, _ => .error .help
  | .version, _ => .error .version
  | .verbose, _ => if given.verbose then .error .repeated else .ok { given with verbose := true }
  | .format, none => .error .invalidValue
  | .format, some value =>
      if given.format.isSome then .error .repeated
      else
        match Format.ofName? value with
        | some format => .ok { given with format := some format }
        | none => .error .invalidValue
  | .output, none => .error .invalidValue
  | .output, some value =>
      if given.output.isSome then .error .repeated
      else if value.isEmpty then .error .invalidValue
      else .ok { given with output := some value }

end Given

namespace Scan

/-- Judge the switch that is not judged yet. -/
def settle (scan : Scan) : Except UsageFault Scan :=
  match scan.pending with
  | none => .ok scan
  | some (switch, value) =>
      (scan.given.take switch value).map fun given => { scan with given, pending := none }

def take (scan : Scan) (switch : Switch) (value : Option String) : Except UsageFault Scan := do
  let scan ← scan.settle
  return { scan with given := ← scan.given.take switch value }

def await (scan : Scan) (switch : Switch) : Except UsageFault Scan :=
  scan.settle.map fun scan => { scan with pending := some (switch, none) }

def readLong (level : Level) (scan : Scan) (name : String) (value : Option String) :
    Except UsageFault Scan :=
  match level.long? name, value with
  | none, _ => .error .unknownArgument
  | some switch, some value =>
      if switch.takesValue then scan.take switch (some value) else .error .needlessValue
  | some switch, none => if switch.takesValue then scan.await switch else scan.take switch none

/-- Read letters behind one dash. Behind the letter of a switch that takes a value stands the value,
with or without an equals sign. -/
def readShort (level : Level) : Scan → List Char → Except UsageFault Scan
  | scan, [] => .ok scan
  | scan, letter :: rest =>
      match level.short? letter with
      | none => .error .unknownArgument
      | some switch =>
          if switch.takesValue then
            match rest with
            | [] => scan.await switch
            | '=' :: value => scan.take switch (some (String.ofList value))
            | value => scan.take switch (some (String.ofList value))
          else
            match scan.take switch none with
            | .ok scan => readShort level scan rest
            | .error fault => .error fault

def readOperand (level : Level) (scan : Scan) (value : String) : Except UsageFault Scan :=
  if level.hasOperand && scan.given.operand.isNone then do
    let scan ← scan.settle
    return { scan with given := { scan.given with operand := some value } }
  else if scan.isTrailing && level.commands.contains value then .error .unknownArgument
  else .error (if level.commands.isEmpty then .unknownArgument else .unknownCommand)

def readWord (level : Level) (scan : Scan) (value : String) : Except UsageFault Scan :=
  match scan.pending with
  | some (switch, none) => .ok { scan with pending := some (switch, some value) }
  | _ => scan.readOperand level value

/-- The name and the value around the first equals sign. -/
def splitValue (cs : List Char) : String × Option String :=
  match Text.cut? '=' cs with
  | some (name, value) => (String.ofList name, some (String.ofList value))
  | none => (String.ofList cs, none)

def read (level : Level) (scan : Scan) (argument : String) : Except UsageFault Scan :=
  if scan.isTrailing then scan.readOperand level argument
  else
    match argument.toList with
    | ['-', '-'] => .ok { scan with isTrailing := true }
    | '-' :: '-' :: rest =>
        let (name, value) := splitValue rest
        scan.readLong level name value
    | '-' :: letter :: rest => readShort level scan (letter :: rest)
    | _ => scan.readWord level argument

/-- Whether an argument is a command of the level. A value that is waited for comes first. -/
def isCommand (level : Level) (scan : Scan) (argument : String) : Bool :=
  !scan.isTrailing && level.commands.contains argument &&
    (match scan.pending with
      | some (_, none) => false
      | _ => true)

/-- Read arguments up to a command, which is given back with those behind it. -/
def readAll (level : Level) :
    Scan → List String → Except UsageFault (Scan × Option (String × List String))
  | scan, [] => .ok (scan, none)
  | scan, argument :: rest =>
      if scan.isCommand level argument then .ok (scan, some (argument, rest))
      else
        match scan.read level argument with
        | .ok scan => readAll level scan rest
        | .error fault => .error fault

end Scan

/-- Read all arguments of a level that no command ends. -/
def Level.read (level : Level) (arguments : List String) : Except UsageFault Given := do
  let (scan, _) ← Scan.readAll level {} arguments
  return (← scan.settle).given

end ApiAtlas.CommandLine
