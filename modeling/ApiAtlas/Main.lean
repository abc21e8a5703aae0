import ApiAtlas.CommandLine

/-!
# The program

Reads the arguments, does what they ask for, and writes the outcome. All decisions are those of
the command line.
-/
namespace ApiAtlas.Main

open CommandLine (UsageFault CommandFault Output)

def home : String := "pet_store"

def usage : String :=
  "Usage: api-atlas [-v] <command>\n\n" ++
  "Commands:\n" ++
  "  parse-type <TYPE_NAME> [-f yaml|json]     print the structure of a type name\n" ++
  "  demo [-f yaml|json] [-o <FILE>]           document the pet store\n" ++
  "  help [<command>]                          print this text\n"

/-- What is said about arguments that ask for no command. -/
def usageMessage : UsageFault → String
  | .help | .nothingGiven => usage
  | .version => "api-atlas 0.1.0\n"
  | .missingCommand => "error: a command is missing\n\n" ++ usage
  | .unknownCommand => "error: there is no such command\n\n" ++ usage
  | .missingOperand => "error: the type name is missing\n\n" ++ usage
  | .unknownArgument => "error: there is an argument too many\n\n" ++ usage
  | .invalidValue => "error: a switch has no value, or one that it does not take\n\n" ++ usage
  | .needlessValue => "error: a switch that takes no value has one\n\n" ++ usage
  | .repeated => "error: a switch is given twice\n\n" ++ usage

/-- Whether arguments asked for the text that they get. -/
def isAsked : UsageFault → Bool
  | .help | .version => true
  | _ => false

def isDirectory (path : String) : IO Bool := do
  try (← IO.FS.realPath path).isDir catch _ => return false

/-- The part of a path in front of its last name. -/
def parentOf (path : String) : String :=
  String.ofList (path.toList.reverse.dropWhile (· ≠ '/')).reverse.dropLast

/-- Do something with files; a failure is a fault of the command. -/
def attempt (fault : String → CommandFault) (action : IO Unit) : IO (Except CommandFault Unit) := do
  try
    action
    return .ok ()
  catch e => return .error (fault e.toString)

def put (output : Output) : IO (Except CommandFault Unit) :=
  match output.path with
  | none => do
      IO.print output.text
      return .ok ()
  | some path => do
      let parent := parentOf path
      match ← attempt (.noDirectory parent)
          (if parent.isEmpty then pure () else IO.FS.createDirAll parent) with
      | .error fault => return .error fault
      | .ok () => attempt (.unwritable path) (IO.FS.writeFile path output.text)

def perform (command : CommandLine.Command) : IO (Except CommandFault Unit) := do
  let occupied ← match command with
    | .demo _ (some path) => isDirectory path
    | _ => pure false
  match command.check (fun _ => occupied) with
  | .error fault => return .error fault
  | .ok () =>
      match command.output home with
      | .error fault => return .error fault
      | .ok output => put output

/-- Do what the arguments ask for. The answer is the exit code. -/
def run (arguments : List String) : IO UInt32 := do
  match CommandLine.readArguments arguments with
  | .error fault =>
      if isAsked fault then IO.print (usageMessage fault) else IO.eprint (usageMessage fault)
      return if isAsked fault then 0 else 2
  | .ok parsed =>
      match ← perform parsed.command with
      | .ok () => return 0
      | .error fault => do
          IO.eprintln ("Error: " ++ fault.message)
          return 1

end ApiAtlas.Main

def main (arguments : List String) : IO UInt32 := ApiAtlas.Main.run arguments
