import ApiAtlas.CommandLine.Usage
import ApiAtlas.Demo
import ApiAtlas.Identity.Wire

/-!
# The command line

One command prints the structure of a type name, the other documents the pet store on the
standard output or in a file. What a command puts out is computed here; writing it is left to the
program.
-/
namespace ApiAtlas.CommandLine

/-- What to do. -/
inductive Command where
  | parseType (name : String) (format : Format)
  | demo (format : Format) (output : Option String)
  deriving DecidableEq, Repr

structure Arguments where
  command : Command
  verbose : Bool
  deriving DecidableEq, Repr

/-- The help on a command is asked for by its name, and there are no commands below it. -/
def askHelp : List String → UsageFault
  | [] => .help
  | [name] => if Level.root.commands.contains name then .help else .unknownCommand
  | _ => .unknownCommand

def readCommand (name : String) (arguments : List String) :
    Except UsageFault (Command × Bool) := do
  if name = helpCommand then .error (askHelp arguments)
  else if name = parseTypeCommand then do
    let given ← Level.parseType.read arguments
    match given.operand with
    | none => .error .missingOperand
    | some name => return (.parseType name (given.format.getD .yaml), given.verbose)
  else do
    let given ← Level.demo.read arguments
    return (.demo (given.format.getD .yaml) given.output, given.verbose)

def readArguments (arguments : List String) : Except UsageFault Arguments := do
  let (scan, found) ← Scan.readAll .root {} arguments
  match found with
  | some (name, rest) => do
      let (command, verbose) ← readCommand name rest
      return ⟨command, scan.given.verbose || verbose⟩
  | none => .error (if scan.given.verbose then .missingCommand else .nothingGiven)

/-- Why a command cannot be done. -/
inductive CommandFault where
  | blankName
  | outputIsDirectory (path : String)
  | malformedName (name : String) (cause : Identity.MalformedName)
  | undocumented (cause : Fault)
  | noDirectory (path : String) (reason : String)
  | unwritable (path : String) (reason : String)
  deriving DecidableEq

namespace CommandFault

/-- The message about a fault, outer causes first. -/
def message : CommandFault → String
  | blankName => "Type name must not be empty"
  | outputIsDirectory path => "Output path is a directory: " ++ path
  | malformedName name cause =>
      "Failed to parse type name '" ++ name ++ "': " ++ cause.message
  | undocumented cause => "Failed to document demo routes: " ++ cause.message
  | noDirectory path reason => "Failed to create directory: " ++ path ++ ": " ++ reason
  | unwritable path reason => "Failed to write to file: " ++ path ++ ": " ++ reason

end CommandFault

structure Output where
  path : Option String
  text : String
  deriving DecidableEq, Repr

namespace Command

/-- Refuse a blank type name, and a directory as output. -/
def check (isDirectory : String → Bool) : Command → Except CommandFault Unit
  | parseType name _ =>
      if name.toList.all Text.isBlank then .error .blankName else .ok ()
  | demo _ (some path) => if isDirectory path then .error (.outputIsDirectory path) else .ok ()
  | demo _ none => .ok ()

/-- What a command puts out, given the module of the pet store. A text that is printed ends its
line. -/
def output (home : String) : Command → Except CommandFault Output
  | parseType name format =>
      match Identity.parse name with
      | .ok t => .ok ⟨none, format.write t.outline ++ "\n"⟩
      | .error cause => .error (.malformedName name cause)
  | demo format path =>
      match ((Demo.routes home).run (Demo.world home)).1 with
      | .ok routes =>
          let text := format.write (View.ofRoutes routes).outline
          .ok ⟨path, if path.isSome then text else text ++ "\n"⟩
      | .error (.fault cause) => .error (.undocumented cause)
      | .error _ => .error (.undocumented (.decode "the types of the pet store have no shape"))

end Command
end ApiAtlas.CommandLine
