import MonkeyScan.Command.Arguments
import MonkeyScan.Command.Path
import MonkeyScan.Source

/-!
# MonkeyScan.Command.Plan

What a command line asks for. `plan` settles it from the arguments and the file they name: a
notice, an expression, a file, or an interactive session, or the error that stands in the way.
-/

namespace MonkeyScan
namespace Command

def programName : String := "monkey-lex"

def programVersion : String := "0.1.0"

def usageLine : String := "Usage: " ++ programName ++ " [OPTIONS] [INPUT_FILE]"

def Notice.text : Notice → String
  | .version => programName ++ ", version " ++ programVersion ++ "\n"
  | .help =>
    String.join <| List.map (· ++ "\n")
      [usageLine,
        "",
        "  Tokenize Monkey source code.",
        "",
        "  INPUT_FILE is the Monkey source file to tokenize. Without it (and without",
        "  --expr) an interactive REPL is started.",
        "",
        "  Examples:",
        "      monkey-lex program.mk          # Print the tokens of a file",
        "      monkey-lex -e \"5 < 10 > 5\"     # Print the tokens of an expression",
        "      monkey-lex                     # Start the REPL",
        "",
        "Options:",
        "  -e, --expr TEXT          Tokenize TEXT instead of reading a file",
        "  --digits-in-identifiers  Allow digits after the first letter of an identifier",
        "  --strict                 Fail on unrecognized characters instead of emitting",
        "                           ILLEGAL tokens",
        "  -v, --verbose            Verbose output (debug logging and token locations)",
        "  --version                Show the version and exit.",
        "  --help                   Show this message and exit."]

/-! ## What goes wrong before anything is scanned -/

inductive CommandError where
  | argument (e : ArgumentError)
  | noFile (name : Text)
  | unusableName (name : Text)
  | isDirectory (name : Text)
  | extraOperands (names : List Text)
  | fileAndExpression
deriving DecidableEq

namespace CommandError

def message : CommandError → Text
  | .argument (.missingValue option) => "Option '" ++ option ++ "' requires an argument."
  | .argument (.unexpectedValue option) => "Option '" ++ option ++ "' does not take a value."
  | .argument (.unknownOption name) => "No such option " ++ Quoted.encode name ++ "."
  | .noFile name =>
    "Invalid value for '[INPUT_FILE]': File " ++ Quoted.encode (Path.shown name) ++
      " does not exist."
  | .unusableName _ => []
  | .isDirectory name =>
    "Invalid value for '[INPUT_FILE]': File " ++ Quoted.encode (Path.shown name) ++
      " is a directory."
  | .extraOperands names =>
    "Got unexpected extra argument" ++ (if names.length = 1 then "" else "s" : String) ++ " (" ++
      (" " : Text).intercalate names ++ ")"
  | .fileAndExpression =>
    "Invalid value for '-e' / '--expr': cannot be combined with INPUT_FILE"

/-- A value that lacks or is too many is reported without the usage. -/
def usage : CommandError → Text
  | .argument (.missingValue _) => []
  | .argument (.unexpectedValue _) => []
  | _ => usageLine ++ "\nTry '" ++ programName ++ " --help' for help.\n\n"

/-- The text on standard error. The program gives up on a name it cannot look up without a word. -/
def text : CommandError → Text
  | .unusableName _ => []
  | e => e.usage ++ "Error: " ++ e.message ++ "\n"

def exitCode : CommandError → ExitCode
  | .unusableName _ => .scanError
  | _ => .invalidArguments

end CommandError

/-! ## What is to be done -/

/-- What the flags of a command line say about a scan. -/
structure Mode where
  options : Options := {}
  /-- Tokens with locations, and records on standard error. -/
  verbose : Bool := false
deriving DecidableEq

inductive Task where
  | notice (n : Notice)
  | expression (mode : Mode) (text : Text)
  | file (mode : Mode) (name : Text) (content : Bytes)
  | interactive (mode : Mode)
deriving DecidableEq

/-- What the arguments ask for, with files found by name. A notice goes before all else; the file
is looked up before the other operands and the expression are. -/
def plan (find : Text → Entry) (a : Arguments) : Except CommandError Task :=
  match a.notice with
  | some n => .ok (.notice n)
  | none =>
    let mode : Mode := ⟨a.options, a.verbose⟩
    match a.operands with
    | [] =>
      match a.expression with
      | some text => .ok (.expression mode text)
      | none => .ok (.interactive mode)
    | name :: extra =>
      match find name with
      | .missing => .error (.noFile name)
      | .unusable => .error (.unusableName name)
      | .directory => .error (.isDirectory name)
      | .file content =>
        if extra.isEmpty then
          match a.expression with
          | some _ => .error .fileAndExpression
          | none => .ok (.file mode (Path.normalize name) content)
        else .error (.extraOperands extra)

end Command
end MonkeyScan
