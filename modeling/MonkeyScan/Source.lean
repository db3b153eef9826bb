import MonkeyScan.Lexer

/-!
# MonkeyScan.Source

What can be scanned: bytes, or a text that becomes its UTF-8 bytes with escapes as the bytes they
stand for. A text with another surrogate has no bytes and cannot be scanned. `Source.tokenize` gives
the tokens of a whole source, or the one failure that prevents it.

A `Failure` is anything that can go wrong, with its message and the exit code of a program that ends
on it. A source that cannot be scanned is reported by its diagnostic alone; a refusal by the
operating system counts as a wrong argument; anything else is an internal error.
-/

namespace MonkeyScan

inductive ExitCode where
  | success
  /-- The source could not be scanned, or not even be looked up. -/
  | scanError
  /-- The command line was wrong or named an unreadable file. -/
  | invalidArguments
  | internalError
deriving DecidableEq

namespace ExitCode

def all : List ExitCode :=
  [.success, .scanError, .invalidArguments, .internalError]

def name : ExitCode → String
  | .success => "SUCCESS"
  | .scanError => "LEX_ERROR"
  | .invalidArguments => "INVALID_ARGS"
  | .internalError => "INTERNAL_ERROR"

def number : ExitCode → Nat
  | .success => 0
  | .scanError => 1
  | .invalidArguments => 2
  | .internalError => 3

end ExitCode

inductive Failure where
  | lexical (d : Diagnostic)
  | unencodable (e : Utf8.Unencodable)
  | unwritten (e : TokenError)
  | notFound (key : Payload)
  /-- Tokens do not change, so no field of one can be assigned. -/
  | frozenField (field : String)
  /-- The operating system refused, usually with a number, a reason and a file. -/
  | system (details : List Payload)
  | other (details : List Payload)
deriving DecidableEq

namespace Failure

/-- Details without a form of their own: a single one plainly, several as a tuple. -/
def describe : List Payload → Text
  | [] => []
  | [detail] => detail.plain
  | details => ("(" ++ ", ".intercalate (details.map Payload.quoted) ++ ")" : String)

/-- The reason after its number, and then the file in quotes. -/
def describeSystem : List Payload → Text
  | [number, reason] => "[Errno " ++ number.plain ++ "] " ++ reason.plain
  | [number, reason, .absent] => "[Errno " ++ number.plain ++ "] " ++ reason.plain
  | [number, reason, file] =>
    "[Errno " ++ number.plain ++ "] " ++ reason.plain ++ ": " ++ file.quoted
  | details => describe details

def message : Failure → Text
  | .lexical d => d.render
  | .unencodable e => e.message
  | .unwritten e => e.message
  | .notFound key => key.quoted
  | .frozenField field => ("cannot assign to field " ++ Quoted.encode field : String)
  | .system details => describeSystem details
  | .other details => describe details

def exitCode : Failure → ExitCode
  | .lexical _ => .scanError
  | .system _ => .invalidArguments
  | _ => .internalError

/-- The complaint of a program that ends on the failure. -/
def complaint (f : Failure) : Text :=
  match f.exitCode with
  | .scanError => f.message ++ "\n"
  | .invalidArguments => "Error: " ++ f.message ++ "\n"
  | _ => "Internal error: " ++ f.message ++ "\n"

/-- Where an internal error came about is of interest too. -/
def isTraced (f : Failure) : Bool :=
  f.exitCode == .internalError

end Failure

/-! ## Sources -/

inductive Source where
  | bytes (bs : Bytes)
  | text (t : Text)
deriving DecidableEq

namespace Source

def toBytes : Source → Except Utf8.Unencodable Bytes
  | .bytes bs => .ok bs
  | .text t => Utf8.encode t

def lexer (s : Source) (file : Text) (options : Options) : Except Utf8.Unencodable Lexer :=
  match s.toBytes with
  | .error e => .error e
  | .ok bs => .ok (.start bs file options)

/-- The name of a source that was given none. -/
def defaultName : Text := "<input>"

/-- All tokens of a source with the end token last, or the first failure, and what was recorded
up to there. -/
def tokenize (s : Source) (file : Text) (options : Options) :
    Except Failure (List Token) × List Event :=
  match s.lexer file options with
  | .error e => (.error (.unencodable e), [])
  | .ok lx =>
    let step := lx.drain
    match step.result with
    | (tokens, none) => (.ok tokens, step.events)
    | (_, some d) => (.error (.lexical d), step.events)

end Source
end MonkeyScan
