import MonkeyScan.Command.Plan
import MonkeyScan.Output

/-!
# MonkeyScan.Command.Report

What a command line does. `Task.report` carries out what was planned and gives the exit code and
the output; `run` does all of it, from the words of the command line on.

An expression or a file is listed up to its first diagnostic. An interactive session lists each
line as a source of its own and goes on after a diagnostic.
-/

namespace MonkeyScan
namespace Command

structure Report where
  exit : ExitCode
  output : Output
deriving DecidableEq

namespace Report

/-- In verbose mode the trace of an internal error follows the complaint. -/
def ofFailure (verbose : Bool) (f : Failure) : Report :=
  ⟨f.exitCode, .complaint f.complaint :: if verbose && f.isTraced then [.trace f] else []⟩

def ofError (e : CommandError) : Report :=
  ⟨e.exitCode, [.complaint e.text]⟩

/-- Pieces put out before a report. -/
def after (output : Output) (r : Report) : Report :=
  { r with output := output ++ r.output }

/-- The report on a listing: what it lists, and the diagnostic that stopped it. -/
def ofListing (verbose : Bool) (l : Listing) : Report :=
  after l.output <|
    match l.stoppedBy with
    | none => ⟨.success, []⟩
    | some d => ofFailure verbose (.lexical d)

def stdout (r : Report) : String :=
  r.output.stdout

def stderr (console : Console) (r : Report) : String :=
  r.output.stderr console

end Report

def greetings : List String :=
  ["Hello! This is the Monkey programming language!", "Feel free to type in commands"]

namespace Mode

def listing (mode : Mode) (name : Text) (source : Bytes) : Listing :=
  (Lexer.start source name mode.options).listing mode.verbose

/-- The name of an expression as a source. -/
def expressionName : Text := "<expr>"

/-- The name of each line of an interactive session as a source. -/
def lineName : Text := "<stdin>"

def expression (mode : Mode) (text : Text) : Report :=
  match Utf8.encode text with
  | .error e => .ofFailure mode.verbose (.unencodable e)
  | .ok bs => .ofListing mode.verbose (mode.listing expressionName bs)

def file (mode : Mode) (name : Text) (content : Bytes) : Report :=
  let listing := mode.listing name content
  let report := Report.ofListing mode.verbose listing
  .after [.record (.reading name)] <|
    match listing.stoppedBy with
    | none => { report with output := report.output ++ [.record (.finished listing.count)] }
    | some _ => report

/-- What an interactive session answers to one line. -/
def respond (mode : Mode) (line : Bytes) : Output :=
  (Report.ofListing mode.verbose (mode.listing lineName line)).output

/-- A session over all lines of the input, which succeeds whatever the lines hold. -/
def interactive (mode : Mode) (input : Bytes) : Report where
  exit := .success
  output :=
    greetings.map Piece.greeting ++
      (Line.split input).flatMap (fun line => .prompt :: mode.respond line) ++
      [.prompt, .farewell]

end Mode

/-- Carries out a task, with `input` on standard input. -/
def Task.report (input : Bytes) : Task → Report
  | .notice n => ⟨.success, [.notice n.text]⟩
  | .expression mode text => shown mode (mode.expression text)
  | .file mode name content => shown mode (mode.file name content)
  | .interactive mode => shown mode (mode.interactive input)
where
  /-- Leaves out the records unless they are wanted. -/
  shown (mode : Mode) (r : Report) : Report :=
    { r with output := r.output.atLevel mode.verbose }

def run (find : Text → Entry) (input : Bytes) (words : List Text) : Report :=
  match Arguments.read {} words with
  | .error e => .ofError (.argument e)
  | .ok arguments =>
    match plan find arguments with
    | .error e => .ofError e
    | .ok task => task.report input

end Command
end MonkeyScan
