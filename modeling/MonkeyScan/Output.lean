import MonkeyScan.Source

/-!
# MonkeyScan.Output

What the program puts out, piece by piece and in order. A piece says what it is for; from that
follow the channel it goes to and its text. Records are put out in verbose mode only.

The text of a complaint and of a trace also depends on the `Console`, which is no part of the
program: it may change a complaint on its way out, and it supplies the trace. Nothing is known of
it here.

A `Listing` shows the tokens of a source one per line, without the end token, each as soon as it is
scanned. It stops at the first diagnostic and leaves the report of it to its reader.
-/

namespace MonkeyScan

/-- What stands between the program and its standard error. -/
structure Console where
  /-- What becomes of a complaint on its way out. -/
  strip : Text → Text
  /-- The trace of a failure, which tells where in the program it came about. -/
  trace : Failure → Text

inductive Piece where
  /-- A line that greets the user of an interactive session. -/
  | greeting (line : String)
  /-- The invitation to enter a line. -/
  | prompt
  | token (line : String)
  /-- Ends the line of the last prompt. -/
  | farewell
  /-- Text that was asked for in place of a scan. -/
  | notice (text : String)
  | record (e : Event)
  /-- Why something went wrong. -/
  | complaint (text : Text)
  | trace (f : Failure)
deriving DecidableEq

namespace Piece

def promptText : String := ">> "

def stdout : Piece → String
  | .greeting line => line ++ "\n"
  | .prompt => promptText
  | .token line => line ++ "\n"
  | .farewell => "\n"
  | .notice text => text
  | .record _ => ""
  | .complaint _ => ""
  | .trace _ => ""

/-- Only complaints pass through the console; records and traces are put out as they are. -/
def stderr (console : Console) : Piece → String
  | .record e => "DEBUG: " ++ e.message.spelled ++ "\n"
  | .complaint text => (console.strip text).spelled
  | .trace f => (console.trace f).spelled
  | _ => ""

def isRecord : Piece → Bool
  | .record _ => true
  | _ => false

end Piece

abbrev Output := List Piece

namespace Output

def stdout (out : Output) : String :=
  String.join (out.map Piece.stdout)

def stderr (console : Console) (out : Output) : String :=
  String.join (out.map (Piece.stderr console))

/-- Records are kept in verbose mode only. -/
def atLevel (verbose : Bool) (out : Output) : Output :=
  if verbose then out else out.filter fun p => !p.isRecord

end Output

/-! ## Listings -/

structure Listing where
  /-- Token lines, and records between them. -/
  output : Output
  count : Nat
  /-- The diagnostic that ended the listing early. -/
  stoppedBy : Option Diagnostic
deriving DecidableEq

/-- A token as a listing shows it, with or without its line and column. -/
def Token.display (located : Bool) (t : Token) : String :=
  if located then t.renderLocated else t.render

def Lexer.listing (located : Bool) (lx : Lexer) : Listing :=
  let step := lx.next
  let records := step.events.map Piece.record
  match _ : step.result with
  | .error d => ⟨records, 0, some d⟩
  | .ok t =>
    if _ : t.isEnd then ⟨records, 0, none⟩
    else
      let more := step.lexer.listing located
      ⟨records ++ .token (t.display located) :: more.output, more.count + 1, more.stoppedBy⟩
termination_by lx.cursor.rest.length
decreasing_by exact Lexer.rest_next_lt_of_token ‹_› ‹_›

end MonkeyScan
