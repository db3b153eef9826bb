import MonkeyScan.Command.Report
import MonkeyScan.Terminal

/-!
# MonkeyScan.Main

The program itself: it takes the words of its command line, looks up the file they name, and puts
out the pieces of the report in order, on the console that it finds itself with. Standard input is
read line by line, so that an interactive session answers each line before the next one is entered.
-/

namespace MonkeyScan
namespace Main

open Command

def put (p : Piece) : IO Unit := do
  let out ← IO.getStdout
  let err ← IO.getStderr
  unless p.stdout.isEmpty do
    out.putStr p.stdout
    out.flush
  let console : Console := if ← err.isTty then .terminal else .piped
  let text := p.stderr console
  unless text.isEmpty do
    err.putStr text
    err.flush

/-- What a name leads to on this machine. -/
def lookUp (name : Text) : IO Entry := do
  if (Path.bytes? name).isNone then return .unusable
  try
    return .file (← IO.FS.readBinFile name.spelled).toList
  catch
    | .noFileOrDirectory .. => return .missing
    | .inappropriateType .. => return .directory
    | e => throw e

/-- The next line of a stream and the bytes read beyond it, after the bytes in `pending`. -/
partial def readLine (stream : IO.FS.Stream) (pending : Bytes) : IO (Bytes × Bytes) := do
  if pending.contains Byte.lineFeed then
    let lines := Line.split pending
    return (lines.headD [], lines.tail.flatten)
  else
    let more ← stream.read 4096
    if more.isEmpty then return (pending, [])
    else readLine stream (pending ++ more.toList)

/-- Answers line after line until the input ends. -/
partial def converse (mode : Mode) (stream : IO.FS.Stream) (pending : Bytes) : IO Unit := do
  put .prompt
  let (line, rest) ← readLine stream pending
  if line.isEmpty then put .farewell
  else
    (Output.atLevel mode.verbose (mode.respond line)).forM put
    converse mode stream rest

end Main
end MonkeyScan

open MonkeyScan Command in
def main (words : List String) : IO UInt32 := do
  let finish (r : Report) : IO UInt32 := do
    r.output.forM Main.put
    return UInt32.ofNat r.exit.number
  match Arguments.read {} (words.map Text.ofString) with
  | .error e => finish (.ofError (.argument e))
  | .ok arguments =>
    try
      let entry ← match arguments.operands with
        | [] => pure Entry.missing
        | name :: _ => Main.lookUp name
      match plan (fun _ => entry) arguments with
      | .error e => finish (.ofError e)
      | .ok (.interactive mode) =>
        greetings.forM fun line => Main.put (.greeting line)
        Main.converse mode (← IO.getStdin) []
        return 0
      | .ok task => finish (task.report [])
    catch e => finish (.ofFailure arguments.verbose (.system [.text (toString e : String)]))
