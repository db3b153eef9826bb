import MonkeyScan.Lexer

/-!
# MonkeyScan.Session

Several lexers used side by side, each directly and through any number of streams. A stream is a
way to draw tokens from one lexer: it gives the lexer's next token each time it is pulled, and is
finished once it has given an end token or a diagnostic. A finished stream leaves its lexer alone.

The lexers of a session have options of their own, or they share one set of options, and then an
assignment through one of them reaches all.
-/

namespace MonkeyScan

/-- An assignment to some options, or to the name of the source. -/
structure Change where
  digits : Option Bool := none
  strict : Option Bool := none
  file : Option Text := none
deriving DecidableEq

def Change.applyTo (change : Change) (options : Options) : Options where
  digits := change.digits.getD options.digits
  strict := change.strict.getD options.strict

inductive Request where
  | next
  | peek
  | drain
  | advance
  | skipBlanks
  /-- The byte after the one under the cursor. -/
  | nextByte
  | atEnd
  | location
  | currentLine
  | assign (change : Change)
deriving DecidableEq

inductive Reply where
  | token (outcome : Outcome)
  | tokens (ts : List Token) (stoppedBy : Option Diagnostic)
  | finished
  | byte (b : UInt8)
  | atEnd (yes : Bool)
  | location (l : Location)
  | line (text : String)
  | done
  /-- There is no such lexer or stream. -/
  | missing
deriving DecidableEq

def Lexer.answer (lx : Lexer) : Request → Step Reply
  | .next => ⟨.token lx.next.result, lx.next.events, lx.next.lexer⟩
  | .peek => ⟨.token lx.peek.result, lx.peek.events, lx.peek.lexer⟩
  | .drain =>
    let step := lx.drain
    ⟨.tokens step.result.1 step.result.2, step.events, step.lexer⟩
  | .advance => ⟨.done, [], lx.advance⟩
  | .skipBlanks => ⟨.done, [], lx.skipBlanks⟩
  | .nextByte => ⟨.byte lx.cursor.nextByte, [], lx⟩
  | .atEnd => ⟨.atEnd lx.cursor.atEnd, [], lx⟩
  | .location => ⟨.location lx.location, [], lx⟩
  | .currentLine => ⟨.line lx.currentLine, [], lx⟩
  | .assign change =>
    ⟨.done, [], { lx with options := change.applyTo lx.options, file := change.file.getD lx.file }⟩

structure Stream where
  /-- The index of the lexer it draws from. -/
  lexer : Nat
  finished : Bool := false
deriving DecidableEq

structure Session where
  lexers : List Lexer
  /-- All lexers share one set of options. -/
  shared : Bool := false
  /-- The streams by name, the newest of a name first. -/
  streams : List (String × Stream) := []
deriving DecidableEq

inductive Act where
  | ask (lexer : Nat) (request : Request)
  | openStream (lexer : Nat) (name : String)
  | pull (name : String)
deriving DecidableEq

/-- What an act gives, what it records, and the session afterwards. -/
structure Effect where
  reply : Reply
  events : List Event
  session : Session
deriving DecidableEq

namespace Session

/-- Lets other lexers see an assignment when the options are shared. -/
def share (s : Session) (request : Request) (lexers : List Lexer) : List Lexer :=
  match s.shared, request with
  | true, .assign change =>
    lexers.map fun lx => { lx with options := change.applyTo lx.options }
  | _, _ => lexers

def ask (s : Session) (i : Nat) (request : Request) : Effect :=
  match s.lexers[i]? with
  | none => ⟨.missing, [], s⟩
  | some lx =>
    let step := lx.answer request
    ⟨step.result, step.events,
      { s with lexers := s.share request (s.lexers.set i step.lexer) }⟩

/-- Draws from the lexer of a stream, unless the stream is finished. -/
def pull (s : Session) (name : String) : Effect :=
  match s.streams.lookup name with
  | none => ⟨.missing, [], s⟩
  | some stream =>
    if stream.finished then ⟨.finished, [], s⟩
    else
      match s.lexers[stream.lexer]? with
      | none => ⟨.missing, [], s⟩
      | some lx =>
        let step := lx.next
        let ends :=
          match step.result with
          | .ok t => t.isEnd
          | .error _ => true
        ⟨.token step.result, step.events,
          { s with
            lexers := s.lexers.set stream.lexer step.lexer
            streams := (name, { stream with finished := ends }) :: s.streams }⟩

def act (s : Session) : Act → Effect
  | .ask i request => s.ask i request
  | .openStream i name => ⟨.done, [], { s with streams := (name, { lexer := i }) :: s.streams }⟩
  | .pull name => s.pull name

/-- The effects of some acts, one after the other. -/
def run (s : Session) : List Act → List Effect
  | [] => []
  | a :: more =>
    let effect := s.act a
    effect :: effect.session.run more

end Session
end MonkeyScan
