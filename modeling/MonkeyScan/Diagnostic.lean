import MonkeyScan.Token

/-!
# MonkeyScan.Diagnostic

Why a source could not be scanned, and the text that tells it: a header with the location, the
offending line with a caret under the column, and a hint. The scanner reports two causes, an
integer literal out of range and, when it is strict, a byte that starts no lexeme.

An `Event` is what the program records while it works, for a reader who wants to follow it. Scanning
records each integer literal out of range and each byte that starts no lexeme, strict or not; the
command line records the file it reads and the number of tokens it found there.
-/

namespace MonkeyScan

inductive Cause where
  /-- A complaint in words, with a hint on how to mend it. -/
  | general (text : String) (hint : Option String)
  | integerOverflow (literal : String) (limit : Payload)
  /-- A byte that starts no lexeme; a cause made by hand may hold any integer. -/
  | invalidCharacter (byte : Int)
deriving DecidableEq

namespace Cause

def hexByte (byte : Int) : String :=
  "0x" ++ Numeral.hexUpper 2 byte

/-- A printable ASCII byte is shown as its character too. -/
def message : Cause → String
  | .general text _ => text
  | .integerOverflow literal _ => "integer literal '" ++ literal ++ "' is out of range"
  | .invalidCharacter byte =>
    if 0x20 ≤ byte ∧ byte < 0x7F then
      "invalid character '" ++ String.singleton (Char.ofNat byte.toNat) ++ "' (" ++
        hexByte byte ++ ")"
    else "invalid byte " ++ hexByte byte

def hint : Cause → Option Text
  | .general _ hint => hint.map Text.ofString
  | .integerOverflow _ limit => some ("integer literals must be between 0 and " ++ limit.plain)
  | .invalidCharacter _ => none

end Cause

structure Diagnostic where
  cause : Cause
  location : Option Location := none
  sourceLine : Option String := none
deriving DecidableEq

namespace Diagnostic

def header (d : Diagnostic) : Text :=
  match d.location with
  | none => "error: " ++ d.cause.message
  | some l => l.render ++ ": error: " ++ d.cause.message

/-- Spaces up to the column, then the caret. -/
def caret (column : Int) : Text :=
  List.replicate (column + 3).toNat (CodePoint.ofChar ' ') ++ [CodePoint.ofChar '^']

/-- The quoted line needs a location, and the caret a column to stand under. -/
def context (d : Diagnostic) : List Text :=
  match d.sourceLine, d.location with
  | some line, some l =>
    ("    " ++ line : String) :: if 0 < l.column then [caret l.column] else []
  | _, _ => []

def hintLines (d : Diagnostic) : List Text :=
  match d.cause.hint with
  | none => []
  | some hint => if hint.isEmpty then [] else ["hint: " ++ hint]

/-- The complete message, without a line feed at its end. -/
def render (d : Diagnostic) : Text :=
  ("\n" : Text).intercalate (d.header :: d.context ++ d.hintLines)

end Diagnostic

/-! ## Records -/

inductive Event where
  | overflow (location : Location) (literal : String)
  | illegalByte (location : Location) (byte : UInt8)
  | reading (file : Text)
  | finished (count : Nat)
deriving DecidableEq

namespace Event

def message : Event → Text
  | .overflow l literal => "Integer literal overflow at " ++ l.render ++ ": " ++ literal
  | .illegalByte l byte => "Illegal byte " ++ Cause.hexByte byte.toNat ++ " at " ++ l.render
  | .reading file => "Tokenizing " ++ file
  | .finished count => ("Tokenized: " ++ Numeral.decimal count ++ " tokens" : String)

end Event
end MonkeyScan
