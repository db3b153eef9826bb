import MonkeyScan.Utf8

/-!
# MonkeyScan.Cursor

Places in a source.

* A `Location` is what a reader is told. Lines and columns count from one, columns in bytes; a
  location made by hand may hold any integers.
* `Line` is about the lines of a byte source. A line feed ends a line and belongs to it where a
  stream is cut into lines; it is left out, with the carriage returns before it, where a line is
  shown.
* A `Cursor` is a place to read on from: the byte that stands there and its position, the position
  that is read next, the number of the line, and where that line starts. It also holds the bytes
  that are still ahead. A new line starts when the cursor leaves a line feed, not when it comes to
  one. A cursor may be moved past the end of its source; its position then grows while line and line
  start stay.
-/

namespace MonkeyScan

structure Location where
  file : Text
  line : Int
  column : Int
deriving DecidableEq

/-- The form `file:line:column`. -/
def Location.render (l : Location) : Text :=
  l.file ++ (":" ++ Numeral.decimal l.line ++ ":" ++ Numeral.decimal l.column : String)

namespace Line

/-- The bytes from index `start` up to the next line feed, which is left out. -/
def bytesAt (source : Bytes) (start : Nat) : Bytes :=
  (source.drop start).takeWhile (· != Byte.lineFeed)

def trimEnd (s : String) : String :=
  String.ofList (s.toList.reverse.dropWhile (· == '\r')).reverse

/-- A line as it is quoted in a diagnostic. -/
def shown (line : Bytes) : String :=
  trimEnd (Utf8.decodeLossy line)

/-- Cuts after each line feed; the last line may lack one and is not empty. -/
def split : Bytes → List Bytes
  | [] => []
  | b :: rest =>
    if b = Byte.lineFeed then [b] :: split rest
    else
      match split rest with
      | [] => [[b]]
      | line :: more => (b :: line) :: more

end Line

structure Cursor where
  rest : Bytes
  /-- The byte under the cursor, or `Byte.nul` past the end. -/
  byte : UInt8
  position : Nat
  readPosition : Nat
  /-- The number of the line, counted from one. -/
  line : Nat
  lineStart : Nat
deriving DecidableEq

namespace Cursor

def start (source : Bytes) : Cursor where
  rest := source
  byte := source.headD Byte.nul
  position := 0
  readPosition := 1
  line := 1
  lineStart := 0

/-- The byte after the one under the cursor, or `Byte.nul` past the end. -/
def nextByte (c : Cursor) : UInt8 :=
  c.rest.tail.headD Byte.nul

/-- The end is told by position, so a `Byte.nul` in the source is not the end. -/
def atEnd (c : Cursor) : Bool :=
  c.rest.isEmpty

/-- Moves on by one byte; behind a line feed a new line starts. -/
def advance (c : Cursor) : Cursor where
  rest := c.rest.tail
  byte := c.rest.tail.headD Byte.nul
  position := c.readPosition
  readPosition := c.readPosition + 1
  line := if c.byte = Byte.lineFeed then c.line + 1 else c.line
  lineStart := if c.byte = Byte.lineFeed then c.readPosition else c.lineStart

def advanceBy (c : Cursor) : Nat → Cursor
  | 0 => c
  | n + 1 => c.advance.advanceBy n

def skipBlanks (c : Cursor) : Cursor :=
  c.advanceBy (c.rest.takeWhile Byte.isBlank).length

def location (c : Cursor) (file : Text) : Location :=
  ⟨file, c.line, (c.position : Int) - c.lineStart + 1⟩

theorem rest_advance (c : Cursor) : c.advance.rest = c.rest.tail := rfl

theorem rest_advanceBy (c : Cursor) (n : Nat) : (c.advanceBy n).rest = c.rest.drop n := by
  induction n generalizing c with
  | zero => rfl
  | succ n ih => rw [advanceBy, ih, rest_advance, List.drop_tail]

end Cursor
end MonkeyScan
