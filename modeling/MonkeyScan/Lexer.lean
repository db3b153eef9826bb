import MonkeyScan.Diagnostic
import MonkeyScan.Lexeme

/-!
# MonkeyScan.Lexer

A lexer reads tokens from a named source. `next` gives the token ahead, or the diagnostic that
takes its place, and leaves the cursor right behind the lexeme in both cases, so that scanning can
go on after an error. At the end of the source it gives the end token again and again.

* `nextBy` is `next` for any choice of the conversions that a scanner relies on (`Readers`), which
  may refuse what they are given. `isSome_nextBy` says that those of `next` never do: the bytes of
  words and numbers are ASCII, and numerals are short.
* `peek` looks without moving.
* `items` reads up to the first end token and keeps the diagnostics among the tokens, each with
  the part of the source it was read from.
* `drain` reads up to the first end token or diagnostic.

`rest_next_lt` says that each other token or diagnostic takes bytes away, which is why both end.
-/

namespace MonkeyScan

/-- How a lexer departs from its default behaviour. -/
structure Options where
  /-- Digits continue a word. -/
  digits : Bool := false
  /-- A stray byte is an error and no token. -/
  strict : Bool := false
deriving DecidableEq

/-- The conversions that a scanner relies on. One that refuses what it is given leaves the scanner
without a token and without a diagnostic. -/
structure Readers where
  /-- The text of the bytes of a word or a number. -/
  text : Bytes → Option String
  /-- The number that a run of digits stands for. -/
  number : Bytes → Option Nat

/-- Text has to be ASCII, and a numeral must not be too long. -/
def Readers.standard : Readers where
  text := Latin1.decodeAscii?
  number := Numeral.readWithin Numeral.digitLimit

structure Lexer where
  source : Bytes
  file : Text
  options : Options
  cursor : Cursor
deriving DecidableEq

/-- What a request to a lexer gives, what it records, and the lexer afterwards. -/
structure Step (α : Type) where
  result : α
  events : List Event
  lexer : Lexer
deriving DecidableEq

instance decidableEqExcept {α β : Type} [DecidableEq α] [DecidableEq β] :
    DecidableEq (Except α β)
  | .error a, .error b => decidable_of_iff (a = b) (by simp)
  | .ok a, .ok b => decidable_of_iff (a = b) (by simp)
  | .error _, .ok _ => isFalse (by simp)
  | .ok _, .error _ => isFalse (by simp)

/-- A token, or the diagnostic that takes its place. -/
abbrev Outcome := Except Diagnostic Token

/-- An outcome with the part of the source it was read from: the bytes from `start` up to `stop`,
which is left out. -/
structure Item where
  start : Nat
  stop : Nat
  outcome : Outcome
deriving DecidableEq

/-- Only the end token ends a scan; after a diagnostic it goes on. -/
def Outcome.isEnd : Outcome → Bool
  | .ok t => t.isEnd
  | .error _ => false

namespace Lexer

def start (source : Bytes) (file : Text) (options : Options) : Lexer :=
  ⟨source, file, options, .start source⟩

def location (lx : Lexer) : Location :=
  lx.cursor.location lx.file

/-- The line under the cursor, as a diagnostic quotes it. -/
def currentLine (lx : Lexer) : String :=
  Line.shown (Line.bytesAt lx.source lx.cursor.lineStart)

def advance (lx : Lexer) : Lexer :=
  { lx with cursor := lx.cursor.advance }

def skipBlanks (lx : Lexer) : Lexer :=
  { lx with cursor := lx.cursor.skipBlanks }

/-- What a lexeme is read as, unless a conversion is refused. -/
def readBy (readers : Readers) (lx : Lexer) : Lexeme → Option (Outcome × List Event)
  | .symbol k => some (.ok { kind := k, location := some lx.location }, [])
  | .word b more =>
    (readers.text (b :: more)).map fun word =>
      (.ok { Token.ofWord word with location := some lx.location }, [])
  | .number b more =>
    match readers.text (b :: more), Lexeme.integer? readers.number (b :: more) with
    | some _, some (some n) => some (.ok ⟨.integer, .number n, some lx.location⟩, [])
    | some literal, some none =>
      some (.error ⟨.integerOverflow literal (.number Lexeme.integerLimit), some lx.location,
          some lx.currentLine⟩,
        [.overflow lx.location literal])
    | _, _ => none
  | .stray b =>
    some (if lx.options.strict then
        .error ⟨.invalidCharacter b.toNat, some lx.location, some lx.currentLine⟩
      else .ok ⟨.illegal, .number b.toNat, some lx.location⟩,
      [.illegalByte lx.location b])

def endToken (lx : Lexer) : Token :=
  { kind := .endOfInput, location := some lx.location }

def nextBy (readers : Readers) (lx : Lexer) : Option (Step Outcome) :=
  let ahead := lx.skipBlanks
  match Lexeme.longest? lx.options.digits ahead.cursor.rest with
  | none => some ⟨.ok ahead.endToken, [], ahead⟩
  | some lexeme =>
    (ahead.readBy readers lexeme).map fun (outcome, events) =>
      ⟨outcome, events, { ahead with cursor := ahead.cursor.advanceBy lexeme.bytes.length }⟩

theorem isSome_readBy {lx : Lexer} {digits : Bool} {bs : Bytes} {l : Lexeme}
    (h : Lexeme.longest? digits bs = some l) : (lx.readBy .standard l).isSome := by
  cases l with
  | symbol k => rfl
  | word b more => simp [readBy, Readers.standard, Latin1.decodeAscii?, Lexeme.isAscii_of_word h]
  | number b more =>
    have hdigits := Lexeme.isDigit_of_number h
    have hascii : (b :: more).all Byte.isAscii :=
      List.all_eq_true.mpr fun c hc => Byte.isAscii_of_isDigit (List.all_eq_true.mp hdigits c hc)
    have hread := Lexeme.isSome_integer? hdigits
    simp only [readBy, Readers.standard, Latin1.decodeAscii?, if_pos hascii]
    match Lexeme.integer? (Numeral.readWithin Numeral.digitLimit) (b :: more), hread with
    | some (some n), _ => rfl
    | some none, _ => rfl
  | stray b => rfl

/-- Scanning never comes to a halt without an outcome. -/
theorem isSome_nextBy (lx : Lexer) : (lx.nextBy .standard).isSome := by
  simp only [nextBy]
  split
  · rfl
  · rename_i lexeme hl
    rw [Option.isSome_map]
    exact isSome_readBy hl

def next (lx : Lexer) : Step Outcome :=
  (lx.nextBy .standard).get lx.isSome_nextBy

/-- What `next` would give; the cursor is put back. -/
def peek (lx : Lexer) : Step Outcome :=
  let step := lx.next
  { step with lexer := { step.lexer with cursor := lx.cursor } }

/-! ## Reading to the end -/

theorem rest_skipBlanks (lx : Lexer) :
    lx.skipBlanks.cursor.rest = lx.cursor.rest.dropWhile Byte.isBlank := by
  simp only [skipBlanks, Cursor.skipBlanks, Cursor.rest_advanceBy]
  induction lx.cursor.rest with
  | nil => rfl
  | cons b rest ih => by_cases h : Byte.isBlank b <;> simp [h, ih]

/-- Whatever is not the end takes at least one byte. -/
theorem rest_next_lt {lx : Lexer} (h : ¬ lx.next.result.isEnd) :
    lx.next.lexer.cursor.rest.length < lx.cursor.rest.length := by
  have shorter : lx.skipBlanks.cursor.rest.length ≤ lx.cursor.rest.length := by
    rw [rest_skipBlanks]
    exact (List.dropWhile_sublist _).length_le
  have hnext : lx.nextBy .standard = some lx.next := (Option.some_get _).symm
  generalize lx.next = step at h hnext
  simp only [nextBy] at hnext
  split at hnext
  · cases hnext
    exact absurd rfl h
  · rename_i lexeme hl
    obtain ⟨read, -, rfl⟩ := Option.map_eq_some_iff.mp hnext
    have pos := Lexeme.bytes_pos hl
    have rest : lx.skipBlanks.cursor.rest ≠ [] := by
      intro hr
      simp [hr, Lexeme.longest?] at hl
    have restPos := List.length_pos_iff.mpr rest
    simp only [Cursor.rest_advanceBy, List.length_drop]
    omega

theorem rest_next_lt_of_token {lx : Lexer} {t : Token} (h : lx.next.result = .ok t)
    (ht : ¬ t.isEnd) : lx.next.lexer.cursor.rest.length < lx.cursor.rest.length :=
  rest_next_lt (by rw [h]; exact ht)

/-- All tokens and diagnostics up to the first end token, which is the last one. -/
def items (lx : Lexer) : Step (List Item) :=
  let step := lx.next
  let item := ⟨lx.skipBlanks.cursor.position, step.lexer.cursor.position, step.result⟩
  if _ : step.result.isEnd then ⟨[item], step.events, step.lexer⟩
  else
    let more := step.lexer.items
    ⟨item :: more.result, step.events ++ more.events, more.lexer⟩
termination_by lx.cursor.rest.length
decreasing_by exact rest_next_lt ‹_›

/-- The tokens up to the first end token, which is the last one, or up to the first diagnostic,
which is given apart. -/
def drain (lx : Lexer) : Step (List Token × Option Diagnostic) :=
  let step := lx.next
  match _ : step.result with
  | .error d => ⟨([], some d), step.events, step.lexer⟩
  | .ok t =>
    if _ : t.isEnd then ⟨([t], none), step.events, step.lexer⟩
    else
      let more := step.lexer.drain
      ⟨(t :: more.result.1, more.result.2), step.events ++ more.events, more.lexer⟩
termination_by lx.cursor.rest.length
decreasing_by exact rest_next_lt_of_token ‹_› ‹_›

end Lexer
end MonkeyScan
