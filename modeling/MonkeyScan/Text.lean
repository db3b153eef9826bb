import MonkeyScan.Byte

/-!
# MonkeyScan.Text

Text given by code points. Unlike a `String`, such a text may hold surrogates. Those from
`U+DC80` to `U+DCFF` are escapes: each stands for one byte that was not UTF-8. Names of files are
such texts, and so are the messages that quote them.

`Quoted.encode` gives the quoted form of a text. It stands between apostrophes, or between double
quotes if the text holds an apostrophe and no double quote. Inside, the backslash, the mark in use,
the control characters and the surrogates are escaped, so the quoted form is one line of characters.
-/

namespace MonkeyScan

structure CodePoint where
  number : Nat
  number_lt : number < 0x110000 := by omega
deriving DecidableEq

/-- A sequence of code points, surrogates included. -/
abbrev Text := List CodePoint

namespace CodePoint

instance : Hashable CodePoint := ⟨fun c => hash c.number⟩

def isSurrogate (c : CodePoint) : Bool :=
  0xD800 ≤ c.number && c.number ≤ 0xDFFF

/-- An escape is a surrogate that stands for a byte from `0x80` on. -/
def isEscape (c : CodePoint) : Bool :=
  0xDC80 ≤ c.number && c.number ≤ 0xDCFF

def ofChar (c : Char) : CodePoint where
  number := c.toNat
  number_lt := by
    have h := c.valid
    simp only [UInt32.isValidChar, Nat.isValidChar] at h
    simp only [Char.toNat]
    omega

def ofByte (b : UInt8) : CodePoint where
  number := 0xDC00 + b.toNat
  number_lt := by
    have h := b.toNat_lt
    omega

/-- The character of a code point; a surrogate is none. -/
def char? (c : CodePoint) : Option Char :=
  if h : c.number.isValidChar then some (Char.ofNatAux c.number h) else none

end CodePoint

namespace Text

def ofString (s : String) : Text :=
  s.toList.map CodePoint.ofChar

instance : Coe String Text := ⟨ofString⟩

/-- The text as it is put out, with each surrogate spelled by its number. -/
def spelled (t : Text) : String :=
  String.ofList <| t.flatMap fun c =>
    match c.char? with
    | some ch => [ch]
    | none => '\x5c' :: 'u' :: Numeral.hexLower 4 c.number

end Text

/-! ## Quoted forms -/

namespace Quoted

def apostrophe : Char := '\x27'

def doubleQuote : Char := '\x22'

def backslash : Char := '\x5c'

/-- The mark that a text is quoted with. -/
def mark (t : Text) : Char :=
  if CodePoint.ofChar apostrophe ∈ t ∧ CodePoint.ofChar doubleQuote ∉ t then doubleQuote
  else apostrophe

/-- A control character has no printed form; the soft hyphen and the no-break space count too. -/
def isControl (c : Char) : Bool :=
  c.toNat < 0x20 || (0x7F ≤ c.toNat && c.toNat ≤ 0xA0) || c.toNat == 0xAD

def escapeChar (m c : Char) : List Char :=
  if c = m ∨ c = backslash then [backslash, c]
  else if c = '\t' then [backslash, 't']
  else if c = '\n' then [backslash, 'n']
  else if c = '\r' then [backslash, 'r']
  else if isControl c then backslash :: 'x' :: Numeral.hexLower 2 c.toNat
  else [c]

/-- A surrogate has no printed form either. -/
def escape (m : Char) (c : CodePoint) : List Char :=
  match c.char? with
  | some ch => escapeChar m ch
  | none => backslash :: 'u' :: Numeral.hexLower 4 c.number

def encode (t : Text) : String :=
  let m := mark t
  String.ofList (m :: t.flatMap (escape m) ++ [m])

end Quoted
end MonkeyScan
