/-!
# MonkeyScan.Byte

A source is a list of bytes. This module names the bytes that matter to the scanner and the
classes they fall into: blanks separate lexemes, a letter or the underscore starts a word, a
digit starts a number. All of them are ASCII, so a byte from `0x80` on is in no class.

Bytes are read as text and as numbers, and numbers are written as text.

* `Latin1`: byte `n` is character `n`. The reading agrees with ASCII and loses nothing:
  `Latin1.encode_decode` says that the bytes come back, and `Latin1.decode_encode` that a text comes
  back that has no character above `0xFF`.
* `Numeral`: decimal numerals with a minus sign, and hexadecimal numerals padded to a width. Reading
  is needed for decimal digit bytes only.
-/

namespace MonkeyScan

abbrev Bytes := List UInt8

namespace Byte

def tab : UInt8 := 9

def lineFeed : UInt8 := 10

def carriageReturn : UInt8 := 13

def space : UInt8 := 32

def bang : UInt8 := 33

def equals : UInt8 := 61

/-- The byte that stands for "no byte" beyond the end of a source. -/
def nul : UInt8 := 0

/-- Blanks separate lexemes and belong to none. -/
def isBlank (b : UInt8) : Bool :=
  b == space || b == tab || b == lineFeed || b == carriageReturn

/-- A letter is an ASCII letter or the underscore. -/
def isLetter (b : UInt8) : Bool :=
  (97 ≤ b && b ≤ 122) || (65 ≤ b && b ≤ 90) || b == 95

def isDigit (b : UInt8) : Bool :=
  48 ≤ b && b ≤ 57

/-- A word goes on with letters and, if `digits` is set, with digits too. -/
def continuesWord (digits : Bool) (b : UInt8) : Bool :=
  isLetter b || (digits && isDigit b)

def isAscii (b : UInt8) : Bool :=
  b < 0x80

/-- What continues a word is ASCII, and so is what continues a number. -/
theorem isAscii_of_continuesWord {digits : Bool} {b : UInt8} (h : continuesWord digits b) :
    isAscii b := by
  simp only [continuesWord, isLetter, isDigit, isAscii, Bool.or_eq_true, Bool.and_eq_true,
    decide_eq_true_eq, beq_iff_eq, UInt8.le_iff_toNat_le, UInt8.lt_iff_toNat_lt,
    ← UInt8.toNat_inj, UInt8.reduceToNat] at h ⊢
  omega

theorem isAscii_of_isDigit {b : UInt8} (h : isDigit b) : isAscii b :=
  @isAscii_of_continuesWord true b (by simp [continuesWord, h])

/-- An integer belongs to a class of bytes when it is the number of a byte of that class. -/
def holdsOf (p : UInt8 → Bool) (code : Int) : Bool :=
  0 ≤ code && code < 256 && p (UInt8.ofNat code.toNat)

end Byte

/-! ## Bytes as text -/

namespace Latin1

def char (b : UInt8) : Char := Char.ofUInt8 b

def decode (bs : Bytes) : String :=
  String.ofList (bs.map char)

/-- The text of bytes that are all ASCII. -/
def decodeAscii? (bs : Bytes) : Option String :=
  if bs.all Byte.isAscii then some (decode bs) else none

/-- A character above `0xFF` has no byte of its own and keeps its low eight bits. -/
def encode (s : String) : Bytes :=
  s.toList.map fun c => UInt8.ofNat c.toNat

theorem encode_decode (bs : Bytes) : encode (decode bs) = bs := by
  simp only [encode, decode, String.toList_ofList, List.map_map]
  induction bs with
  | nil => rfl
  | cons b rest ih =>
    have hb : UInt8.ofNat (char b).toNat = b := UInt8.ofNat_toNat
    simp only [List.map_cons, Function.comp_apply, hb, ih]

theorem char_ofNat_toNat {c : Char} (h : c.toNat < 256) : char (UInt8.ofNat c.toNat) = c := by
  apply Char.toNat_inj.mp
  show (UInt8.ofNat c.toNat).toNat = c.toNat
  rw [UInt8.toNat_ofNat', Nat.mod_eq_of_lt h]

theorem decode_encode {s : String} (h : ∀ c ∈ s.toList, c.toNat < 256) : decode (encode s) = s := by
  have hmap : s.toList.map (fun c => char (UInt8.ofNat c.toNat)) = s.toList.map id :=
    List.map_congr_left fun c hc => char_ofNat_toNat (h c hc)
  simp only [decode, encode, List.map_map, Function.comp_def]
  rw [hmap, List.map_id, String.ofList_toList]

end Latin1

/-! ## Numbers as text -/

namespace Numeral

/-- Decimal digits without leading zeros, after a minus sign if the number is negative. -/
def decimal : Int → String
  | .ofNat n => n.repr
  | .negSucc n => "-" ++ (n + 1).repr

/-- Lower-case hexadecimal digits, with zeros in front up to `width` characters. -/
def hexLower (width n : Nat) : List Char :=
  (Nat.toDigits 16 n).leftpad width '0'

/-- Upper-case hexadecimal digits; a minus sign counts as one of the `width` characters. -/
def hexUpper (width : Nat) : Int → String
  | .ofNat n => String.ofList ((hexLower width n).map Char.toUpper)
  | .negSucc n => String.ofList ('-' :: (hexLower (width - 1) (n + 1)).map Char.toUpper)

def value (digits : Bytes) : Nat :=
  digits.foldl (fun n b => 10 * n + (b.toNat - 48)) 0

/-- Decimal numerals of more digits are refused, to be read and to be written. -/
def digitLimit : Nat := 4300

/-- The number that some digits stand for, `limit` of them at most. -/
def readWithin (limit : Nat) (digits : Bytes) : Option Nat :=
  if 1 ≤ digits.length ∧ digits.length ≤ limit ∧ digits.all Byte.isDigit then some (value digits)
  else none

/-- The number has few enough decimal digits to be written. -/
def isWritable (n : Int) : Bool :=
  (Nat.toDigits 10 n.natAbs).length ≤ digitLimit

end Numeral
end MonkeyScan
