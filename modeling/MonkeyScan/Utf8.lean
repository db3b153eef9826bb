import MonkeyScan.Text

/-!
# MonkeyScan.Utf8

UTF-8 in both directions, for texts that may hold surrogates and for bytes that may be malformed.

* `encode` writes an escape as the byte it stands for and refuses every other surrogate; the
  refusal names the first one and the unbroken run of surrogates from it on.
* `segments` cuts bytes into scalar values and maximal malformed runs. Such a run is as long as it
  could still have been the start of a well-formed sequence, and a single byte where none starts.
* `decodeLossy` shows each malformed run as one replacement character, and `decodeEscaped` keeps
  it as one escape for each byte.
-/

namespace MonkeyScan
namespace Utf8

/-! ## Writing -/

/-- The bytes of the scalar value with this number: one up to `0x7F`, four from `0x10000` on. -/
def encodeScalar (n : Nat) : Bytes :=
  if n < 0x80 then [UInt8.ofNat n]
  else if n < 0x800 then
    [UInt8.ofNat (0xC0 + n / 0x40), UInt8.ofNat (0x80 + n % 0x40)]
  else if n < 0x10000 then
    [UInt8.ofNat (0xE0 + n / 0x1000), UInt8.ofNat (0x80 + n / 0x40 % 0x40),
      UInt8.ofNat (0x80 + n % 0x40)]
  else
    [UInt8.ofNat (0xF0 + n / 0x40000), UInt8.ofNat (0x80 + n / 0x1000 % 0x40),
      UInt8.ofNat (0x80 + n / 0x40 % 0x40), UInt8.ofNat (0x80 + n % 0x40)]

/-- The bytes of a code point; a surrogate that is no escape has none. -/
def encodePoint? (c : CodePoint) : Option Bytes :=
  if c.isEscape then some [UInt8.ofNat (c.number - 0xDC00)]
  else if c.isSurrogate then none
  else some (encodeScalar c.number)

/-- Why a text has no bytes: the first surrogate that is no escape, its index, and the index of
the last surrogate in the run that starts there. -/
structure Unencodable where
  first : Nat
  last : Nat
  point : CodePoint
deriving DecidableEq

def Unencodable.message (e : Unencodable) : String :=
  "'utf-8' codec can't encode " ++
    (if e.first = e.last then
      "character '\\u" ++ String.ofList (Numeral.hexLower 4 e.point.number) ++ "' in position " ++
        Numeral.decimal e.first
    else
      "characters in position " ++ Numeral.decimal e.first ++ "-" ++ Numeral.decimal e.last) ++
    ": surrogates not allowed"

/-- The bytes of a text whose first code point has index `i`. -/
def encodeFrom (i : Nat) : Text → Except Unencodable Bytes
  | [] => .ok []
  | c :: rest =>
    match encodePoint? c with
    | none => .error ⟨i, i + (rest.takeWhile CodePoint.isSurrogate).length, c⟩
    | some bs =>
      match encodeFrom (i + 1) rest with
      | .error e => .error e
      | .ok more => .ok (bs ++ more)

def encode (t : Text) : Except Unencodable Bytes :=
  encodeFrom 0 t

/-! ## Reading -/

/-- What a byte announces that starts a sequence of two to four bytes. -/
structure Lead where
  following : Nat
  /-- The least second byte, which rules out overlong forms. -/
  low : UInt8
  /-- The greatest second byte, which rules out surrogates and numbers above `0x10FFFF`. -/
  high : UInt8
  bits : Nat

def Lead.of? (b : UInt8) : Option Lead :=
  if b < 0xC2 then none
  else if b ≤ 0xDF then some ⟨1, 0x80, 0xBF, b.toNat - 0xC0⟩
  else if b = 0xE0 then some ⟨2, 0xA0, 0xBF, 0⟩
  else if b = 0xED then some ⟨2, 0x80, 0x9F, 0xD⟩
  else if b ≤ 0xEF then some ⟨2, 0x80, 0xBF, b.toNat - 0xE0⟩
  else if b = 0xF0 then some ⟨3, 0x90, 0xBF, 0⟩
  else if b ≤ 0xF3 then some ⟨3, 0x80, 0xBF, b.toNat - 0xF0⟩
  else if b = 0xF4 then some ⟨3, 0x80, 0x8F, 4⟩
  else none

/-- At most `n` bytes from the front: the first within the bounds, the others continuations. -/
def continuation : Nat → UInt8 → UInt8 → Bytes → Bytes
  | 0, _, _, _ => []
  | _ + 1, _, _, [] => []
  | n + 1, low, high, b :: rest =>
    if low ≤ b ∧ b ≤ high then b :: continuation n 0x80 0xBF rest else []

/-- A part of a byte sequence read as UTF-8. -/
inductive Segment where
  | scalar (c : Char)
  | malformed (bytes : Bytes)
deriving DecidableEq

/-- The number made of the bits of a first byte and six bits from each following one. -/
def assemble (bits : Nat) (following : Bytes) : Nat :=
  following.foldl (fun n b => 0x40 * n + (b.toNat - 0x80)) bits

def segments : Bytes → List Segment
  | [] => []
  | b :: rest =>
    if b < 0x80 then .scalar (Latin1.char b) :: segments rest
    else
      match Lead.of? b with
      | none => .malformed [b] :: segments rest
      | some lead =>
        let following := continuation lead.following lead.low lead.high rest
        let segment :=
          if following.length = lead.following then
            .scalar (Char.ofNat (assemble lead.bits following))
          else .malformed (b :: following)
        segment :: segments (rest.drop following.length)
termination_by bs => bs.length
decreasing_by all_goals simp only [List.length_cons, List.length_drop]; omega

/-- One replacement character for each malformed run. -/
def decodeLossy (bs : Bytes) : String :=
  String.ofList <| (segments bs).map fun
    | .scalar c => c
    | .malformed _ => Char.ofNat 0xFFFD

/-- One escape for each byte of a malformed run. -/
def decodeEscaped (bs : Bytes) : Text :=
  (segments bs).flatMap fun
    | .scalar c => [CodePoint.ofChar c]
    | .malformed run => run.map CodePoint.ofByte

end Utf8
end MonkeyScan
