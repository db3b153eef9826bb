import MonkeyScan.Cursor
import MonkeyScan.Kind

/-!
# MonkeyScan.Token

A token is a kind with a payload, and may carry the location where it starts. Two tokens count as
the same when kind and payload agree (`Token.same`); locations serve diagnostics only.

The scanner gives a name to identifiers, a number to integer literals and a byte to illegal tokens,
but a token made by hand may combine any payload with any kind.
-/

namespace MonkeyScan

/-- What a token carries besides its kind: nothing, an integer of any size, or a text. -/
inductive Payload where
  | absent
  | number (n : Int)
  | text (s : Text)
deriving DecidableEq, Hashable

namespace Payload

/-- The payload as text; the word for an absent one is `None`. -/
def plain : Payload → Text
  | .absent => "None"
  | .number n => Numeral.decimal n
  | .text s => s

/-- The payload as a literal, in which a text is quoted and so differs from a number. -/
def quoted : Payload → String
  | .absent => "None"
  | .number n => Numeral.decimal n
  | .text s => Quoted.encode s

/-- Only a number can have too many digits to be written. -/
def isWritable : Payload → Bool
  | .number n => Numeral.isWritable n
  | _ => true

end Payload

structure Token where
  kind : Kind
  payload : Payload := .absent
  location : Option Location := none
deriving DecidableEq

/-- Why a token cannot be written: an illegal token is spelled by the byte it carries, and a number
may have too many digits. -/
inductive TokenError where
  | noByte
  | noPayload
  | notNumber
  | tooLong
deriving DecidableEq

def TokenError.message : TokenError → String
  | .noByte => "bytes must be in range(0, 256)"
  | .noPayload => "'NoneType' object cannot be interpreted as an integer"
  | .notNumber => "'str' object cannot be interpreted as an integer"
  | .tooLong =>
    "Exceeds the limit (" ++ Numeral.decimal Numeral.digitLimit ++
      " digits) for integer string conversion; use sys.set_int_max_str_digits() to increase the limit"

namespace Token

/-- What is compared. -/
def key (t : Token) : Kind × Payload :=
  (t.kind, t.payload)

def same (a b : Token) : Bool :=
  a.key == b.key

def hashCode (t : Token) : UInt64 :=
  hash t.key

/-- How many tokens of a list differ from one another. -/
def distinct (tokens : List Token) : Nat :=
  (tokens.map key).eraseDups.length

/-- The form of the token: its kind and, if it carries one, its payload. -/
def render (t : Token) : String :=
  match t.payload with
  | .absent => "Token(" ++ t.kind.name ++ ")"
  | p => "Token(" ++ t.kind.name ++ ", " ++ p.quoted ++ ")"

/-- The form as shown to a reader, who gets none if the payload is too long. No token of a scan is,
so listings show the form itself. -/
def render? (t : Token) : Except TokenError String :=
  if t.payload.isWritable then .ok t.render else .error .tooLong

/-- The token after its line and column, if it has a location. -/
def renderLocated (t : Token) : String :=
  match t.location with
  | none => t.render
  | some l => Numeral.decimal l.line ++ ":" ++ Numeral.decimal l.column ++ "\t" ++ t.render

/-- The source text of the token. An identifier is spelled by its payload, whatever that is; an
illegal byte reads as the character of the same number. -/
def literal (t : Token) : Except TokenError Payload :=
  match t.kind with
  | .identifier => .ok t.payload
  | .integer => if t.payload.isWritable then .ok (.text t.payload.plain) else .error .tooLong
  | .illegal =>
    match t.payload with
    | .absent => .error .noPayload
    | .text _ => .error .notNumber
    | .number n =>
      if 0 ≤ n ∧ n < 256 then .ok (.text (Latin1.decode [UInt8.ofNat n.toNat]))
      else .error .noByte
  | k => .ok (.text (k.spelling?.getD ""))

def isEnd (t : Token) : Bool :=
  t.kind == .endOfInput

def isReserved (t : Token) : Bool :=
  t.kind.isReserved

def isOperator (t : Token) : Bool :=
  t.kind.isOperator

def ofReserved? (word : String) : Option Token :=
  (Kind.ofReserved? word).map fun k => { kind := k }

/-- The token of a word: a reserved word's own, or an identifier that carries the word. -/
def ofWord (word : String) : Token :=
  (ofReserved? word).getD { kind := .identifier, payload := .text word }

end Token
end MonkeyScan
