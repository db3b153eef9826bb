import MonkeyScan.Lexer

/-!
# MonkeyScan.Command.Arguments

The words of a command line. Options and operands may come in any order, and after `--` every word
is an operand, as is a lone `-`. Short options combine in one word. The option for an expression
takes the rest of its word or the whole next word, whatever that is; if it comes twice, the last
one counts. Reading goes from left to right and ends at the first error.
-/

namespace MonkeyScan
namespace Command

/-- Text that is asked for in place of a scan. -/
inductive Notice where
  | help
  | version
deriving DecidableEq

structure Arguments where
  options : Options := {}
  verbose : Bool := false
  expression : Option Text := none
  /-- The first notice asked for. -/
  notice : Option Notice := none
  operands : List Text := []
deriving DecidableEq

inductive OptionName where
  | expression
  | digits
  | strict
  | verbose
  | version
  | help
deriving DecidableEq

namespace OptionName

def long : OptionName → String
  | .expression => "--expr"
  | .digits => "--digits-in-identifiers"
  | .strict => "--strict"
  | .verbose => "--verbose"
  | .version => "--version"
  | .help => "--help"

def short? : OptionName → Option Char
  | .expression => some 'e'
  | .verbose => some 'v'
  | _ => none

def all : List OptionName :=
  [.expression, .digits, .strict, .verbose, .version, .help]

def ofLong? (name : Text) : Option OptionName :=
  all.find? fun o => Text.ofString o.long == name

def ofShort? (c : CodePoint) : Option OptionName :=
  all.find? fun o => o.short?.map CodePoint.ofChar == some c

end OptionName

inductive ArgumentError where
  | missingValue (option : String)
  | unexpectedValue (option : String)
  | unknownOption (name : Text)
deriving DecidableEq

namespace Arguments

def dash : CodePoint := .ofChar '-'

def equals : CodePoint := .ofChar '='

def set (a : Arguments) : OptionName → Arguments
  | .digits => { a with options := { a.options with digits := true } }
  | .strict => { a with options := { a.options with strict := true } }
  | .verbose => { a with verbose := true }
  | .version => { a with notice := a.notice.orElse fun _ => some .version }
  | .help => { a with notice := a.notice.orElse fun _ => some .help }
  | .expression => a

/-- The arguments after a word, and the option whose value is the next word, if there is one. -/
abbrev Reading := Except ArgumentError (Arguments × Option String)

/-- Reads the letters of a word of short options. -/
def readShort (a : Arguments) : Text → Reading
  | [] => .ok (a, none)
  | c :: more =>
    match OptionName.ofShort? c with
    | none => .error (.unknownOption [dash, c])
    | some .expression =>
      match more with
      | [] => .ok (a, some "-e")
      | value => .ok ({ a with expression := some value }, none)
    | some o => readShort (a.set o) more

/-- Reads a long option, with the text behind the first equals sign if there is one. -/
def readLong (a : Arguments) (o : OptionName) (value : Option Text) : Reading :=
  match o, value with
  | .expression, none => .ok (a, some o.long)
  | .expression, some text => .ok ({ a with expression := some text }, none)
  | _, none => .ok (a.set o, none)
  | _, some _ => .error (.unexpectedValue o.long)

/-- Reads a word that starts with a dash and goes on. A word that starts with one dash only and is
no long option is a word of short ones. -/
def readOption (a : Arguments) (word : Text) : Reading :=
  let name := word.takeWhile (· != equals)
  let value :=
    match word.dropWhile (· != equals) with
    | [] => none
    | _ :: text => some text
  match OptionName.ofLong? name with
  | some o => a.readLong o value
  | none =>
    if word.take 2 == [dash, dash] then .error (.unknownOption name)
    else a.readShort (word.drop 1)

def isOption (word : Text) : Bool :=
  word.head? == some dash && 1 < word.length

def read (a : Arguments) : List Text → Except ArgumentError Arguments
  | [] => .ok a
  | word :: rest =>
    if word == [dash, dash] then .ok { a with operands := a.operands ++ rest }
    else if isOption word then
      match a.readOption word with
      | .error e => .error e
      | .ok (a, none) => a.read rest
      | .ok (a, some option) =>
        match rest with
        | [] => .error (.missingValue option)
        | value :: rest => read { a with expression := some value } rest
    else read { a with operands := a.operands ++ [word] } rest

end Arguments
end Command
end MonkeyScan
