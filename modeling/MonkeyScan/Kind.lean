import MonkeyScan.Byte

/-!
# MonkeyScan.Kind

The closed set of token kinds with their names, their fixed spellings, and the two tables that the
scanner consults: the reserved words and the symbols of a single byte.
-/

namespace MonkeyScan

inductive Kind where
  | illegal
  | endOfInput
  | identifier
  | integer
  | assign
  | plus
  | minus
  | bang
  | asterisk
  | slash
  | less
  | greater
  | equal
  | notEqual
  | comma
  | semicolon
  | leftParen
  | rightParen
  | leftBrace
  | rightBrace
  | fnWord
  | letWord
  | trueWord
  | falseWord
  | ifWord
  | elseWord
  | returnWord
deriving DecidableEq, Hashable

namespace Kind

def all : List Kind :=
  [.illegal, .endOfInput, .identifier, .integer, .assign, .plus, .minus, .bang, .asterisk, .slash,
    .less, .greater, .equal, .notEqual, .comma, .semicolon, .leftParen, .rightParen, .leftBrace,
    .rightBrace, .fnWord, .letWord, .trueWord, .falseWord, .ifWord, .elseWord, .returnWord]

theorem mem_all (k : Kind) : k ∈ all := by
  cases k <;> decide

def name : Kind → String
  | .illegal => "ILLEGAL"
  | .endOfInput => "EOF"
  | .identifier => "IDENT"
  | .integer => "INT"
  | .assign => "ASSIGN"
  | .plus => "PLUS"
  | .minus => "MINUS"
  | .bang => "BANG"
  | .asterisk => "ASTERISK"
  | .slash => "SLASH"
  | .less => "LT"
  | .greater => "GT"
  | .equal => "EQ"
  | .notEqual => "NOT_EQ"
  | .comma => "COMMA"
  | .semicolon => "SEMICOLON"
  | .leftParen => "LPAREN"
  | .rightParen => "RPAREN"
  | .leftBrace => "LBRACE"
  | .rightBrace => "RBRACE"
  | .fnWord => "FUNCTION"
  | .letWord => "LET"
  | .trueWord => "TRUE"
  | .falseWord => "FALSE"
  | .ifWord => "IF"
  | .elseWord => "ELSE"
  | .returnWord => "RETURN"

def ofName? (name : String) : Option Kind :=
  all.find? fun k => k.name == name

/-- The place of a kind in the order, counted from one. -/
def number (k : Kind) : Nat :=
  all.idxOf k + 1

/-- The words that are no identifiers, each with its kind. -/
def reserved : List (String × Kind) :=
  [("fn", .fnWord), ("let", .letWord), ("true", .trueWord), ("false", .falseWord),
    ("if", .ifWord), ("else", .elseWord), ("return", .returnWord)]

/-- The kind of a reserved word, which has to match in full and in case. -/
def ofReserved? (word : String) : Option Kind :=
  reserved.lookup word

/-- The symbols that are one byte long and start no longer one. -/
def symbols : List (UInt8 × Kind) :=
  [(40, .leftParen), (41, .rightParen), (42, .asterisk), (43, .plus), (44, .comma), (45, .minus),
    (47, .slash), (59, .semicolon), (60, .less), (62, .greater), (123, .leftBrace),
    (125, .rightBrace)]

def ofSymbol? (b : UInt8) : Option Kind :=
  symbols.lookup b

/-- The spelling of a kind that has only one. -/
def spelling? : Kind → Option String
  | .illegal => none
  | .endOfInput => some ""
  | .identifier => none
  | .integer => none
  | .assign => some "="
  | .plus => some "+"
  | .minus => some "-"
  | .bang => some "!"
  | .asterisk => some "*"
  | .slash => some "/"
  | .less => some "<"
  | .greater => some ">"
  | .equal => some "=="
  | .notEqual => some "!="
  | .comma => some ","
  | .semicolon => some ";"
  | .leftParen => some "("
  | .rightParen => some ")"
  | .leftBrace => some "\x7b"
  | .rightBrace => some "\x7d"
  | .fnWord => some "fn"
  | .letWord => some "let"
  | .trueWord => some "true"
  | .falseWord => some "false"
  | .ifWord => some "if"
  | .elseWord => some "else"
  | .returnWord => some "return"

def isReserved (k : Kind) : Bool :=
  reserved.any fun entry => entry.2 == k

/-- The operators, delimiters left out. -/
def operators : List Kind :=
  [.assign, .plus, .minus, .bang, .asterisk, .slash, .less, .greater, .equal, .notEqual]

def isOperator (k : Kind) : Bool :=
  operators.contains k

end Kind
end MonkeyScan
