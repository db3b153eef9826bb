import MonkeyScan.Kind

/-!
# MonkeyScan.Lexeme

The pieces of source that become tokens: symbols, words, numbers, and stray bytes, which start
none of the others. `longest?` takes the longest lexeme from the front of some bytes, looking at
one byte beyond it at most; `longest?_eq_none_iff` says that only the empty input has none, and
`bytes_pos` that a lexeme is never empty.

`integer?` reads a number within 64 bits, sign included. It counts the significant digits first, so
it asks for the value of short runs only.
-/

namespace MonkeyScan

inductive Lexeme where
  /-- An operator or a delimiter, spelled as its kind is. -/
  | symbol (kind : Kind)
  | word (first : UInt8) (more : Bytes)
  | number (first : UInt8) (more : Bytes)
  /-- A byte that starts no other lexeme. -/
  | stray (byte : UInt8)
deriving DecidableEq

namespace Lexeme

def bytes : Lexeme → Bytes
  | .symbol k => Latin1.encode (k.spelling?.getD "")
  | .word b more => b :: more
  | .number b more => b :: more
  | .stray b => [b]

/-- The lexeme that starts with `=` or `!`, which may be followed by a second `=`. -/
def comparison (first : UInt8) (rest : Bytes) : Kind :=
  match rest.head? == some Byte.equals, first == Byte.equals with
  | true, true => .equal
  | true, false => .notEqual
  | false, true => .assign
  | false, false => .bang

/-- The longest lexeme at the front of some bytes that do not start with a blank. -/
def longest? (digits : Bool) : Bytes → Option Lexeme
  | [] => none
  | b :: rest =>
    if b == Byte.equals || b == Byte.bang then some (.symbol (comparison b rest))
    else
      match Kind.ofSymbol? b with
      | some k => some (.symbol k)
      | none =>
        if Byte.isLetter b then some (.word b (rest.takeWhile (Byte.continuesWord digits)))
        else if Byte.isDigit b then some (.number b (rest.takeWhile Byte.isDigit))
        else some (.stray b)

theorem longest?_eq_none_iff {digits : Bool} {bs : Bytes} :
    longest? digits bs = none ↔ bs = [] := by
  cases bs with
  | nil => simp [longest?]
  | cons b rest =>
    simp only [longest?, reduceCtorEq, iff_false]
    repeat' split
    all_goals simp

/-- The kinds of the table of symbols have a spelling of one byte. -/
theorem bytes_of_symbol {b : UInt8} {k : Kind} (h : Kind.ofSymbol? b = some k) :
    (symbol k).bytes = [b] := by
  obtain ⟨l₁, l₂, hl, -⟩ := List.lookup_eq_some_iff.mp h
  have spelled : ∀ entry ∈ Kind.symbols, (symbol entry.2).bytes = [entry.1] := by decide
  exact spelled (b, k) (by simp [hl])

theorem bytes_pos {digits : Bool} {bs : Bytes} {l : Lexeme} (h : longest? digits bs = some l) :
    0 < l.bytes.length := by
  cases bs with
  | nil => simp [longest?] at h
  | cons b rest =>
    simp only [longest?] at h
    split at h
    · cases h
      simp only [comparison]
      split <;> decide
    · split at h
      · rename_i k hk
        cases h
        simp [bytes_of_symbol hk]
      · split at h
        · cases h; simp [bytes]
        · split at h
          · cases h; simp [bytes]
          · cases h; simp [bytes]

theorem isAscii_of_word {digits : Bool} {bs : Bytes} {b : UInt8} {more : Bytes}
    (h : longest? digits bs = some (.word b more)) : (b :: more).all Byte.isAscii := by
  cases bs with
  | nil => cases h
  | cons c rest =>
    simp only [longest?] at h
    repeat' split at h
    all_goals try cases h
    rename_i hletter
    have hfirst : Byte.continuesWord digits b := by simp [Byte.continuesWord, hletter]
    rw [List.all_cons, Byte.isAscii_of_continuesWord hfirst, Bool.true_and, List.all_eq_true]
    exact fun c hc => Byte.isAscii_of_continuesWord (List.all_eq_true.mp List.all_takeWhile c hc)

theorem isDigit_of_number {digits : Bool} {bs : Bytes} {b : UInt8} {more : Bytes}
    (h : longest? digits bs = some (.number b more)) : (b :: more).all Byte.isDigit := by
  cases bs with
  | nil => cases h
  | cons c rest =>
    simp only [longest?] at h
    repeat' split at h
    all_goals try cases h
    rename_i hdigit
    rw [List.all_cons, hdigit, Bool.true_and, List.all_takeWhile]

/-! ## Integer literals -/

def integerLimit : Nat := Nat.pow 2 63 - 1

def limitDigits : Nat := 19

/-- The numeral that is read in place of a run of digits: the zeros in front are left out, but for
one if there are only zeros. -/
def numeral (digits : Bytes) : Bytes :=
  match digits.dropWhile (· == 48) with
  | [] => [48]
  | significant => significant

/-- The value of a run of digits, if it is within the limit. The reader of numerals may refuse. -/
def integer? (read : Bytes → Option Nat) (digits : Bytes) : Option (Option Nat) :=
  if limitDigits < (digits.dropWhile (· == 48)).length then some none
  else
    match read (numeral digits) with
    | none => none
    | some n => if integerLimit < n then some none else (read (numeral digits)).map some

theorem numeral_spec {bs : Bytes} (h : bs.all Byte.isDigit)
    (hshort : (bs.dropWhile (· == 48)).length ≤ limitDigits) :
    1 ≤ (numeral bs).length ∧ (numeral bs).length ≤ limitDigits ∧
      (numeral bs).all Byte.isDigit := by
  unfold numeral
  split
  · decide
  · rename_i significant hne
    refine ⟨List.length_pos_iff.mpr hne, hshort, ?_⟩
    rw [List.all_eq_true] at h ⊢
    exact fun b hb => h b ((List.dropWhile_sublist _).subset hb)

theorem isSome_integer? {bs : Bytes} (h : bs.all Byte.isDigit) :
    (integer? (Numeral.readWithin Numeral.digitLimit) bs).isSome := by
  unfold integer?
  split
  · rfl
  · rename_i hlong
    obtain ⟨hpos, hle, hdigits⟩ := numeral_spec h (Nat.not_lt.mp hlong)
    have hread : Numeral.readWithin Numeral.digitLimit (numeral bs) =
        some (Numeral.value (numeral bs)) :=
      if_pos ⟨hpos, Nat.le_trans hle (by decide), hdigits⟩
    simp only [hread, Option.map_some]
    split <;> rfl

end Lexeme
end MonkeyScan
