import MonkeyScan.Proofs.Tracking

/-!
# MonkeyScan.Proofs.Literals

Integer literals of any length, with any number of zeros in front. The scanner counts the
significant digits of a literal before it asks for the value, so it never has to read a long
numeral: with any reader that is exact on numerals of 1 to 19 digits it does what it does with its
own.

`Session.integers_exact` states what a scanner gives for a literal, in a session at any time: the
number if it fits in 64 bits, sign included, and otherwise a diagnostic with all digits in it.
-/

namespace MonkeyScan

open Grammar

namespace Grammar

/-- The digits of a source from a position on, up to the first byte that is none. -/
def digitsFrom (source : Bytes) (position : Nat) : Bytes :=
  (source.drop position).takeWhile (Digit ·)

theorem takeWhile_digit (bs : Bytes) : bs.takeWhile (Digit ·) = bs.takeWhile Byte.isDigit := by
  congr 1
  funext b
  rw [Bool.eq_iff_iff, decide_eq_true_iff, isDigit_iff]

theorem long_beyond_limit {bs : Bytes} (h : ∀ b ∈ bs, Digit b)
    (hlong : 19 < (bs.dropWhile (· == zero)).length) : 2 ^ 63 - 1 < decimalValue bs := by
  rw [← value_eq_decimalValue]
  exact limit_lt_of_long h hlong

end Grammar

/-! ## The scanner -/

/-- What a lexer gives for the digits ahead of it, and where it is then. -/
structure Lexer.ReadsInteger (lx : Lexer) (digits : Bytes) : Prop where
  fits : decimalValue digits ≤ 2 ^ 63 - 1 →
    lx.next.result = .ok ⟨.integer, .number (decimalValue digits), some lx.location⟩
  beyond : 2 ^ 63 - 1 < decimalValue digits →
    lx.next.result = .error ⟨.integerOverflow (Latin1.decode digits) (.number (2 ^ 63 - 1)),
      some lx.location, some lx.currentLine⟩
  behind : lx.next.lexer.cursor.position = lx.cursor.position + digits.length
  /-- Counting the significant digits first decides as the value does. -/
  counted : (19 < (digits.dropWhile (· == zero)).length ∨
      2 ^ 63 - 1 < decimalValue (digits.dropWhile (· == zero))) ↔
    2 ^ 63 - 1 < decimalValue digits
  /-- No numeral is read but those of 1 to 19 digits. -/
  read : ∀ read, Numeral.ExactUpTo 19 read →
    Lexeme.integer? read digits =
        some (if decimalValue digits ≤ 2 ^ 63 - 1 then some (decimalValue digits) else none) ∧
      lx.nextBy { Readers.standard with number := read } = some lx.next

namespace Lexer

theorem ahead_number {lx : Lexer} (ht : lx.cursor.Tracks lx.source) (h : Digit lx.cursor.byte) :
    ∃ b more, lx.Ahead (.number b (more.takeWhile Byte.isDigit)) b more ∧ lx.skipBlanks = lx ∧
      b :: more.takeWhile Byte.isDigit = digitsFrom lx.source lx.cursor.position := by
  rw [ht.byte_eq] at h
  cases hrest : lx.cursor.rest with
  | nil =>
    -- past the end the cursor holds `Byte.nul`, which is no digit
    rw [hrest] at h
    exact absurd h (by decide)
  | cons b more =>
    rw [hrest] at h
    have hb : ¬ Blank b := Starts.not_blank (.inr (.inr h))
    have hdrop : lx.cursor.rest.dropWhile Byte.isBlank = b :: more := by
      rw [hrest, dropWhile_of_not_blank hb]
    refine ⟨b, more, ⟨hdrop, hb, longest?_number h⟩, skipBlanks_eq_self fun c hc => ?_, ?_⟩
    · rw [hrest, List.head?_cons, Option.mem_some] at hc
      exact hc ▸ hb
    · have hb' : Byte.isDigit b = true := isDigit_iff.mpr h
      rw [digitsFrom, ← ht.rest, hrest, takeWhile_digit, List.takeWhile_cons_of_pos hb']

theorem read_number (lx : Lexer) (b : UInt8) (more : Bytes) :
    (lx.read (.number b more)).1 =
      if decimalValue (b :: more) ≤ 2 ^ 63 - 1 then
        .ok ⟨.integer, .number (decimalValue (b :: more)), some lx.location⟩
      else .error ⟨.integerOverflow (Latin1.decode (b :: more)) (.number (2 ^ 63 - 1)),
        some lx.location, some lx.currentLine⟩ := by
  simp only [read, value_eq_decimalValue]
  by_cases hle : decimalValue (b :: more) ≤ Lexeme.integerLimit
  · simp only [if_pos hle]
    exact (if_pos hle).symm
  · simp only [if_neg hle]
    exact (if_neg hle).symm

theorem readsInteger {lx : Lexer} (ht : lx.cursor.Tracks lx.source) (h : Digit lx.cursor.byte) :
    lx.ReadsInteger (digitsFrom lx.source lx.cursor.position) := by
  obtain ⟨b, more, hahead, hskip, hrun⟩ := ahead_number ht h
  have hdigits := digits_of_number hahead.longest
  have hposition := hahead.position_next ht
  rw [← position_skipBlanks ht, hskip] at hposition
  have hresult : lx.next.result = (lx.read (.number b (more.takeWhile Byte.isDigit))).1 := by
    rw [hahead.next_eq, hskip]
  rw [read_number lx b, hrun] at hresult
  rw [hrun] at hdigits
  refine ⟨fun hle => hresult.trans (if_pos hle),
    fun hlt => hresult.trans (if_neg (Nat.not_le.mpr hlt)), ?_, ?_, fun read hread => ⟨?_, ?_⟩⟩
  · rw [hposition, ← hrun]
    rfl
  · have hvalue := value_dropZeros (digitsFrom lx.source lx.cursor.position)
    rw [value_eq_decimalValue, value_eq_decimalValue] at hvalue
    rw [zero_eq, hvalue]
    exact or_iff_right_of_imp fun hlong => long_beyond_limit hdigits (zero_eq ▸ hlong)
  · rw [integer?_eq hread hdigits, value_eq_decimalValue]
    rfl
  · have hexact : Readers.Exact { Readers.standard with number := read } :=
      ⟨Readers.standard_exact.text, hread⟩
    exact nextBy_eq hexact lx

end Lexer

namespace Session

/-- At all times, where the cursor of a lexer is on a digit, the next call reads all digits from
there on as one number, however many they are. -/
theorem integers_exact {lx : Lexer} (h : Reachable lx) (hdigit : Digit lx.cursor.byte) :
    lx.ReadsInteger (digitsFrom lx.source lx.cursor.position) :=
  Lexer.readsInteger h.tracks hdigit

/-- A word, a line feed, two zeros and twenty nines: the nines alone are beyond the limit, and a
reader that stops at 19 digits is not asked for them. -/
theorem integers_exact_nines :
    let source : Bytes := [120, 10, 48, 48] ++ List.replicate 20 57
    let lx := (Lexer.start source Source.defaultName ⟨false, false⟩).next.lexer.skipBlanks
    let digits := digitsFrom lx.source lx.cursor.position
    let readers := { Readers.standard with number := Numeral.readWithin 19 }
    Reachable lx ∧ Digit lx.cursor.byte ∧ lx.ReadsInteger digits ∧ digits.length = 22 ∧
      2 ^ 63 - 1 < decimalValue digits ∧ Lexeme.integer? readers.number digits = some none ∧
      lx.nextBy readers = some lx.next := by
  intro source lx digits readers
  have hreachable : Reachable lx :=
    ⟨[(source, Source.defaultName, ⟨false, false⟩)], false, [.ask 0 .next, .ask 0 .skipBlanks], 0,
      by decide, rfl⟩
  have hdigit : Digit lx.cursor.byte := by decide +kernel
  have hreads := integers_exact hreachable hdigit
  have hbeyond : 2 ^ 63 - 1 < decimalValue digits := by decide +kernel
  obtain ⟨hinteger, hnext⟩ := hreads.read _ (Numeral.exactUpTo_readWithin (Nat.le_refl 19))
  rw [if_neg (Nat.not_le.mpr hbeyond)] at hinteger
  exact ⟨hreachable, hdigit, hreads, by decide +kernel, hbeyond, hinteger, hnext⟩

end Session
end MonkeyScan
