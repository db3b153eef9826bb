import Mathlib.Data.List.Induction
import Mathlib.Tactic.IntervalCases
import MonkeyScan.Proofs.Grammar

/-!
# MonkeyScan.Proofs.Integer

Runs of digits and the numbers they stand for.

* `integer?_eq`: the count of significant digits, by which `Lexeme.integer?` avoids to read a long
  run, decides as the value itself does. So the reader may refuse long runs, or give for them what
  it likes (`Numeral.ExactUpTo`).
* `encode_decimal_value`: a run of digits that starts with no needless zero is the decimal form of
  its value, so `eq_zeros_append_decimal` gets every run back from its value up to zeros in front.
-/

namespace MonkeyScan
namespace Grammar

def zero : UInt8 := '0'.toUInt8

theorem zero_eq : zero = 48 := by decide

theorem char_digit {b : UInt8} (h : Digit b) :
    Latin1.char b = (b.toNat - 48).digitChar ∧ b.toNat - 48 < 10 := by
  simp only [Digit, Char.reduceToNat] at h
  obtain ⟨k, hk, hb⟩ : ∃ k < 10, b.toNat = 48 + k := ⟨b.toNat - 48, by omega, by omega⟩
  obtain rfl : b = UInt8.ofNat (48 + k) := by
    rw [← hb, UInt8.ofNat_toNat]
  refine ⟨?_, by omega⟩
  interval_cases k <;> rfl

/-! ## Values -/

theorem value_eq_ofDigitChars (bs : Bytes) :
    Numeral.value bs = Nat.ofDigitChars 10 (bs.map Latin1.char) 0 := by
  rw [Numeral.value, Nat.ofDigitChars_eq_foldl, List.foldl_map]
  rfl

theorem value_append (xs ys : Bytes) :
    Numeral.value (xs ++ ys) = 10 ^ ys.length * Numeral.value xs + Numeral.value ys := by
  simp only [value_eq_ofDigitChars, List.map_append, Nat.ofDigitChars_append]
  rw [Nat.ofDigitChars_eq_ofDigitChars_zero, List.length_map]

theorem value_singleton (b : UInt8) : Numeral.value [b] = b.toNat - 48 := by
  simp [Numeral.value]

theorem value_zeros (n : Nat) : Numeral.value (List.replicate n zero) = 0 := by
  induction n with
  | zero => rfl
  | succ n ih => rw [List.replicate_succ', value_append, ih, value_singleton]; rfl

theorem eq_zeros_append (bs : Bytes) :
    ∃ n, bs = List.replicate n zero ++ bs.dropWhile (· == 48) := by
  refine ⟨(bs.takeWhile (· == 48)).length, ?_⟩
  have hzeros : bs.takeWhile (· == 48) = List.replicate (bs.takeWhile (· == 48)).length zero := by
    rw [List.eq_replicate_iff]
    exact ⟨rfl, fun b hb => by simpa [zero_eq] using List.mem_takeWhile_imp hb⟩
  rw [← hzeros, List.takeWhile_append_dropWhile]

theorem value_dropZeros (bs : Bytes) :
    Numeral.value (bs.dropWhile (· == 48)) = Numeral.value bs := by
  obtain ⟨n, hn⟩ := eq_zeros_append bs
  conv_rhs => rw [hn, value_append, value_zeros]
  simp

theorem head_dropZeros {bs : Bytes} {b : UInt8} {more : Bytes}
    (h : bs.dropWhile (· == 48) = b :: more) : b ≠ zero := by
  have := List.head?_dropWhile_not (· == (48 : UInt8)) bs
  rw [h] at this
  simpa [zero_eq] using this

/-- A run of digits that does not start with zero is at least as great as its length demands. -/
theorem pow_le_value {b : UInt8} {more : Bytes} (hb : Digit b) (hne : b ≠ zero) :
    10 ^ more.length ≤ Numeral.value (b :: more) := by
  rw [← List.singleton_append, value_append, value_singleton]
  have hpos : 1 ≤ b.toNat - 48 := by
    simp only [Digit, Char.reduceToNat, zero_eq, ne_eq, ← UInt8.toNat_inj, UInt8.reduceToNat]
      at hb hne
    omega
  calc 10 ^ more.length = 10 ^ more.length * 1 := (Nat.mul_one _).symm
    _ ≤ 10 ^ more.length * (b.toNat - 48) := Nat.mul_le_mul_left _ hpos
    _ ≤ _ := Nat.le_add_right _ _

/-- The number that digits stand for. -/
def decimalValue (digits : Bytes) : Nat :=
  Nat.ofDigitChars 10 (Latin1.decode digits).toList 0

theorem value_eq_decimalValue (digits : Bytes) : Numeral.value digits = decimalValue digits := by
  rw [value_eq_ofDigitChars, decimalValue, Latin1.decode, String.toList_ofList]

theorem all_isDigit_iff {bs : Bytes} : bs.all Byte.isDigit ↔ ∀ b ∈ bs, Digit b := by
  simp only [List.all_eq_true, isDigit_iff]

end Grammar

/-! ## Readers of numerals -/

namespace Numeral

open Grammar

/-- A reader gives the number for each run of 1 to `n` digits. It may refuse anything else, or
give for it what it likes. -/
def ExactUpTo (n : Nat) (read : Bytes → Option Nat) : Prop :=
  ∀ digits : Bytes, 1 ≤ digits.length → digits.length ≤ n → (∀ b ∈ digits, Digit b) →
    read digits = some (decimalValue digits)

theorem exactUpTo_readWithin {n limit : Nat} (h : n ≤ limit) : ExactUpTo n (readWithin limit) := by
  intro digits hpos hle hdigits
  rw [← value_eq_decimalValue]
  exact if_pos ⟨hpos, hle.trans h, all_isDigit_iff.mpr hdigits⟩

end Numeral

namespace Grammar

theorem value_numeral (bs : Bytes) : Numeral.value (Lexeme.numeral bs) = Numeral.value bs := by
  have hvalue := value_dropZeros bs
  unfold Lexeme.numeral
  split
  · rename_i hnil
    rw [hnil] at hvalue
    exact hvalue
  · exact hvalue

/-- A run of more than `Lexeme.limitDigits` significant digits is beyond the limit. -/
theorem limit_lt_of_long {bs : Bytes} (h : ∀ b ∈ bs, Digit b)
    (hlong : Lexeme.limitDigits < (bs.dropWhile (· == 48)).length) :
    Lexeme.integerLimit < Numeral.value bs := by
  rw [← value_dropZeros]
  cases hs : bs.dropWhile (· == 48) with
  | nil => simp [hs] at hlong
  | cons b more =>
    have hb : Digit b := h b ((List.dropWhile_sublist _).subset (hs ▸ List.mem_cons_self))
    have hlen : Lexeme.limitDigits ≤ more.length := by
      rw [hs, List.length_cons] at hlong
      omega
    calc Lexeme.integerLimit < 10 ^ Lexeme.limitDigits := by decide
      _ ≤ 10 ^ more.length := Nat.pow_le_pow_right (by omega) hlen
      _ ≤ Numeral.value (b :: more) := pow_le_value hb (head_dropZeros hs)

/-- Counting significant digits first changes nothing, but that only short numerals are read. -/
theorem integer?_eq {read : Bytes → Option Nat} (hread : Numeral.ExactUpTo 19 read) {bs : Bytes}
    (h : ∀ b ∈ bs, Digit b) :
    Lexeme.integer? read bs =
      some (if Numeral.value bs ≤ Lexeme.integerLimit then some (Numeral.value bs) else none) := by
  unfold Lexeme.integer?
  split
  · rename_i hlong
    rw [if_neg (Nat.not_le.mpr (limit_lt_of_long h hlong))]
  · rename_i hshort
    obtain ⟨hpos, hle, hdigits⟩ :=
      Lexeme.numeral_spec (all_isDigit_iff.mpr h) (Nat.not_lt.mp hshort)
    have hnumeral : read (Lexeme.numeral bs) = some (Numeral.value bs) := by
      rw [hread _ hpos hle (all_isDigit_iff.mp hdigits), ← value_eq_decimalValue, value_numeral]
    simp only [hnumeral, Option.map_some]
    split
    · rename_i hbeyond
      rw [if_neg (Nat.not_le.mpr hbeyond)]
    · rename_i hwithin
      rw [if_pos (Nat.not_lt.mp hwithin)]

/-! ## Decimal forms -/

theorem isWritable_iff {n : Int} :
    Numeral.isWritable n ↔ n.natAbs < 10 ^ Numeral.digitLimit := by
  rw [Numeral.isWritable, decide_eq_true_iff]
  exact Nat.length_toDigits_le_iff (by decide) (by decide)

/-- A number within the limit is written, whatever it takes to write one. -/
theorem isWritable_of_le {n : Nat} (h : n ≤ Lexeme.integerLimit) : Numeral.isWritable n := by
  rw [isWritable_iff, Int.natAbs_natCast]
  calc n ≤ Lexeme.integerLimit := h
    _ < 10 ^ Lexeme.limitDigits := by decide
    _ ≤ 10 ^ Numeral.digitLimit := Nat.pow_le_pow_right (by decide) (by decide)

/-- A run of digits without a needless zero in front is what its value is written as. -/
theorem toDigits_value {bs : Bytes} (h : ∀ b ∈ bs, Digit b) (hne : bs ≠ [])
    (hzero : bs.head? = some zero → bs = [zero]) :
    Nat.toDigits 10 (Numeral.value bs) = bs.map Latin1.char := by
  -- from the last digit on, as a value is computed
  induction bs using List.reverseRecOn with
  | nil => exact absurd rfl hne
  | append_singleton bs d ih =>
    obtain ⟨hchar, hlt⟩ := char_digit (h d (by simp))
    cases bs with
    | nil =>
      rw [List.nil_append, value_singleton, Nat.toDigits_of_lt_base hlt, List.map_singleton, hchar]
    | cons b more =>
      have hb : Digit b := h b (by simp)
      have hz : b ≠ zero := by
        rintro rfl
        simpa using hzero (by simp)
      have hpos : 0 < Numeral.value (b :: more) :=
        Nat.lt_of_lt_of_le (Nat.pow_pos (by omega)) (pow_le_value hb hz)
      have ih' := ih (fun c hc => h c (List.mem_append_left _ hc)) (by simp) (by simp [hz])
      rw [value_append, value_singleton, List.length_singleton, Nat.pow_one,
        ← Nat.toDigits_append_toDigits (by decide) hpos hlt, ih', Nat.toDigits_of_lt_base hlt,
        List.map_append, List.map_singleton, hchar]

theorem toList_decimal (n : Nat) : (Numeral.decimal n).toList = Nat.toDigits 10 n :=
  Nat.toList_repr

theorem map_char_encode_decimal (n : Nat) :
    (Latin1.encode (Numeral.decimal n)).map Latin1.char = Nat.toDigits 10 n := by
  rw [Latin1.encode, toList_decimal, List.map_map]
  conv_rhs => rw [← List.map_id (Nat.toDigits 10 n)]
  refine List.map_congr_left fun c hc => Latin1.char_ofNat_toNat ?_
  have := Char.isDigit_iff_toNat.mp (Nat.isDigit_of_mem_toDigits (by decide) (by decide) hc)
  simp only [Char.reduceToNat] at this
  omega

theorem value_encode_decimal (n : Nat) : Numeral.value (Latin1.encode (Numeral.decimal n)) = n := by
  rw [value_eq_ofDigitChars, map_char_encode_decimal, Nat.ofDigitChars_ten_toDigits]

theorem encode_decimal_ne_nil (n : Nat) : Latin1.encode (Numeral.decimal n) ≠ [] := by
  intro h
  have := map_char_encode_decimal n
  rw [h] at this
  exact Nat.toDigits_ne_nil this.symm

theorem digit_of_mem_encode_decimal {n : Nat} {b : UInt8}
    (h : b ∈ Latin1.encode (Numeral.decimal n)) : Digit b := by
  rw [Latin1.encode, toList_decimal, List.mem_map] at h
  obtain ⟨c, hc, rfl⟩ := h
  have := Char.isDigit_iff_toNat.mp (Nat.isDigit_of_mem_toDigits (by decide) (by decide) hc)
  simp only [Char.reduceToNat] at this
  simp only [Digit, Char.reduceToNat, UInt8.toNat_ofNat']
  omega

theorem encode_decimal_value {bs : Bytes} (h : ∀ b ∈ bs, Digit b) (hne : bs ≠ [])
    (hzero : bs.head? = some zero → bs = [zero]) :
    Latin1.encode (Numeral.decimal (Numeral.value bs)) = bs := by
  have hdecode : Numeral.decimal (Numeral.value bs) = Latin1.decode bs := by
    rw [Latin1.decode, ← toDigits_value h hne hzero, ← toList_decimal, String.ofList_toList]
  rw [hdecode, Latin1.encode_decode]

theorem eq_zeros_append_decimal {bs : Bytes} (h : ∀ b ∈ bs, Digit b) (hne : bs ≠ []) :
    ∃ n, bs = List.replicate n zero ++ Latin1.encode (Numeral.decimal (Numeral.value bs)) := by
  obtain ⟨n, hn⟩ := eq_zeros_append bs
  cases hs : bs.dropWhile (· == 48) with
  | nil =>
    -- nothing but zeros: the last of them is the decimal form
    rw [hs, List.append_nil] at hn
    have hone : Latin1.encode (Numeral.decimal (0 : Nat)) = [zero] := by decide
    obtain ⟨m, rfl⟩ : ∃ m, n = m + 1 := by
      cases n with
      | zero => exact absurd hn hne
      | succ m => exact ⟨m, rfl⟩
    refine ⟨m, ?_⟩
    rw [hn, value_zeros, hone, List.replicate_succ']
  | cons b more =>
    have hb := head_dropZeros hs
    refine ⟨n, ?_⟩
    rw [← value_dropZeros, encode_decimal_value, ← hn]
    · exact fun c hc => h c ((List.dropWhile_sublist _).subset hc)
    · simp [hs]
    · simp [hs, hb]

end Grammar
end MonkeyScan
