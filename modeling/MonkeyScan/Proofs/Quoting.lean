import Mathlib.Algebra.Group.Nat.Defs
import MonkeyScan.Proofs.Plain

/-!
# MonkeyScan.Proofs.Quoting

Quoted forms can be read back, whichever characters are taken to have no printed form.
`Quoted.encodeBy` is `Quoted.encode` with this choice left open: a hidden character is written by
its number, in two, four or eight hexadecimal digits behind a letter that says how many. Surrogates
are always written so.

* `Quoted.unescape_escapeBy`: inside the marks, one code point is read back at a time. The letter
  behind a backslash says what follows, and a backslash in the text comes with one of its own.
* `Quoted.encodeBy_injective`: the mark in use depends on the whole text, but it is the first
  character of the quoted form, so two texts with the same form have the same mark.
* `Quoted.lineFeed_not_mem_encodeBy`: a quoted form is one line.
-/

namespace MonkeyScan

namespace Numeral

/-! ## Hexadecimal numerals -/

def hexDigit (c : Char) : Nat :=
  if c.toNat ≤ '9'.toNat then c.toNat - '0'.toNat else c.toNat - 'a'.toNat + 10

def readHex (cs : List Char) : Nat :=
  cs.foldl (fun n c => 16 * n + hexDigit c) 0

theorem hexDigit_digitChar : ∀ d < 16, hexDigit d.digitChar = d := by
  decide

theorem readHex_concat (cs : List Char) (c : Char) :
    readHex (cs ++ [c]) = 16 * readHex cs + hexDigit c := by
  simp [readHex, List.foldl_append]

theorem readHex_toDigits (n : Nat) : readHex (Nat.toDigits 16 n) = n := by
  induction n using Nat.strongRecOn with
  | _ n ih =>
    rw [Nat.toDigits_eq_if (by decide)]
    split
    · rename_i hlt
      simp [readHex, hexDigit_digitChar n hlt]
    · rename_i hle
      rw [readHex_concat, ih (n / 16) (Nat.div_lt_self (by omega) (by decide)),
        hexDigit_digitChar (n % 16) (Nat.mod_lt n (by decide))]
      omega

theorem readHex_hexLower (width n : Nat) : readHex (hexLower width n) = n := by
  have hzeros : ∀ k, (List.replicate k '0').foldl (fun n c => 16 * n + hexDigit c) 0 = 0 := by
    intro k
    induction k with
    | zero => rfl
    | succ k ih => exact ih
  rw [hexLower, List.leftpad, readHex, List.foldl_append, hzeros]
  exact readHex_toDigits n

theorem length_hexLower {width n : Nat} (hpos : 0 < width) (h : n < 16 ^ width) :
    (hexLower width n).length = width := by
  rw [hexLower, List.length_leftpad]
  exact Nat.max_eq_left ((Nat.length_toDigits_le_iff (by decide) hpos).mpr h)

theorem lineFeed_not_mem_hexLower (width n : Nat) : '\n' ∉ hexLower width n := by
  intro h
  have digits : ∀ d < 16, '\n' ≠ d.digitChar := by decide
  obtain ⟨d, hd, heq⟩ := exists_digit_of_mem_hexLower h
  exact digits d hd heq

end Numeral

namespace Quoted

open Numeral

/-! ## Escapes -/

/-- How many hexadecimal digits follow this letter behind a backslash. -/
def width? (letter : Char) : Option Nat :=
  if letter = 'x' then some 2
  else if letter = 'u' then some 4
  else if letter = 'U' then some 8
  else none

/-- A code point by its number, in as few digits as there is a letter for. -/
def byNumber (c : CodePoint) : List Char :=
  if c.number < 0x100 then 'x' :: hexLower 2 c.number
  else if c.number < 0x10000 then 'u' :: hexLower 4 c.number
  else 'U' :: hexLower 8 c.number

/-- `escapeChar` for any choice of the characters that have no printed form. -/
def escapeCharBy (hidden : Char → Bool) (m c : Char) : List Char :=
  if c = m ∨ c = backslash then [backslash, c]
  else if c = '\t' then [backslash, 't']
  else if c = '\n' then [backslash, 'n']
  else if c = '\r' then [backslash, 'r']
  else if hidden c then backslash :: byNumber (.ofChar c)
  else [c]

def escapeBy (hidden : Char → Bool) (m : Char) (c : CodePoint) : List Char :=
  match c.char? with
  | some ch => escapeCharBy hidden m ch
  | none => backslash :: byNumber c

def encodeBy (hidden : Char → Bool) (t : Text) : String :=
  let m := mark t
  String.ofList (m :: t.flatMap (escapeBy hidden m) ++ [m])

theorem escapeCharBy_isControl (m c : Char) : escapeCharBy isControl m c = escapeChar m c := by
  simp only [escapeCharBy, escapeChar]
  split_ifs with hm ht hn hr hcontrol
  · rfl
  · rfl
  · rfl
  · rfl
  · have hlt : (CodePoint.ofChar c).number < 0x100 := by
      show c.toNat < 0x100
      simp only [isControl, Bool.or_eq_true, Bool.and_eq_true, decide_eq_true_eq, beq_iff_eq]
        at hcontrol
      omega
    rw [byNumber, if_pos hlt]
    rfl
  · rfl

theorem escapeBy_isControl : escapeBy isControl = escape := by
  funext m c
  by_cases hc : c.isSurrogate
  · rw [escapeBy, escape, CodePoint.char?_eq_none hc]
    rw [CodePoint.isSurrogate_iff] at hc
    simp only [byNumber]
    rw [if_neg (by omega), if_pos (by omega)]
  · obtain ⟨ch, rfl⟩ := CodePoint.exists_ofChar hc
    rw [escapeBy, escape, CodePoint.char?_ofChar]
    exact escapeCharBy_isControl m ch

theorem encodeBy_isControl : encodeBy isControl = encode := by
  funext t
  simp only [encodeBy, encode, escapeBy_isControl]

/-- The character that a letter behind a backslash stands for, if no digits follow it. -/
def named (letter : Char) : Char :=
  if letter = 't' then '\t'
  else if letter = 'n' then '\n'
  else if letter = 'r' then '\r'
  else letter

/-- Reads the number of one code point from what is between the marks, and gives what follows. -/
def unescape : List Char → Option (Nat × List Char)
  | [] => none
  | c :: rest =>
    if c = backslash then
      match rest with
      | [] => none
      | letter :: rest =>
        match width? letter with
        | some n => some (readHex (rest.take n), rest.drop n)
        | none => some ((named letter).toNat, rest)
    else some (c.toNat, rest)

theorem mark_cases (t : Text) : mark t = apostrophe ∨ mark t = doubleQuote := by
  unfold mark
  split
  · exact .inr rfl
  · exact .inl rfl

section Escapes

variable {hidden : Char → Bool} {m : Char}

theorem unescape_of_ne {c : Char} (h : c ≠ backslash) (rest : List Char) :
    unescape (c :: rest) = some (c.toNat, rest) :=
  if_neg h

theorem unescape_digits {letter : Char} {width n : Nat} (hletter : width? letter = some width)
    (hpos : 0 < width) (hlt : n < 16 ^ width) (rest : List Char) :
    unescape (backslash :: letter :: (hexLower width n ++ rest)) = some (n, rest) := by
  have hlength := length_hexLower hpos hlt
  simp only [unescape, hletter, if_true]
  rw [List.take_left' hlength, List.drop_left' hlength, readHex_hexLower]

theorem unescape_byNumber (c : CodePoint) (rest : List Char) :
    unescape (backslash :: (byNumber c ++ rest)) = some (c.number, rest) := by
  unfold byNumber
  split
  · rename_i h
    exact unescape_digits rfl (by decide) h rest
  · split
    · rename_i h
      exact unescape_digits rfl (by decide) h rest
    · exact unescape_digits rfl (by decide) (Nat.lt_trans c.number_lt (by decide)) rest

theorem unescape_escapeCharBy (hm : m = apostrophe ∨ m = doubleQuote) (c : Char)
    (rest : List Char) : unescape (escapeCharBy hidden m c ++ rest) = some (c.toNat, rest) := by
  unfold escapeCharBy
  split_ifs with hmarked ht hn hr hhidden
  · obtain rfl | rfl | rfl : c = apostrophe ∨ c = doubleQuote ∨ c = backslash := by
      rcases hmarked with rfl | rfl
      · exact hm.imp_right .inl
      · exact .inr (.inr rfl)
    · rfl
    · rfl
    · rfl
  · rw [ht]
    rfl
  · rw [hn]
    rfl
  · rw [hr]
    rfl
  · exact unescape_byNumber (.ofChar c) rest
  · exact unescape_of_ne (not_or.mp hmarked).2 rest

/-- One code point is read back, whatever follows it. -/
theorem unescape_escapeBy (hm : m = apostrophe ∨ m = doubleQuote) (c : CodePoint)
    (rest : List Char) : unescape (escapeBy hidden m c ++ rest) = some (c.number, rest) := by
  by_cases hc : c.isSurrogate
  · rw [escapeBy, CodePoint.char?_eq_none hc]
    exact unescape_byNumber c rest
  · obtain ⟨ch, rfl⟩ := CodePoint.exists_ofChar hc
    rw [escapeBy, CodePoint.char?_ofChar]
    exact unescape_escapeCharBy hm ch rest

theorem flatMap_escapeBy_injective (hm : m = apostrophe ∨ m = doubleQuote) {t u : Text}
    (h : t.flatMap (escapeBy hidden m) = u.flatMap (escapeBy hidden m)) : t = u := by
  induction t generalizing u with
  | nil =>
    cases u with
    | nil => rfl
    | cons d u =>
      have hread := congrArg unescape h
      rw [List.flatMap_cons, unescape_escapeBy hm] at hread
      cases hread
  | cons c t ih =>
    have hread := congrArg unescape h
    rw [List.flatMap_cons, unescape_escapeBy hm] at hread
    cases u with
    | nil => cases hread
    | cons d u =>
      rw [List.flatMap_cons, unescape_escapeBy hm, Option.some.injEq, Prod.mk.injEq] at hread
      rw [CodePoint.number_injective hread.1, ih hread.2]

theorem lineFeed_not_mem_byNumber (c : CodePoint) : '\n' ∉ byNumber c := by
  have hdigits : ∀ width, '\n' ∉ hexLower width c.number := fun width =>
    lineFeed_not_mem_hexLower width c.number
  unfold byNumber
  split_ifs <;> simp [hdigits]

theorem lineFeed_not_mem_escapeBy (hm : m = apostrophe ∨ m = doubleQuote) (c : CodePoint) :
    '\n' ∉ escapeBy hidden m c := by
  have hnumber : ∀ c, '\n' ∉ backslash :: byNumber c := by
    intro c
    rw [List.mem_cons, not_or]
    exact ⟨by decide, lineFeed_not_mem_byNumber c⟩
  unfold escapeBy
  split
  · rename_i ch _
    unfold escapeCharBy
    split_ifs with hmarked ht hn hr hhidden
    · rcases hmarked with rfl | rfl
      · rcases hm with rfl | rfl
        · decide
        · decide
      · decide
    · decide
    · decide
    · decide
    · exact hnumber _
    · simpa using Ne.symm hn
  · exact hnumber c

end Escapes

/-! ## Quoted forms -/

variable (hidden : Char → Bool)

theorem toList_encodeBy (t : Text) :
    (encodeBy hidden t).toList = mark t :: (t.flatMap (escapeBy hidden (mark t)) ++ [mark t]) :=
  String.toList_ofList

theorem encodeBy_injective {t u : Text} (h : encodeBy hidden t = encodeBy hidden u) : t = u := by
  have hlists := congrArg String.toList h
  rw [toList_encodeBy, toList_encodeBy, List.cons.injEq] at hlists
  obtain ⟨hmark, hbody⟩ := hlists
  rw [← hmark] at hbody
  exact flatMap_escapeBy_injective (mark_cases t) (List.append_cancel_right hbody)

example : encodeBy (· = '\u2028') (Text.ofString "it's\u2028" ++ [⟨0xD800, by decide⟩]) =
    "\"it's\\u2028\\ud800\"" := by decide +kernel

theorem lineFeed_not_mem_encodeBy (t : Text) : '\n' ∉ (encodeBy hidden t).toList := by
  have hm := mark_cases t
  have hmark : '\n' ≠ mark t := by
    rcases hm with h | h <;> rw [h] <;> decide
  have hbody : '\n' ∉ t.flatMap (escapeBy hidden (mark t)) := by
    intro hmem
    obtain ⟨c, -, hc⟩ := List.mem_flatMap.mp hmem
    exact lineFeed_not_mem_escapeBy hm c hc
  rw [toList_encodeBy, List.mem_cons, List.mem_append, List.mem_singleton]
  rintro (h | h | h)
  · exact hmark h
  · exact hbody h
  · exact hmark h

end Quoted
end MonkeyScan
