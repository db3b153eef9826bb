import MonkeyScan.Lexer
import MonkeyScan.Proofs.Integer

/-!
# MonkeyScan.Proofs.Meaning

What a piece of source means, as a function of its bytes alone (`meaning`).

* `Lexer.readBy_eq`: the scanner reads a lexeme as `Lexer.read` says, in which nothing is converted
  that could be refused. This holds for any readers that are exact on ASCII and on short numerals.
* `content_read`: the scanner gives every lexeme its meaning, whatever was scanned before.
-/

namespace MonkeyScan

/-- The bytes of a text whose characters are all byte values. -/
def Text.latin1 (t : Text) : Bytes :=
  t.map fun c => UInt8.ofNat c.number

theorem Text.latin1_ofString (s : String) : (ofString s).latin1 = Latin1.encode s :=
  List.map_map

/-- An outcome without its places: kind and payload of a token, or the cause of a diagnostic. -/
abbrev Content := Except Cause (Kind × Payload)

def Outcome.content : Outcome → Content
  | .ok t => .ok t.key
  | .error d => .error d.cause

namespace Grammar

def symbols : List (String × Kind) :=
  [("=", .assign), ("+", .plus), ("-", .minus), ("!", .bang), ("*", .asterisk), ("/", .slash),
    ("<", .less), (">", .greater), ("==", .equal), ("!=", .notEqual), (",", .comma),
    (";", .semicolon), ("(", .leftParen), (")", .rightParen), ("\x7b", .leftBrace),
    ("\x7d", .rightBrace)]

def keywords : List (String × Kind) :=
  [("fn", .fnWord), ("let", .letWord), ("true", .trueWord), ("false", .falseWord),
    ("if", .ifWord), ("else", .elseWord), ("return", .returnWord)]

/-- What a piece of source means. An integer fits in 64 bits, sign included, and no bytes at all are
the end of the source. -/
def meaning (strict : Bool) : Bytes → Content
  | [] => .ok (.endOfInput, .absent)
  | b :: more =>
    let text := Latin1.decode (b :: more)
    match (symbols ++ keywords).lookup text with
    | some kind => .ok (kind, .absent)
    | none =>
      if Letter b then .ok (.identifier, .text text)
      else if Digit b then
        let n := Nat.ofDigitChars 10 text.toList 0
        if n ≤ 2 ^ 63 - 1 then .ok (.integer, .number n)
        else .error (.integerOverflow text (.number (2 ^ 63 - 1)))
      else if strict then .error (.invalidCharacter b.toNat)
      else .ok (.illegal, .number b.toNat)

/-! ## The tables -/

theorem encode_of_lookup {table : List (String × Kind)} {bs : Bytes} {k : Kind}
    (h : table.lookup (Latin1.decode bs) = some k) :
    ∃ entry ∈ table, Latin1.encode entry.1 = bs ∧ entry.2 = k := by
  obtain ⟨l₁, l₂, hl, -⟩ := List.lookup_eq_some_iff.mp h
  exact ⟨(Latin1.decode bs, k), by simp [hl], Latin1.encode_decode bs, rfl⟩

theorem mark_of_lookup {b : UInt8} {more : Bytes} {k : Kind}
    (h : symbols.lookup (Latin1.decode (b :: more)) = some k) : b ∈ marks := by
  obtain ⟨entry, hmem, hbytes, -⟩ := encode_of_lookup h
  have heads : ∀ entry ∈ symbols, ∀ b ∈ (Latin1.encode entry.1).head?, b ∈ marks := by
    decide +kernel
  exact heads entry hmem b (by simp [hbytes])

theorem letter_of_lookup {b : UInt8} {more : Bytes} {k : Kind}
    (h : keywords.lookup (Latin1.decode (b :: more)) = some k) : Letter b := by
  obtain ⟨entry, hmem, hbytes, -⟩ := encode_of_lookup h
  have heads : ∀ entry ∈ keywords, ∀ b ∈ (Latin1.encode entry.1).head?, Letter b := by
    decide +kernel
  exact heads entry hmem b (by simp [hbytes])

theorem kind_of_symbol {digits : Bool} {b : UInt8} {rest : Bytes} {k : Kind}
    (h : Lexeme.longest? digits (b :: rest) = some (.symbol k)) : k ∈ symbols.map Prod.snd := by
  rcases longest?_cases h with ⟨-, h⟩ | ⟨k', hk, h⟩ | ⟨-, h⟩ | ⟨-, h⟩ | ⟨-, h⟩ <;> cases h
  · simp only [Lexeme.comparison]
    split <;> decide
  · obtain ⟨l₁, l₂, hl, -⟩ := List.lookup_eq_some_iff.mp hk
    have kinds : ∀ entry ∈ Kind.symbols, entry.2 ∈ symbols.map Prod.snd := by decide
    exact kinds (b, k) (by simp [hl])

theorem meaning_symbol {strict : Bool} {k : Kind} (h : k ∈ symbols.map Prod.snd) :
    meaning strict (Lexeme.symbol k).bytes = .ok (k, .absent) := by
  have agree : ∀ k ∈ symbols.map Prod.snd, ∀ strict,
      meaning strict (Lexeme.symbol k).bytes = .ok (k, .absent) := by decide
  exact agree k h strict

section Meaning

variable {strict : Bool} {b : UInt8} {more : Bytes}

theorem meaning_word (h : Letter b) :
    meaning strict (b :: more) = .ok (Token.ofWord (Latin1.decode (b :: more))).key := by
  have hs : symbols.lookup (Latin1.decode (b :: more)) = none := by
    cases hs : symbols.lookup (Latin1.decode (b :: more)) with
    | none => rfl
    | some k => exact absurd (mark_of_lookup hs) h.not_mark
  have hk : keywords.lookup (Latin1.decode (b :: more)) =
      Kind.ofReserved? (Latin1.decode (b :: more)) := rfl
  simp only [meaning, List.lookup_append, hs, hk, Option.none_or, if_pos h, Token.ofWord,
    Token.ofReserved?]
  cases Kind.ofReserved? (Latin1.decode (b :: more)) <;> rfl

theorem lookup_of_not_starts (hm : b ∉ marks) (hl : ¬ Letter b) :
    (symbols ++ keywords).lookup (Latin1.decode (b :: more)) = none := by
  rw [List.lookup_append, Option.or_eq_none_iff]
  constructor
  · cases hs : symbols.lookup (Latin1.decode (b :: more)) with
    | none => rfl
    | some k => exact absurd (mark_of_lookup hs) hm
  · cases hk : keywords.lookup (Latin1.decode (b :: more)) with
    | none => rfl
    | some k => exact absurd (letter_of_lookup hk) hl

theorem meaning_number (h : Digit b) :
    meaning strict (b :: more) =
      if Numeral.value (b :: more) ≤ Lexeme.integerLimit then
        .ok (.integer, .number (Numeral.value (b :: more)))
      else
        .error (.integerOverflow (Latin1.decode (b :: more)) (.number Lexeme.integerLimit)) := by
  have hl : ¬ Letter b := fun hl => hl.not_digit h
  have hv : Nat.ofDigitChars 10 (Latin1.decode (b :: more)).toList 0 = Numeral.value (b :: more) :=
    (value_eq_decimalValue _).symm
  simp only [meaning, lookup_of_not_starts h.not_mark hl, if_neg hl, if_pos h, hv]
  rfl

theorem meaning_stray (h : ¬ Starts b) :
    meaning strict [b] =
      if strict then .error (.invalidCharacter b.toNat) else .ok (.illegal, .number b.toNat) := by
  simp only [Starts, not_or] at h
  obtain ⟨hm, hl, hd⟩ := h
  simp only [meaning, lookup_of_not_starts hm hl, if_neg hl, if_neg hd]

end Meaning

theorem meaning_ne_end {strict : Bool} {bs : Bytes} (h : bs ≠ []) (p : Payload) :
    meaning strict bs ≠ .ok (.endOfInput, p) := by
  cases bs with
  | nil => exact absurd rfl h
  | cons b more =>
    simp only [meaning]
    split
    · rename_i kind hk
      obtain ⟨entry, hmem, -, rfl⟩ := encode_of_lookup hk
      have kinds : ∀ entry ∈ symbols ++ keywords, entry.2 ≠ .endOfInput := by decide
      have hne := kinds entry hmem
      intro h
      simp only [Except.ok.injEq, Prod.mk.injEq] at h
      exact hne h.1
    · split
      · simp
      · split
        · split <;> simp
        · split <;> simp

end Grammar

/-! ## The scanner -/

/-- Readers that are exact on ASCII and on short numerals. -/
structure Readers.Exact (readers : Readers) : Prop where
  text : ∀ bs : Bytes, (∀ b ∈ bs, b < 0x80) → readers.text bs = some (Latin1.decode bs)
  number : Numeral.ExactUpTo 19 readers.number

theorem Readers.standard_exact : Readers.standard.Exact where
  text := fun bs h => if_pos (List.all_eq_true.mpr fun b hb => decide_eq_true (h b hb))
  number := Numeral.exactUpTo_readWithin (by decide)

namespace Lexer

/-- What a lexeme is read as, its text and its number granted. -/
def read (lx : Lexer) : Lexeme → Outcome × List Event
  | .symbol k => (.ok { kind := k, location := some lx.location }, [])
  | .word b more =>
    (.ok { Token.ofWord (Latin1.decode (b :: more)) with location := some lx.location }, [])
  | .number b more =>
    let n := Numeral.value (b :: more)
    if n ≤ Lexeme.integerLimit then (.ok ⟨.integer, .number n, some lx.location⟩, [])
    else
      let literal := Latin1.decode (b :: more)
      (.error ⟨.integerOverflow literal (.number Lexeme.integerLimit), some lx.location,
          some lx.currentLine⟩,
        [.overflow lx.location literal])
  | .stray b =>
    (if lx.options.strict then
        .error ⟨.invalidCharacter b.toNat, some lx.location, some lx.currentLine⟩
      else .ok ⟨.illegal, .number b.toNat, some lx.location⟩,
      [.illegalByte lx.location b])

/-- Of the lexemes of a source, only stray bytes are not ASCII, and these are not converted. -/
theorem readBy_eq {readers : Readers} (hreaders : readers.Exact) {lx : Lexer} {digits : Bool}
    {bs : Bytes} {l : Lexeme} (h : Lexeme.longest? digits bs = some l) :
    lx.readBy readers l = some (lx.read l) := by
  have ascii : ∀ bs : Bytes, bs.all Byte.isAscii → readers.text bs = some (Latin1.decode bs) :=
    fun bs hbs => hreaders.text bs fun b hb => of_decide_eq_true (List.all_eq_true.mp hbs b hb)
  cases l with
  | symbol k => rfl
  | word b more =>
    rw [readBy, ascii _ (Lexeme.isAscii_of_word h)]
    rfl
  | number b more =>
    have hdigits := Lexeme.isDigit_of_number h
    have htext := ascii (b :: more) <| List.all_eq_true.mpr fun c hc =>
      Byte.isAscii_of_isDigit (List.all_eq_true.mp hdigits c hc)
    have hnumber := Grammar.integer?_eq hreaders.number (Grammar.all_isDigit_iff.mp hdigits)
    simp only [readBy, htext, hnumber, read]
    by_cases hle : Numeral.value (b :: more) ≤ Lexeme.integerLimit
    · simp only [if_pos hle]
    · simp only [if_neg hle]
  | stray b => rfl

end Lexer

namespace Grammar

/-- What a lexeme is read as depends on its bytes and on strictness only. -/
theorem content_read {lx : Lexer} {digits : Bool} {b : UInt8} {rest : Bytes} {l : Lexeme}
    (h : Lexeme.longest? digits (b :: rest) = some l) :
    (lx.read l).1.content = meaning lx.options.strict l.bytes := by
  cases l with
  | symbol k =>
    rw [meaning_symbol (kind_of_symbol h)]
    rfl
  | word c more =>
    rw [Lexeme.bytes, meaning_word (letter_of_word h)]
    rfl
  | number c more =>
    have hdigits := digits_of_number h
    rw [Lexeme.bytes, meaning_number (hdigits c List.mem_cons_self)]
    simp only [Lexer.read]
    by_cases hle : Numeral.value (c :: more) ≤ Lexeme.integerLimit
    · simp only [if_pos hle]
      rfl
    · simp only [if_neg hle]
      rfl
  | stray c =>
    rw [Lexeme.bytes, meaning_stray (not_starts_of_stray h).2]
    simp only [Lexer.read]
    split <;> rfl

end Grammar
end MonkeyScan
