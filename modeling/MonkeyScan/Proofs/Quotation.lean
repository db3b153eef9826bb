import MonkeyScan.Proofs.Literals
import MonkeyScan.Proofs.Lossy
import MonkeyScan.Proofs.Placement
import MonkeyScan.Proofs.Plain

/-!
# MonkeyScan.Proofs.Quotation

The text of a diagnostic, and where it points to. The scanner gives two diagnostics, and both quote
the line of the byte that they are about, although one of them comes before that byte is taken and
the other one after a whole run of digits (`Lexer.exists_isAbout`).

* `Diagnostic.IsAbout.lines_eq`: neither the line nor anything else in a message has a line feed in
  it but perhaps the name of the source, so the lines of a message are known.
* `Session.diagnostic_quotes_line`: the line is quoted as it is, the byte is in what is left of it
  when it has been trimmed, and the cause tells what stands there.
* `Session.caret_counts_bytes`: the caret stands as many columns to the right as there are bytes
  before the one at fault, in a line that has perhaps fewer characters there.
-/

namespace MonkeyScan

open Grammar

/-! ## The lines of a message -/

namespace Diagnostic

def lines (d : Diagnostic) : List Text :=
  d.render.splitOn CodePoint.lineFeed

theorem lines_eq_of_not_mem {d : Diagnostic}
    (h : ∀ line ∈ d.header :: d.context ++ d.hintLines, CodePoint.lineFeed ∉ line) :
    d.lines = d.header :: d.context ++ d.hintLines :=
  List.splitOn_intercalate CodePoint.lineFeed h (by simp)

theorem lineFeed_not_mem_caret (column : Int) : CodePoint.lineFeed ∉ caret column := by
  rw [caret, List.mem_append, List.mem_replicate, List.mem_singleton]
  rintro (⟨-, hspace⟩ | hmark)
  · exact absurd hspace (by decide)
  · exact absurd hmark (by decide)

end Diagnostic

theorem Text.mem_ofString {c : Char} {s : String} :
    CodePoint.ofChar c ∈ ofString s ↔ c ∈ s.toList := by
  rw [ofString, List.mem_map]
  constructor
  · rintro ⟨c', hc', heq⟩
    have hchar := congrArg CodePoint.char? heq
    rw [CodePoint.char?_ofChar, CodePoint.char?_ofChar, Option.some.injEq] at hchar
    exact hchar ▸ hc'
  · intro hc
    exact ⟨c, hc, rfl⟩

theorem Location.lineFeed_not_mem_render {file : Text} (h : CodePoint.lineFeed ∉ file)
    (line column : Nat) : CodePoint.lineFeed ∉ render ⟨file, line, column⟩ := by
  have hplace : Visible (":" ++ Numeral.decimal line ++ ":" ++ Numeral.decimal column : String) := by
    refine .string_append (.string_append (.string_append ?_ ?_) ?_) ?_
    · decide
    · exact Numeral.visible_decimal line
    · decide
    · exact Numeral.visible_decimal column
  rw [render, List.mem_append, not_or]
  exact ⟨h, hplace.lineFeed_not_mem⟩

/-! ## What is wrong in a line -/

/-- What is wrong at a column of a line: digits for a number beyond the limit, or a byte that starts
no lexeme. -/
inductive Cause.IsAt (bs : Bytes) (column : Nat) : Cause → Prop where
  | overflow (hbeyond : 2 ^ 63 - 1 < decimalValue (digitsFrom bs column)) :
      IsAt bs column
        (.integerOverflow (Latin1.decode (digitsFrom bs column)) (.number (2 ^ 63 - 1)))
  | stray {b : UInt8} (hb : bs[column]? = some b) (hblank : ¬ Blank b) (hstarts : ¬ Starts b) :
      IsAt bs column (.invalidCharacter b.toNat)

theorem takeWhile_digit_first (bs : Bytes) :
    (Line.first bs).takeWhile (Digit ·) = bs.takeWhile (Digit ·) := by
  rw [Line.first, List.takeWhile_takeWhile]
  congr 1
  funext b
  by_cases hb : Digit b
  · have hne : b ≠ Byte.lineFeed := by
      rintro rfl
      exact absurd hb (by decide)
    simp [hb, hne]
  · simp [hb]

namespace Cause.IsAt

variable {cause : Cause}

/-- The line tells as much as all that is ahead. -/
theorem of_ahead {b : UInt8} {more : Bytes} (h : cause.IsAt (b :: more) 0)
    (hb : b ≠ Byte.lineFeed) (before : Bytes) :
    cause.IsAt (before ++ b :: Line.first more) before.length := by
  have hdigits : digitsFrom (before ++ b :: Line.first more) before.length =
      digitsFrom (b :: more) 0 := by
    rw [digitsFrom, digitsFrom, List.drop_left, List.drop_zero, ← Line.first_cons more hb,
      takeWhile_digit_first]
  cases h with
  | overflow hbeyond =>
    rw [← hdigits] at hbeyond ⊢
    exact .overflow hbeyond
  | @stray c hc hblank hstarts =>
    obtain rfl : b = c := by simpa using hc
    exact .stray (by simp) hblank hstarts

end Cause.IsAt

namespace Cause

theorem visible_hexByte (n : Nat) : Visible (hexByte n) := by
  have hopening : Visible "0x" := by decide
  exact hopening.string_append (Numeral.visible_hexUpper 2 n)

theorem visible_invalidCharacter (b : UInt8) : Visible (invalidCharacter b.toNat).message := by
  have hhex := visible_hexByte b.toNat
  show Visible (if 0x20 ≤ (b.toNat : Int) ∧ (b.toNat : Int) < 0x7F then
      "invalid character '" ++ String.singleton (Char.ofNat b.toNat) ++ "' (" ++
        hexByte b.toNat ++ ")"
    else "invalid byte " ++ hexByte b.toNat : String)
  split
  · rename_i hb
    have hchar : Visible (String.singleton (Char.ofNat b.toNat)) := by
      have hlatin : Char.ofNat b.toNat = Latin1.char b := Char.ofNat_toNat (Latin1.char b)
      rw [hlatin, String.singleton_eq_ofList]
      refine .ofList fun c hc => ?_
      rw [List.mem_singleton.mp hc]
      exact Int.ofNat_le.mp hb.1
    refine .string_append (.string_append (.string_append (.string_append ?_ hchar) ?_) hhex) ?_
    · decide
    · decide
    · decide
  · have hopening : Visible "invalid byte " := by decide
    exact hopening.string_append hhex

theorem visible_integerOverflow {digits : Bytes} (h : ∀ b ∈ digits, Digit b) (limit : Payload) :
    Visible (integerOverflow (Latin1.decode digits) limit).message := by
  have hliteral : Visible (Latin1.decode digits) := by
    refine .ofList fun c hc => ?_
    obtain ⟨b, hb, rfl⟩ := List.mem_map.mp hc
    exact le_trans (by decide) (h b hb).1
  have hopening : Visible "integer literal '" := by decide
  have hclosing : Visible "' is out of range" := by decide
  exact (hopening.string_append hliteral).string_append hclosing

theorem hint_integerOverflow (literal : String) :
    (integerOverflow literal (.number (2 ^ 63 - 1))).hint =
      some "integer literals must be between 0 and 9223372036854775807" := rfl

theorem IsAt.visible_message {cause : Cause} {line : Bytes} {column : Nat}
    (h : cause.IsAt line column) : Visible cause.message := by
  cases h with
  | overflow =>
    refine visible_integerOverflow (fun b hb => ?_) _
    rw [digitsFrom] at hb
    simpa using List.mem_takeWhile_imp hb
  | @stray b => exact visible_invalidCharacter b

end Cause

namespace Diagnostic

/-- The diagnostic is about the byte `b` in a line of the source, between `before` and `after`. -/
structure IsAbout (d : Diagnostic) (source : Bytes) (file : Text) (row : Nat) (before : Bytes)
    (b : UInt8) (after : Bytes) : Prop where
  location : d.location = some ⟨file, row + 1, before.length + 1⟩
  sourceLine : d.sourceLine = some (Line.shown (before ++ b :: after))
  at_row : (Line.all source)[row]? = some (before ++ b :: after)
  cause : d.cause.IsAt (before ++ b :: after) before.length
  not_blank : ¬ Blank b

end Diagnostic

namespace Lexer

variable {lx : Lexer} {d : Diagnostic}

theorem isAt_of_error (hd : lx.next.result = .error d) :
    ∃ l b more, lx.Ahead l b more ∧ d.cause.IsAt (b :: more) 0 ∧
      d.location = some lx.skipBlanks.location ∧
      d.sourceLine = some lx.skipBlanks.currentLine := by
  have hend : ¬ lx.next.result.isEnd := by
    rw [hd]
    exact Bool.false_ne_true
  obtain ⟨l, b, more, h⟩ := exists_ahead hend
  refine ⟨l, b, more, h, ?_⟩
  rw [h.next_eq] at hd
  rcases longest?_cases h.longest with
    ⟨-, rfl⟩ | ⟨k, -, rfl⟩ | ⟨-, rfl⟩ | ⟨hb, rfl⟩ | ⟨hb, rfl⟩
  · cases hd
  · cases hd
  · cases hd
  · have hrun : digitsFrom (b :: more) 0 = b :: more.takeWhile Byte.isDigit := by
      rw [digitsFrom, List.drop_zero, takeWhile_digit,
        List.takeWhile_cons_of_pos (isDigit_iff.mpr hb)]
    rw [lx.skipBlanks.read_number b, ← hrun] at hd
    split at hd
    · cases hd
    · rename_i hbeyond
      cases hd
      exact ⟨.overflow (Nat.not_le.mp hbeyond), rfl, rfl⟩
  · simp only [read] at hd
    split at hd
    · cases hd
      exact ⟨.stray rfl h.not_blank hb, rfl, rfl⟩
    · cases hd

/-- Each diagnostic is about a byte of a line, and quotes this line. -/
theorem exists_isAbout (ht : lx.cursor.Tracks lx.source) (hd : lx.next.result = .error d) :
    ∃ row before b after, d.IsAbout lx.source lx.file row before b after := by
  obtain ⟨l, b, more, h, hcause, hplace⟩ := isAt_of_error hd
  have htracks : lx.skipBlanks.cursor.Tracks lx.source := (ht.advanceBy lx.gap).1
  have hposition := position_skipBlanks ht
  have hahead : lx.source.drop lx.skipBlanks.cursor.position = b :: more := by
    rw [hposition, h.drop_source ht]
  have hle : lx.skipBlanks.cursor.position ≤ lx.source.length := by
    have := h.position_next_le ht
    omega
  obtain ⟨row, before, hlocation, hat, hline⟩ := @exists_isAt lx.skipBlanks htracks hle
  have hne : b ≠ Byte.lineFeed := by
    rintro rfl
    exact h.not_blank blank_lineFeed
  have hfirst : Line.first (lx.source.drop lx.skipBlanks.cursor.position) =
      b :: Line.first more := by
    rw [hahead, Line.first_cons more hne]
  have hsource : lx.skipBlanks.source = lx.source := rfl
  rw [hsource, hfirst] at hat hline
  refine ⟨row, before, b, Line.first more, ?_, ?_, hat.at_row, hcause.of_ahead hne before,
    h.not_blank⟩
  · rw [hplace.1, hlocation]
    rfl
  · rw [hplace.2, hline]

end Lexer

/-! ## Messages -/

namespace Diagnostic.IsAbout

variable {d : Diagnostic} {source : Bytes} {file : Text} {row : Nat} {before after : Bytes}
  {b : UInt8}

theorem lineFeed_not_mem (h : d.IsAbout source file row before b after) :
    '\n' ∉ (Line.shown (before ++ b :: after)).toList :=
  Line.lineFeed_not_mem_shown (Line.not_mem_of_mem_all (List.mem_of_getElem? h.at_row))

theorem ne_carriageReturn (h : d.IsAbout source file row before b after) :
    b ≠ Byte.carriageReturn := by
  rintro rfl
  exact h.not_blank blank_carriageReturn

/-- A hint is given where there is a limit to tell. -/
theorem hintLines_eq (h : d.IsAbout source file row before b after) :
    d.hintLines = match d.cause with
      | .integerOverflow _ _ =>
        [Text.ofString "hint: integer literals must be between 0 and 9223372036854775807"]
      | _ => [] := by
  have hcause := h.cause
  rw [hintLines]
  generalize d.cause = cause at hcause
  cases hcause with
  | overflow =>
    rw [Cause.hint_integerOverflow]
    rfl
  | stray => rfl

theorem context_eq (h : d.IsAbout source file row before b after) :
    d.context =
      [Text.ofString ("    " ++ Line.shown (before ++ b :: after)), caret (before.length + 1)] := by
  have hcolumn : 0 < (before.length : Int) + 1 := by omega
  rw [context, h.sourceLine, h.location]
  exact congrArg _ (if_pos hcolumn)

theorem lineFeed_not_mem_header (h : d.IsAbout source file row before b after)
    (hfile : CodePoint.lineFeed ∉ file) : CodePoint.lineFeed ∉ d.header := by
  have hplace := Location.lineFeed_not_mem_render hfile (row + 1) (before.length + 1)
  have herror : CodePoint.lineFeed ∉ Text.ofString ": error: " := by decide
  have hmessage := h.cause.visible_message.lineFeed_not_mem
  rw [header, h.location, List.mem_append, List.mem_append, not_or, not_or]
  exact ⟨⟨hplace, herror⟩, hmessage⟩

theorem lines_eq (h : d.IsAbout source file row before b after)
    (hfile : CodePoint.lineFeed ∉ file) :
    d.lines = [d.header, Text.ofString ("    " ++ Line.shown (before ++ b :: after)),
      caret (before.length + 1)] ++ d.hintLines := by
  have hquoted : CodePoint.lineFeed ∉
      Text.ofString ("    " ++ Line.shown (before ++ b :: after)) := by
    rw [CodePoint.lineFeed, Text.mem_ofString, String.toList_append, List.mem_append, not_or]
    exact ⟨by decide, h.lineFeed_not_mem⟩
  have hhint : ∀ line ∈ d.hintLines, CodePoint.lineFeed ∉ line := by
    rw [h.hintLines_eq]
    split
    · exact List.forall_mem_singleton.mpr (by decide)
    · simp
  rw [lines_eq_of_not_mem, h.context_eq]
  rw [h.context_eq]
  simp only [List.cons_append, List.nil_append, List.forall_mem_cons]
  exact ⟨h.lineFeed_not_mem_header hfile, hquoted, lineFeed_not_mem_caret _, hhint⟩

/-- The byte is in what is shown of its line. -/
theorem length_lt (h : d.IsAbout source file row before b after) :
    before.length < (Line.trimmed (before ++ b :: after)).length := by
  rw [Line.trimmed_append_cons h.ne_carriageReturn, List.length_append, List.length_cons]
  omega

end Diagnostic.IsAbout

/-- The diagnostic quotes a line of a source by this name, and it is about a byte at this column. -/
structure Diagnostic.Quotes (d : Diagnostic) (file : Text) (line : Bytes) (column : Nat) :
    Prop where
  cause : d.cause.IsAt line column
  sourceLine : d.sourceLine = some (Line.shown line)
  unbroken : '\n' ∉ (Line.shown line).toList
  /-- The byte is not among the carriage returns that are left out. -/
  column_lt : column < (line.rdropWhile (· == Byte.carriageReturn)).length
  message : CodePoint.lineFeed ∉ file →
    d.lines[1]? = some (Text.ofString ("    " ++ Line.shown line)) ∧
    d.lines.length = match d.cause with
      | .integerOverflow _ _ => 4
      | _ => 3

theorem Diagnostic.IsAbout.quotes {d : Diagnostic} {source : Bytes} {file : Text} {row : Nat}
    {before after : Bytes} {b : UInt8} (h : d.IsAbout source file row before b after) :
    d.Quotes file (before ++ b :: after) before.length := by
  refine ⟨h.cause, h.sourceLine, h.lineFeed_not_mem, h.length_lt, fun hfile => ?_⟩
  rw [h.lines_eq hfile]
  refine ⟨rfl, ?_⟩
  rw [List.length_append, h.hintLines_eq]
  split
  · rfl
  · rfl

namespace Session

/-- At all times, a diagnostic that a call of `next` gives quotes the line that its location names,
with line feed and trailing carriage returns left out, and what it is about stands in this line at
the column that the location names. -/
theorem diagnostic_quotes_line {lx : Lexer} (h : Reachable lx) {d : Diagnostic}
    (hd : lx.next.result = .error d) :
    ∃ (row column : Nat) (line : Bytes), d.location = some ⟨lx.file, row + 1, column + 1⟩ ∧
      (Line.all lx.source)[row]? = some line ∧ d.Quotes lx.file line column := by
  obtain ⟨row, before, b, after, habout⟩ := Lexer.exists_isAbout h.tracks hd
  exact ⟨row, before.length, _, habout.location, habout.at_row, habout.quotes⟩

/-- The second of two lines: a space, a literal beyond the limit, and a carriage return. -/
theorem diagnostic_quotes_line_overflow :
    let source : Bytes := [120, 10, 32] ++ Latin1.encode "9223372036854775808" ++ [13]
    let lx := (Lexer.start source Source.defaultName ⟨false, false⟩).next.lexer
    let d : Diagnostic := ⟨.integerOverflow "9223372036854775808" (.number (2 ^ 63 - 1)),
      some ⟨Source.defaultName, 2, 2⟩, some " 9223372036854775808"⟩
    Reachable lx ∧ lx.next.result = .error d ∧
      ∃ (row column : Nat) (line : Bytes), d.location = some ⟨lx.file, row + 1, column + 1⟩ ∧
        (Line.all lx.source)[row]? = some line ∧ d.Quotes lx.file line column := by
  intro source lx d
  have hreachable : Reachable lx := (reachable_start _ _ _).next
  have herror : lx.next.result = .error d := by decide +kernel
  exact ⟨hreachable, herror, diagnostic_quotes_line hreachable herror⟩

end Session

/-! ## The caret -/

/-- Where the caret is and where the character is that it is meant for: the byte `b`, behind the
bytes `before` of its line. -/
structure Diagnostic.Marks (d : Diagnostic) (before : Bytes) (b : UInt8) : Prop where
  /-- The byte is the one at fault, or the first digit of the literal. -/
  offending : d.cause = .invalidCharacter b.toNat ∨
    Digit b ∧ ∃ more limit, d.cause = .integerOverflow (Latin1.decode (b :: more)) limit
  caret : d.lines[2]? =
    some (List.replicate (4 + before.length) (CodePoint.ofChar ' ') ++ [CodePoint.ofChar '^'])
  character : ∃ quoted, d.lines[1]? = some quoted ∧
    quoted[4 + (Utf8.decodeLossy before).length]? = some (CodePoint.ofChar (Latin1.char b))
  /-- The caret is not left of the character. -/
  length_le : (Utf8.decodeLossy before).length ≤ before.length
  /-- It is right under it if each byte before it is a character by itself. -/
  length_eq_iff : (Utf8.decodeLossy before).length = before.length ↔
    ∀ s ∈ Utf8.segments before, s.bytes.length = 1

namespace Diagnostic.IsAbout

variable {d : Diagnostic} {source : Bytes} {file : Text} {row : Nat} {before after : Bytes}
  {b : UInt8}

theorem offending (h : d.IsAbout source file row before b after) :
    d.cause = .invalidCharacter b.toNat ∨
      Digit b ∧ ∃ more limit, d.cause = .integerOverflow (Latin1.decode (b :: more)) limit := by
  have hcause := h.cause
  generalize d.cause = cause at hcause
  cases hcause with
  | overflow hbeyond =>
    right
    have hdigits : digitsFrom (before ++ b :: after) before.length =
        (b :: after).takeWhile (Digit ·) := by
      rw [digitsFrom, List.drop_left]
    rw [hdigits] at hbeyond ⊢
    by_cases hb : Digit b
    · rw [List.takeWhile_cons_of_pos (by simpa using hb)]
      exact ⟨hb, _, _, rfl⟩
    · rw [List.takeWhile_cons_of_neg (by simpa using hb)] at hbeyond
      exact absurd hbeyond (by decide)
  | @stray c hc =>
    left
    obtain rfl : b = c := by simpa using hc
    rfl

/-- An ASCII byte is shown behind the characters for the bytes before it. -/
theorem getElem?_shown (h : d.IsAbout source file row before b after) (hb : b < 0x80) :
    (Text.ofString ("    " ++ Line.shown (before ++ b :: after)))[
      4 + (Utf8.decodeLossy before).length]? = some (CodePoint.ofChar (Latin1.char b)) := by
  have hindent : "    ".toList.length = 4 := rfl
  rw [Text.ofString, List.getElem?_map, String.toList_append, ← hindent,
    List.getElem?_append_right (Nat.le_add_right _ _), Nat.add_sub_cancel_left,
    Line.toList_shown, Line.trimmed_append_cons h.ne_carriageReturn, Utf8.chars_append_cons hb,
    ← String.length_toList, Utf8.toList_decodeLossy,
    List.getElem?_append_right (Nat.le_refl _), Nat.sub_self]
  rfl

theorem marks (h : d.IsAbout source file row before b after)
    (hfile : CodePoint.lineFeed ∉ file)
    (hbyte : ∀ byte, d.cause = .invalidCharacter byte → 0x21 ≤ byte ∧ byte ≤ 0x7E) :
    d.Marks before b := by
  have hascii : b < 0x80 := by
    simp only [UInt8.lt_iff_toNat_lt, UInt8.reduceToNat]
    rcases h.offending with hcause | ⟨hdigit, -⟩
    · have := hbyte _ hcause
      omega
    · exact Nat.lt_of_le_of_lt hdigit.2 (by decide)
  have hlength := Utf8.length_chars before
  rw [← Utf8.toList_decodeLossy, String.length_toList] at hlength
  refine ⟨h.offending, ?_, ⟨_, ?_, h.getElem?_shown hascii⟩, hlength.1, hlength.2⟩
  · rw [h.lines_eq hfile]
    show some (Diagnostic.caret (before.length + 1)) = _
    rw [Diagnostic.caret, show ((before.length : Int) + 1 + 3).toNat = 4 + before.length by omega]
  · rw [h.lines_eq hfile]
    rfl

end Diagnostic.IsAbout

namespace Session

/-- At all times, the caret of a diagnostic stands behind as many spaces as there are bytes before
the one at fault, and four more. The character at fault stands behind as many characters as these
bytes are read as, and four more: at the caret, or left of it. -/
theorem caret_counts_bytes {lx : Lexer} (h : Reachable lx) {d : Diagnostic}
    (hd : lx.next.result = .error d) (hfile : CodePoint.lineFeed ∉ lx.file)
    (hbyte : ∀ byte, d.cause = .invalidCharacter byte → 0x21 ≤ byte ∧ byte ≤ 0x7E) :
    ∃ (row : Nat) (before after : Bytes) (b : UInt8),
      d.location = some ⟨lx.file, row + 1, before.length + 1⟩ ∧
      (Line.all lx.source)[row]? = some (before ++ b :: after) ∧ d.Marks before b := by
  obtain ⟨row, before, b, after, habout⟩ := Lexer.exists_isAbout h.tracks hd
  exact ⟨row, before, after, b, habout.location, habout.at_row, habout.marks hfile hbyte⟩

/-- A stray byte behind a replacement character for two bytes. -/
theorem caret_counts_bytes_stray :
    let source : Bytes := [0xE2, 0x82, 64]
    let lx := ((Lexer.start source Source.defaultName ⟨false, true⟩).next.lexer).next.lexer
    let d : Diagnostic :=
      ⟨.invalidCharacter 64, some ⟨Source.defaultName, 1, 3⟩, some "\ufffd@"⟩
    Reachable lx ∧ lx.next.result = .error d ∧ CodePoint.lineFeed ∉ lx.file ∧
      (∀ byte, d.cause = .invalidCharacter byte → 0x21 ≤ byte ∧ byte ≤ 0x7E) ∧
      ∃ (row : Nat) (before after : Bytes) (b : UInt8),
        d.location = some ⟨lx.file, row + 1, before.length + 1⟩ ∧
        (Line.all lx.source)[row]? = some (before ++ b :: after) ∧ d.Marks before b := by
  intro source lx d
  have hreachable : Reachable lx := (reachable_start _ _ _).next.next
  have herror : lx.next.result = .error d := by decide +kernel
  have hfile : CodePoint.lineFeed ∉ lx.file := by decide +kernel
  have hbyte : ∀ byte, d.cause = .invalidCharacter byte → 0x21 ≤ byte ∧ byte ≤ 0x7E := by
    rintro byte ⟨⟩
    decide
  exact ⟨hreachable, herror, hfile, hbyte, caret_counts_bytes hreachable herror hfile hbyte⟩

/-- Behind a letter of two bytes the caret is not under the first digit of a literal, where five
spaces would put it, but under the second. -/
theorem caret_under_second_digit :
    let before : Bytes := [0xC3, 0xA9]
    let source := before ++ Latin1.encode "9223372036854775808"
    let lx := ((Lexer.start source Source.defaultName ⟨false, false⟩).next.lexer).next.lexer
    ∃ d, Reachable lx ∧ lx.next.result = .error d ∧ CodePoint.lineFeed ∉ lx.file ∧
      d.location = some ⟨lx.file, 1, before.length + 1⟩ ∧
      d.lines[1]? = some (Text.ofString "    \xe99223372036854775808") ∧
      (Utf8.decodeLossy before).length = 1 ∧
      d.lines[2]? = some (Text.ofString "      ^") ∧
      d.lines[2]? ≠ some (List.replicate (4 + (Utf8.decodeLossy before).length)
        (CodePoint.ofChar ' ') ++ [CodePoint.ofChar '^']) := by
  intro before source lx
  refine ⟨⟨.integerOverflow "9223372036854775808" (.number (2 ^ 63 - 1)),
    some ⟨Source.defaultName, 1, 3⟩, some "\xe99223372036854775808"⟩, ?_, ?_⟩
  · exact (reachable_start _ _ _).next.next
  · decide +kernel

end Session
end MonkeyScan
