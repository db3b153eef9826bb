import MonkeyScan.Proofs.Strictness

/-!
# MonkeyScan.Proofs.Progress

A scan comes to its end, from wherever it starts. A call of `next` moves the cursor byte by byte,
while the byte that it holds is of a class (`Cursor.While`), and no such loop runs on at the end,
because `Byte.nul`, which the cursor holds there, is in none of the classes.

* `Lexer.next_walks`: the moves of one call, told by what the cursor holds alone.
* `Lexer.isEnd_next_iff`: the end token comes where nothing but blanks is ahead. `Byte.nul` in a
  source is no blank and so is not the end.
* `Lexer.exists_first_end`: every other outcome takes away bytes that are no blanks, so calls come
  to the end token, and stay there.
* `Session.scanning_progresses`: all this for the lexers of a session at any time.
-/

namespace MonkeyScan

open Grammar

namespace Cursor

/-- The cursor moves on, byte by byte, as long as it is on a byte of the class. -/
inductive While (p : UInt8 → Bool) : Cursor → Cursor → Prop where
  | stay {c : Cursor} (h : p c.byte = false) : While p c c
  | move {c c' : Cursor} (h : p c.byte = true) (more : While p c.advance c') : While p c c'

/-- How a call goes on behind the blanks, told by the byte under the cursor and the one after it. It
tells too whether this is the end, where the cursor stays. -/
inductive Takes (digits : Bool) (c : Cursor) : Bool → Cursor → Prop where
  | double (h : c.byte = Byte.equals ∨ c.byte = Byte.bang) (hnext : c.nextByte = Byte.equals) :
      Takes digits c false c.advance.advance
  | single (h : c.byte = Byte.equals ∨ c.byte = Byte.bang) (hnext : c.nextByte ≠ Byte.equals) :
      Takes digits c false c.advance
  | symbol {k : Kind} (h : Kind.ofSymbol? c.byte = some k) : Takes digits c false c.advance
  | finish (hend : c.atEnd = true) : Takes digits c true c
  | word {c' : Cursor} (hend : c.atEnd = false) (h : Byte.isLetter c.byte = true)
      (more : While (Byte.continuesWord digits) c c') : Takes digits c false c'
  | number {c' : Cursor} (hend : c.atEnd = false) (h : Byte.isDigit c.byte = true)
      (more : While Byte.isDigit c c') : Takes digits c false c'
  | stray (hend : c.atEnd = false) (h : ¬ Starts c.byte) : Takes digits c false c.advance

namespace Tracks

variable {source : Bytes} {c : Cursor}

/-- A loop over a class without `Byte.nul` stops, at the end of the source if not before. -/
theorem while_takeWhile (h : c.Tracks source) {p : UInt8 → Bool} (hnul : p Byte.nul = false) :
    While p c (c.advanceBy (c.rest.takeWhile p).length) := by
  induction hrest : c.rest generalizing c with
  | nil =>
    have hbyte : c.byte = Byte.nul := by rw [h.byte_eq, hrest]; rfl
    exact .stay (by rw [hbyte, hnul])
  | cons b more ih =>
    have hbyte : c.byte = b := by rw [h.byte_eq, hrest]; rfl
    cases hp : p b with
    | true =>
      have hmore : c.advance.rest = more := by rw [rest_advance, hrest]; rfl
      rw [List.takeWhile_cons_of_pos hp]
      exact .move (by rw [hbyte, hp]) (ih h.advance hmore)
    | false =>
      rw [List.takeWhile_cons_of_neg (by simp [hp])]
      exact .stay (by rw [hbyte, hp])

theorem takes_comparison (h : c.Tracks source) {digits : Bool} {b : UInt8} {more : Bytes}
    (hrest : c.rest = b :: more) (hb : b = Byte.equals ∨ b = Byte.bang) :
    Takes digits c false
      (c.advanceBy (Lexeme.symbol (Lexeme.comparison b more)).bytes.length) := by
  have hbyte : c.byte = b := by rw [h.byte_eq, hrest]; rfl
  have hnext : c.nextByte = more.headD Byte.nul := by rw [nextByte, hrest]; rfl
  cases more with
  | nil =>
    rw [bytes_comparison_single hb (by simp)]
    exact .single (hbyte ▸ hb) (by rw [hnext]; decide)
  | cons d more =>
    by_cases hd : d = Byte.equals
    · rw [hd, bytes_comparison_double hb]
      exact .double (hbyte ▸ hb) (hnext.trans hd)
    · rw [bytes_comparison_single hb (by simpa using hd)]
      exact .single (hbyte ▸ hb) (by rw [hnext]; exact hd)

theorem takes_longest? (h : c.Tracks source) {digits : Bool} {b : UInt8} {more : Bytes}
    {l : Lexeme} (hrest : c.rest = b :: more)
    (hl : Lexeme.longest? digits (b :: more) = some l) :
    Takes digits c false (c.advanceBy l.bytes.length) := by
  have hbyte : c.byte = b := by rw [h.byte_eq, hrest]; rfl
  have hend : c.atEnd = false := by rw [atEnd, hrest]; rfl
  rcases longest?_cases hl with ⟨hb, rfl⟩ | ⟨k, hk, rfl⟩ | ⟨hb, rfl⟩ | ⟨hb, rfl⟩ | ⟨hb, rfl⟩
  · exact h.takes_comparison hrest hb
  · rw [Lexeme.bytes_of_symbol hk]
    exact .symbol (hbyte ▸ hk)
  · have hloop := h.while_takeWhile (p := Byte.continuesWord digits) (by cases digits <;> decide)
    have hb' : Byte.continuesWord digits b = true := continuesWord_iff.mpr (.inl hb)
    rw [hrest, List.takeWhile_cons_of_pos hb'] at hloop
    exact .word hend (by rw [hbyte, isLetter_iff]; exact hb) hloop
  · have hloop := h.while_takeWhile (p := Byte.isDigit) (by decide)
    have hb' : Byte.isDigit b = true := isDigit_iff.mpr hb
    rw [hrest, List.takeWhile_cons_of_pos hb'] at hloop
    exact .number hend (by rw [hbyte, hb']) hloop
  · exact .stray hend (hbyte ▸ hb)

end Tracks

end Cursor

namespace Lexer

variable {lx : Lexer}

/-! ## One call -/

theorem next_walks (ht : lx.cursor.Tracks lx.source) :
    Cursor.While Byte.isBlank lx.cursor lx.skipBlanks.cursor ∧
      Cursor.Takes lx.options.digits lx.skipBlanks.cursor lx.next.result.isEnd
        lx.next.lexer.cursor := by
  refine ⟨ht.while_takeWhile (by decide), ?_⟩
  have hrest := lx.rest_skipBlanks
  rcases next_cases lx with ⟨hnil, hnext⟩ | ⟨l, b, more, h, hnext⟩
  · rw [hnil] at hrest
    rw [hnext]
    exact .finish (by rw [Cursor.atEnd, hrest]; rfl)
  · rw [h.rest] at hrest
    rw [Bool.eq_false_iff.mpr h.not_isEnd_next, hnext]
    exact (ht.advanceBy lx.gap).1.takes_longest? hrest h.longest

theorem dropWhile_eq_nil_iff {bs : Bytes} :
    bs.dropWhile Byte.isBlank = [] ↔ ∀ b ∈ bs, Blank b := by
  rw [List.dropWhile_eq_nil_iff]
  exact forall₂_congr fun b _ => isBlank_iff

theorem isEnd_next_iff (lx : Lexer) : lx.next.result.isEnd ↔ ∀ b ∈ lx.cursor.rest, Blank b := by
  rw [← dropWhile_eq_nil_iff]
  rcases next_cases lx with ⟨hnil, hnext⟩ | ⟨l, b, more, h, -⟩
  · rw [hnext]
    exact iff_of_true rfl hnil
  · refine iff_of_false h.not_isEnd_next ?_
    rw [h.rest]
    exact List.cons_ne_nil b more

theorem advances (ht : lx.cursor.Tracks lx.source) (hend : ¬ lx.next.result.isEnd) :
    lx.cursor.position < lx.next.lexer.cursor.position ∧
      lx.next.lexer.cursor.position ≤ lx.source.length := by
  obtain ⟨l, b, more, h⟩ := exists_ahead hend
  have hpos := List.length_pos_iff.mpr h.bytes_ne_nil
  have hle := h.position_next_le ht
  rw [h.position_next ht]
  omega

/-- At the end a call changes nothing, so that the next one gives the same. -/
theorem next_again (hend : lx.next.result.isEnd) :
    lx.next.lexer.next = ⟨lx.next.result, [], lx.next.lexer⟩ := by
  rcases next_cases lx with ⟨-, hnext⟩ | ⟨l, b, more, h, -⟩
  · rw [hnext, next_skipBlanks, hnext]
  · exact absurd hend h.not_isEnd_next

/-! ## Many calls -/

/-- The lexer right before a call, counted from zero. Options are assigned before each call. -/
def atCall (lx : Lexer) (schedule : Nat → Options) : Nat → Lexer
  | 0 => lx.under (schedule 0)
  | n + 1 => (lx.under (schedule 0)).next.lexer.atCall (fun k => schedule (k + 1)) n

/-- Each lexeme takes away bytes that are no blanks, and they are all it has. -/
theorem Ahead.countP_rest {l : Lexeme} {b : UInt8} {more : Bytes} (h : lx.Ahead l b more) :
    lx.cursor.rest.countP (¬ Blank ·) =
      l.bytes.length + lx.next.lexer.cursor.rest.countP (¬ Blank ·) := by
  obtain ⟨hblank, hsplit⟩ := blanks_append lx.cursor.rest
  obtain ⟨rest, hrest⟩ := h.isPrefix
  have hlexeme : IsLexeme lx.options.digits l.bytes := by
    have := h.isLongest.lexeme
    rwa [← hrest, List.take_left] at this
  have hgap : (lx.cursor.rest.takeWhile Byte.isBlank).countP (¬ Blank ·) = 0 :=
    List.countP_eq_zero.mpr (by simpa using hblank)
  have hbytes : l.bytes.countP (¬ Blank ·) = l.bytes.length :=
    List.countP_eq_length.mpr (by simpa using hlexeme.not_blank)
  rw [h.rest_next, ← hrest, List.drop_left]
  conv_lhs => rw [hsplit, h.rest, ← hrest]
  rw [List.countP_append, List.countP_append, hgap, hbytes, Nat.zero_add]

theorem atCall_at_end (hnil : lx.cursor.rest.dropWhile Byte.isBlank = [])
    (schedule : Nat → Options) (n : Nat) :
    (lx.atCall schedule n).next.result = .ok lx.skipBlanks.endToken ∧
      (lx.atCall schedule n).next.lexer.cursor = lx.skipBlanks.cursor := by
  induction n generalizing lx schedule with
  | zero =>
    have hnext : (lx.under (schedule 0)).next = _ := next_eq_end hnil
    rw [atCall, hnext]
    exact ⟨rfl, rfl⟩
  | succ n ih =>
    have hnext : (lx.under (schedule 0)).next = _ := next_eq_end hnil
    have hrest : (lx.under (schedule 0)).skipBlanks.cursor.rest = [] :=
      (rest_skipBlanks _).trans hnil
    have ih' := @ih (lx.under (schedule 0)).skipBlanks (by rw [hrest]; rfl)
      (fun k => schedule (k + 1))
    rw [skipBlanks_skipBlanks] at ih'
    rw [atCall, hnext]
    exact ih'

/-- The end token comes after no more other outcomes than there are bytes ahead that are no blanks,
and then it comes again and again. -/
theorem exists_first_end (lx : Lexer) (schedule : Nat → Options) :
    ∃ n ≤ lx.cursor.rest.countP (¬ Blank ·), ∃ last : Outcome, ∃ c : Cursor, last.isEnd ∧
      (∀ k < n, ¬ (lx.atCall schedule k).next.result.isEnd) ∧
      ∀ k, n ≤ k → (lx.atCall schedule k).next.result = last ∧
        (lx.atCall schedule k).next.lexer.cursor = c := by
  induction hcount : lx.cursor.rest.countP (¬ Blank ·) using Nat.strong_induction_on
    generalizing lx schedule with
  | _ m ih =>
    rcases next_cases (lx.under (schedule 0)) with ⟨hnil, -⟩ | ⟨l, b, more, h, -⟩
    · have hnil' : lx.cursor.rest.dropWhile Byte.isBlank = [] := hnil
      exact ⟨0, Nat.zero_le m, .ok lx.skipBlanks.endToken, lx.skipBlanks.cursor, rfl, by simp,
        fun k _ => atCall_at_end hnil' schedule k⟩
    · have hpos := List.length_pos_iff.mpr h.bytes_ne_nil
      have hless : m = l.bytes.length +
          (lx.under (schedule 0)).next.lexer.cursor.rest.countP (¬ Blank ·) :=
        hcount.symm.trans h.countP_rest
      obtain ⟨n, hn, last, c, hlast, hbefore, hbehind⟩ :=
        ih _ (by omega) (lx.under (schedule 0)).next.lexer (fun k => schedule (k + 1)) rfl
      refine ⟨n + 1, by omega, last, c, hlast, fun k hk => ?_, fun k hk => ?_⟩
      · cases k with
        | zero => exact h.not_isEnd_next
        | succ k => exact hbefore k (by omega)
      · obtain ⟨k, rfl⟩ : ∃ k', k = k' + 1 := ⟨k - 1, by omega⟩
        exact hbehind k (by omega)

/-- Calls of `next` from here on are over in the end, each of them and all together. -/
structure Progresses (lx : Lexer) : Prop where
  walks : Cursor.While Byte.isBlank lx.cursor lx.skipBlanks.cursor ∧
    Cursor.Takes lx.options.digits lx.skipBlanks.cursor lx.next.result.isEnd
      lx.next.lexer.cursor
  isEnd_iff : lx.next.result.isEnd ↔ ∀ b ∈ lx.source.drop lx.cursor.position, Blank b
  advances : ¬ lx.next.result.isEnd → lx.cursor.position < lx.next.lexer.cursor.position ∧
    lx.next.lexer.cursor.position ≤ lx.source.length
  again : lx.next.result.isEnd → lx.next.lexer.next = ⟨lx.next.result, [], lx.next.lexer⟩
  /-- Options may change from call to call. -/
  ends : ∀ schedule : Nat → Options,
    ∃ n ≤ (lx.source.drop lx.cursor.position).countP (¬ Blank ·),
      ∃ last : Outcome, ∃ c : Cursor, last.isEnd ∧
        (∀ k < n, ¬ (lx.atCall schedule k).next.result.isEnd) ∧
        ∀ k, n ≤ k → (lx.atCall schedule k).next.result = last ∧
          (lx.atCall schedule k).next.lexer.cursor = c

end Lexer

namespace Session

/-- At all times, whatever has been asked of a session so far and wherever the cursor of a lexer was
moved, calls come to an end and go on until there is nothing left. -/
theorem scanning_progresses {lx : Lexer} (h : Reachable lx) : lx.Progresses := by
  have ht := h.tracks
  refine ⟨lx.next_walks ht, ?_, lx.advances ht, lx.next_again, fun schedule => ?_⟩
  · rw [← ht.rest]
    exact lx.isEnd_next_iff
  · rw [← ht.rest]
    exact lx.exists_first_end schedule

/-- A source that is one `Byte.nul`, from its start and from past its end: it is read as a byte, and
the end comes only behind it. -/
theorem scanning_progresses_nul :
    let lx := Lexer.start [Byte.nul] Source.defaultName ⟨false, true⟩
    let past := lx.next.lexer.advance.advance
    Reachable lx ∧ lx.Progresses ∧ ¬ lx.next.result.isEnd ∧
      Reachable past ∧ past.Progresses ∧ past.next.result.isEnd ∧
      past.source.length < past.cursor.position := by
  intro lx past
  have hreachable : Reachable lx :=
    ⟨[([Byte.nul], Source.defaultName, ⟨false, true⟩)], false, [], 0, by decide, rfl⟩
  have hpast : Reachable past :=
    ⟨[([Byte.nul], Source.defaultName, ⟨false, true⟩)], false,
      [.ask 0 .next, .ask 0 .advance, .ask 0 .advance], 0, by decide, rfl⟩
  exact ⟨hreachable, scanning_progresses hreachable, by decide +kernel, hpast,
    scanning_progresses hpast, by decide +kernel, by decide +kernel⟩

end Session
end MonkeyScan
