import MonkeyScan.Proofs.Split
import MonkeyScan.Proofs.Tracking

/-!
# MonkeyScan.Proofs.Lookahead

What a call of `next` depends on: the bytes that it takes, the one byte behind them, and the
options. Neither what comes after that byte nor what was asked of the lexer before has any part in
it.

* `Lexer.Finds.next`: whatever is ahead, blanks and a lexeme that does not go on behind them settle
  what the call gives and where it leaves the cursor.
* `Lexer.Finds.of_sameAhead`: that the lexeme does not go on is told by one byte, so another lexer
  finds the same if it has the same bytes ahead up to this one.
* `Session.one_byte_lookahead`: so two lexers do alike, on whatever sources and in whatever state
  they are.
-/

namespace MonkeyScan

open Grammar

/-- A move goes to the next line with each line feed that it leaves. -/
theorem Cursor.Tracks.line_advanceBy {source : Bytes} {c : Cursor} (h : c.Tracks source) (n : Nat) :
    (c.advanceBy n).line = c.line + (c.rest.take n).count Byte.lineFeed := by
  obtain ⟨hmoved, hposition⟩ := h.advanceBy n
  rw [hmoved.line, hposition, List.take_add, List.count_append, ← h.rest, h.line, Nat.add_assoc]

namespace Lexer

/-- Ahead of the lexer there are blanks, then a lexeme, and then what does not go on with it. -/
structure Finds (lx : Lexer) (gap lexeme after : Bytes) : Prop where
  rest : lx.cursor.rest = gap ++ (lexeme ++ after)
  blank : ∀ b ∈ gap, Blank b
  isLexeme : IsLexeme lx.options.digits lexeme
  stops : ∀ c ∈ after.head?, ¬ IsLexeme lx.options.digits (lexeme ++ [c])

theorem Ahead.finds {lx : Lexer} {l : Lexeme} {b : UInt8} {more : Bytes} (h : lx.Ahead l b more) :
    ∃ gap after, lx.Finds gap l.bytes after := by
  obtain ⟨hblank, hsplit⟩ := blanks_append lx.cursor.rest
  obtain ⟨after, hmore, hlexeme, hstops⟩ := exists_rest_of_longest? h.not_blank h.longest
  rw [h.rest, hmore] at hsplit
  exact ⟨_, after, hsplit, hblank, hlexeme, hstops⟩

theorem exists_finds {lx : Lexer} (hend : ¬ lx.next.result.isEnd) :
    ∃ gap lexeme after, lx.Finds gap lexeme after := by
  obtain ⟨l, b, more, h⟩ := exists_ahead hend
  obtain ⟨gap, after, hfinds⟩ := h.finds
  exact ⟨gap, l.bytes, after, hfinds⟩

namespace Finds

variable {lx lx' : Lexer} {gap lexeme after : Bytes}

theorem isLongest (h : lx.Finds gap lexeme after) :
    IsLongest lx.options.digits (lexeme ++ after) lexeme.length :=
  isLongest_append_iff.mpr ⟨h.isLexeme, h.stops⟩

theorem next (h : lx.Finds gap lexeme after) :
    lx.next.result.content = meaning lx.options.strict lexeme ∧
      lx.next.lexer.cursor = lx.cursor.advanceBy (gap ++ lexeme).length := by
  have hdrop : lx.cursor.rest.dropWhile Byte.isBlank = lexeme ++ after := by
    rw [h.rest, dropWhile_gap h.blank h.isLexeme]
  have hgap : gap.length = lx.gap := by
    have hlength := congrArg List.length (blanks_append lx.cursor.rest).2
    rw [hdrop, List.length_append, h.rest, List.length_append] at hlength
    rw [Lexer.gap, h.rest]
    omega
  rcases next_cases lx with ⟨hnil, -⟩ | ⟨l, b, more, hahead, -⟩
  · rw [hdrop, List.append_eq_nil_iff] at hnil
    exact absurd hnil.1 h.isLexeme.ne_nil
  · have hrest : b :: more = lexeme ++ after := hahead.rest.symm.trans hdrop
    have hlong := hahead.isLongest
    have hprefix := hahead.isPrefix
    rw [hrest] at hlong hprefix
    -- both are the longest lexeme at the same place
    have hlength : l.bytes.length = lexeme.length := hlong.unique h.isLongest
    obtain rfl : l.bytes = lexeme := by
      rw [List.prefix_iff_eq_take.mp hprefix, hlength, List.take_left]
    rw [hahead.next_eq, ← hgap, List.length_append]
    exact ⟨hahead.content, rfl⟩

end Finds

/-- The same `n` bytes are ahead of two lexers, and behind these the same byte, or the end of the
source for both. -/
structure SameAhead (n : Nat) (lx lx' : Lexer) : Prop where
  options : lx'.options = lx.options
  bytes : (lx'.source.drop lx'.cursor.position).take n = (lx.source.drop lx.cursor.position).take n
  behind : lx'.source[lx'.cursor.position + n]? = lx.source[lx.cursor.position + n]?

/-- The next call does the same for two lexers: it gives the same but for its place, it takes `n`
bytes, and it goes on by as many lines. -/
structure SameNext (n : Nat) (lx lx' : Lexer) : Prop where
  content : lx'.next.result.content = lx.next.result.content
  position : lx'.next.lexer.cursor.position = lx'.cursor.position + n
  line : ∃ k, lx.next.lexer.cursor.line = lx.cursor.line + k ∧
    lx'.next.lexer.cursor.line = lx'.cursor.line + k

/-- One byte behind a lexeme tells that it does not go on. -/
theorem Finds.of_sameAhead {lx lx' : Lexer} {gap lexeme after : Bytes}
    (h : lx.Finds gap lexeme after) (ht : lx.cursor.Tracks lx.source)
    (ht' : lx'.cursor.Tracks lx'.source) (hsame : SameAhead (gap ++ lexeme).length lx lx') :
    ∃ after', lx'.Finds gap lexeme after' := by
  obtain ⟨hoptions, hbytes, hbehind⟩ := hsame
  have hrest : lx.cursor.rest = gap ++ lexeme ++ after := by
    rw [h.rest, List.append_assoc]
  rw [← ht.rest, ← ht'.rest, hrest, List.take_left] at hbytes
  rw [← List.getElem?_drop, ← List.getElem?_drop, ← ht.rest, ← ht'.rest, hrest, ← List.head?_drop,
    ← List.head?_drop, List.drop_left] at hbehind
  have hrest' := (List.take_append_drop (gap ++ lexeme).length lx'.cursor.rest).symm
  rw [hbytes, List.append_assoc] at hrest'
  refine ⟨lx'.cursor.rest.drop (gap ++ lexeme).length, hrest', h.blank, ?_, ?_⟩
  · rw [hoptions]
    exact h.isLexeme
  · rw [hoptions, hbehind]
    exact h.stops

theorem Finds.sameNext {lx lx' : Lexer} {gap lexeme after after' : Bytes}
    (h : lx.Finds gap lexeme after) (h' : lx'.Finds gap lexeme after')
    (hoptions : lx'.options = lx.options) (ht : lx.cursor.Tracks lx.source)
    (ht' : lx'.cursor.Tracks lx'.source) : SameNext (gap ++ lexeme).length lx lx' := by
  have htake : lx.cursor.rest.take (gap ++ lexeme).length = gap ++ lexeme := by
    rw [h.rest, ← List.append_assoc, List.take_left]
  have htake' : lx'.cursor.rest.take (gap ++ lexeme).length = gap ++ lexeme := by
    rw [h'.rest, ← List.append_assoc, List.take_left]
  refine ⟨?_, ?_, (gap ++ lexeme).count Byte.lineFeed, ?_, ?_⟩
  · rw [h.next.1, h'.next.1, hoptions]
  · rw [h'.next.2]
    exact (ht'.advanceBy _).2
  · rw [h.next.2, ht.line_advanceBy, htake]
  · rw [h'.next.2, ht'.line_advanceBy, htake']

end Lexer

namespace Session

/-- Lexers on any two sources, in whatever state they are: if the bytes that the next call takes for
the first one, and the byte behind them, are ahead of the second one too, then the call does the
same for it. -/
theorem one_byte_lookahead {lx lx' : Lexer} (h : Reachable lx) (h' : Reachable lx')
    (hend : ¬ lx.next.result.isEnd) {n : Nat}
    (hn : lx.next.lexer.cursor.position = lx.cursor.position + n)
    (hsame : lx.SameAhead n lx') : lx.SameNext n lx' := by
  obtain ⟨gap, lexeme, after, hfinds⟩ := Lexer.exists_finds hend
  have hlength : n = (gap ++ lexeme).length := by
    rw [hfinds.next.2, (h.tracks.advanceBy _).2] at hn
    omega
  subst hlength
  obtain ⟨after', hfinds'⟩ := hfinds.of_sameAhead h.tracks h'.tracks hsame
  exact hfinds.sameNext hfinds' hsame.options h.tracks h'.tracks

/-- A line feed and `!=` before a digit, at the start of one source and behind a stray byte of
another one, where a strict lexer has complained already. -/
theorem one_byte_lookahead_comparison :
    let lx := Lexer.start [10, 33, 61, 49] Source.defaultName ⟨false, true⟩
    let lx' := (Lexer.start [10, 64, 10, 33, 61, 49, 61] Source.defaultName ⟨false, true⟩).next.lexer
    Reachable lx ∧ Reachable lx' ∧ ¬ lx.next.result.isEnd ∧
      lx.next.lexer.cursor.position = lx.cursor.position + 3 ∧ lx.SameAhead 3 lx' ∧
      lx.SameNext 3 lx' := by
  intro lx lx'
  have hlx : Reachable lx := reachable_start _ _ _
  have hlx' : Reachable lx' := (reachable_start _ _ _).next
  have hend : ¬ lx.next.result.isEnd := by decide +kernel
  have hposition : lx.next.lexer.cursor.position = lx.cursor.position + 3 := by decide +kernel
  have hsame : lx.SameAhead 3 lx' := ⟨rfl, by decide +kernel, by decide +kernel⟩
  exact ⟨hlx, hlx', hend, hposition, hsame, one_byte_lookahead hlx hlx' hend hposition hsame⟩

end Session
end MonkeyScan
