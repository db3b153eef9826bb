import MonkeyScan.Proofs.Meaning
import MonkeyScan.Source

/-!
# MonkeyScan.Proofs.Next

What a call of `next` can do, said once: `Lexer.next_cases`. Either only blanks are ahead, and the
call gives the end token behind them, or it reads the longest lexeme behind the blanks and leaves
the cursor right after it. `Lexer.scan_induction` turns this into an induction over a whole scan,
and `items` and `drain` have an equation for each of its cases.
-/

namespace MonkeyScan

namespace Grammar

theorem blanks_append (bs : Bytes) :
    (∀ b ∈ bs.takeWhile Byte.isBlank, Blank b) ∧
      bs = bs.takeWhile Byte.isBlank ++ bs.dropWhile Byte.isBlank :=
  ⟨fun _ hb => isBlank_iff.mp (List.mem_takeWhile_imp hb), List.takeWhile_append_dropWhile.symm⟩

theorem not_blank_of_dropWhile {bs : Bytes} {b : UInt8} {more : Bytes}
    (h : bs.dropWhile Byte.isBlank = b :: more) : ¬ Blank b := by
  have := List.head?_dropWhile_not Byte.isBlank bs
  rw [h] at this
  rw [← isBlank_iff]
  simpa using this

theorem dropWhile_blanks_append {gap rest : Bytes} (h : ∀ b ∈ gap, Blank b) :
    (gap ++ rest).dropWhile Byte.isBlank = rest.dropWhile Byte.isBlank :=
  List.dropWhile_append_of_pos fun b hb => isBlank_iff.mpr (h b hb)

theorem dropWhile_of_not_blank {b : UInt8} {more : Bytes} (h : ¬ Blank b) :
    (b :: more).dropWhile Byte.isBlank = b :: more :=
  List.dropWhile_cons_of_neg (isBlank_iff.not.mpr h)

end Grammar

open Grammar

theorem Cursor.advanceBy_add (c : Cursor) (m n : Nat) :
    c.advanceBy (m + n) = (c.advanceBy m).advanceBy n := by
  induction m generalizing c with
  | zero => rw [Nat.zero_add]; rfl
  | succ m ih => rw [Nat.succ_add, Cursor.advanceBy, ih]; rfl

namespace Lexer

/-- The number of blanks ahead. -/
def gap (lx : Lexer) : Nat :=
  (lx.cursor.rest.takeWhile Byte.isBlank).length

theorem skipBlanks_eq (lx : Lexer) :
    lx.skipBlanks = { lx with cursor := lx.cursor.advanceBy lx.gap } := rfl

theorem gap_le (lx : Lexer) : lx.gap ≤ lx.cursor.rest.length :=
  (List.takeWhile_prefix _).length_le

theorem skipBlanks_eq_self {lx : Lexer} (h : ∀ b ∈ lx.cursor.rest.head?, ¬ Blank b) :
    lx.skipBlanks = lx := by
  have hgap : lx.gap = 0 := by
    rw [gap]
    cases hrest : lx.cursor.rest with
    | nil => rfl
    | cons b more =>
      have hb : ¬ Blank b := h b (by rw [hrest]; rfl)
      rw [List.takeWhile_cons_of_neg (isBlank_iff.not.mpr hb)]
      rfl
  rw [skipBlanks_eq, hgap]
  rfl

theorem skipBlanks_skipBlanks (lx : Lexer) : lx.skipBlanks.skipBlanks = lx.skipBlanks := by
  refine skipBlanks_eq_self fun b hb => ?_
  rw [rest_skipBlanks] at hb
  obtain ⟨more, hmore⟩ := List.head?_eq_some_iff.mp hb
  exact not_blank_of_dropWhile hmore

theorem some_next (lx : Lexer) : some lx.next = lx.nextBy .standard :=
  Option.some_get _

/-- Readers that are exact where it matters are never asked for anything else. -/
theorem nextBy_eq {readers : Readers} (h : readers.Exact) (lx : Lexer) :
    lx.nextBy readers = some lx.next := by
  rw [some_next, nextBy, nextBy]
  cases hl : Lexeme.longest? lx.options.digits lx.skipBlanks.cursor.rest with
  | none => rfl
  | some l =>
    simp only [readBy_eq h hl, readBy_eq Readers.standard_exact hl]

theorem next_skipBlanks (lx : Lexer) : lx.skipBlanks.next = lx.next := by
  have hskip := lx.skipBlanks_skipBlanks
  rw [← Option.some_inj, some_next, some_next, nextBy, nextBy, hskip]
  rfl

/-- A lexeme is ahead of a lexer: the longest one behind the blanks. -/
structure Ahead (lx : Lexer) (l : Lexeme) (b : UInt8) (more : Bytes) : Prop where
  rest : lx.cursor.rest.dropWhile Byte.isBlank = b :: more
  not_blank : ¬ Blank b
  longest : Lexeme.longest? lx.options.digits (b :: more) = some l

theorem next_cases (lx : Lexer) :
    (lx.cursor.rest.dropWhile Byte.isBlank = [] ∧
      lx.next = ⟨.ok lx.skipBlanks.endToken, [], lx.skipBlanks⟩) ∨
    ∃ l b more, lx.Ahead l b more ∧
      lx.next = ⟨(lx.skipBlanks.read l).1, (lx.skipBlanks.read l).2,
        { lx with cursor := lx.skipBlanks.cursor.advanceBy l.bytes.length }⟩ := by
  have hrest := rest_skipBlanks lx
  cases hb : lx.cursor.rest.dropWhile Byte.isBlank with
  | nil =>
    left
    refine ⟨rfl, ?_⟩
    have hl : Lexeme.longest? lx.options.digits lx.skipBlanks.cursor.rest = none := by
      rw [hrest, hb]; rfl
    rw [← Option.some_inj, some_next, nextBy]
    simp only [hl]
  | cons b more =>
    right
    obtain ⟨l, hl⟩ : ∃ l, Lexeme.longest? lx.options.digits (b :: more) = some l := by
      cases hl : Lexeme.longest? lx.options.digits (b :: more) with
      | some l => exact ⟨l, rfl⟩
      | none => exact absurd (Lexeme.longest?_eq_none_iff.mp hl) (by simp)
    refine ⟨l, b, more, ⟨hb, not_blank_of_dropWhile hb, hl⟩, ?_⟩
    rw [← hb, ← hrest] at hl
    rw [← Option.some_inj, some_next, nextBy]
    simp only [hl]
    rw [readBy_eq Readers.standard_exact hl]
    rfl

namespace Ahead

variable {lx : Lexer} {l : Lexeme} {b : UInt8} {more : Bytes}

theorem isPrefix (h : lx.Ahead l b more) : l.bytes <+: b :: more :=
  (isLongest_of_longest? h.not_blank h.longest).1

theorem isLongest (h : lx.Ahead l b more) :
    IsLongest lx.options.digits (b :: more) l.bytes.length :=
  (isLongest_of_longest? h.not_blank h.longest).2

theorem gap_add_length_le (h : lx.Ahead l b more) :
    lx.gap + l.bytes.length ≤ lx.cursor.rest.length := by
  have hsplit := congrArg List.length (blanks_append lx.cursor.rest).2
  have := h.isPrefix.length_le
  rw [h.rest, List.length_append] at hsplit
  rw [gap]
  omega

theorem bytes_ne_nil (h : lx.Ahead l b more) : l.bytes ≠ [] :=
  List.ne_nil_of_length_pos (Lexeme.bytes_pos h.longest)

theorem content (h : lx.Ahead l b more) :
    (lx.skipBlanks.read l).1.content = meaning lx.options.strict l.bytes :=
  content_read h.longest

theorem not_isEnd (h : lx.Ahead l b more) : ¬ (lx.skipBlanks.read l).1.isEnd := by
  intro hend
  have hc := h.content
  cases hr : (lx.skipBlanks.read l).1 with
  | error d =>
    rw [hr] at hend
    cases hend
  | ok t =>
    rw [hr] at hend hc
    have hk : t.kind = .endOfInput := by simpa [Outcome.isEnd, Token.isEnd] using hend
    apply meaning_ne_end h.bytes_ne_nil t.payload
    rw [← hc, ← hk]
    rfl

theorem next_eq (h : lx.Ahead l b more) :
    lx.next = ⟨(lx.skipBlanks.read l).1, (lx.skipBlanks.read l).2,
      { lx with cursor := lx.cursor.advanceBy (lx.gap + l.bytes.length) }⟩ := by
  rcases next_cases lx with ⟨hnil, -⟩ | ⟨l', b', more', h', hnext⟩
  · rw [h.rest] at hnil
    cases hnil
  · obtain ⟨rfl, rfl⟩ := List.cons.inj (h.rest.symm.trans h'.rest)
    obtain rfl := Option.some.inj (h.longest.symm.trans h'.longest)
    rw [hnext, skipBlanks_eq, Cursor.advanceBy_add]

theorem not_isEnd_next (h : lx.Ahead l b more) : ¬ lx.next.result.isEnd := by
  rw [h.next_eq]
  exact h.not_isEnd

theorem not_isEnd_of_ok {t : Token} (h : lx.Ahead l b more) (ht : lx.next.result = .ok t) :
    ¬ t.isEnd := by
  have hend := h.not_isEnd_next
  rw [ht] at hend
  exact hend

theorem rest_next (h : lx.Ahead l b more) :
    lx.next.lexer.cursor.rest = (b :: more).drop l.bytes.length := by
  have hdrop := rest_skipBlanks lx
  rw [skipBlanks_eq, Cursor.rest_advanceBy] at hdrop
  rw [h.next_eq, Cursor.rest_advanceBy, ← List.drop_drop, hdrop, h.rest]

end Ahead

theorem next_eq_end {lx : Lexer} (h : lx.cursor.rest.dropWhile Byte.isBlank = []) :
    lx.next = ⟨.ok lx.skipBlanks.endToken, [], lx.skipBlanks⟩ := by
  rcases next_cases lx with ⟨-, hnext⟩ | ⟨l, b, more, hahead, -⟩
  · exact hnext
  · rw [hahead.rest] at h
    cases h

theorem exists_ahead {lx : Lexer} (hend : ¬ lx.next.result.isEnd) :
    ∃ l b more, lx.Ahead l b more := by
  rcases next_cases lx with ⟨-, hnext⟩ | ⟨l, b, more, h, -⟩
  · rw [hnext] at hend
    exact absurd rfl hend
  · exact ⟨l, b, more, h⟩

theorem next_keeps (lx : Lexer) :
    lx.next.lexer.source = lx.source ∧ lx.next.lexer.file = lx.file ∧
      lx.next.lexer.options = lx.options := by
  rcases next_cases lx with ⟨-, hnext⟩ | ⟨l, b, more, h, -⟩
  · rw [hnext]
    exact ⟨rfl, rfl, rfl⟩
  · rw [h.next_eq]
    exact ⟨rfl, rfl, rfl⟩

end Lexer

/-! ## Whole scans -/

/-- A stream, a drain or a listing stops with this outcome. -/
def Outcome.finishes : Outcome → Bool
  | .ok t => t.isEnd
  | .error _ => true

namespace Lexer

theorem scan_induction {motive : Lexer → Prop}
    (done : ∀ lx, lx.cursor.rest.dropWhile Byte.isBlank = [] → motive lx)
    (step : ∀ lx l b more, lx.Ahead l b more → motive lx.next.lexer → motive lx) (lx : Lexer) :
    motive lx := by
  -- on the number of bytes ahead, of which every lexeme takes some
  induction hn : lx.cursor.rest.length using Nat.strong_induction_on generalizing lx with
  | _ n ih =>
    rcases next_cases lx with ⟨hnil, -⟩ | ⟨l, b, more, h, -⟩
    · exact done lx hnil
    · exact step lx l b more h (ih _ (hn ▸ rest_next_lt h.not_isEnd_next) _ rfl)

theorem items_eq_end {lx : Lexer} (h : lx.cursor.rest.dropWhile Byte.isBlank = []) :
    lx.items = ⟨[⟨lx.skipBlanks.cursor.position, lx.skipBlanks.cursor.position,
      .ok lx.skipBlanks.endToken⟩], [], lx.skipBlanks⟩ := by
  rw [items]
  simp only [next_eq_end h]
  rfl

theorem Ahead.items_eq {lx : Lexer} {l : Lexeme} {b : UInt8} {more : Bytes}
    (h : lx.Ahead l b more) :
    lx.items = ⟨⟨lx.skipBlanks.cursor.position, lx.next.lexer.cursor.position, lx.next.result⟩ ::
        lx.next.lexer.items.result,
      lx.next.events ++ lx.next.lexer.items.events, lx.next.lexer.items.lexer⟩ := by
  rw [items]
  simp only [h.not_isEnd_next]
  rfl

theorem drain_eq_end {lx : Lexer} (h : lx.cursor.rest.dropWhile Byte.isBlank = []) :
    lx.drain = ⟨([lx.skipBlanks.endToken], none), [], lx.skipBlanks⟩ := by
  have hnext := next_eq_end h
  rw [drain]
  split
  · rename_i d hd
    rw [hnext] at hd
    cases hd
  · rename_i t ht
    rw [hnext] at ht ⊢
    cases ht
    rfl

theorem drain_eq_error {lx : Lexer} {d : Diagnostic} (h : lx.next.result = .error d) :
    lx.drain = ⟨([], some d), lx.next.events, lx.next.lexer⟩ := by
  rw [drain]
  split
  · rename_i d' hd
    rw [h] at hd
    cases hd
    rfl
  · rename_i t ht
    rw [h] at ht
    cases ht

theorem drain_eq_token {lx : Lexer} {t : Token} (h : lx.next.result = .ok t) (ht : ¬ t.isEnd) :
    lx.drain = ⟨(t :: lx.next.lexer.drain.result.1, lx.next.lexer.drain.result.2),
      lx.next.events ++ lx.next.lexer.drain.events, lx.next.lexer.drain.lexer⟩ := by
  rw [drain]
  split
  · rename_i d hd
    rw [h] at hd
    cases hd
  · rename_i t' ht'
    rw [h] at ht'
    cases ht'
    simp only [ht]
    rfl

theorem drain_ok_iff {lx : Lexer} {t : Token} (h : lx.next.result = .ok t) (ht : ¬ t.isEnd)
    (ts : List Token) :
    lx.drain.result = (ts, none) ↔
      ∃ more, ts = t :: more ∧ lx.next.lexer.drain.result = (more, none) := by
  rw [drain_eq_token h ht, Prod.mk.injEq]
  constructor
  · rintro ⟨rfl, hnone⟩
    exact ⟨_, rfl, Prod.ext rfl hnone⟩
  · rintro ⟨more, rfl, hmore⟩
    rw [hmore]
    exact ⟨rfl, rfl⟩

end Lexer

theorem Source.tokenize_ok_iff (s : Source) (file : Text) (options : Options) (ts : List Token) :
    (s.tokenize file options).1 = .ok ts ↔
      ∃ bs, s.toBytes = .ok bs ∧ (Lexer.start bs file options).drain.result = (ts, none) := by
  rw [tokenize, lexer]
  cases s.toBytes with
  | error e => simp
  | ok bs =>
    simp only [Except.ok.injEq, exists_eq_left']
    generalize (Lexer.start bs file options).drain = step
    obtain ⟨⟨tokens, stoppedBy⟩, events, lexer⟩ := step
    cases stoppedBy <;> simp

end MonkeyScan
