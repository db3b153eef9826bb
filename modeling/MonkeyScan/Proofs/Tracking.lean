import Mathlib.Data.List.Basic
import MonkeyScan.Proofs.Next
import MonkeyScan.Session

/-!
# MonkeyScan.Proofs.Tracking

A cursor tracks its source (`Cursor.Tracks`) when its six fields say of the source what they are
meant to say. The line is counted when a line feed is left and not when it is read, and it is told
by the byte that the cursor holds, so position, byte, line and line start depend on one another.

* `Cursor.Tracks.advance`: one move keeps all of it, past the end too.
* `Lexer.answer_moves`, `Session.act_moves`: whatever a lexer is asked, directly or through a
  stream, it does nothing to its cursor but move it, and only `advance` moves it past the end.
* `Session.after_tracks`: so every cursor of a session tracks its source at all times.
-/

namespace MonkeyScan

open Grammar

/-- `n` is one past the last line feed among some bytes, or zero if there is none. -/
def IsLineStart (before : Bytes) (n : Nat) : Prop :=
  (Byte.lineFeed ∉ before ∧ n = 0) ∨
    ∃ i, before[i]? = some Byte.lineFeed ∧ Byte.lineFeed ∉ before.drop (i + 1) ∧ n = i + 1

namespace IsLineStart

theorem le_length {before : Bytes} {n : Nat} (h : IsLineStart before n) : n ≤ before.length := by
  rcases h with ⟨-, rfl⟩ | ⟨i, hi, -, rfl⟩
  · omega
  · exact (List.getElem?_eq_some_iff.mp hi).1

theorem concat {before : Bytes} {n : Nat} {b : UInt8} (h : IsLineStart before n)
    (hb : b ≠ Byte.lineFeed) : IsLineStart (before ++ [b]) n := by
  have hb' : Byte.lineFeed ∉ [b] := by simpa using hb.symm
  rcases h with ⟨hnone, rfl⟩ | ⟨i, hi, hlast, rfl⟩
  · exact .inl ⟨by simp [hnone, hb.symm], rfl⟩
  · have hlt := (List.getElem?_eq_some_iff.mp hi).1
    refine .inr ⟨i, ?_, ?_, rfl⟩
    · rw [List.getElem?_append_left hlt, hi]
    · rw [List.drop_append_of_le_length (by omega), List.mem_append, not_or]
      exact ⟨hlast, hb'⟩

theorem concat_lineFeed (before : Bytes) :
    IsLineStart (before ++ [Byte.lineFeed]) (before.length + 1) := by
  refine .inr ⟨before.length, by simp, ?_, rfl⟩
  simp [List.drop_eq_nil_of_le]

end IsLineStart

namespace Cursor

/-- The fields of a cursor are those of its position in the source. -/
structure Tracks (source : Bytes) (c : Cursor) : Prop where
  rest : c.rest = source.drop c.position
  byte : c.byte = source[c.position]?.getD Byte.nul
  readPosition : c.readPosition = c.position + 1
  line : c.line = 1 + (source.take c.position).count Byte.lineFeed
  lineStart : IsLineStart (source.take c.position) c.lineStart

theorem tracks_start (source : Bytes) : (start source).Tracks source where
  rest := rfl
  byte := by cases source <;> rfl
  readPosition := rfl
  line := by simp [start]
  lineStart := .inl ⟨by simp [start], rfl⟩

namespace Tracks

variable {source : Bytes} {c : Cursor}

theorem advance (h : c.Tracks source) : c.advance.Tracks source := by
  have hpos : c.advance.position = c.position + 1 := h.readPosition
  have hrest : c.advance.rest = source.drop (c.position + 1) := by
    rw [rest_advance, h.rest, List.tail_drop]
  refine ⟨by rw [hpos, hrest], ?_, by rw [hpos, ← h.readPosition]; rfl, ?_, ?_⟩
  · show c.advance.rest.headD Byte.nul = _
    rw [hpos, hrest, List.headD_eq_head?_getD, List.head?_drop]
  · rw [hpos, List.take_add_one, List.count_append]
    show (if c.byte = Byte.lineFeed then c.line + 1 else c.line) = _
    rw [h.byte, h.line]
    cases source[c.position]? with
    | none => rfl
    | some b =>
      by_cases hb : b = Byte.lineFeed
      · simp [hb, Nat.add_assoc]
      · simp [hb]
  · rw [hpos, List.take_add_one]
    show IsLineStart _ (if c.byte = Byte.lineFeed then c.readPosition else c.lineStart)
    rw [h.byte]
    cases hget : source[c.position]? with
    -- past the end the cursor holds `Byte.nul`, which starts no line
    | none => simpa [Byte.nul, Byte.lineFeed] using h.lineStart
    | some b =>
      by_cases hb : b = Byte.lineFeed
      · subst hb
        have hlen : (source.take c.position).length = c.position := by
          have := (List.getElem?_eq_some_iff.mp hget).1
          rw [List.length_take]
          omega
        have := IsLineStart.concat_lineFeed (source.take c.position)
        rw [hlen, ← h.readPosition] at this
        simpa using this
      · simpa [hb] using h.lineStart.concat hb

theorem advanceBy (h : c.Tracks source) (n : Nat) :
    (c.advanceBy n).Tracks source ∧ (c.advanceBy n).position = c.position + n := by
  induction n generalizing c with
  | zero => exact ⟨h, rfl⟩
  | succ n ih =>
    obtain ⟨htracks, hpos⟩ := ih h.advance
    refine ⟨htracks, ?_⟩
    rw [Cursor.advanceBy, hpos]
    show c.readPosition + n = _
    rw [h.readPosition]
    omega

theorem byte_eq (h : c.Tracks source) : c.byte = c.rest.headD Byte.nul := by
  rw [h.byte, h.rest, List.headD_eq_head?_getD, List.head?_drop]

theorem length_rest (h : c.Tracks source) : c.rest.length = source.length - c.position := by
  rw [h.rest, List.length_drop]

theorem lineStart_le (h : c.Tracks source) :
    c.lineStart ≤ c.position ∧ c.lineStart ≤ source.length := by
  have := h.lineStart.le_length
  rw [List.length_take] at this
  omega

theorem column_pos (h : c.Tracks source) (file : Text) : 1 ≤ (c.location file).column := by
  have := h.lineStart_le.1
  show (1 : Int) ≤ (c.position : Int) - c.lineStart + 1
  omega

end Tracks

end Cursor

/-! ## Lexers -/

namespace Lexer

section Places

variable {lx : Lexer} {l : Lexeme} {b : UInt8} {more : Bytes}

theorem position_skipBlanks (ht : lx.cursor.Tracks lx.source) :
    lx.skipBlanks.cursor.position = lx.cursor.position + lx.gap :=
  (ht.advanceBy lx.gap).2

theorem getElem?_skipBlanks (ht : lx.cursor.Tracks lx.source) :
    lx.source[lx.skipBlanks.cursor.position]? =
      (lx.cursor.rest.dropWhile Byte.isBlank).head? := by
  have hrest : lx.skipBlanks.cursor.rest = lx.source.drop lx.skipBlanks.cursor.position :=
    (ht.advanceBy lx.gap).1.rest
  rw [← rest_skipBlanks, hrest, List.head?_drop]

theorem blank_of_gap (ht : lx.cursor.Tracks lx.source) {j : Nat} {c : UInt8}
    (hj : lx.cursor.position ≤ j) (hlt : j < lx.cursor.position + lx.gap)
    (hget : lx.source[j]? = some c) : Blank c := by
  obtain ⟨hblank, hsplit⟩ := blanks_append lx.cursor.rest
  refine hblank c (List.mem_iff_getElem?.mpr ⟨j - lx.cursor.position, ?_⟩)
  have hrest : lx.cursor.rest[j - lx.cursor.position]? = some c := by
    rw [ht.rest, List.getElem?_drop, Nat.add_sub_cancel' hj, hget]
  rw [hsplit, List.getElem?_append_left] at hrest
  · exact hrest
  · show j - lx.cursor.position < lx.gap
    omega

theorem Ahead.drop_source (h : lx.Ahead l b more) (ht : lx.cursor.Tracks lx.source) :
    lx.source.drop (lx.cursor.position + lx.gap) = b :: more := by
  have hrest := (ht.advanceBy lx.gap).1.rest
  rw [(ht.advanceBy lx.gap).2] at hrest
  rw [← hrest, ← h.rest, ← rest_skipBlanks]
  rfl

theorem Ahead.position_next (h : lx.Ahead l b more) (ht : lx.cursor.Tracks lx.source) :
    lx.next.lexer.cursor.position = lx.cursor.position + lx.gap + l.bytes.length := by
  rw [h.next_eq, Nat.add_assoc]
  exact (ht.advanceBy _).2

theorem Ahead.position_next_le (h : lx.Ahead l b more) (ht : lx.cursor.Tracks lx.source) :
    lx.cursor.position + lx.gap + l.bytes.length ≤ lx.source.length := by
  have hle := h.gap_add_length_le
  have hpos := List.length_pos_iff.mpr h.bytes_ne_nil
  rw [ht.length_rest] at hle
  omega

theorem tracks_next (ht : lx.cursor.Tracks lx.source) :
    lx.next.lexer.cursor.Tracks lx.next.lexer.source := by
  rcases next_cases lx with ⟨-, hnext⟩ | ⟨l, b, more, h, -⟩
  · rw [hnext]
    exact (ht.advanceBy lx.gap).1
  · rw [h.next_eq]
    exact (ht.advanceBy _).1

/-- Behind the last lexeme there is nothing but blanks up to the end. -/
theorem position_at_end (h : lx.cursor.rest.dropWhile Byte.isBlank = [])
    (ht : lx.cursor.Tracks lx.source) (hle : lx.cursor.position ≤ lx.source.length) :
    lx.cursor.position + lx.gap = lx.source.length := by
  have hsplit := congrArg List.length (blanks_append lx.cursor.rest).2
  rw [h, List.append_nil, ht.length_rest] at hsplit
  rw [gap, ← hsplit]
  omega

end Places

/-- The second lexer is the first one moved on, and not past the end if `within` holds. Options and
name of the source may differ. -/
def Moves (within : Prop) (lx lx' : Lexer) : Prop :=
  lx'.source = lx.source ∧
    ∃ n, lx'.cursor = lx.cursor.advanceBy n ∧ (within → n ≤ lx.cursor.rest.length)

theorem Moves.refl {within : Prop} (lx : Lexer) : lx.Moves within lx :=
  ⟨rfl, 0, rfl, fun _ => Nat.zero_le _⟩

theorem Moves.trans {p q : Prop} {lx₁ lx₂ lx₃ : Lexer} (h₁ : lx₁.Moves p lx₂)
    (h₂ : lx₂.Moves q lx₃) : lx₁.Moves (p ∧ q) lx₃ := by
  obtain ⟨hs₁, m, hm, hmle⟩ := h₁
  obtain ⟨hs₂, n, hn, hnle⟩ := h₂
  refine ⟨hs₂.trans hs₁, m + n, by rw [hn, hm, Cursor.advanceBy_add], ?_⟩
  rintro ⟨hp, hq⟩
  have hm' := hmle hp
  have hn' := hnle hq
  rw [hm, Cursor.rest_advanceBy, List.length_drop] at hn'
  omega

theorem Moves.weaken {p q : Prop} {lx lx' : Lexer} (h : lx.Moves p lx') (hqp : q → p) :
    lx.Moves q lx' := by
  obtain ⟨hs, n, hn, hle⟩ := h
  exact ⟨hs, n, hn, fun hq => hle (hqp hq)⟩

theorem skipBlanks_moves (lx : Lexer) : lx.Moves True lx.skipBlanks :=
  ⟨rfl, lx.gap, rfl, fun _ => lx.gap_le⟩

theorem next_moves (lx : Lexer) : lx.Moves True lx.next.lexer := by
  rcases next_cases lx with ⟨-, hnext⟩ | ⟨l, b, more, h, -⟩
  · rw [hnext]
    exact lx.skipBlanks_moves
  · rw [h.next_eq]
    exact ⟨rfl, lx.gap + l.bytes.length, rfl, fun _ => h.gap_add_length_le⟩

theorem drain_moves (lx : Lexer) : lx.Moves True lx.drain.lexer := by
  induction lx using scan_induction with
  | done lx h =>
    rw [drain_eq_end h]
    exact lx.skipBlanks_moves
  | step lx l b more h ih =>
    cases hr : lx.next.result with
    | error d =>
      rw [drain_eq_error hr]
      exact lx.next_moves
    | ok t =>
      rw [drain_eq_token hr (h.not_isEnd_of_ok hr)]
      exact (lx.next_moves.trans ih).weaken fun _ => ⟨trivial, trivial⟩

/-- A request moves the cursor or leaves it; peeking puts it back. -/
theorem answer_moves (lx : Lexer) (request : Request) :
    lx.Moves (request ≠ .advance) (lx.answer request).lexer := by
  cases request with
  | next => exact lx.next_moves.weaken fun _ => trivial
  | peek => exact ⟨lx.next_moves.1, 0, rfl, fun _ => Nat.zero_le _⟩
  | drain => exact lx.drain_moves.weaken fun _ => trivial
  | advance => exact ⟨rfl, 1, rfl, fun h => absurd rfl h⟩
  | skipBlanks => exact lx.skipBlanks_moves.weaken fun _ => trivial
  | nextByte => exact .refl lx
  | atEnd => exact .refl lx
  | location => exact .refl lx
  | currentLine => exact .refl lx
  | assign change => exact ⟨rfl, 0, rfl, fun _ => Nat.zero_le _⟩

end Lexer

/-! ## Sessions -/

namespace Session

def after (s : Session) (acts : List Act) : Session :=
  ((s.run acts).getLast?.map Effect.session).getD s

theorem after_cons (s : Session) (a : Act) (acts : List Act) :
    s.after (a :: acts) = (s.act a).session.after acts := by
  rw [after, after, run, List.getLast?_cons]
  cases ((s.act a).session.run acts).getLast? <;> rfl

theorem after_append (s : Session) (acts more : List Act) :
    s.after (acts ++ more) = (s.after acts).after more := by
  induction acts generalizing s with
  | nil => rfl
  | cons a acts ih => rw [List.cons_append, after_cons, ih, after_cons]

theorem after_concat (s : Session) (acts : List Act) (a : Act) :
    s.after (acts ++ [a]) = ((s.after acts).act a).session := by
  rw [after_append]
  rfl

theorem share_moves (s : Session) (request : Request) {lexers : List Lexer} {i : Nat} {lx : Lexer}
    (h : lexers[i]? = some lx) :
    ∃ lx', (s.share request lexers)[i]? = some lx' ∧ lx.Moves True lx' := by
  unfold share
  split
  · rw [List.getElem?_map, h]
    exact ⟨_, rfl, rfl, 0, rfl, fun _ => Nat.zero_le _⟩
  · exact ⟨lx, h, .refl lx⟩

theorem set_moves {within : Prop} {lexers : List Lexer} {i j : Nat} {lx old new : Lexer}
    (h : lexers[i]? = some lx) (hj : lexers[j]? = some old) (hm : old.Moves within new) :
    ∃ lx', (lexers.set j new)[i]? = some lx' ∧ lx.Moves (i = j → within) lx' := by
  by_cases hij : j = i
  · subst hij
    obtain rfl := Option.some.inj (h.symm.trans hj)
    have hlt := (List.getElem?_eq_some_iff.mp h).1
    exact ⟨new, by rw [List.getElem?_set_self hlt], hm.weaken fun hw => hw rfl⟩
  · exact ⟨lx, by rw [List.getElem?_set_ne hij, h], .refl lx⟩

/-- An act moves each lexer on or leaves it, and only `advance` moves past the end. -/
theorem act_moves (s : Session) (a : Act) {i : Nat} {lx : Lexer} (h : s.lexers[i]? = some lx) :
    ∃ lx', (s.act a).session.lexers[i]? = some lx' ∧ lx.Moves (a ≠ .ask i .advance) lx' := by
  cases a with
  | ask j request =>
    simp only [act, ask]
    cases hj : s.lexers[j]? with
    | none => exact ⟨lx, h, .refl lx⟩
    | some old =>
      obtain ⟨lx₁, h₁, hm₁⟩ := set_moves h hj (old.answer_moves request)
      obtain ⟨lx₂, h₂, hm₂⟩ := s.share_moves request h₁
      refine ⟨lx₂, h₂, (hm₁.trans hm₂).weaken fun hne => ⟨?_, trivial⟩⟩
      rintro rfl rfl
      exact hne rfl
  | openStream j name => exact ⟨lx, h, .refl lx⟩
  | pull name =>
    simp only [act, pull]
    cases s.streams.lookup name with
    | none => exact ⟨lx, h, .refl lx⟩
    | some stream =>
      by_cases hf : stream.finished
      · simp only [hf, if_true]
        exact ⟨lx, h, .refl lx⟩
      · simp only [hf]
        cases hj : s.lexers[stream.lexer]? with
        | none => exact ⟨lx, h, .refl lx⟩
        | some old =>
          obtain ⟨lx', h', hm⟩ := set_moves h hj old.next_moves
          exact ⟨lx', h', hm.weaken fun _ _ => trivial⟩

theorem after_moves (s : Session) (acts : List Act) {i : Nat} {lx : Lexer}
    (h : s.lexers[i]? = some lx) :
    ∃ lx', (s.after acts).lexers[i]? = some lx' ∧ lx.Moves (.ask i .advance ∉ acts) lx' := by
  induction acts generalizing s lx with
  | nil => exact ⟨lx, h, .refl lx⟩
  | cons a acts ih =>
    obtain ⟨lx₁, h₁, hm₁⟩ := s.act_moves a h
    obtain ⟨lx₂, h₂, hm₂⟩ := ih (s.act a).session h₁
    refine ⟨lx₂, by rw [after_cons, h₂], (hm₁.trans hm₂).weaken fun hnot => ?_⟩
    rw [List.mem_cons, not_or] at hnot
    exact ⟨fun heq => hnot.1 heq.symm, hnot.2⟩

/-- The lexers that a session starts with, each with its source, its name and its options. -/
def opened (starts : List (Bytes × Text × Options)) (shared : Bool) : Session where
  lexers := starts.map fun (source, file, options) => Lexer.start source file options
  shared := shared

theorem tracks_after (starts : List (Bytes × Text × Options)) (shared : Bool) (acts : List Act)
    {i : Nat} {source : Bytes} {file : Text} {options : Options}
    (h : starts[i]? = some (source, file, options)) :
    ∃ lx, ((opened starts shared).after acts).lexers[i]? = some lx ∧ lx.source = source ∧
      lx.cursor.Tracks lx.source := by
  have h₀ : (opened starts shared).lexers[i]? = some (Lexer.start source file options) := by
    show (starts.map _)[i]? = _
    rw [List.getElem?_map, h]
    rfl
  obtain ⟨lx, hlx, hsource, n, hn, -⟩ := (opened starts shared).after_moves acts h₀
  refine ⟨lx, hlx, hsource, ?_⟩
  rw [hsource, hn]
  exact ((Cursor.tracks_start source).advanceBy n).1

/-- A lexer of a session, whatever has been asked of the session so far. -/
def Reachable (lx : Lexer) : Prop :=
  ∃ (starts : List (Bytes × Text × Options)) (shared : Bool) (acts : List Act) (i : Nat),
    i < starts.length ∧ ((opened starts shared).after acts).lexers[i]? = some lx

theorem Reachable.tracks {lx : Lexer} (h : Reachable lx) : lx.cursor.Tracks lx.source := by
  obtain ⟨starts, shared, acts, i, hi, hlx⟩ := h
  obtain ⟨lx', hlx', -, htracks⟩ :=
    tracks_after starts shared acts (List.getElem?_eq_getElem hi)
  obtain rfl := Option.some.inj (hlx.symm.trans hlx')
  exact htracks

theorem reachable_start (source : Bytes) (file : Text) (options : Options) :
    Reachable (Lexer.start source file options) :=
  ⟨[(source, file, options)], false, [], 0, Nat.one_pos, rfl⟩

theorem Reachable.next {lx : Lexer} (h : Reachable lx) : Reachable lx.next.lexer := by
  obtain ⟨starts, shared, acts, i, hi, hlx⟩ := h
  refine ⟨starts, shared, acts ++ [.ask i .next], i, hi, ?_⟩
  have hlt := (List.getElem?_eq_some_iff.mp hlx).1
  have hact : (((opened starts shared).after acts).act (.ask i .next)).session.lexers =
      ((opened starts shared).after acts).lexers.set i lx.next.lexer := by
    simp only [act, ask, hlx, share]
    split
    · rename_i heq
      cases heq
    · rfl
  rw [after_concat, hact, List.getElem?_set_self hlt]

/-- At all times, whatever has been asked of a session so far, every cursor tracks its source. It
is within the source unless it was moved past the end by hand, and no further act moves it back. -/
theorem after_tracks (starts : List (Bytes × Text × Options)) (shared : Bool) (acts : List Act)
    (a : Act) {i : Nat} {source : Bytes} {file : Text} {options : Options}
    (h : starts[i]? = some (source, file, options)) :
    ∃ lx lx', ((opened starts shared).after acts).lexers[i]? = some lx ∧
      (((opened starts shared).after acts).act a).session.lexers[i]? = some lx' ∧
      lx.source = source ∧ lx.cursor.Tracks source ∧
      lx.cursor.lineStart ≤ lx.cursor.position ∧ lx.cursor.lineStart ≤ source.length ∧
      1 ≤ lx.location.column ∧
      (.ask i .advance ∉ acts → lx.cursor.position ≤ source.length) ∧
      lx.cursor.position ≤ lx'.cursor.position := by
  have h₀ : (opened starts shared).lexers[i]? = some (Lexer.start source file options) := by
    show (starts.map _)[i]? = _
    rw [List.getElem?_map, h]
    rfl
  obtain ⟨lx, hlx, hsource, n, hn, hle⟩ := (opened starts shared).after_moves acts h₀
  obtain ⟨lx', hlx', -, m, hm, -⟩ := ((opened starts shared).after acts).act_moves a hlx
  obtain ⟨htracks, hpos⟩ := (Cursor.tracks_start source).advanceBy n
  have hn' : lx.cursor = (Cursor.start source).advanceBy n := hn
  rw [← hn'] at htracks hpos
  refine ⟨lx, lx', hlx, hlx', hsource, htracks, htracks.lineStart_le.1, htracks.lineStart_le.2,
    htracks.column_pos lx.file, fun hnot => ?_, ?_⟩
  · have : n ≤ source.length := hle hnot
    have hstart : (Cursor.start source).position = 0 := rfl
    omega
  · rw [hm, (htracks.advanceBy m).2]
    omega

/-- A word, a line feed and a stray byte: the strict lexer has moved on when it complains. -/
theorem after_tracks_stray :
    [(([97, 10, 64] : Bytes), Source.defaultName, Options.mk false true)][0]? =
        some ([97, 10, 64], Source.defaultName, ⟨false, true⟩) ∧
      ∃ lx lx', ((opened [([97, 10, 64], Source.defaultName, ⟨false, true⟩)] false).after
          [.ask 0 .next, .ask 0 .next]).lexers[0]? = some lx ∧
        (((opened [([97, 10, 64], Source.defaultName, ⟨false, true⟩)] false).after
          [.ask 0 .next, .ask 0 .next]).act (.ask 0 .advance)).session.lexers[0]? = some lx' ∧
        lx.source = [97, 10, 64] ∧ lx.cursor.Tracks [97, 10, 64] ∧
        lx.cursor.lineStart ≤ lx.cursor.position ∧ lx.cursor.lineStart ≤ 3 ∧
        1 ≤ lx.location.column ∧
        (.ask 0 .advance ∉ [Act.ask 0 .next, .ask 0 .next] → lx.cursor.position ≤ 3) ∧
        lx.cursor.position ≤ lx'.cursor.position :=
  ⟨rfl, after_tracks [([97, 10, 64], Source.defaultName, ⟨false, true⟩)] false
    [.ask 0 .next, .ask 0 .next] (.ask 0 .advance) rfl⟩

end Session
end MonkeyScan
