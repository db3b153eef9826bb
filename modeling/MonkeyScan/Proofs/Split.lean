import MonkeyScan.Proofs.Next

/-!
# MonkeyScan.Proofs.Split

How bytes split into lexemes, without positions: `Splits digits bs ls` says that the longest lexemes
of `bs`, one after the other and with blanks between them, are `ls`. There is one way to split at
most (`Splits.unique`), and `Lexer.exists_splits` says that the scanner goes by it.
-/

namespace MonkeyScan
namespace Grammar

variable {digits : Bool}

/-- The longest lexemes of some bytes, one after the other. -/
inductive Splits (digits : Bool) : Bytes → List Bytes → Prop where
  | done {gap : Bytes} (hgap : ∀ b ∈ gap, Blank b) : Splits digits gap []
  | next {gap l rest : Bytes} {more : List Bytes} (hgap : ∀ b ∈ gap, Blank b)
      (hlong : IsLongest digits (l ++ rest) l.length) (hmore : Splits digits rest more) :
      Splits digits (gap ++ (l ++ rest)) (l :: more)

theorem dropWhile_gap {gap rest l : Bytes} (hgap : ∀ b ∈ gap, Blank b) (hl : IsLexeme digits l) :
    (gap ++ (l ++ rest)).dropWhile Byte.isBlank = l ++ rest := by
  obtain ⟨b, more, rfl⟩ := List.exists_cons_of_ne_nil hl.ne_nil
  rw [dropWhile_blanks_append hgap]
  exact dropWhile_of_not_blank (hl.not_blank b List.mem_cons_self)

theorem eq_of_gap_eq {gap gap' l l' rest rest' : Bytes} (hgap : ∀ b ∈ gap, Blank b)
    (hgap' : ∀ b ∈ gap', Blank b) (hl : IsLexeme digits l) (hl' : IsLexeme digits l')
    (h : gap ++ (l ++ rest) = gap' ++ (l' ++ rest')) : l ++ rest = l' ++ rest' := by
  have hdrop := congrArg (List.dropWhile Byte.isBlank) h
  rw [dropWhile_gap hgap hl, dropWhile_gap hgap' hl'] at hdrop
  exact hdrop

theorem isLexeme_of_isLongest {l rest : Bytes} (h : IsLongest digits (l ++ rest) l.length) :
    IsLexeme digits l :=
  (isLongest_append_iff.mp h).1

theorem splits_cons_iff {gap l rest : Bytes} {more : List Bytes} (hgap : ∀ b ∈ gap, Blank b)
    (hl : IsLexeme digits l) :
    Splits digits (gap ++ (l ++ rest)) (l :: more) ↔
      IsLongest digits (l ++ rest) l.length ∧ Splits digits rest more := by
  constructor
  · generalize hbs : gap ++ (l ++ rest) = bs
    intro h
    cases h with
    | next hgap' hlong hmore =>
      have h := eq_of_gap_eq hgap hgap' hl (isLexeme_of_isLongest hlong) hbs
      rw [List.append_cancel_left h]
      exact ⟨hlong, hmore⟩
  · rintro ⟨hlong, hmore⟩
    exact .next hgap hlong hmore

namespace Splits

theorem isLexeme {bs : Bytes} {ls : List Bytes} (h : Splits digits bs ls) :
    ∀ l ∈ ls, IsLexeme digits l := by
  induction h with
  | done => simp
  | next _ hlong _ ih =>
    rw [List.forall_mem_cons]
    exact ⟨isLexeme_of_isLongest hlong, ih⟩

theorem filter_eq {bs : Bytes} {ls : List Bytes} (h : Splits digits bs ls) :
    bs.filter (¬ Blank ·) = ls.flatten := by
  induction h with
  | done hgap => simpa using hgap
  | @next gap l rest more hgap hlong _ ih =>
    have hl := (isLexeme_of_isLongest hlong).not_blank
    have hgap' : gap.filter (¬ Blank ·) = [] := by simpa using hgap
    have hl' : l.filter (¬ Blank ·) = l := by simpa using hl
    rw [List.filter_append, List.filter_append, hgap', hl', ih]
    rfl

theorem eq_nil_of_blank {bs : Bytes} {ls : List Bytes} (h : Splits digits bs ls)
    (hblank : ∀ b ∈ bs, Blank b) : ls = [] := by
  cases h with
  | done => rfl
  | @next gap l rest more _ hlong _ =>
    have hl := isLexeme_of_isLongest hlong
    obtain ⟨b, hb⟩ := List.exists_mem_of_ne_nil l hl.ne_nil
    exact absurd (hblank b (by simp [hb])) (hl.not_blank b hb)

theorem unique {bs : Bytes} {ls ls' : List Bytes} (h : Splits digits bs ls)
    (h' : Splits digits bs ls') : ls = ls' := by
  induction h generalizing ls' with
  | done hgap => exact (h'.eq_nil_of_blank hgap).symm
  | @next gap l rest more hgap hlong hmore ih =>
    have hl := isLexeme_of_isLongest hlong
    generalize hbs : gap ++ (l ++ rest) = bs at h'
    cases h' with
    | done hgap' =>
      obtain ⟨b, hb⟩ := List.exists_mem_of_ne_nil l hl.ne_nil
      exact absurd (hgap' b (by simp [← hbs, hb])) (hl.not_blank b hb)
    | @next gap' l' rest' more' hgap' hlong' hmore' =>
      have heq := eq_of_gap_eq hgap hgap' hl (isLexeme_of_isLongest hlong') hbs
      have hlen : l.length = l'.length := hlong.unique (heq ▸ hlong')
      obtain ⟨rfl, rfl⟩ := List.append_inj heq hlen
      rw [ih hmore']

end Splits

end Grammar

open Grammar

/-! ## The scanner -/

namespace Lexer

theorem Ahead.splits {lx : Lexer} {l : Lexeme} {b : UInt8} {more : Bytes} {ls : List Bytes}
    (h : lx.Ahead l b more) (hmore : Splits lx.options.digits lx.next.lexer.cursor.rest ls) :
    Splits lx.options.digits lx.cursor.rest (l.bytes :: ls) := by
  obtain ⟨hblank, hsplit⟩ := blanks_append lx.cursor.rest
  obtain ⟨rest, hrest⟩ := h.isPrefix
  have hlong := h.isLongest
  rw [h.rest_next, ← hrest, List.drop_left] at hmore
  rw [← hrest] at hlong
  rw [hsplit, h.rest, ← hrest]
  exact .next hblank hlong hmore

/-- The scanner splits what is ahead, and drains it exactly if each lexeme means a token. -/
theorem exists_splits (lx : Lexer) :
    ∃ ls, Splits lx.options.digits lx.cursor.rest ls ∧
      ∀ keys, (∃ ts, lx.drain.result = (ts, none) ∧ ts.map Token.key = keys) ↔
        ∃ firsts, keys = firsts ++ [(.endOfInput, .absent)] ∧
          ls.map (meaning lx.options.strict) = firsts.map .ok := by
  induction lx using scan_induction with
  | done lx h =>
    refine ⟨[], .done ?_, fun keys => ?_⟩
    · have hsplit := blanks_append lx.cursor.rest
      rw [h, List.append_nil] at hsplit
      rw [hsplit.2]
      exact hsplit.1
    · rw [drain_eq_end h]
      constructor
      · rintro ⟨ts, hts, rfl⟩
        cases hts
        exact ⟨[], rfl, rfl⟩
      · rintro ⟨firsts, rfl, hfirsts⟩
        obtain rfl : firsts = [] := by simpa using hfirsts.symm
        exact ⟨_, rfl, rfl⟩
  | step lx l b more h ih =>
    have hoptions : lx.next.lexer.options = lx.options := by rw [h.next_eq]
    rw [hoptions] at ih
    obtain ⟨ls, hls, hdrain⟩ := ih
    refine ⟨l.bytes :: ls, h.splits hls, fun keys => ?_⟩
    have hmeaning : lx.next.result.content = meaning lx.options.strict l.bytes := by
      rw [h.next_eq]
      exact h.content
    rw [List.map_cons, ← hmeaning]
    cases hr : lx.next.result with
    | error d =>
      rw [drain_eq_error hr]
      constructor
      · rintro ⟨ts, hts, -⟩
        cases hts
      · rintro ⟨firsts, -, hfirsts⟩
        cases firsts <;> cases hfirsts
    | ok t =>
      have hok := drain_ok_iff hr (h.not_isEnd_of_ok hr)
      constructor
      · rintro ⟨ts, hts, rfl⟩
        obtain ⟨tail, rfl, htail⟩ := (hok ts).mp hts
        obtain ⟨firsts, hkeys, hfirsts⟩ := (hdrain _).mp ⟨tail, htail, rfl⟩
        refine ⟨t.key :: firsts, by rw [List.map_cons, hkeys]; rfl, ?_⟩
        rw [hfirsts]
        rfl
      · rintro ⟨firsts, rfl, hfirsts⟩
        obtain ⟨key, firsts, rfl⟩ := List.exists_cons_of_ne_nil
          (show firsts ≠ [] by rintro rfl; cases hfirsts)
        obtain ⟨hkey, hfirsts⟩ := List.cons.inj hfirsts
        obtain ⟨tail, htail, hkeys⟩ := (hdrain _).mpr ⟨firsts, rfl, hfirsts⟩
        refine ⟨t :: tail, (hok _).mpr ⟨tail, rfl, htail⟩, ?_⟩
        rw [List.map_cons, hkeys, Except.ok.inj hkey]
        rfl

end Lexer
end MonkeyScan
