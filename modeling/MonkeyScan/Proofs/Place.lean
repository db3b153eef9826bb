import Mathlib.Data.List.DropRight
import MonkeyScan.Proofs.Tracking

/-!
# MonkeyScan.Proofs.Place

Lines and columns, stated by the split of a source at its line feeds. A place in a source has bytes
before it and bytes after it. The line there is what follows the last line feed before it
(`Line.last`) and what comes up to the first one after it (`Line.first`).

* `Line.isAt_behind`: among the lines of the source, the one at the place has as many before it as
  there are line feeds, and the column is counted from its first byte.
* `Location.before_behind`: of two places the later one comes later by line and column, so a
  location tells the place.
* `Cursor.Tracks.location_eq`: the location of a cursor is that of its place.
-/

namespace MonkeyScan

namespace Line

/-- The bytes behind the last line feed. -/
def last (before : Bytes) : Bytes :=
  before.rtakeWhile (· != Byte.lineFeed)

/-- The bytes up to the first line feed. -/
def first (after : Bytes) : Bytes :=
  after.takeWhile (· != Byte.lineFeed)

theorem not_mem_last (before : Bytes) : Byte.lineFeed ∉ last before := by
  intro h
  simpa using List.mem_rtakeWhile_imp h

theorem last_of_not_mem {before : Bytes} (h : Byte.lineFeed ∉ before) : last before = before :=
  List.rtakeWhile_eq_self_iff.mpr fun b hb => by
    have : b ≠ Byte.lineFeed := fun heq => h (heq ▸ hb)
    simpa using this

theorem first_append_of_not_mem {xs : Bytes} (h : Byte.lineFeed ∉ xs) (after : Bytes) :
    first (xs ++ after) = xs ++ first after :=
  List.takeWhile_append_of_pos fun b hb => by
    have : b ≠ Byte.lineFeed := fun heq => h (heq ▸ hb)
    simpa using this

theorem first_cons {b : UInt8} (after : Bytes) (h : b ≠ Byte.lineFeed) :
    first (b :: after) = b :: first after :=
  List.takeWhile_cons_of_pos (by simpa using h)

theorem first_lineFeed_cons (after : Bytes) : first (Byte.lineFeed :: after) = [] :=
  List.takeWhile_cons_of_neg (by simp)

theorem last_concat {b : UInt8} (before : Bytes) (h : b ≠ Byte.lineFeed) :
    last (before ++ [b]) = last before ++ [b] :=
  List.rtakeWhile_concat_pos _ _ _ (by simpa using h)

theorem last_lineFeed (before : Bytes) : last (before ++ [Byte.lineFeed]) = [] :=
  List.rtakeWhile_concat_neg _ _ _ (by simp)

theorem last_append_of_not_mem {xs : Bytes} (before : Bytes) (h : Byte.lineFeed ∉ xs) :
    last (before ++ xs) = last before ++ xs := by
  induction xs using List.reverseRecOn with
  | nil => rw [List.append_nil, List.append_nil]
  | append_singleton xs b ih =>
    rw [List.mem_append, not_or, List.mem_singleton] at h
    rw [← List.append_assoc, last_concat _ (Ne.symm h.2), ih h.1, List.append_assoc]

/-- Before a place there is an unfinished line only, or a line feed and then it. -/
theorem eq_last_or_exists (before : Bytes) :
    before = last before ∨ ∃ lines, before = lines ++ Byte.lineFeed :: last before := by
  induction before using List.reverseRecOn with
  | nil => exact .inl rfl
  | append_singleton before b ih =>
    by_cases hb : b = Byte.lineFeed
    · subst hb
      exact .inr ⟨before, by rw [last_lineFeed]⟩
    · rw [last_concat before hb]
      rcases ih with ih | ⟨lines, ih⟩
      · exact .inl (congrArg (· ++ [b]) ih)
      · refine .inr ⟨lines, ?_⟩
        conv_lhs => rw [ih]
        rw [List.append_assoc, List.cons_append]

theorem last_append_lineFeed {xs : Bytes} (lines : Bytes) (h : Byte.lineFeed ∉ xs) :
    last (lines ++ Byte.lineFeed :: xs) = xs := by
  rw [List.append_cons, last_append_of_not_mem _ h, last_lineFeed, List.nil_append]

theorem last_append_of_mem {xs : Bytes} (before : Bytes) (h : Byte.lineFeed ∈ xs) :
    last (before ++ xs) = last xs := by
  rcases eq_last_or_exists xs with hxs | ⟨lines, hxs⟩
  · exact absurd (hxs ▸ h) (not_mem_last xs)
  · conv_lhs => rw [hxs, ← List.append_assoc, last_append_lineFeed _ (not_mem_last xs)]

/-! ## The lines of a source -/

/-- The lines of a source, without the line feeds that divide them. -/
def all (source : Bytes) : List Bytes :=
  source.splitOn Byte.lineFeed

theorem all_append_lineFeed (xs ys : Bytes) : all (xs ++ Byte.lineFeed :: ys) = all xs ++ all ys :=
  List.splitOnP_append_cons xs ys (by simp)

theorem length_all (xs : Bytes) : (all xs).length = xs.count Byte.lineFeed + 1 := by
  induction xs with
  | nil => rfl
  | cons b xs ih =>
    rw [all, List.splitOn_cons_eq_if_modifyHead, ← all]
    by_cases hb : b = Byte.lineFeed
    · simp [hb, ih]
    · simp [hb, ih]

theorem sum_all (xs : Bytes) : ((all xs).map (·.length + 1)).sum = xs.length + 1 := by
  induction xs with
  | nil => rfl
  | cons b xs ih =>
    rw [all, List.splitOn_cons_eq_if_modifyHead, ← all]
    by_cases hb : b = Byte.lineFeed
    · simp [hb, ih]
      omega
    · obtain ⟨line, lines, hall⟩ := List.exists_cons_of_ne_nil (List.splitOnP_ne_nil _ xs)
      rw [all, List.splitOn, hall] at ih ⊢
      simp [hb] at ih ⊢
      omega

theorem head?_all (xs : Bytes) : (all xs)[0]? = some (first xs) := by
  induction xs with
  | nil => rfl
  | cons b xs ih =>
    rw [all, List.splitOn_cons_eq_if_modifyHead, ← all]
    by_cases hb : b = Byte.lineFeed
    · simp [hb, first]
    · simp [hb, first, List.getElem?_modifyHead, ih]

theorem not_mem_of_mem_all {source line : Bytes} (h : line ∈ all source) :
    Byte.lineFeed ∉ line := by
  induction source generalizing line with
  | nil =>
    rw [List.mem_singleton.mp h]
    exact List.not_mem_nil
  | cons b rest ih =>
    obtain ⟨first, lines, hall⟩ := List.exists_cons_of_ne_nil (List.splitOnP_ne_nil _ rest)
    have hrest : all rest = first :: lines := hall
    rw [hrest] at ih
    rw [all, List.splitOn_cons_eq_if_modifyHead, ← all, hrest] at h
    by_cases hb : b = Byte.lineFeed
    · rw [if_pos (beq_iff_eq.mpr hb), List.mem_cons] at h
      rcases h with rfl | h
      · exact List.not_mem_nil
      · exact ih h
    · rw [if_neg (by simpa using hb), List.modifyHead_cons, List.mem_cons] at h
      rcases h with rfl | h
      · rw [List.mem_cons, not_or]
        exact ⟨Ne.symm hb, ih List.mem_cons_self⟩
      · exact ih (List.mem_cons_of_mem _ h)

/-- A row and a column of a source: the line in this row, and the position of the byte that stands in
the column, which may be the one behind the line. Both are counted from zero. -/
structure IsAt (source : Bytes) (position row column : Nat) (line : Bytes) : Prop where
  at_row : (all source)[row]? = some line
  column_le : column ≤ line.length
  offset : (((all source).take row).map (·.length + 1)).sum + column = position

theorem isAt_behind (before after : Bytes) :
    IsAt (before ++ after) before.length (before.count Byte.lineFeed) (last before).length
      (last before ++ first after) := by
  have hnot := not_mem_last before
  rcases eq_last_or_exists before with hbefore | ⟨lines, hbefore⟩
  · have hcount : before.count Byte.lineFeed = 0 := List.count_eq_zero.mpr (hbefore ▸ hnot)
    refine ⟨?_, by simp, ?_⟩
    · rw [hcount, head?_all, ← first_append_of_not_mem hnot, ← hbefore]
    · simp [hcount, ← hbefore]
  · generalize last before = xs at hnot hbefore ⊢
    subst hbefore
    have hall : all (lines ++ Byte.lineFeed :: xs ++ after) = all lines ++ all (xs ++ after) := by
      rw [List.append_assoc, List.cons_append, all_append_lineFeed]
    have hcount : (lines ++ Byte.lineFeed :: xs).count Byte.lineFeed = (all lines).length := by
      rw [length_all, List.count_append, List.count_cons_self, List.count_eq_zero.mpr hnot]
    refine ⟨?_, by simp, ?_⟩
    · rw [hcount, hall, List.getElem?_append_right (Nat.le_refl _), Nat.sub_self, head?_all,
        first_append_of_not_mem hnot]
    · rw [hcount, hall, List.take_left, sum_all]
      simp
      omega

end Line

namespace Location

/-- The location behind some bytes of a source. -/
def behind (file : Text) (before : Bytes) : Location :=
  ⟨file, before.count Byte.lineFeed + 1, (Line.last before).length + 1⟩

/-- Earlier by line, and in the same line by column. -/
def Before (a b : Location) : Prop :=
  a.line < b.line ∨ a.line = b.line ∧ a.column < b.column

theorem Before.ne {a b : Location} (h : a.Before b) : a ≠ b := by
  rintro rfl
  rcases h with h | ⟨-, h⟩ <;> omega

theorem before_behind (file : Text) (before : Bytes) {more : Bytes} (h : more ≠ []) :
    (behind file before).Before (behind file (before ++ more)) := by
  by_cases hmem : Byte.lineFeed ∈ more
  · left
    have hpos := List.count_pos_iff.mpr hmem
    simp only [behind, List.count_append]
    omega
  · right
    have hpos := List.length_pos_iff.mpr h
    simp only [behind, List.count_append, List.count_eq_zero.mpr hmem,
      Line.last_append_of_not_mem before hmem, List.length_append]
    omega

end Location

/-! ## Cursors -/

theorem IsLineStart.drop_eq {before : Bytes} {n : Nat} (h : IsLineStart before n) :
    before.drop n = Line.last before := by
  rcases h with ⟨hnot, rfl⟩ | ⟨i, hi, hnot, rfl⟩
  · rw [List.drop_zero, Line.last_of_not_mem hnot]
  · have hsplit : before = before.take i ++ Byte.lineFeed :: before.drop (i + 1) := by
      conv_lhs => rw [← List.take_append_drop i before]
      rw [List.drop_eq_getElem?_toList_append, hi]
      rfl
    conv_rhs => rw [hsplit]
    rw [Line.last_append_lineFeed _ hnot]

namespace Cursor.Tracks

variable {source : Bytes} {c : Cursor}

theorem length_last (h : c.Tracks source) (hle : c.position ≤ source.length) :
    (Line.last (source.take c.position)).length = c.position - c.lineStart := by
  rw [← h.lineStart.drop_eq, List.length_drop, List.length_take, Nat.min_eq_left hle]

theorem location_eq (h : c.Tracks source) (hle : c.position ≤ source.length) (file : Text) :
    c.location file = .behind file (source.take c.position) := by
  have hlast := h.length_last hle
  have hstart := h.lineStart_le.1
  simp only [Cursor.location, Location.behind, h.line, hlast, Location.mk.injEq, true_and]
  omega

theorem bytesAt_eq (h : c.Tracks source) (hle : c.position ≤ source.length) :
    Line.bytesAt source c.lineStart =
      Line.last (source.take c.position) ++ Line.first (source.drop c.position) := by
  have hdrop : source.drop c.lineStart =
      (source.take c.position).drop c.lineStart ++ source.drop c.position := by
    conv_lhs => rw [← List.take_append_drop c.position source]
    rw [List.drop_append_of_le_length]
    rw [List.length_take, Nat.min_eq_left hle]
    exact h.lineStart_le.1
  show Line.first (source.drop c.lineStart) = _
  rw [hdrop, h.lineStart.drop_eq, Line.first_append_of_not_mem (Line.not_mem_last _)]

end Cursor.Tracks

end MonkeyScan
