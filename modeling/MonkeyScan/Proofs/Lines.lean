import MonkeyScan.Proofs.Excerpt

/-!
# MonkeyScan.Proofs.Lines

A source scanned line by line. No lexeme goes beyond its line, and behind a line feed the cursor is
as it is at the start, but for the number of the line. So the scan of a source is that of its lines
one after the other, each further down by the lines before it: `Lexer.scan_eq_lineScans`.
`Line.induction_on` is the induction it goes by.
-/

namespace MonkeyScan

open Grammar

/-! ## Lines with their line feeds -/

namespace Line

theorem split_append_lineFeed {body : Bytes} (h : Byte.lineFeed ∉ body) (rest : Bytes) :
    split (body ++ Byte.lineFeed :: rest) = (body ++ [Byte.lineFeed]) :: split rest := by
  induction body with
  | nil =>
    rw [List.nil_append, split, if_pos rfl]
    rfl
  | cons b body ih =>
    rw [List.mem_cons, not_or] at h
    rw [List.cons_append, split, if_neg (Ne.symm h.1), ih h.2]
    rfl

theorem split_of_not_mem {bs : Bytes} (hne : bs ≠ []) (h : Byte.lineFeed ∉ bs) :
    split bs = [bs] := by
  induction bs with
  | nil => exact absurd rfl hne
  | cons b bs ih =>
    rw [List.mem_cons, not_or] at h
    rw [split, if_neg (Ne.symm h.1)]
    cases bs with
    | nil => rfl
    | cons c bs => rw [ih (by simp) h.2]

/-- Line by line: the first line with its line feed is taken off, until the last one has none. -/
theorem induction_on {motive : Bytes → Prop} (nil : motive [])
    (last : ∀ bs, bs ≠ [] → Byte.lineFeed ∉ bs → motive bs)
    (line : ∀ body rest, Byte.lineFeed ∉ body → motive rest →
      motive (body ++ Byte.lineFeed :: rest)) (bs : Bytes) : motive bs := by
  induction hn : bs.length using Nat.strong_induction_on generalizing bs with
  | _ n ih =>
    by_cases h : Byte.lineFeed ∈ bs
    · obtain ⟨body, rest, rfl, hbody⟩ := List.eq_append_cons_of_mem h
      refine line body rest hbody (ih rest.length ?_ rest rfl)
      rw [← hn, List.length_append, List.length_cons]
      omega
    · by_cases hne : bs = []
      · rw [hne]
        exact nil
      · exact last bs hne h

theorem last_append_of_last_eq_nil {pre : Bytes} (hpre : last pre = []) (xs : Bytes) :
    last (pre ++ xs) = last xs := by
  by_cases h : Byte.lineFeed ∈ xs
  · exact last_append_of_mem pre h
  · rw [last_append_of_not_mem pre h, hpre, last_of_not_mem h, List.nil_append]

theorem first_append_of_mem {xs : Bytes} (h : Byte.lineFeed ∈ xs) (tail : Bytes) :
    first (xs ++ tail) = first xs := by
  obtain ⟨body, rest, rfl, hbody⟩ := List.eq_append_cons_of_mem h
  rw [List.append_assoc, first_append_of_not_mem hbody, first_append_of_not_mem hbody,
    List.cons_append, first_lineFeed_cons, first_lineFeed_cons]

end Line

/-! ## Lines further down -/

def Location.down (n : Nat) (l : Location) : Location :=
  { l with line := l.line + n }

theorem Location.behind_append {pre : Bytes} (hpre : Line.last pre = []) (file : Text)
    (xs : Bytes) :
    behind file (pre ++ xs) = (behind file xs).down (pre.count Byte.lineFeed) := by
  simp only [behind, down, Line.last_append_of_last_eq_nil hpre, List.count_append, mk.injEq,
    true_and, and_true]
  omega

namespace Lexer

variable {pre piece tail : Bytes}

/-- A piece of a source that is a line, with its line feed if anything follows. -/
def IsLine (piece tail : Bytes) : Prop :=
  tail = [] ∨ ∃ body, piece = body ++ [Byte.lineFeed]

theorem IsLine.parts (h : IsLine piece tail) (digits : Bool) : Parts digits piece tail := by
  rcases h with rfl | ⟨body, rfl⟩
  · exact parts_nil piece
  · exact parts_lineFeed body tail

theorem IsLine.first_drop (h : IsLine piece tail) {i : Nat} (hi : i < piece.length) :
    Line.first (piece.drop i ++ tail) = Line.first (piece.drop i) := by
  rcases h with rfl | ⟨body, rfl⟩
  · rw [List.append_nil]
  · refine Line.first_append_of_mem ?_ tail
    rw [List.length_append, List.length_singleton] at hi
    rw [List.drop_append_of_le_length (by omega)]
    simp

/-- The items of a line are those of its own scan, further down. -/
theorem outcome_line (hpre : Line.last pre = []) (hline : IsLine piece tail) (file : Text)
    {p : Slice} (hp : p.start < piece.length) :
    ((p.shift pre.length).item (pre ++ piece ++ tail) file).outcome =
      (p.item piece file).outcome.relocate (.down (pre.count Byte.lineFeed)) := by
  rw [Slice.outcome_excerpt pre piece tail file hp.le, Slice.item, Outcome.relocate_ofContent,
    Location.behind_append hpre, Line.last_append_of_last_eq_nil hpre, hline.first_drop hp]

theorem exists_munch_line (hpre : Line.last pre = []) (hline : IsLine piece tail)
    {options : Options} (file : Text) {more : List Slice}
    (hmore : MunchFrom options (pre ++ piece ++ tail) (pre.length + piece.length) more) :
    ∃ slices, MunchFrom options (pre ++ piece ++ tail) pre.length (slices ++ more) ∧
      slices.map (fun p => (p.item (pre ++ piece ++ tail) file).outcome) =
        (scan piece file options).dropLast.map
          (.relocate (.down (pre.count Byte.lineFeed))) := by
  obtain ⟨slices, hmunch, hlt, hscan⟩ := exists_munch_excerpt (hline.parts options.digits) hmore
  refine ⟨slices.map (.shift pre.length), hmunch, ?_⟩
  rw [hscan, List.map_map, List.map_map]
  exact List.map_congr_left fun p hp => outcome_line hpre hline file (hlt p hp)

/-- The scans of the lines of a source, the first of which has number `n`, counted from zero. -/
def lineScans (source : Bytes) (n : Nat) (file : Text) (options : Options) : List Outcome :=
  ((Line.split source).zipIdx n).flatMap fun (line, i) =>
    (scan line file options).dropLast.map (.relocate (.down i))

theorem exists_munch_lines (file : Text) (options : Options) (source : Bytes)
    (hpre : Line.last pre = []) :
    ∃ slices, MunchFrom options (pre ++ source) pre.length slices ∧
      slices.map (fun p => (p.item (pre ++ source) file).outcome) =
        lineScans source (pre.count Byte.lineFeed) file options := by
  induction source using Line.induction_on generalizing pre with
  | nil => exact ⟨[], .of_length_le (by simp), rfl⟩
  | last source hne hnot =>
    have hmore : MunchFrom options (pre ++ source ++ []) (pre.length + source.length) [] :=
      .of_length_le (by simp)
    obtain ⟨slices, hmunch, houtcomes⟩ := exists_munch_line hpre (.inl rfl) file hmore
    rw [List.append_nil] at hmunch houtcomes
    refine ⟨slices, List.append_nil slices ▸ hmunch, ?_⟩
    rw [houtcomes, lineScans, Line.split_of_not_mem hne hnot]
    exact (List.append_nil _).symm
  | line body rest hbody ih =>
    -- the rest of the source starts a line, so it is read behind this line as it is by itself
    have hpre' : Line.last (pre ++ (body ++ [Byte.lineFeed])) = [] := by
      rw [← List.append_assoc, Line.last_lineFeed]
    have hcount : (pre ++ (body ++ [Byte.lineFeed])).count Byte.lineFeed =
        pre.count Byte.lineFeed + 1 := by
      rw [List.count_append, List.count_append, List.count_eq_zero_of_not_mem hbody,
        List.count_singleton_self]
    obtain ⟨more, hmore, hmoreOutcomes⟩ := ih hpre'
    rw [List.length_append] at hmore
    obtain ⟨slices, hmunch, houtcomes⟩ :=
      exists_munch_line hpre (.inr ⟨body, rfl⟩) file hmore
    rw [List.append_cons, ← List.append_assoc]
    refine ⟨slices ++ more, hmunch, ?_⟩
    rw [List.map_append, houtcomes, hmoreOutcomes, hcount, lineScans, lineScans,
      ← List.append_cons, Line.split_append_lineFeed hbody]
    rfl

/-- A source is scanned line by line. -/
theorem scan_eq_lineScans (source : Bytes) (file : Text) (options : Options) :
    scan source file options = lineScans source 0 file options ++ [.finish source file] := by
  obtain ⟨slices, hmunch, houtcomes⟩ := @exists_munch_lines [] file options source rfl
  rw [List.nil_append] at hmunch houtcomes
  rw [scan_of_munch file hmunch, houtcomes, List.count_nil]

end Lexer

end MonkeyScan
