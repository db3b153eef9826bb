import MonkeyScan.Proofs.Placement

/-!
# MonkeyScan.Proofs.Excerpt

Part of a source, scanned on its own. Where no lexeme at its end can go on in what follows
(`Parts`), it has the same lexemes by itself as in its place: `MunchFrom.excerpt`. Its items are
the same but for their locations and the lines they quote (`Slice.outcome_excerpt`).
-/

namespace MonkeyScan

namespace Grammar

variable {digits : Bool}

/-- No lexeme at the end of the one piece goes on in the other. -/
def Parts (digits : Bool) (piece tail : Bytes) : Prop :=
  ∀ l, l <:+ piece → IsLexeme digits l → ∀ c ∈ tail.head?, ¬ IsLexeme digits (l ++ [c])

theorem parts_nil (piece : Bytes) : Parts digits piece [] := by
  intro l _ _ c hc
  cases hc

/-- A line feed is in no lexeme. -/
theorem parts_lineFeed (body tail : Bytes) : Parts digits (body ++ [Byte.lineFeed]) tail := by
  intro l hl hlex c _ _
  rcases List.eq_nil_or_concat' l with rfl | ⟨l, b, rfl⟩
  · exact hlex.ne_nil rfl
  · obtain ⟨init, hinit⟩ := hl
    rw [← List.append_assoc] at hinit
    obtain rfl := List.singleton_inj.mp (List.append_inj_right' hinit rfl)
    exact hlex.not_blank _ (by simp) blank_lineFeed

theorem Parts.of_suffix {piece end_ tail : Bytes} (h : Parts digits piece tail)
    (hsuffix : end_ <:+ piece) : Parts digits end_ tail :=
  fun l hl => h l (hl.trans hsuffix)

theorem IsLongest.append {piece tail : Bytes} {n : Nat} (h : IsLongest digits piece n)
    (hparts : Parts digits piece tail) : IsLongest digits (piece ++ tail) n := by
  obtain ⟨l, after, rfl, rfl⟩ : ∃ l after, piece = l ++ after ∧ n = l.length :=
    ⟨piece.take n, piece.drop n, (List.take_append_drop n piece).symm, by
      rw [List.length_take, Nat.min_eq_left h.within]⟩
  rw [isLongest_append_iff] at h
  rw [List.append_assoc, isLongest_append_iff]
  refine ⟨h.1, fun c hc => ?_⟩
  cases after with
  | nil =>
    rw [List.append_nil] at hparts
    exact hparts l (List.suffix_refl l) h.1 c hc
  | cons b after => exact h.2 c hc

end Grammar

open Grammar

/-- The slice when `n` bytes are put in front of the source. -/
def Slice.shift (n : Nat) (p : Slice) : Slice :=
  ⟨n + p.start, n + p.stop, p.content⟩

theorem drop_excerpt (pre piece tail : Bytes) {i : Nat} (h : i ≤ piece.length) :
    (pre ++ piece ++ tail).drop (pre.length + i) = piece.drop i ++ tail := by
  rw [List.append_assoc, ← List.drop_drop, List.drop_left, List.drop_append_of_le_length h]

theorem getElem?_excerpt (pre piece tail : Bytes) {i : Nat} (h : i < piece.length) :
    (pre ++ piece ++ tail)[pre.length + i]? = piece[i]? := by
  rw [← List.head?_drop, drop_excerpt pre piece tail h.le, List.drop_eq_getElem_cons h,
    List.getElem?_eq_getElem h]
  rfl

/-- Blanks of a piece are blanks in its place. -/
theorem blank_excerpt {pre piece tail : Bytes} {i j : Nat} (hj : j ≤ piece.length)
    (h : ∀ k b, i ≤ k → k < j → piece[k]? = some b → Blank b) {k : Nat} {b : UInt8}
    (hik : pre.length + i ≤ k) (hkj : k < pre.length + j)
    (hget : (pre ++ piece ++ tail)[k]? = some b) : Blank b := by
  obtain ⟨k, rfl⟩ := Nat.exists_eq_add_of_le (show pre.length ≤ k by omega)
  rw [getElem?_excerpt pre piece tail (by omega)] at hget
  exact h k b (by omega) (by omega) hget

namespace MunchFrom

variable {options : Options} {source : Bytes}

theorem of_length_le {i : Nat} (h : source.length ≤ i) : MunchFrom options source i [] := by
  refine .done fun j b hj hget => ?_
  have := (List.getElem?_eq_some_iff.mp hget).1
  omega

theorem skip {i j : Nat} {slices : List Slice} (hij : i ≤ j)
    (hgap : ∀ k b, i ≤ k → k < j → source[k]? = some b → Blank b)
    (h : MunchFrom options source j slices) : MunchFrom options source i slices := by
  have hskip : ∀ k b, i ≤ k → source[k]? = some b → (j ≤ k → Blank b) → Blank b := by
    intro k b hik hget hblank
    rcases Nat.lt_or_ge k j with hlt | hge
    · exact hgap k b hik hlt hget
    · exact hblank hge
  cases h with
  | done hblank => exact .done fun k b hik hget => hskip k b hik hget fun hjk => hblank k b hjk hget
  | next hj hgap' hlong hmore =>
    refine .next (hij.trans hj) (fun k b hik hlt hget => ?_) hlong hmore
    exact hskip k b hik hget fun hjk => hgap' k b hjk hlt hget

/-- The reading of an excerpt, and then that of what follows it. -/
theorem excerpt {pre piece tail : Bytes} {i : Nat} {slices more : List Slice}
    (h : MunchFrom options piece i slices) (hi : i ≤ piece.length)
    (hparts : Parts options.digits piece tail)
    (hmore : MunchFrom options (pre ++ piece ++ tail) (pre.length + piece.length) more) :
    MunchFrom options (pre ++ piece ++ tail) (pre.length + i)
      (slices.map (Slice.shift pre.length) ++ more) := by
  induction h with
  | done hrest =>
    exact hmore.skip (by omega) fun k b hik hlt hget =>
      blank_excerpt (Nat.le_refl _) (fun k b hik _ hget => hrest k b hik hget) hik hlt hget
  | @next i start n slices hstart hgap hlong _ ih =>
    obtain ⟨hpos, hle, -⟩ := head_of_isLongest hlong
    have hdrop := drop_excerpt pre piece tail (i := start) (by omega)
    have hlong' := hlong.append (hparts.of_suffix (List.drop_suffix start piece))
    rw [← hdrop] at hlong'
    have htake : (piece.drop start).take n =
        ((pre ++ piece ++ tail).drop (pre.length + start)).take n := by
      rw [hdrop, List.take_append_of_le_length]
      rw [List.length_drop]
      omega
    have hnext := MunchFrom.next (i := pre.length + i) (by omega)
      (fun k b hik hlt hget => blank_excerpt (by omega) hgap hik hlt hget) hlong'
      (Nat.add_assoc _ _ _ ▸ ih (by omega))
    rw [List.map_cons, List.cons_append, Slice.shift, htake]
    exact Nat.add_assoc pre.length start n ▸ hnext

end MunchFrom

/-- What an item of an excerpt is in its place: only the bytes before it and the line are others. -/
theorem Slice.outcome_excerpt (pre piece tail : Bytes) (file : Text) {p : Slice}
    (h : p.start ≤ piece.length) :
    ((p.shift pre.length).item (pre ++ piece ++ tail) file).outcome =
      .ofContent p.content (.behind file (pre ++ piece.take p.start))
        (Line.shown (Line.last (pre ++ piece.take p.start) ++
          Line.first (piece.drop p.start ++ tail))) := by
  have htake : (pre ++ piece ++ tail).take (pre.length + p.start) = pre ++ piece.take p.start := by
    rw [List.append_assoc, List.take_length_add_append, List.take_append_of_le_length h]
  simp only [Slice.item, Slice.shift, htake, drop_excerpt pre piece tail h]

/-- The scan of an excerpt has the items that are in its place. -/
theorem Lexer.exists_munch_excerpt {pre piece tail : Bytes} {options : Options}
    {more : List Slice} (hparts : Parts options.digits piece tail)
    (hmore : MunchFrom options (pre ++ piece ++ tail) (pre.length + piece.length) more) :
    ∃ slices : List Slice,
      MunchFrom options (pre ++ piece ++ tail) pre.length
        (slices.map (.shift pre.length) ++ more) ∧
      (∀ p ∈ slices, p.start < piece.length) ∧
      ∀ file, (scan piece file options).dropLast =
        slices.map fun p => (p.item piece file).outcome := by
  obtain ⟨slices, hmunch⟩ := exists_munch piece options
  refine ⟨slices, hmunch.excerpt (Nat.zero_le _) hparts hmore, hmunch.start_lt, fun file => ?_⟩
  rw [scan_of_munch file hmunch, List.dropLast_concat]

end MonkeyScan
