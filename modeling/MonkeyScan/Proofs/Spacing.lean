import MonkeyScan.Proofs.Excerpt

/-!
# MonkeyScan.Proofs.Spacing

Blanks between lexemes. A place of a source that is not inside of a slice cuts its reading in two
(`MunchFrom.cut`), and two readings can be put together with blanks between them
(`MunchFrom.spaced`). So blanks can be put in at any such place, also where two lexemes touch, and
blanks that are there can be replaced by others: all items stay, and those behind the place move
(`Lexer.blanks_transparent`).
-/

namespace MonkeyScan

namespace Grammar

variable {digits : Bool}

/-- A blank is in no lexeme. -/
theorem parts_of_blank {piece tail : Bytes} (h : ∀ b ∈ tail.head?, Blank b) :
    Parts digits piece tail :=
  fun _ _ _ c hc hlex => hlex.not_blank c (by simp) (h c hc)

theorem IsLongest.of_append {piece tail : Bytes} {n : Nat}
    (h : IsLongest digits (piece ++ tail) n) (hn : n ≤ piece.length) :
    IsLongest digits piece n := by
  have hlexeme := h.lexeme
  rw [List.take_append_of_le_length hn] at hlexeme
  refine ⟨hn, hlexeme, fun m hm hlex => h.greatest m ?_ ?_⟩
  · rw [List.length_append]
    omega
  · rwa [List.take_append_of_le_length hm]

end Grammar

open Grammar

/-! ## Cutting a reading and putting it together -/

theorem Slice.shift_zero : Slice.shift 0 = id := by
  funext p
  simp only [Slice.shift, Nat.zero_add, id]

namespace MunchFrom

variable {options : Options}

/-- What follows a piece is read as it is by itself. -/
theorem behind {pre tail : Bytes} {slices : List Slice} (h : MunchFrom options tail 0 slices) :
    MunchFrom options (pre ++ tail) pre.length (slices.map (.shift pre.length)) := by
  have hnil : MunchFrom options (pre ++ tail ++ []) (pre.length + tail.length) [] :=
    .of_length_le (by simp)
  have hmunch := h.excerpt (Nat.zero_le _) (parts_nil tail) hnil
  rwa [List.append_nil, List.append_nil] at hmunch

theorem exists_behind {pre tail : Bytes} {slices : List Slice}
    (h : MunchFrom options (pre ++ tail) pre.length slices) :
    ∃ seconds, slices = seconds.map (.shift pre.length) ∧ MunchFrom options tail 0 seconds := by
  obtain ⟨seconds, hseconds⟩ := Lexer.exists_munch tail options
  exact ⟨seconds, h.unique hseconds.behind, hseconds⟩

/-- No slice goes on from one piece into the other, so each piece has a reading of its own. -/
theorem cut {pre post : Bytes} {i : Nat} {slices : List Slice}
    (h : MunchFrom options (pre ++ post) i slices) (hi : i ≤ pre.length)
    (hcut : ∀ p ∈ slices, ¬ (p.start < pre.length ∧ pre.length < p.stop)) :
    ∃ firsts seconds, slices = firsts ++ seconds.map (.shift pre.length) ∧
      MunchFrom options pre i firsts ∧ MunchFrom options post 0 seconds := by
  have hleft : ∀ {j : Nat} {b : UInt8}, pre[j]? = some b → (pre ++ post)[j]? = some b := by
    intro j b hget
    rw [List.getElem?_append_left (List.getElem?_eq_some_iff.mp hget).1, hget]
  induction h with
  | @done i hblank =>
    have hrest : MunchFrom options (pre ++ post) pre.length [] :=
      .done fun j b hj => hblank j b (hi.trans hj)
    obtain ⟨seconds, hseconds, hmunch⟩ := hrest.exists_behind
    exact ⟨[], seconds, hseconds, .done fun j b hj hget => hblank j b hj (hleft hget), hmunch⟩
  | @next i start n slices hstart hgap hlong hmore ih =>
    rw [List.forall_mem_cons] at hcut
    have hpre : ∀ j b, i ≤ j → j < start → pre[j]? = some b → Blank b :=
      fun j b hj hlt hget => hgap j b hj hlt (hleft hget)
    rcases Nat.lt_or_ge start pre.length with hlt | hge
    · -- the slice is all in the first piece
      have hstop : start + n ≤ pre.length := by
        have hfirst : ¬ (start < pre.length ∧ pre.length < start + n) := hcut.1
        omega
      have hn : n ≤ (pre.drop start).length := by
        rw [List.length_drop]
        omega
      have hdrop : (pre ++ post).drop start = pre.drop start ++ post :=
        List.drop_append_of_le_length hlt.le
      obtain ⟨firsts, seconds, rfl, hfirsts, hseconds⟩ := ih hstop hcut.2
      rw [hdrop] at hlong ⊢
      rw [List.take_append_of_le_length hn]
      exact ⟨_ :: firsts, seconds, rfl, .next hstart hpre (hlong.of_append hn) hfirsts, hseconds⟩
    · have hrest := MunchFrom.next hge (fun j b hj => hgap j b (hi.trans hj)) hlong hmore
      obtain ⟨seconds, hseconds, hmunch⟩ := hrest.exists_behind
      refine ⟨[], seconds, hseconds, .done fun j b hj hget => hpre j b hj ?_ hget, hmunch⟩
      have := (List.getElem?_eq_some_iff.mp hget).1
      omega

/-- A piece is read as it is by itself, if what follows does not go on with it. -/
theorem before {piece tail : Bytes} {firsts more : List Slice}
    (h : MunchFrom options piece 0 firsts) (hparts : Parts options.digits piece tail)
    (hmore : MunchFrom options (piece ++ tail) piece.length more) :
    MunchFrom options (piece ++ tail) 0 (firsts ++ more) := by
  have hstay : firsts.map (Slice.shift ([] : Bytes).length) = firsts := by
    rw [List.length_nil, Slice.shift_zero, List.map_id]
  have hmore' : MunchFrom options ([] ++ piece ++ tail) (([] : Bytes).length + piece.length)
      more := by
    rwa [List.nil_append, List.length_nil, Nat.zero_add]
  exact hstay ▸ h.excerpt (Nat.zero_le _) hparts hmore'

/-- Two readings with blanks between them. -/
theorem spaced {pre gap post : Bytes} {firsts seconds : List Slice}
    (h : MunchFrom options pre 0 firsts) (h' : MunchFrom options post 0 seconds)
    (hne : gap ≠ []) (hgap : ∀ b ∈ gap, Blank b) :
    MunchFrom options (pre ++ gap ++ post) 0
      (firsts ++ seconds.map (.shift (pre.length + gap.length))) := by
  have hbehind : MunchFrom options (pre ++ gap ++ post) (pre ++ gap).length
      (seconds.map (.shift (pre ++ gap).length)) := h'.behind
  rw [List.length_append, List.append_assoc] at hbehind
  have hskip : MunchFrom options (pre ++ (gap ++ post)) pre.length
      (seconds.map (.shift (pre.length + gap.length))) := by
    refine hbehind.skip (Nat.le_add_right _ _) fun k b hk hlt hget => hgap b ?_
    rw [List.getElem?_append_right hk, List.getElem?_append_left (by omega)] at hget
    exact List.mem_of_getElem? hget
  have hparts : Parts options.digits pre (gap ++ post) := by
    refine parts_of_blank fun b hb => hgap b (List.mem_of_mem_head? ?_)
    rwa [List.head?_append_of_ne_nil _ hne] at hb
  rw [List.append_assoc]
  exact h.before hparts hskip

end MunchFrom

/-! ## Moving items -/

/-- The slice when `old` bytes at a place are replaced by `new` others. -/
def Slice.respaced (place old new : Nat) (p : Slice) : Slice :=
  if p.start < place then p else ⟨p.start - old + new, p.stop - old + new, p.content⟩

/-- The item in `source`, which has `new` bytes at a place where there were `old` others. It means
the same, and its location is the one that it has in `source`. -/
def Item.respaced (source : Bytes) (file : Text) (place old new : Nat) (item : Item) : Item :=
  (item.slice.respaced place old new).item source file

theorem Slice.slice_item (source : Bytes) (file : Text) (p : Slice) :
    (p.item source file).slice = p := by
  rw [Item.slice, Slice.item, Outcome.content_ofContent]

theorem Slice.respaced_shift (place old new : Nat) (p : Slice) :
    (p.shift (place + old)).respaced place old new = p.shift (place + new) := by
  have hplace : ¬ place + old + p.start < place := by omega
  rw [respaced, shift, if_neg hplace, shift, mk.injEq]
  simp only [and_true]
  omega

theorem Slice.respaced_finish (pre gap gap' post : Bytes) :
    (Slice.finish (pre ++ gap ++ post)).respaced pre.length gap.length gap'.length =
      .finish (pre ++ gap' ++ post) := by
  have hplace : ¬ (pre ++ gap ++ post).length < pre.length := by simp
  rw [respaced, finish, if_neg hplace, finish, mk.injEq]
  simp only [List.length_append, and_true]
  omega

namespace Lexer

variable {options : Options} {pre gap gap' post : Bytes} {firsts seconds : List Slice}

/-- Two sources that are read alike before a place and, from behind the gaps on, after it. -/
theorem items_respaced (file : Text) (hfirsts : ∀ p ∈ firsts, p.start < pre.length)
    (h : MunchFrom options (pre ++ gap ++ post) 0
      (firsts ++ seconds.map (.shift (pre.length + gap.length))))
    (h' : MunchFrom options (pre ++ gap' ++ post) 0
      (firsts ++ seconds.map (.shift (pre.length + gap'.length)))) :
    (start (pre ++ gap' ++ post) file options).items.result =
      (start (pre ++ gap ++ post) file options).items.result.map
        (.respaced (pre ++ gap' ++ post) file pre.length gap.length gap'.length) := by
  have hstay : firsts.map (Slice.respaced pre.length gap.length gap'.length) = firsts := by
    conv_rhs => rw [← List.map_id firsts]
    exact List.map_congr_left fun p hp => if_pos (hfirsts p hp)
  have hmove : (seconds.map (Slice.shift (pre.length + gap.length))).map
      (Slice.respaced pre.length gap.length gap'.length) =
      seconds.map (Slice.shift (pre.length + gap'.length)) := by
    rw [List.map_map]
    exact List.map_congr_left fun p _ => p.respaced_shift _ _ _
  have hslices : (firsts ++ seconds.map (Slice.shift (pre.length + gap.length)) ++
      [Slice.finish (pre ++ gap ++ post)]).map
        (Slice.respaced pre.length gap.length gap'.length) =
      firsts ++ seconds.map (Slice.shift (pre.length + gap'.length)) ++
        [Slice.finish (pre ++ gap' ++ post)] := by
    rw [List.map_append, List.map_append, hstay, hmove, List.map_singleton,
      Slice.respaced_finish]
  rw [items_of_munch file h, items_of_munch file h', ← hslices, List.map_map, List.map_map]
  refine List.map_congr_left fun p _ => ?_
  rw [Function.comp_apply, Function.comp_apply, Item.respaced, Slice.slice_item]

/-- Blanks can be put in wherever no item is cut in two. What is between two lexemes can be any
blanks instead of any others. -/
theorem blanks_transparent (file : Text) (options : Options) :
    (∀ pre gap post : Bytes, (∀ b ∈ gap, Blank b) →
      (∀ item ∈ (start (pre ++ post) file options).items.result,
        ¬ (item.start < pre.length ∧ pre.length < item.stop)) →
      (start (pre ++ gap ++ post) file options).items.result =
        (start (pre ++ post) file options).items.result.map
          (.respaced (pre ++ gap ++ post) file pre.length 0 gap.length)) ∧
    ∀ pre gap gap' post : Bytes, gap ≠ [] → gap' ≠ [] → (∀ b ∈ gap ++ gap', Blank b) →
      (start (pre ++ gap' ++ post) file options).items.result =
        (start (pre ++ gap ++ post) file options).items.result.map
          (.respaced (pre ++ gap' ++ post) file pre.length gap.length gap'.length) := by
  constructor
  · intro pre gap post hgap hcut
    obtain ⟨slices, hmunch⟩ := exists_munch (pre ++ post) options
    have hitems := items_of_munch file hmunch
    have hslices : ∀ p ∈ slices, ¬ (p.start < pre.length ∧ pre.length < p.stop) := by
      intro p hp
      refine hcut (p.item (pre ++ post) file) ?_
      rw [hitems]
      exact List.mem_map_of_mem (List.mem_append_left _ hp)
    obtain ⟨firsts, seconds, rfl, hfirsts, hseconds⟩ := hmunch.cut (Nat.zero_le _) hslices
    have hnone : MunchFrom options (pre ++ [] ++ post) 0
        (firsts ++ seconds.map (.shift (pre.length + ([] : Bytes).length))) := by
      rwa [List.append_nil]
    have hspaced : MunchFrom options (pre ++ gap ++ post) 0
        (firsts ++ seconds.map (.shift (pre.length + gap.length))) := by
      rcases eq_or_ne gap [] with rfl | hne
      · exact hnone
      · exact hfirsts.spaced hseconds hne hgap
    have hrespaced := items_respaced file hfirsts.start_lt hnone hspaced
    rwa [List.append_nil] at hrespaced
  · intro pre gap gap' post hne hne' hblank
    rw [List.forall_mem_append] at hblank
    obtain ⟨firsts, hfirsts⟩ := exists_munch pre options
    obtain ⟨seconds, hseconds⟩ := exists_munch post options
    exact items_respaced file hfirsts.start_lt (hfirsts.spaced hseconds hne hblank.1)
      (hfirsts.spaced hseconds hne' hblank.2)

/-- A carriage return and a line feed between `x` and `1`, which touch. -/
theorem blanks_transparent_touching :
    let touching : Bytes := [120] ++ [49]
    let spaced : Bytes := [120] ++ [13, 10] ++ [49]
    let items := (start touching Source.defaultName ⟨false, true⟩).items.result
    (∀ item ∈ items, ¬ (item.start < 1 ∧ 1 < item.stop)) ∧
      (start spaced Source.defaultName ⟨false, true⟩).items.result =
        items.map (.respaced spaced Source.defaultName 1 0 2) := by
  intro touching spaced items
  have hblank : ∀ b ∈ ([13, 10] : Bytes), Blank b := by
    rw [List.forall_mem_cons, List.forall_mem_singleton]
    decide
  have hcut : ∀ item ∈ items, ¬ (item.start < 1 ∧ 1 < item.stop) := by decide +kernel
  exact ⟨hcut, (blanks_transparent Source.defaultName ⟨false, true⟩).1 [120] [13, 10] [49]
    hblank hcut⟩

end Lexer
end MonkeyScan
