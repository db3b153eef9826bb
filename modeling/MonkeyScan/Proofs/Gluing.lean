import Mathlib.Data.List.Chain
import Mathlib.Data.List.TFAE
import MonkeyScan.Proofs.Excerpt

/-!
# MonkeyScan.Proofs.Gluing

What the option that lets digits continue a word does to a scan. With it a lexeme is what it is
without it, or a word with digits in it (`Grammar.Glued`). Such a word ends where nothing in it can
go on, so that without the option it is scanned in its place as it is by itself, and behind it both
scans are at one place again.

* `Lexer.exists_munch_unglued`: from a place on, the reading without the option, made from that
  with it.
* `Lexer.digits_only_glue`: the two scans of a source, and when they are the same.
-/

namespace MonkeyScan

open Grammar

namespace Grammar

/-! ## Words with digits -/

/-- A word that only digits glue together. -/
def Glued (w : Bytes) : Prop :=
  ∃ b more, w = b :: more ∧ Letter b ∧ (∀ c ∈ more, Continues true c) ∧ ∃ c ∈ more, Digit c

theorem isLexeme_true_iff {w : Bytes} : IsLexeme true w ↔ IsLexeme false w ∨ Glued w := by
  constructor
  · intro h
    cases h with
    | comparison h => exact .inl (.comparison h)
    | mark h => exact .inl (.mark h)
    | @word b more hb hmore =>
      by_cases hdigit : ∃ c ∈ more, Digit c
      · exact .inr ⟨b, more, rfl, hb, hmore, hdigit⟩
      · refine .inl (.word hb fun c hc => .inl ?_)
        exact (hmore c hc).resolve_right fun hd => hdigit ⟨c, hc, hd.2⟩
    | number hne hbs => exact .inl (.number hne hbs)
    | stray hblank hstarts => exact .inl (.stray hblank hstarts)
  · rintro (h | ⟨b, more, rfl, hb, hmore, -⟩)
    · cases h with
      | comparison h => exact .comparison h
      | mark h => exact .mark h
      | word hb hmore => exact .word hb fun c hc => .inl ((hmore c hc).resolve_right (by simp))
      | number hne hbs => exact .number hne hbs
      | stray hblank hstarts => exact .stray hblank hstarts
    · exact .word hb hmore

theorem IsLexeme.not_digit_of_letter {b : UInt8} {more : Bytes} (h : IsLexeme false (b :: more))
    (hb : Letter b) : ∀ c ∈ b :: more, ¬ Digit c := by
  have hmore : ∀ c ∈ more, Letter c := by
    rcases isLexeme_cons.mp h with ⟨h, -⟩ | ⟨h, -⟩ | ⟨-, hmore⟩ | ⟨h, -⟩ | ⟨⟨-, h⟩, -⟩
    · exact absurd (mark_of_comparison h) hb.not_mark
    · exact absurd h hb.not_mark
    · exact fun c hc => (hmore c hc).resolve_right (by simp)
    · exact absurd h hb.not_digit
    · exact absurd (.inr (.inl hb)) h
  intro c hc
  rcases List.mem_cons.mp hc with rfl | hc
  · exact hb.not_digit
  · exact (hmore c hc).not_digit

theorem IsLexeme.not_glued {w : Bytes} (h : IsLexeme false w) : ¬ Glued w := by
  rintro ⟨b, more, rfl, hb, -, c, hc, hdigit⟩
  exact h.not_digit_of_letter hb c (List.mem_cons_of_mem b hc) hdigit

/-- A lexeme with a letter in it is a word. -/
theorem IsLexeme.word_of_letter {w : Bytes} {digits : Bool} (h : IsLexeme digits w) {c : UInt8}
    (hc : c ∈ w) (hletter : Letter c) :
    ∃ b more, w = b :: more ∧ Letter b ∧ ∀ d ∈ more, Continues digits d := by
  cases h with
  | comparison h =>
    rcases List.mem_cons.mp hc with rfl | hc
    · exact absurd (mark_of_comparison h) hletter.not_mark
    · rw [List.mem_singleton.mp hc] at hletter
      exact absurd hletter (by decide)
  | mark h => exact absurd (List.mem_singleton.mp hc ▸ h) hletter.not_mark
  | word hb hmore => exact ⟨_, _, rfl, hb, hmore⟩
  | number _ hbs => exact absurd (hbs c hc) hletter.not_digit
  | stray _ hstarts => exact absurd (.inr (.inl hletter)) (List.mem_singleton.mp hc ▸ hstarts)

theorem meaning_glued {strict : Bool} {w : Bytes} (h : Glued w) :
    meaning strict w = .ok (.identifier, .text (Latin1.decode w)) := by
  obtain ⟨b, more, rfl, hb, -, c, hc, hdigit⟩ := h
  have hlookup : (symbols ++ keywords).lookup (Latin1.decode (b :: more)) = none := by
    cases hk : (symbols ++ keywords).lookup (Latin1.decode (b :: more)) with
    | none => rfl
    | some k =>
      obtain ⟨entry, hmem, hbytes, -⟩ := encode_of_lookup hk
      have plain : ∀ entry ∈ symbols ++ keywords, ∀ b ∈ Latin1.encode entry.1, ¬ Digit b := by
        decide +kernel
      exact absurd hdigit (plain entry hmem c (hbytes ▸ List.mem_cons_of_mem b hc))
  simp only [meaning, hlookup, if_pos hb]

theorem word_of_meaning {strict : Bool} {w : Bytes} {text : Text}
    (h : meaning strict w = .ok (.identifier, .text text)) :
    text.latin1 = w ∧ ∃ b more, w = b :: more ∧ Letter b := by
  cases w with
  | nil => cases h
  | cons b more =>
    simp only [meaning] at h
    split at h
    · cases h
    · split at h
      · rename_i hb
        cases h
        exact ⟨by rw [Text.latin1_ofString, Latin1.encode_decode], b, more, rfl, hb⟩
      · split at h
        · split at h <;> cases h
        · split at h <;> cases h

theorem IsLongest.of_plain {bs : Bytes} {n : Nat} (h : IsLongest true bs n)
    (hplain : IsLexeme false (bs.take n)) : IsLongest false bs n :=
  ⟨h.within, hplain, fun m hm hlex => h.greatest m hm (isLexeme_true_iff.mpr (.inl hlex))⟩

/-- What ends a glued word ends every lexeme in it. -/
theorem Glued.parts {w tail : Bytes} (h : Glued w) (hlong : IsLongest true (w ++ tail) w.length) :
    Parts false w tail := by
  obtain ⟨b, more, rfl, hb, hmore, -⟩ := h
  obtain ⟨hword, hend⟩ := isLongest_append_iff.mp hlong
  intro l hl hlex c hc hext
  have hc' : ¬ Continues true c := fun h =>
    hend c hc ((isLexeme_concat_iff hword).mpr (.inl ⟨hb, h⟩))
  obtain ⟨d, l, rfl⟩ := List.exists_cons_of_ne_nil hlex.ne_nil
  have hd : Letter d ∨ Digit d := by
    rcases List.mem_cons.mp (hl.subset List.mem_cons_self) with rfl | hd
    · exact .inl hb
    · exact (hmore d hd).imp_right And.right
  rcases (isLexeme_concat_iff hlex).mp hext with ⟨-, h⟩ | ⟨-, h⟩ | ⟨⟨h, -⟩, -⟩
  · exact hc' (.inl (h.resolve_right (by simp)))
  · exact hc' (.inr ⟨rfl, h⟩)
  · exact hd.elim (fun hd => hd.not_mark (mark_of_comparison h))
      fun hd => hd.not_mark (mark_of_comparison h)

end Grammar

/-! ## Scans of glued words -/

/-- A location in a line that starts at a place of its own. -/
def Location.along (place l : Location) : Location :=
  { l with line := place.line, column := l.column + (place.column - 1) }

theorem Location.behind_along {xs : Bytes} (h : Byte.lineFeed ∉ xs) (file : Text) (pre : Bytes) :
    behind file (pre ++ xs) = (behind file pre).along (behind file xs) := by
  simp only [behind, along, Line.last_append_of_not_mem pre h, Line.last_of_not_mem h,
    List.count_append, List.count_eq_zero_of_not_mem h, List.length_append, Nat.add_zero,
    mk.injEq, true_and]
  omega

namespace Outcome

/-- An outcome without the line it may quote. -/
def placed (o : Outcome) : Content × Option Location :=
  (o.content, o.location)

theorem placed_ofContent (content : Content) (place : Location) (line : String) :
    (ofContent content place line).placed = (content, some place) := by
  rw [placed, content_ofContent, location_ofContent]

/-- An identifier with a digit in it is taken apart: its text is scanned by itself without the
option, and that scan is put in its place. -/
def unglued (file : Text) (strict : Bool) (o : Outcome) : List Outcome :=
  match o with
  | .ok ⟨.identifier, .text word, some place⟩ =>
    if ∃ b ∈ word.latin1, Digit b then
      (Lexer.scan word.latin1 file ⟨false, strict⟩).dropLast.map (.relocate place.along)
    else [o]
  | _ => [o]

variable {file : Text} {strict : Bool} {w : Bytes} {place : Location} {line : String}

theorem unglued_plain (h : IsLexeme false w) :
    (ofContent (meaning strict w) place line).unglued file strict =
      [ofContent (meaning strict w) place line] := by
  cases hc : meaning strict w with
  | error cause => rfl
  | ok key =>
    obtain ⟨kind, payload⟩ := key
    simp only [ofContent, unglued]
    split
    · rename_i word place' heq
      cases heq
      obtain ⟨hword, b, more, rfl, hb⟩ := word_of_meaning hc
      rw [hword, if_neg]
      rintro ⟨c, hmem, hdigit⟩
      exact h.not_digit_of_letter hb c hmem hdigit
    · rfl

theorem unglued_glued (h : Glued w) :
    (ofContent (meaning strict w) place line).unglued file strict =
      (Lexer.scan w file ⟨false, strict⟩).dropLast.map (.relocate place.along) := by
  rw [meaning_glued h]
  simp only [ofContent, unglued, Text.latin1_ofString, Latin1.encode_decode]
  obtain ⟨b, more, rfl, -, -, c, hc, hdigit⟩ := h
  exact if_pos ⟨c, List.mem_cons_of_mem b hc, hdigit⟩

end Outcome

namespace Lexer

theorem exists_munch_glued {pre w tail : Bytes} {strict : Bool} {more : List Slice} (file : Text)
    (hglued : Glued w) (hlong : IsLongest true (w ++ tail) w.length)
    (hmore : MunchFrom ⟨false, strict⟩ (pre ++ w ++ tail) (pre.length + w.length) more) :
    ∃ pieces, MunchFrom ⟨false, strict⟩ (pre ++ w ++ tail) pre.length (pieces ++ more) ∧
      pieces.map (fun p => (p.item (pre ++ w ++ tail) file).outcome.placed) =
        ((scan w file ⟨false, strict⟩).dropLast.map
          (.relocate (Location.behind file pre).along)).map Outcome.placed := by
  obtain ⟨pieces, hmunch, hlt, hscan⟩ := exists_munch_excerpt (hglued.parts hlong) hmore
  refine ⟨pieces.map (.shift pre.length), hmunch, ?_⟩
  rw [hscan, List.map_map, List.map_map, List.map_map]
  have hline : Byte.lineFeed ∉ w := fun hmem =>
    (isLexeme_true_iff.mpr (.inr hglued)).not_blank _ hmem blank_lineFeed
  refine List.map_congr_left fun p hp => ?_
  have hpiece : Byte.lineFeed ∉ w.take p.start := fun hmem => hline (List.mem_of_mem_take hmem)
  simp only [Function.comp_apply]
  rw [Slice.outcome_excerpt pre w tail file (hlt p hp).le, Slice.item, Outcome.relocate_ofContent,
    Outcome.placed_ofContent, Outcome.placed_ofContent, Location.behind_along hpiece]

theorem exists_munch_unglued {source : Bytes} {strict : Bool} {i : Nat} {slices : List Slice}
    (file : Text) (h : MunchFrom ⟨true, strict⟩ source i slices) :
    ∃ pieces, MunchFrom ⟨false, strict⟩ source i pieces ∧
      pieces.map (fun p => (p.item source file).outcome.placed) =
        (slices.flatMap fun p => (p.item source file).outcome.unglued file strict).map
          Outcome.placed := by
  induction h with
  | done hblank => exact ⟨[], .done hblank, rfl⟩
  | @next i start n slices hi hgap hlong _ ih =>
    obtain ⟨more, hmore, hplaced⟩ := ih
    rw [List.flatMap_cons, List.map_append, ← hplaced]
    rcases isLexeme_true_iff.mp hlong.lexeme with hplain | hglued
    · refine ⟨_ :: more, .next hi hgap (hlong.of_plain hplain) hmore, ?_⟩
      rw [Slice.item, Outcome.unglued_plain hplain]
      rfl
    · obtain ⟨-, hle, -⟩ := head_of_isLongest hlong
      obtain ⟨pre, w, tail, rfl, rfl, rfl⟩ :
          ∃ pre w tail, source = pre ++ w ++ tail ∧ start = pre.length ∧ n = w.length := by
        refine ⟨source.take start, (source.drop start).take n, source.drop (start + n), ?_, ?_, ?_⟩
        · rw [List.append_assoc, ← List.drop_drop, List.take_append_drop, List.take_append_drop]
        · rw [List.length_take, Nat.min_eq_left (by omega)]
        · rw [List.length_take, List.length_drop, Nat.min_eq_left (by omega)]
      have hdrop : (pre ++ w ++ tail).drop pre.length = w ++ tail := by
        rw [List.append_assoc, List.drop_left]
      have hpre : (pre ++ w ++ tail).take pre.length = pre := by
        rw [List.append_assoc, List.take_left]
      rw [hdrop] at hlong hglued ⊢
      rw [List.take_left] at hglued ⊢
      obtain ⟨pieces, hpieces, hsame⟩ := exists_munch_glued file hglued hlong hmore
      refine ⟨pieces ++ more, hpieces.skip hi hgap, ?_⟩
      rw [List.map_append, hsame, Slice.item, Outcome.unglued_glued hglued, hpre]

theorem scan_unglued (source : Bytes) (file : Text) (strict : Bool) :
    (scan source file ⟨false, strict⟩).map Outcome.placed =
      ((scan source file ⟨true, strict⟩).flatMap (Outcome.unglued file strict)).map
        Outcome.placed := by
  obtain ⟨slices, hmunch⟩ := exists_munch source ⟨true, strict⟩
  obtain ⟨pieces, hpieces, hsame⟩ := exists_munch_unglued file hmunch
  rw [scan_of_munch file hpieces, scan_of_munch file hmunch, List.flatMap_append, List.map_append,
    List.map_append, List.map_map, List.flatMap_map]
  exact congrArg (· ++ [(Outcome.finish source file).placed]) hsame

end Lexer

/-! ## When the option does not matter -/

namespace Grammar

/-- No letter is followed by a digit. -/
def Unjoined (source : Bytes) : Prop :=
  source.IsChain fun b c => Letter b → ¬ Digit c

theorem Glued.not_unjoined {w : Bytes} (h : Glued w) : ¬ Unjoined w := by
  obtain ⟨b, more, rfl, hb, hmore, c, hc, hdigit⟩ := h
  intro hchain
  -- all bytes are letters, from the first one on
  induction more generalizing b with
  | nil => cases hc
  | cons d more ih =>
    obtain ⟨hbd, hchain⟩ := List.isChain_cons_cons.mp hchain
    rw [List.forall_mem_cons] at hmore
    have hd : Letter d := hmore.1.resolve_right fun h => hbd hb h.2
    rcases List.mem_cons.mp hc with rfl | hc
    · exact hd.not_digit hdigit
    · exact ih d hd hmore.2 hc hchain

theorem IsLongest.not_longer {digits : Bool} {bs : Bytes} {n : Nat} (h : IsLongest digits bs n) :
    ∀ c ∈ (bs.drop n).head?, ¬ IsLexeme digits (bs.take n ++ [c]) := by
  have hlength : (bs.take n).length = n := by rw [List.length_take, Nat.min_eq_left h.within]
  have h' : IsLongest digits (bs.take n ++ bs.drop n) (bs.take n).length := by
    rwa [List.take_append_drop, hlength]
  exact (isLongest_append_iff.mp h').2

end Grammar

theorem MunchFrom.of_unjoined {source : Bytes} {strict : Bool} {i : Nat} {slices : List Slice}
    (hsource : Unjoined source) (h : MunchFrom ⟨true, strict⟩ source i slices) :
    MunchFrom ⟨false, strict⟩ source i slices := by
  induction h with
  | done hblank => exact .done hblank
  | @next i start n slices hi hgap hlong _ ih =>
    have hplain : IsLexeme false ((source.drop start).take n) :=
      (isLexeme_true_iff.mp hlong.lexeme).resolve_right fun hglued =>
        hglued.not_unjoined ((hsource.drop start).take n)
    exact .next hi hgap (hlong.of_plain hplain) ih

theorem Slice.mem_bytes {source : Bytes} {p : Slice} {i : Nat} {b : UInt8} (hi : p.start ≤ i)
    (hlt : i < p.stop) (h : source[i]? = some b) : b ∈ p.bytes source := by
  refine List.mem_of_getElem? (i := i - p.start) ?_
  rw [Slice.bytes, List.getElem?_take_of_lt (by omega), List.getElem?_drop,
    Nat.add_sub_cancel' hi, h]

/-- A letter and a digit behind it are in one word. -/
theorem IsMunch.exists_glued {source : Bytes} {strict : Bool} {slices : List Slice}
    (h : IsMunch ⟨true, strict⟩ source slices) {i : Nat} {b c : UInt8} (hb : source[i]? = some b)
    (hc : source[i + 1]? = some c) (hletter : Letter b) (hdigit : Digit c) :
    ∃ p ∈ slices, Glued (p.bytes source) := by
  obtain ⟨p, hp, hi, hlt⟩ : ∃ p ∈ slices, p.start ≤ i ∧ i < p.stop := by
    by_contra hnone
    have hblank := h.blank i b hb fun p hp hin => hnone ⟨p, hp, hin⟩
    exact Starts.not_blank (.inr (.inl hletter)) hblank
  have hlong := h.longest p hp
  obtain ⟨d, more, hw, hd, hmore⟩ :=
    hlong.lexeme.word_of_letter (Slice.mem_bytes hi hlt hb) hletter
  refine ⟨p, hp, d, more, hw, hd, hmore, c, ?_, hdigit⟩
  have hmem : c ∈ d :: more := by
    rcases Nat.lt_or_ge (i + 1) p.stop with hin | hout
    · exact hw ▸ Slice.mem_bytes (by omega) hin hc
    · -- the word would go on with the digit
      have hhead : c ∈ ((source.drop p.start).drop (p.stop - p.start)).head? := by
        rw [List.drop_drop, List.head?_drop, Nat.add_sub_cancel' (by omega),
          show p.stop = i + 1 by omega, hc]
        rfl
      refine absurd ?_ (hlong.not_longer c hhead)
      have hlex := hlong.lexeme
      rw [hw] at hlex ⊢
      exact (isLexeme_concat_iff hlex).mpr (.inl ⟨hd, .inr ⟨rfl, hdigit⟩⟩)
  exact (List.mem_cons.mp hmem).resolve_left fun heq => hd.not_digit (heq ▸ hdigit)

namespace Lexer

theorem scan_of_unjoined {source : Bytes} (h : Unjoined source) (file : Text) (strict : Bool) :
    scan source file ⟨false, strict⟩ = scan source file ⟨true, strict⟩ := by
  obtain ⟨slices, hmunch⟩ := exists_munch source ⟨true, strict⟩
  rw [scan_of_munch file hmunch, scan_of_munch file (hmunch.of_unjoined h)]

/-- Without the option no item reads as a glued word does. -/
theorem content_ne_glued {source : Bytes} {file : Text} {strict : Bool} {w : Bytes}
    (h : Glued w) : ∀ o ∈ scan source file ⟨false, strict⟩, o.content ≠ meaning strict w := by
  obtain ⟨slices, hmunch⟩ := exists_munch source ⟨false, strict⟩
  rw [scan_of_munch file hmunch, meaning_glued h]
  intro o ho
  rcases List.mem_append.mp ho with ho | ho
  · obtain ⟨p, hp, rfl⟩ := List.mem_map.mp ho
    rw [Slice.item, Outcome.content_ofContent, hmunch.isMunch.meaning p hp]
    intro hc
    have hbytes : w = p.bytes source := by
      rw [← (word_of_meaning hc).1, Text.latin1_ofString, Latin1.encode_decode]
    subst hbytes
    exact (hmunch.longest p hp).lexeme.not_glued h
  · rw [List.mem_singleton.mp ho]
    intro hc
    cases hc

theorem unjoined_of_scan {source : Bytes} {file : Text} {strict : Bool}
    (h : (scan source file ⟨false, strict⟩).map Outcome.placed =
      (scan source file ⟨true, strict⟩).map Outcome.placed) : Unjoined source := by
  obtain ⟨slices, hmunch⟩ := exists_munch source ⟨true, strict⟩
  refine List.isChain_iff_getElem.mpr fun i hi hletter hdigit => ?_
  obtain ⟨p, hp, hglued⟩ := hmunch.isMunch.exists_glued
    (List.getElem?_eq_getElem (Nat.lt_of_succ_lt hi)) (List.getElem?_eq_getElem hi) hletter hdigit
  have hmem : (p.item source file).outcome ∈ scan source file ⟨true, strict⟩ := by
    rw [scan_of_munch file hmunch]
    exact List.mem_append_left _ (List.mem_map_of_mem hp)
  have hplaced := List.mem_map_of_mem (f := Outcome.placed) hmem
  rw [← h] at hplaced
  obtain ⟨o, ho, hsame⟩ := List.mem_map.mp hplaced
  refine content_ne_glued hglued o ho ((congrArg Prod.fst hsame).trans ?_)
  exact (Outcome.content_ofContent _ _ _).trans (hmunch.isMunch.meaning p hp)

/-- The option that lets digits continue a word only glues: where an item of the scan with it is a
word with a digit, the scan without it has what that word is by itself, at the same place, and all
else is the same. The option does not matter exactly if no letter is followed by a digit. -/
theorem digits_only_glue (source : Bytes) (file : Text) (strict : Bool) :
    (scan source file ⟨false, strict⟩).map Outcome.placed =
        ((scan source file ⟨true, strict⟩).flatMap (Outcome.unglued file strict)).map
          Outcome.placed ∧
      [scan source file ⟨false, strict⟩ = scan source file ⟨true, strict⟩,
        (scan source file ⟨false, strict⟩).map Outcome.placed =
          (scan source file ⟨true, strict⟩).map Outcome.placed,
        source.IsChain fun b c => Letter b → ¬ Digit c].TFAE := by
  refine ⟨scan_unglued source file strict, ?_⟩
  tfae_have 1 → 2 := fun h => congrArg (List.map Outcome.placed) h
  tfae_have 2 → 3 := unjoined_of_scan
  tfae_have 3 → 1 := fun h => scan_of_unjoined h file strict
  tfae_finish

end Lexer

end MonkeyScan
