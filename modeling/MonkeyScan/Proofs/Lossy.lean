import Mathlib.Data.List.DropRight
import MonkeyScan.Proofs.Utf8
import MonkeyScan.Cursor

/-!
# MonkeyScan.Proofs.Lossy

What can still be told of some bytes when they have been read as UTF-8 with replacement characters.

* `Utf8.chars_eq_append_cons_iff`: no segment goes on over an ASCII byte, so each such byte is one
  character of the text, and it cuts the text as it cuts the bytes.
* `Line.toList_shown`: so the carriage returns at the end of a text are those at the end of the
  bytes.
* `Utf8.length_chars`: other bytes may share a character. A text is never longer than its bytes, and
  as long only if each of them is a segment of its own.
-/

namespace MonkeyScan
namespace Utf8

namespace Segment

/-- The character that is shown for a segment. -/
def shown : Segment → Char
  | .scalar c => c
  | .malformed _ => Char.ofNat 0xFFFD

/-- The bytes that were read as a segment. -/
def bytes : Segment → Bytes
  | .scalar c => String.utf8EncodeChar c
  | .malformed run => run

/-- An ASCII character is shown for its byte and for nothing else. -/
theorem bytes_of_shown {s : Segment} {b : UInt8} (hb : b < 0x80) (h : s.shown = Latin1.char b) :
    s.bytes = [b] := by
  cases s with
  | scalar c =>
    have hc : c = Latin1.char b := h
    rw [bytes, hc, utf8EncodeChar_ascii hb]
  | malformed run =>
    have hnumber := congrArg Char.toNat h
    simp only [UInt8.lt_iff_toNat_lt, UInt8.reduceToNat] at hb
    exact absurd hnumber (by show 0xFFFD ≠ b.toNat; omega)

end Segment

/-- One character for each segment. -/
def chars (bs : Bytes) : List Char :=
  (segments bs).map Segment.shown

theorem toList_decodeLossy (bs : Bytes) : (decodeLossy bs).toList = chars bs := by
  rw [decodeLossy, String.toList_ofList]
  refine List.map_congr_left fun s _ => ?_
  cases s <;> rfl

theorem chars_nil : chars [] = [] := by
  rw [chars, segments, List.map_nil]

/-- Segment by segment, of whichever kind. -/
theorem chars_induction {motive : Bytes → Prop} (nil : motive [])
    (cons : ∀ (s : Segment) (tail : Bytes), s.bytes ≠ [] →
      segments (s.bytes ++ tail) = s :: segments tail → motive tail → motive (s.bytes ++ tail))
    (bs : Bytes) : motive bs := by
  induction bs using segments_induction with
  | nil => exact nil
  | scalar c tail h ih => exact cons (.scalar c) tail String.utf8EncodeChar_ne_nil h ih
  | malformed run tail hne _ h ih => exact cons (.malformed run) tail hne h ih

/-- The segments are all of the bytes, in their order. -/
theorem flatMap_bytes_segments (bs : Bytes) : (segments bs).flatMap Segment.bytes = bs := by
  induction bs using chars_induction with
  | nil => simp [segments]
  | cons s tail _ h ih => rw [h, List.flatMap_cons, ih]

/-- A text has at most as many characters as it has bytes, and as many if no bytes share one. -/
theorem length_chars (bs : Bytes) :
    (chars bs).length ≤ bs.length ∧
      ((chars bs).length = bs.length ↔ ∀ s ∈ segments bs, s.bytes.length = 1) := by
  induction bs using chars_induction with
  | nil => simp [chars, segments]
  | cons s tail hne h ih =>
    have hpos := List.length_pos_iff.mpr hne
    rw [chars, List.length_map] at ih
    rw [chars, List.length_map, h, List.length_cons, List.length_append, List.forall_mem_cons,
      ← ih.2]
    omega

/-! ## ASCII bytes -/

variable {b : UInt8}

theorem continuation_append_cons (hb : b < 0x80) (n : Nat) {low high : UInt8} (hlow : 0x80 ≤ low)
    (bs tail : Bytes) : continuation n low high (bs ++ b :: tail) = continuation n low high bs := by
  induction n generalizing low high bs with
  | zero => rfl
  | succ n ih =>
    cases bs with
    | nil =>
      have hnot : ¬ (low ≤ b ∧ b ≤ high) := fun h =>
        UInt8.not_lt.mpr (UInt8.le_trans hlow h.1) hb
      exact if_neg hnot
    | cons x rest => rw [List.cons_append, continuation, continuation, ih (UInt8.le_refl _)]

theorem segments_append_cons (hb : b < 0x80) (before after : Bytes) :
    segments (before ++ b :: after) =
      segments before ++ .scalar (Latin1.char b) :: segments after := by
  induction before using segments.induct with
  | case1 => simp [segments, hb]
  | case2 x rest hx ih =>
    rw [List.cons_append, segments, if_pos hx, segments, if_pos hx, ih, List.cons_append]
  | case3 x rest hx hlead ih =>
    rw [List.cons_append, segments, if_neg hx, segments, if_neg hx, hlead, ih, List.cons_append]
  | case4 x rest hx lead hlead following ih =>
    have hfollowing : continuation lead.following lead.low lead.high (rest ++ b :: after) =
        following :=
      continuation_append_cons hb _ (Lead.bounds hlead).1 rest after
    have hdrop : (rest ++ b :: after).drop following.length =
        rest.drop following.length ++ b :: after :=
      List.drop_append_of_le_length (continuation_isPrefix _ _ _ rest).length_le
    rw [List.cons_append, segments, if_neg hx, segments, if_neg hx, hlead]
    simp only [hfollowing, hdrop, ih]
    rfl

theorem chars_append_cons (hb : b < 0x80) (before after : Bytes) :
    chars (before ++ b :: after) = chars before ++ Latin1.char b :: chars after := by
  rw [chars, segments_append_cons hb, List.map_append, List.map_cons]
  rfl

/-- Where an ASCII character stands in a text, its byte stands among the bytes. -/
theorem chars_eq_append_cons_iff (hb : b < 0x80) {bs : Bytes} {us vs : List Char} :
    chars bs = us ++ Latin1.char b :: vs ↔
      ∃ before after, bs = before ++ b :: after ∧ chars before = us ∧ chars after = vs := by
  constructor
  · intro h
    obtain ⟨before, after, rfl, hafter⟩ :
        ∃ before after, bs = before ++ b :: after ∧ chars after = vs := by
      induction bs using chars_induction generalizing us with
      | nil => simp [chars_nil] at h
      | cons s tail _ hs ih =>
        rw [chars, hs, List.map_cons, ← chars] at h
        cases us with
        | nil =>
          obtain ⟨hshown, htail⟩ := List.cons.inj h
          exact ⟨[], tail, congrArg (· ++ tail) (Segment.bytes_of_shown hb hshown), htail⟩
        | cons u us =>
          obtain ⟨before, after, rfl, hafter⟩ := ih (List.cons.inj h).2
          exact ⟨s.bytes ++ before, after, (List.append_assoc _ _ _).symm, hafter⟩
    rw [chars_append_cons hb, hafter, List.append_cancel_right_eq] at h
    exact ⟨before, after, rfl, h, hafter⟩
  · rintro ⟨before, after, rfl, rfl, rfl⟩
    exact chars_append_cons hb before after

theorem mem_chars_iff (hb : b < 0x80) {bs : Bytes} : Latin1.char b ∈ chars bs ↔ b ∈ bs := by
  constructor
  · intro h
    obtain ⟨us, vs, hchars⟩ := List.append_of_mem h
    obtain ⟨before, after, rfl, -, -⟩ := (chars_eq_append_cons_iff hb).mp hchars
    simp
  · intro h
    obtain ⟨before, after, rfl⟩ := List.append_of_mem h
    simp [chars_append_cons hb]

theorem chars_eq_nil_iff {bs : Bytes} : chars bs = [] ↔ bs = [] := by
  constructor
  · intro h
    have hsegments : segments bs = [] := List.map_eq_nil_iff.mp h
    rw [← flatMap_bytes_segments bs, hsegments, List.flatMap_nil]
  · rintro rfl
    exact chars_nil

theorem getLast?_chars (hb : b < 0x80) {bs : Bytes} :
    (chars bs).getLast? = some (Latin1.char b) ↔ bs.getLast? = some b := by
  rw [List.getLast?_eq_some_iff, List.getLast?_eq_some_iff]
  constructor
  · rintro ⟨us, hchars⟩
    obtain ⟨before, after, rfl, -, hafter⟩ := (chars_eq_append_cons_iff hb).mp hchars
    exact ⟨before, by rw [chars_eq_nil_iff.mp hafter]⟩
  · rintro ⟨before, rfl⟩
    exact ⟨chars before, by rw [chars_append_cons hb, chars_nil]⟩

end Utf8

/-! ## Lines -/

namespace Line

/-- A line without the carriage returns at its end. -/
def trimmed (line : Bytes) : Bytes :=
  line.rdropWhile (· == Byte.carriageReturn)

/-- It makes no difference whether a line is trimmed before it is read or afterwards. -/
theorem toList_shown (line : Bytes) : (shown line).toList = Utf8.chars (trimmed line) := by
  have hascii : Byte.carriageReturn < 0x80 := by decide
  have hshown : ∀ line, (shown line).toList = (Utf8.chars line).rdropWhile (· == '\r') := by
    intro line
    rw [shown, trimEnd, String.toList_ofList, Utf8.toList_decodeLossy]
    rfl
  -- from the end of the line
  induction line using List.reverseRecOn with
  | nil => simp [hshown, trimmed, Utf8.chars_nil]
  | append_singleton line b ih =>
    rw [hshown, trimmed]
    by_cases hb : b = Byte.carriageReturn
    · subst hb
      rw [Utf8.chars_append_cons hascii, Utf8.chars_nil,
        List.rdropWhile_concat_pos _ _ _ (by decide),
        List.rdropWhile_concat_pos _ _ _ (by decide), ← hshown, ih, trimmed]
    · rw [List.rdropWhile_concat_neg _ _ _ (by simpa using hb), List.rdropWhile_eq_self_iff]
      intro hne hlast
      have hreturn : (Utf8.chars (line ++ [b])).getLast? =
          some (Latin1.char Byte.carriageReturn) := by
        rw [List.getLast?_eq_some_getLast hne]
        exact congrArg some (beq_iff_eq.mp hlast)
      rw [Utf8.getLast?_chars hascii, List.getLast?_concat, Option.some.injEq] at hreturn
      exact hb hreturn

theorem lineFeed_not_mem_shown {line : Bytes} (h : Byte.lineFeed ∉ line) :
    '\n' ∉ (shown line).toList := by
  have hascii : Byte.lineFeed < 0x80 := by decide
  rw [toList_shown]
  intro hmem
  exact h ((List.rdropWhile_prefix _ line).subset ((Utf8.mem_chars_iff hascii).mp hmem))

/-- What stands before another byte is not trimmed. -/
theorem trimmed_append_cons {b : UInt8} (h : b ≠ Byte.carriageReturn) (before after : Bytes) :
    trimmed (before ++ b :: after) = before ++ b :: trimmed after := by
  induction after using List.reverseRecOn with
  | nil =>
    rw [trimmed, List.rdropWhile_concat_neg _ _ _ (by simpa using h)]
    rfl
  | append_singleton after c ih =>
    have hassoc : before ++ b :: (after ++ [c]) = (before ++ b :: after) ++ [c] := by simp
    rw [trimmed] at ih
    rw [hassoc, trimmed, trimmed, List.rdropWhile_concat, List.rdropWhile_concat, ih]
    split
    · rfl
    · exact hassoc.symm

end Line
end MonkeyScan
