import MonkeyScan.Proofs.Escaping
import MonkeyScan.Terminal

/-!
# MonkeyScan.Proofs.Plain

What becomes of a text on its way out: the console may change it, and surrogates are spelled by
their numbers.

* `Console.KeepsPlain`: all that is asked of a console is that it leaves a text alone that has no
  escape character in it. Both consoles that the program is run with do.
* `Visible.plain`, `Visible.lineFeed_not_mem`: a text of visible characters is such a text, and it
  is one line. Numerals of all kinds are visible.
* `Text.spelled_ofString`: a string is put out as it is.
-/

namespace MonkeyScan

namespace Text

theorem spelled_append (t u : Text) : (t ++ u).spelled = t.spelled ++ u.spelled := by
  simp [spelled]

theorem spelled_ofString (s : String) : (ofString s).spelled = s := by
  simp [spelled, ofString, List.flatMap_map, CodePoint.char?_ofChar]

theorem ofString_append (s s' : String) : ofString (s ++ s') = ofString s ++ ofString s' := by
  simp [ofString]

end Text

namespace CodePoint

theorem number_injective {c d : CodePoint} (h : c.number = d.number) : c = d := by
  obtain ⟨n, hn⟩ := c
  obtain ⟨m, hm⟩ := d
  cases h
  rfl

def lineFeed : CodePoint := .ofChar '\n'

/-- All control sequences start with the escape character. -/
def escape : CodePoint := ⟨0x1B, by decide⟩

end CodePoint

/-! ## Texts without control sequences -/

/-- A text without the escape character. -/
def Plain (t : Text) : Prop :=
  CodePoint.escape ∉ t

instance (t : Text) : Decidable (Plain t) := by
  unfold Plain
  infer_instance

/-- A complaint goes out as it is if there is no escape character in it. -/
def Console.KeepsPlain (console : Console) : Prop :=
  ∀ t, Plain t → console.strip t = t

theorem ControlSequence.after?_eq_none {first : CodePoint} (h : CodePoint.escape ≠ first)
    (rest : Text) : after? first rest = none := by
  have hnumber : ¬ first.number = 0x1B := fun hnumber =>
    h (CodePoint.number_injective hnumber.symm)
  cases rest with
  | nil => rfl
  | cons second rest => simp [after?, hnumber]

theorem ControlSequence.remove_eq_self {t : Text} (h : Plain t) : remove t = t := by
  induction t with
  | nil => rw [remove]
  | cons c t ih =>
    rw [Plain, List.mem_cons, not_or] at h
    rw [remove]
    split
    · rw [ih h.2]
    · rename_i more hmore
      rw [after?_eq_none h.1] at hmore
      cases hmore

namespace Console

theorem keepsPlain_terminal : terminal.KeepsPlain :=
  fun _ _ => rfl

theorem keepsPlain_piped : piped.KeepsPlain :=
  fun _ h => ControlSequence.remove_eq_self h

end Console

theorem Plain.append {t u : Text} (ht : Plain t) (hu : Plain u) : Plain (t ++ u) := by
  rw [Plain, List.mem_append, not_or]
  exact ⟨ht, hu⟩

/-! ## Messages without control characters -/

/-- A text without a code point below the space. -/
def Visible (t : Text) : Prop :=
  ∀ c ∈ t, 0x20 ≤ c.number

instance (t : Text) : Decidable (Visible t) := by
  unfold Visible
  infer_instance

namespace Visible

theorem plain {t : Text} (h : Visible t) : Plain t :=
  fun hmem => absurd (h _ hmem) (by decide)

theorem lineFeed_not_mem {t : Text} (h : Visible t) : CodePoint.lineFeed ∉ t :=
  fun hmem => absurd (h _ hmem) (by decide)

theorem string_append {s s' : String} (hs : Visible s) (hs' : Visible s') :
    Visible (s ++ s' : String) := by
  rw [Text.ofString_append]
  intro c hc
  rcases List.mem_append.mp hc with hc | hc
  · exact hs c hc
  · exact hs' c hc

theorem ofList {cs : List Char} (h : ∀ c ∈ cs, 0x20 ≤ c.toNat) : Visible (String.ofList cs) := by
  intro c hc
  rw [Text.ofString, String.toList_ofList] at hc
  obtain ⟨ch, hch, rfl⟩ := List.mem_map.mp hc
  exact h ch hch

end Visible

namespace Numeral

theorem exists_digit_of_mem {b n : Nat} (hb : 1 < b) {c : Char} (h : c ∈ Nat.toDigits b n) :
    ∃ d < b, c = d.digitChar := by
  induction n using Nat.strongRecOn with
  | _ n ih =>
    rw [Nat.toDigits_eq_if hb] at h
    split at h
    · exact ⟨n, ‹_›, List.mem_singleton.mp h⟩
    · rename_i hle
      rcases List.mem_append.mp h with h | h
      · exact ih (n / b) (Nat.div_lt_self (by omega) hb) h
      · exact ⟨n % b, Nat.mod_lt n (by omega), List.mem_singleton.mp h⟩

theorem exists_digit_of_mem_hexLower {width n : Nat} {c : Char} (h : c ∈ hexLower width n) :
    ∃ d < 16, c = d.digitChar := by
  rw [hexLower, List.leftpad] at h
  rcases List.mem_append.mp h with h | h
  · exact ⟨0, by omega, List.eq_of_mem_replicate h⟩
  · exact exists_digit_of_mem (by omega) h

/-- Digits are visible, and so are their capital forms. -/
theorem visible_digit :
    ∀ d < 16, 0x20 ≤ d.digitChar.toNat ∧ 0x20 ≤ d.digitChar.toUpper.toNat := by
  decide

theorem visible_hexLower (width n : Nat) : Visible (String.ofList (hexLower width n)) := by
  refine .ofList fun c hc => ?_
  obtain ⟨d, hd, rfl⟩ := exists_digit_of_mem_hexLower hc
  exact (visible_digit d hd).1

theorem visible_hexUpper (width n : Nat) : Visible (hexUpper width n) := by
  refine .ofList fun c hc => ?_
  obtain ⟨lower, hlower, rfl⟩ := List.mem_map.mp hc
  obtain ⟨d, hd, rfl⟩ := exists_digit_of_mem_hexLower hlower
  exact (visible_digit d hd).2

theorem visible_decimal (n : Nat) : Visible (decimal n) := by
  show Visible n.repr
  rw [Nat.repr_eq_ofList_toDigits]
  refine .ofList fun c hc => ?_
  obtain ⟨d, hd, rfl⟩ := exists_digit_of_mem (by omega) hc
  exact (visible_digit d (by omega)).1

end Numeral

theorem Utf8.Unencodable.visible_message (e : Unencodable) : Visible e.message := by
  have hplace : Visible (if e.first = e.last then
      "character '\\u" ++ String.ofList (Numeral.hexLower 4 e.point.number) ++ "' in position " ++
        Numeral.decimal e.first
    else
      "characters in position " ++ Numeral.decimal e.first ++ "-" ++ Numeral.decimal e.last :
    String) := by
    split
    · refine .string_append (.string_append (.string_append ?_ ?_) ?_) ?_
      · decide
      · exact Numeral.visible_hexLower 4 e.point.number
      · decide
      · exact Numeral.visible_decimal e.first
    · refine .string_append (.string_append (.string_append ?_ ?_) ?_) ?_
      · decide
      · exact Numeral.visible_decimal e.first
      · decide
      · exact Numeral.visible_decimal e.last
  have hopening : Visible "'utf-8' codec can't encode " := by decide
  have hclosing : Visible ": surrogates not allowed" := by decide
  exact (hopening.string_append hplace).string_append hclosing

end MonkeyScan
