import Mathlib.Data.List.TakeWhile
import MonkeyScan.Lexeme

/-!
# MonkeyScan.Proofs.Grammar

The lexical grammar, stated without the scanner: classes of bytes, the byte strings that are
lexemes (`IsLexeme`), and the longest prefix of some bytes that is one (`IsLongest`).

* `isLexeme_cons`: the first byte of a lexeme settles which lexemes it can start.
* `isLongest_append_iff`: whether a lexeme ends somewhere is a question of one byte, for what is
  left of a lexeme when bytes are taken from its end is a lexeme as well.
* `isLongest_of_longest?`: what `Lexeme.longest?` takes from the front of some bytes is the longest
  prefix that is a lexeme. Both have to agree on where a word ends, which depends on whether digits
  continue it.
-/

namespace MonkeyScan
namespace Grammar

/-! ## Classes of bytes -/

def Blank (b : UInt8) : Prop :=
  b = Byte.space ∨ b = Byte.tab ∨ b = Byte.lineFeed ∨ b = Byte.carriageReturn

def Letter (b : UInt8) : Prop :=
  ('a'.toNat ≤ b.toNat ∧ b.toNat ≤ 'z'.toNat) ∨ ('A'.toNat ≤ b.toNat ∧ b.toNat ≤ 'Z'.toNat) ∨
    b.toNat = '_'.toNat

def Digit (b : UInt8) : Prop :=
  '0'.toNat ≤ b.toNat ∧ b.toNat ≤ '9'.toNat

/-- The bytes that are operators or delimiters on their own. -/
def marks : Bytes :=
  ['=', '!', '+', '-', '*', '/', '<', '>', ',', ';', '(', ')', '\x7b', '\x7d'].map Char.toUInt8

def Continues (digits : Bool) (b : UInt8) : Prop :=
  Letter b ∨ digits = true ∧ Digit b

/-- The bytes that a mark, a word or a number can start with. -/
def Starts (b : UInt8) : Prop :=
  b ∈ marks ∨ Letter b ∨ Digit b

instance : DecidablePred Blank := fun b => by unfold Blank; infer_instance

instance : DecidablePred Letter := fun b => by unfold Letter; infer_instance

instance : DecidablePred Digit := fun b => by unfold Digit; infer_instance

instance (digits : Bool) : DecidablePred (Continues digits) := fun b => by
  unfold Continues; infer_instance

instance : DecidablePred Starts := fun b => by unfold Starts; infer_instance

theorem isBlank_iff {b : UInt8} : Byte.isBlank b = true ↔ Blank b := by
  simp only [Byte.isBlank, Blank, Bool.or_eq_true, beq_iff_eq, or_assoc]

theorem isLetter_iff {b : UInt8} : Byte.isLetter b = true ↔ Letter b := by
  simp only [Byte.isLetter, Letter, Bool.or_eq_true, Bool.and_eq_true, decide_eq_true_eq,
    beq_iff_eq, Char.reduceToNat, UInt8.le_iff_toNat_le, ← UInt8.toNat_inj, UInt8.reduceToNat]
  omega

theorem isDigit_iff {b : UInt8} : Byte.isDigit b = true ↔ Digit b := by
  simp only [Byte.isDigit, Digit, Bool.and_eq_true, decide_eq_true_eq, Char.reduceToNat,
    UInt8.le_iff_toNat_le, UInt8.reduceToNat]

theorem continuesWord_iff {digits : Bool} {b : UInt8} :
    Byte.continuesWord digits b = true ↔ Continues digits b := by
  simp only [Byte.continuesWord, Continues, Bool.or_eq_true, Bool.and_eq_true, isLetter_iff,
    isDigit_iff]

theorem mem_marks {b : UInt8} :
    b ∈ marks ↔ b.toNat ∈ [61, 33, 43, 45, 42, 47, 60, 62, 44, 59, 40, 41, 123, 125] := by
  simp [marks, Char.toUInt8, ← UInt8.toNat_inj]

/-- The table of symbols has all marks but the two that a second byte may follow. -/
theorem ofSymbol?_eq_none_iff {b : UInt8} :
    Kind.ofSymbol? b = none ↔ b ∉ marks ∨ b = Byte.equals ∨ b = Byte.bang := by
  simp [Kind.ofSymbol?, Kind.symbols, List.lookup_eq_none_iff, mem_marks, Byte.equals, Byte.bang,
    ← UInt8.toNat_inj]
  omega

/-! The classes are disjoint. -/

theorem blank_lineFeed : Blank Byte.lineFeed :=
  .inr (.inr (.inl rfl))

theorem blank_carriageReturn : Blank Byte.carriageReturn :=
  .inr (.inr (.inr rfl))

theorem Starts.not_blank {b : UInt8} (h : Starts b) : ¬ Blank b := by
  simp [Starts, mem_marks, Letter, Digit, Blank, Byte.space, Byte.tab, Byte.lineFeed,
    Byte.carriageReturn, ← UInt8.toNat_inj] at h ⊢
  omega

theorem Letter.not_digit {b : UInt8} (h : Letter b) : ¬ Digit b := by
  simp only [Letter, Digit, Char.reduceToNat] at h ⊢
  omega

theorem Letter.not_mark {b : UInt8} (h : Letter b) : b ∉ marks := by
  simp [Letter, mem_marks] at h ⊢
  omega

theorem Digit.not_mark {b : UInt8} (h : Digit b) : b ∉ marks := by
  simp [Digit, mem_marks] at h ⊢
  omega

theorem mark_of_comparison {b : UInt8} (h : b = Byte.equals ∨ b = Byte.bang) : b ∈ marks := by
  rcases h with rfl | rfl <;> decide

/-! ## Lexemes -/

inductive IsLexeme (digits : Bool) : Bytes → Prop where
  /-- The two operators of two bytes, `==` and `!=`. -/
  | comparison {b : UInt8} (h : b = Byte.equals ∨ b = Byte.bang) : IsLexeme digits [b, Byte.equals]
  | mark {b : UInt8} (h : b ∈ marks) : IsLexeme digits [b]
  | word {b : UInt8} {more : Bytes} (hb : Letter b) (hmore : ∀ c ∈ more, Continues digits c) :
      IsLexeme digits (b :: more)
  | number {bs : Bytes} (hne : bs ≠ []) (hbs : ∀ b ∈ bs, Digit b) : IsLexeme digits bs
  | stray {b : UInt8} (hblank : ¬ Blank b) (hstarts : ¬ Starts b) : IsLexeme digits [b]

/-- The longest prefix of some bytes that is a lexeme has `n` bytes. -/
structure IsLongest (digits : Bool) (bs : Bytes) (n : Nat) : Prop where
  within : n ≤ bs.length
  lexeme : IsLexeme digits (bs.take n)
  greatest : ∀ m ≤ bs.length, IsLexeme digits (bs.take m) → m ≤ n

theorem IsLongest.unique {digits : Bool} {bs : Bytes} {m n : Nat} (hm : IsLongest digits bs m)
    (hn : IsLongest digits bs n) : m = n :=
  Nat.le_antisymm (hn.greatest m hm.within hm.lexeme) (hm.greatest n hn.within hn.lexeme)

theorem isLexeme_cons {digits : Bool} {b : UInt8} {more : Bytes} :
    IsLexeme digits (b :: more) ↔
      (b = Byte.equals ∨ b = Byte.bang) ∧ more = [Byte.equals] ∨
      b ∈ marks ∧ more = [] ∨
      Letter b ∧ (∀ c ∈ more, Continues digits c) ∨
      Digit b ∧ (∀ c ∈ more, Digit c) ∨
      (¬ Blank b ∧ ¬ Starts b) ∧ more = [] := by
  constructor
  · intro h
    cases h with
    | comparison h => exact .inl ⟨h, rfl⟩
    | mark h => exact .inr (.inl ⟨h, rfl⟩)
    | word hb hmore => exact .inr (.inr (.inl ⟨hb, hmore⟩))
    | number _ hbs =>
      exact .inr (.inr (.inr (.inl ⟨hbs b (by simp), fun c hc => hbs c (by simp [hc])⟩)))
    | stray hblank hstarts => exact .inr (.inr (.inr (.inr ⟨⟨hblank, hstarts⟩, rfl⟩)))
  · rintro (⟨h, rfl⟩ | ⟨h, rfl⟩ | ⟨hb, hmore⟩ | ⟨hb, hmore⟩ | ⟨⟨hblank, hstarts⟩, rfl⟩)
    · exact .comparison h
    · exact .mark h
    · exact .word hb hmore
    · refine .number (by simp) fun c hc => ?_
      rcases List.mem_cons.mp hc with rfl | hc
      · exact hb
      · exact hmore c hc
    · exact .stray hblank hstarts

/-! ## Where a lexeme ends -/

section Ends

variable {digits : Bool}

theorem IsLexeme.ne_nil {l : Bytes} (h : IsLexeme digits l) : l ≠ [] := by
  rintro rfl
  cases h with
  | number hne _ => exact hne rfl

theorem IsLexeme.not_blank {l : Bytes} (h : IsLexeme digits l) : ∀ c ∈ l, ¬ Blank c := by
  cases h with
  | comparison h =>
    intro c hc
    have hm : c ∈ marks := by
      rcases List.mem_cons.mp hc with rfl | hc
      · exact mark_of_comparison h
      · rw [List.mem_singleton.mp hc]
        decide
    exact Starts.not_blank (.inl hm)
  | mark h =>
    intro c hc
    rw [List.mem_singleton.mp hc]
    exact Starts.not_blank (.inl h)
  | word hb hmore =>
    intro c hc
    rcases List.mem_cons.mp hc with rfl | hc
    · exact Starts.not_blank (.inr (.inl hb))
    · exact Starts.not_blank (.inr ((hmore c hc).imp_right And.right))
  | number _ hbs => exact fun c hc => Starts.not_blank (.inr (.inr (hbs c hc)))
  | stray hblank _ =>
    intro c hc
    rwa [List.mem_singleton.mp hc]

theorem IsLexeme.of_append {l more : Bytes} (h : IsLexeme digits (l ++ more)) (hne : l ≠ []) :
    IsLexeme digits l := by
  obtain ⟨b, l, rfl⟩ := List.exists_cons_of_ne_nil hne
  rw [List.cons_append, isLexeme_cons] at h
  rcases h with ⟨hb, h⟩ | ⟨hb, h⟩ | ⟨hb, h⟩ | ⟨hb, h⟩ | ⟨hb, h⟩
  · rcases List.append_eq_singleton_iff.mp h with ⟨rfl, -⟩ | ⟨rfl, -⟩
    · exact .mark (mark_of_comparison hb)
    · exact .comparison hb
  · rw [(List.append_eq_nil_iff.mp h).1]
    exact .mark hb
  · exact .word hb fun c hc => h c (List.mem_append_left _ hc)
  · refine isLexeme_cons.mpr (.inr (.inr (.inr (.inl ⟨hb, fun c hc => ?_⟩))))
    exact h c (List.mem_append_left _ hc)
  · rw [(List.append_eq_nil_iff.mp h).1]
    exact .stray hb.1 hb.2

/-- A lexeme ends before the first byte that does not make a longer lexeme of it. -/
theorem isLongest_append_iff {l after : Bytes} :
    IsLongest digits (l ++ after) l.length ↔
      IsLexeme digits l ∧ ∀ c ∈ after.head?, ¬ IsLexeme digits (l ++ [c]) := by
  constructor
  · rintro ⟨-, hlex, hmax⟩
    rw [List.take_left] at hlex
    refine ⟨hlex, fun c hc hext => ?_⟩
    obtain ⟨after, rfl⟩ := List.head?_eq_some_iff.mp hc
    have htake : (l ++ c :: after).take (l.length + 1) = l ++ [c] := by
      rw [List.take_length_add_append]
      rfl
    have := hmax (l.length + 1) (by simp) (by rwa [htake])
    omega
  · rintro ⟨hlex, hnext⟩
    refine ⟨by simp, by rwa [List.take_left], fun m hm hlexm => ?_⟩
    rcases Nat.lt_or_ge l.length m with hlt | hge
    · -- a longer lexeme would start with `l` and the byte behind it
      rw [List.length_append] at hm
      cases after with
      | nil => simp at hm; omega
      | cons c after =>
        have hsplit : (l ++ c :: after).take m =
            (l ++ [c]) ++ after.take (m - l.length - 1) := by
          rw [List.take_append, List.take_of_length_le hlt.le, List.append_assoc,
            List.singleton_append, ← List.take_succ_cons]
          congr 2
          omega
        rw [hsplit] at hlexm
        exact absurd (hlexm.of_append (by simp)) (hnext c rfl)
    · exact hge

theorem isLexeme_concat_iff {b c : UInt8} {more : Bytes} (h : IsLexeme digits (b :: more)) :
    IsLexeme digits (b :: more ++ [c]) ↔
      Letter b ∧ Continues digits c ∨ Digit b ∧ Digit c ∨
        ((b = Byte.equals ∨ b = Byte.bang) ∧ more = []) ∧ c = Byte.equals := by
  rw [List.cons_append, isLexeme_cons]
  constructor
  · rintro (⟨hb, h⟩ | ⟨-, h⟩ | ⟨hb, h⟩ | ⟨hb, h⟩ | ⟨-, h⟩)
    · obtain ⟨rfl, hc⟩ := List.append_eq_singleton_iff.mp h |>.resolve_right (by simp)
      exact .inr (.inr ⟨⟨hb, rfl⟩, List.singleton_inj.mp hc⟩)
    · simp at h
    · exact .inl ⟨hb, h c (by simp)⟩
    · exact .inr (.inl ⟨hb, h c (by simp)⟩)
    · simp at h
  · rintro (⟨hb, hc⟩ | ⟨hb, hc⟩ | ⟨⟨hb, rfl⟩, rfl⟩)
    · rcases isLexeme_cons.mp h with ⟨h, -⟩ | ⟨h, -⟩ | ⟨-, hmore⟩ | ⟨h, -⟩ | ⟨⟨-, h⟩, -⟩
      · exact absurd (mark_of_comparison h) hb.not_mark
      · exact absurd h hb.not_mark
      · refine .inr (.inr (.inl ⟨hb, fun d hd => ?_⟩))
        rcases List.mem_append.mp hd with hd | hd
        · exact hmore d hd
        · rwa [List.mem_singleton.mp hd]
      · exact absurd h hb.not_digit
      · exact absurd (.inr (.inl hb)) h
    · rcases isLexeme_cons.mp h with ⟨h, -⟩ | ⟨h, -⟩ | ⟨h, -⟩ | ⟨-, hmore⟩ | ⟨⟨-, h⟩, -⟩
      · exact absurd (mark_of_comparison h) hb.not_mark
      · exact absurd h hb.not_mark
      · exact absurd hb h.not_digit
      · refine .inr (.inr (.inr (.inl ⟨hb, fun d hd => ?_⟩)))
        rcases List.mem_append.mp hd with hd | hd
        · exact hmore d hd
        · rwa [List.mem_singleton.mp hd]
      · exact absurd (.inr (.inr hb)) h
    · exact .inl ⟨hb, rfl⟩

theorem comparison_of_concat_mark {b c : UInt8} {more : Bytes}
    (h : IsLexeme digits (b :: more ++ [c])) (hb : b ∈ marks) :
    (b = Byte.equals ∨ b = Byte.bang) ∧ more = [] ∧ c = Byte.equals := by
  rcases (isLexeme_concat_iff (h.of_append (by simp))).mp h with ⟨hl, -⟩ | ⟨hd, -⟩ | ⟨⟨hc, hnil⟩, he⟩
  · exact absurd hb hl.not_mark
  · exact absurd hb hd.not_mark
  · exact ⟨hc, hnil, he⟩

end Ends

/-! ## What the scanner takes

The scanner asks for the class of the first byte in a fixed order. The classes are disjoint, so the
order does not show, and each class has an equation of its own.
-/

section Classes

variable {digits : Bool} {b : UInt8} {rest : Bytes}

theorem class_cases (b : UInt8) :
    (b = Byte.equals ∨ b = Byte.bang) ∨ (∃ k, Kind.ofSymbol? b = some k) ∨ Letter b ∨ Digit b ∨
      ¬ Starts b := by
  by_cases hs : Starts b
  · rcases hs with hm | hl | hd
    · cases hk : Kind.ofSymbol? b with
      | some k => exact .inr (.inl ⟨k, rfl⟩)
      | none =>
        rcases ofSymbol?_eq_none_iff.mp hk with h | h
        · exact absurd hm h
        · exact .inl h
    · exact .inr (.inr (.inl hl))
    · exact .inr (.inr (.inr (.inl hd)))
  · exact .inr (.inr (.inr (.inr hs)))

theorem mark_of_symbol {k : Kind} (h : Kind.ofSymbol? b = some k) :
    b ∈ marks ∧ ¬ (b = Byte.equals ∨ b = Byte.bang) := by
  have hne : ¬ Kind.ofSymbol? b = none := by simp [h]
  rw [ofSymbol?_eq_none_iff, not_or, not_not] at hne
  exact hne

theorem longest?_comparison (h : b = Byte.equals ∨ b = Byte.bang) :
    Lexeme.longest? digits (b :: rest) = some (.symbol (Lexeme.comparison b rest)) := by
  simp [Lexeme.longest?, h]

theorem longest?_symbol {k : Kind} (h : Kind.ofSymbol? b = some k) :
    Lexeme.longest? digits (b :: rest) = some (.symbol k) := by
  simp [Lexeme.longest?, (mark_of_symbol h).2, h]

theorem longest?_of_not_mark (h : b ∉ marks) :
    Lexeme.longest? digits (b :: rest) =
      if Byte.isLetter b then some (.word b (rest.takeWhile (Byte.continuesWord digits)))
      else if Byte.isDigit b then some (.number b (rest.takeWhile Byte.isDigit))
      else some (.stray b) := by
  have hc : ¬ (b = Byte.equals ∨ b = Byte.bang) := fun hc => h (mark_of_comparison hc)
  simp [Lexeme.longest?, hc, ofSymbol?_eq_none_iff.mpr (.inl h)]

theorem longest?_word (h : Letter b) :
    Lexeme.longest? digits (b :: rest) =
      some (.word b (rest.takeWhile (Byte.continuesWord digits))) := by
  rw [longest?_of_not_mark h.not_mark, if_pos (isLetter_iff.mpr h)]

theorem longest?_number (h : Digit b) :
    Lexeme.longest? digits (b :: rest) = some (.number b (rest.takeWhile Byte.isDigit)) := by
  have hl : ¬ Byte.isLetter b = true := fun hl => (isLetter_iff.mp hl).not_digit h
  rw [longest?_of_not_mark h.not_mark, if_neg hl, if_pos (isDigit_iff.mpr h)]

theorem longest?_stray (h : ¬ Starts b) :
    Lexeme.longest? digits (b :: rest) = some (.stray b) := by
  simp only [Starts, not_or] at h
  obtain ⟨hm, hl, hd⟩ := h
  rw [longest?_of_not_mark hm, if_neg (isLetter_iff.not.mpr hl), if_neg (isDigit_iff.not.mpr hd)]

/-- Conversely, what was taken tells the class of the first byte. -/
theorem longest?_cases {l : Lexeme} (h : Lexeme.longest? digits (b :: rest) = some l) :
    (b = Byte.equals ∨ b = Byte.bang) ∧ l = .symbol (Lexeme.comparison b rest) ∨
      (∃ k, Kind.ofSymbol? b = some k ∧ l = .symbol k) ∨
      Letter b ∧ l = .word b (rest.takeWhile (Byte.continuesWord digits)) ∨
      Digit b ∧ l = .number b (rest.takeWhile Byte.isDigit) ∨
      ¬ Starts b ∧ l = .stray b := by
  rcases class_cases b with hc | ⟨k, hk⟩ | hl | hd | hs
  · rw [longest?_comparison hc] at h
    cases h
    exact .inl ⟨hc, rfl⟩
  · rw [longest?_symbol hk] at h
    cases h
    exact .inr (.inl ⟨k, hk, rfl⟩)
  · rw [longest?_word hl] at h
    cases h
    exact .inr (.inr (.inl ⟨hl, rfl⟩))
  · rw [longest?_number hd] at h
    cases h
    exact .inr (.inr (.inr (.inl ⟨hd, rfl⟩)))
  · rw [longest?_stray hs] at h
    cases h
    exact .inr (.inr (.inr (.inr ⟨hs, rfl⟩)))

theorem letter_of_word {c : UInt8} {more : Bytes}
    (h : Lexeme.longest? digits (b :: rest) = some (.word c more)) : Letter c := by
  rcases longest?_cases h with ⟨-, h⟩ | ⟨_, -, h⟩ | ⟨hl, h⟩ | ⟨-, h⟩ | ⟨-, h⟩ <;> cases h
  exact hl

theorem digits_of_number {c : UInt8} {more : Bytes}
    (h : Lexeme.longest? digits (b :: rest) = some (.number c more)) :
    ∀ d ∈ c :: more, Digit d :=
  fun d hd => isDigit_iff.mp (List.all_eq_true.mp (Lexeme.isDigit_of_number h) d hd)

theorem not_starts_of_stray {c : UInt8}
    (h : Lexeme.longest? digits (b :: rest) = some (.stray c)) : c = b ∧ ¬ Starts c := by
  rcases longest?_cases h with ⟨-, h⟩ | ⟨_, -, h⟩ | ⟨-, h⟩ | ⟨-, h⟩ | ⟨hs, h⟩ <;> cases h
  exact ⟨rfl, hs⟩

end Classes

/-! ### Longest prefixes -/

section Longest

variable {digits : Bool} {b : UInt8} {rest : Bytes}

theorem bytes_comparison_double (h : b = Byte.equals ∨ b = Byte.bang) :
    (Lexeme.symbol (Lexeme.comparison b (Byte.equals :: rest))).bytes = [b, Byte.equals] := by
  rcases h with rfl | rfl
  · have : Lexeme.comparison Byte.equals (Byte.equals :: rest) = .equal := by
      simp [Lexeme.comparison]
    rw [this]; decide
  · have : Lexeme.comparison Byte.bang (Byte.equals :: rest) = .notEqual := by
      simp [Lexeme.comparison, show (Byte.bang == Byte.equals) = false by decide]
    rw [this]; decide

theorem bytes_comparison_single (h : b = Byte.equals ∨ b = Byte.bang)
    (hnext : rest.head? ≠ some Byte.equals) :
    (Lexeme.symbol (Lexeme.comparison b rest)).bytes = [b] := by
  have hb : (rest.head? == some Byte.equals) = false := by simpa using hnext
  rcases h with rfl | rfl
  · have : Lexeme.comparison Byte.equals rest = .assign := by simp [Lexeme.comparison, hb]
    rw [this]; decide
  · have : Lexeme.comparison Byte.bang rest = .bang := by
      simp [Lexeme.comparison, hb, show (Byte.bang == Byte.equals) = false by decide]
    rw [this]; decide

/-- What `longest?` leaves behind starts with a byte that the lexeme stops at. -/
theorem exists_rest_of_longest? {l : Lexeme} (hblank : ¬ Blank b)
    (h : Lexeme.longest? digits (b :: rest) = some l) :
    ∃ after, b :: rest = l.bytes ++ after ∧ IsLexeme digits l.bytes ∧
      ∀ c ∈ after.head?, ¬ IsLexeme digits (l.bytes ++ [c]) := by
  have stops : ∀ {p : UInt8 → Bool} {bs : Bytes}, ∀ c ∈ (bs.dropWhile p).head?, p c = false := by
    intro p bs c hc
    have := List.head?_dropWhile_not p bs
    rwa [Option.mem_def.mp hc] at this
  rcases longest?_cases h with ⟨hc, rfl⟩ | ⟨k, hk, rfl⟩ | ⟨hl, rfl⟩ | ⟨hd, rfl⟩ | ⟨hs, rfl⟩
  · have hm := mark_of_comparison hc
    by_cases hnext : rest.head? = some Byte.equals
    · obtain ⟨more, rfl⟩ := List.head?_eq_some_iff.mp hnext
      have hlex : IsLexeme digits [b, Byte.equals] := .comparison hc
      rw [bytes_comparison_double hc]
      refine ⟨more, rfl, hlex, fun c _ hext => ?_⟩
      obtain ⟨-, hnil, -⟩ := comparison_of_concat_mark hext hm
      cases hnil
    · have hlex : IsLexeme digits [b] := .mark hm
      rw [bytes_comparison_single hc hnext]
      refine ⟨rest, rfl, hlex, fun c hmem hext => ?_⟩
      obtain ⟨-, -, rfl⟩ := comparison_of_concat_mark hext hm
      exact hnext hmem
  · obtain ⟨hm, hc⟩ := mark_of_symbol hk
    have hlex : IsLexeme digits [b] := .mark hm
    rw [Lexeme.bytes_of_symbol hk]
    refine ⟨rest, rfl, hlex, fun c _ hext => ?_⟩
    exact hc (comparison_of_concat_mark hext hm).1
  · have hlex : IsLexeme digits (b :: rest.takeWhile (Byte.continuesWord digits)) :=
      .word hl fun c hc => continuesWord_iff.mp (List.mem_takeWhile_imp hc)
    refine ⟨rest.dropWhile (Byte.continuesWord digits), ?_, hlex, fun c hmem hext => ?_⟩
    · rw [Lexeme.bytes, List.cons_append, List.takeWhile_append_dropWhile]
    · have hstop := stops c hmem
      rcases (isLexeme_concat_iff hlex).mp hext with ⟨-, hc⟩ | ⟨hb, -⟩ | ⟨⟨hb, -⟩, -⟩
      · rw [continuesWord_iff.mpr hc] at hstop
        cases hstop
      · exact hl.not_digit hb
      · exact hl.not_mark (mark_of_comparison hb)
  · have hlex : IsLexeme digits (b :: rest.takeWhile Byte.isDigit) := by
      refine .number (by simp) (List.forall_mem_cons.mpr ⟨hd, fun c hc => ?_⟩)
      exact isDigit_iff.mp (List.mem_takeWhile_imp hc)
    refine ⟨rest.dropWhile Byte.isDigit, ?_, hlex, fun c hmem hext => ?_⟩
    · rw [Lexeme.bytes, List.cons_append, List.takeWhile_append_dropWhile]
    · have hstop := stops c hmem
      rcases (isLexeme_concat_iff hlex).mp hext with ⟨hb, -⟩ | ⟨-, hc⟩ | ⟨⟨hb, -⟩, -⟩
      · exact hb.not_digit hd
      · rw [isDigit_iff.mpr hc] at hstop
        cases hstop
      · exact hd.not_mark (mark_of_comparison hb)
  · have hlex : IsLexeme digits [b] := .stray hblank hs
    refine ⟨rest, rfl, hlex, fun c _ hext => ?_⟩
    rcases (isLexeme_concat_iff hlex).mp hext with ⟨hb, -⟩ | ⟨hb, -⟩ | ⟨⟨hb, -⟩, -⟩
    · exact hs (.inr (.inl hb))
    · exact hs (.inr (.inr hb))
    · exact hs (.inl (mark_of_comparison hb))

/-- The scanner takes a prefix, and the longest one that is a lexeme. -/
theorem isLongest_of_longest? {l : Lexeme} (hblank : ¬ Blank b)
    (h : Lexeme.longest? digits (b :: rest) = some l) :
    l.bytes <+: b :: rest ∧ IsLongest digits (b :: rest) l.bytes.length := by
  obtain ⟨after, hrest, hlex, hnext⟩ := exists_rest_of_longest? hblank h
  rw [hrest]
  exact ⟨List.prefix_append _ _, isLongest_append_iff.mpr ⟨hlex, hnext⟩⟩

end Longest

end Grammar
end MonkeyScan
