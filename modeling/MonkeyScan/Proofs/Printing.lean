import Mathlib.Data.List.Chain
import Mathlib.Data.List.Forall2
import MonkeyScan.Proofs.Split

/-!
# MonkeyScan.Proofs.Printing

Scanning undoes printing. A list of tokens is printed by their literals, with a gap of blanks, which
may be empty, behind each of them. The scan gives the tokens back exactly if no gap is empty where
two tokens conflict (`scansAs_layout_iff`), and a source that can be scanned is a print of its
tokens, up to zeros in front of its integers (`exists_layout`).

Where tokens run together, others come out; that these never happen to be the printed ones is a
matter of counting (`eq_bytes_of_splits`). A lexeme that means a token has at least the bytes of its
literal, and printed and scanned lexemes have the same bytes in all, so none of them has more.
-/

namespace MonkeyScan

open Grammar

/-! ## Valid tokens -/

def Kind.IsWord (k : Kind) : Prop :=
  k = .identifier ∨ k ∈ keywords.map Prod.snd

instance : DecidablePred Kind.IsWord := fun k => by unfold Kind.IsWord; infer_instance

/-- Tokens of the one kind run together with tokens of the other right behind them. -/
def Kind.Conflict (digits : Bool) (k k' : Kind) : Prop :=
  k.IsWord ∧ k'.IsWord ∨ k = .integer ∧ k' = .integer ∨
    (k = .assign ∨ k = .bang) ∧ (k' = .assign ∨ k' = .equal) ∨
    digits = true ∧ k.IsWord ∧ k' = .integer

/-- The kinds whose tokens carry nothing, the end left out. -/
def Kind.IsFixed (k : Kind) : Prop :=
  k ≠ .identifier ∧ k ≠ .integer ∧ k ≠ .illegal ∧ k ≠ .endOfInput

instance : DecidablePred Kind.IsFixed := fun k => by unfold Kind.IsFixed; infer_instance

namespace Token

/-- The tokens that stand for some lexeme. -/
inductive Valid (digits : Bool) : Token → Prop where
  | identifier {b : UInt8} {more : Bytes} {location : Option Location} (hb : Letter b)
      (hmore : ∀ c ∈ more, Continues digits c)
      (hword : Latin1.decode (b :: more) ∉ keywords.map Prod.fst) :
      Valid digits ⟨.identifier, .text (Latin1.decode (b :: more)), location⟩
  | integer {n : Nat} {location : Option Location} (h : n ≤ 2 ^ 63 - 1) :
      Valid digits ⟨.integer, .number n, location⟩
  | illegal {b : UInt8} {location : Option Location} (hblank : ¬ Blank b) (hb : ¬ Starts b) :
      Valid digits ⟨.illegal, .number b.toNat, location⟩
  | fixed {k : Kind} {location : Option Location} (h : k.IsFixed) :
      Valid digits ⟨k, .absent, location⟩

def spelled (t : Token) : Bytes :=
  match t.literal with
  | .ok p => p.plain.latin1
  | .error _ => []

theorem literal_of_fixed {k : Kind} {p : Payload} {location : Option Location} (h : k.IsFixed) :
    (Token.mk k p location).literal = .ok (.text (k.spelling?.getD "")) := by
  obtain ⟨h₁, h₂, h₃, -⟩ := h
  rw [literal]
  split <;> simp_all

theorem literal_of_byte {b : UInt8} {location : Option Location} :
    (Token.mk .illegal (.number b.toNat) location).literal = .ok (.text (Latin1.decode [b])) := by
  have hb : (0 : Int) ≤ b.toNat ∧ (b.toNat : Int) < 256 := by
    have := b.toNat_lt
    omega
  simp [literal, hb]

theorem literal_of_number {n : Nat} {location : Option Location} (h : n ≤ 2 ^ 63 - 1) :
    (Token.mk .integer (.number n) location).literal = .ok (.text (Numeral.decimal n)) :=
  if_pos (isWritable_of_le h)

theorem spelled_of_literal {t : Token} {s : String} (h : t.literal = .ok (.text s)) :
    t.spelled = Latin1.encode s := by
  rw [spelled, h]
  exact Text.latin1_ofString s

end Token

namespace Grammar

variable {digits : Bool}

theorem fixed_cases {k : Kind} (h : k.IsFixed) :
    k ∈ symbols.map Prod.snd ∨ k ∈ keywords.map Prod.snd := by
  have cover : ∀ k ∈ Kind.all, k.IsFixed →
      k ∈ symbols.map Prod.snd ∨ k ∈ keywords.map Prod.snd := by decide
  exact cover k k.mem_all h

/-- The two tables and the spellings of kinds agree. -/
theorem isLexeme_fixed {k : Kind} (h : k.IsFixed) :
    IsLexeme digits (Lexeme.symbol k).bytes ∧
      meaning false (Lexeme.symbol k).bytes = .ok (k, .absent) := by
  rcases fixed_cases h with h | h
  · refine ⟨?_, meaning_symbol h⟩
    have shapes : ∀ k ∈ symbols.map Prod.snd, (∃ b ∈ marks, (Lexeme.symbol k).bytes = [b]) ∨
        ∃ b ∈ [Byte.equals, Byte.bang], (Lexeme.symbol k).bytes = [b, Byte.equals] := by decide
    rcases shapes k h with ⟨b, hb, hbytes⟩ | ⟨b, hb, hbytes⟩
    · rw [hbytes]
      exact .mark hb
    · rw [hbytes]
      exact .comparison (by simpa using hb)
  · have shapes : ∀ k ∈ keywords.map Prod.snd,
        (Lexeme.symbol k).bytes ≠ [] ∧ (∀ b ∈ (Lexeme.symbol k).bytes, Letter b) ∧
          meaning false (Lexeme.symbol k).bytes = .ok (k, .absent) := by decide +kernel
    obtain ⟨hne, hletters, hmeaning⟩ := shapes k h
    refine ⟨?_, hmeaning⟩
    obtain ⟨b, more, hbytes⟩ := List.exists_cons_of_ne_nil hne
    rw [hbytes, List.forall_mem_cons] at hletters
    rw [hbytes]
    exact .word hletters.1 fun c hc => .inl (hletters.2 c hc)

theorem ofWord_cases (s : String) :
    s ∉ keywords.map Prod.fst ∧ (Token.ofWord s).key = (.identifier, .text s) ∨
      s ∈ keywords.map Prod.fst ∧ ∃ k ∈ keywords.map Prod.snd,
        (Token.ofWord s).key = (k, .absent) ∧ Latin1.encode s = (Lexeme.symbol k).bytes := by
  have htable : keywords = Kind.reserved := rfl
  cases hk : Kind.ofReserved? s with
  | none =>
    refine .inl ⟨fun hmem => ?_, by simp [Token.ofWord, Token.ofReserved?, hk, Token.key]⟩
    obtain ⟨entry, hentry, rfl⟩ := List.mem_map.mp hmem
    have := List.lookup_eq_none_iff.mp hk entry hentry
    simp at this
  | some k =>
    obtain ⟨l₁, l₂, hl, -⟩ := List.lookup_eq_some_iff.mp hk
    have hmem : (s, k) ∈ keywords := by simp [htable, hl]
    have spelled : ∀ entry ∈ keywords, Latin1.encode entry.1 = (Lexeme.symbol entry.2).bytes := by
      decide
    refine .inr ⟨List.mem_map_of_mem hmem, k, List.mem_map_of_mem hmem, ?_, spelled _ hmem⟩
    simp [Token.ofWord, Token.ofReserved?, hk, Token.key]

theorem digits_padded (zeros n : Nat) :
    ∀ b ∈ List.replicate zeros zero ++ Latin1.encode (Numeral.decimal n), Digit b := by
  intro b hb
  rcases List.mem_append.mp hb with hb | hb
  · rw [List.eq_of_mem_replicate hb]
    decide
  · exact digit_of_mem_encode_decimal hb

theorem value_padded (zeros n : Nat) :
    Numeral.value (List.replicate zeros zero ++ Latin1.encode (Numeral.decimal n)) = n := by
  rw [value_append, value_zeros, Nat.mul_zero, Nat.zero_add, value_encode_decimal]

/-- A valid token means itself when it is printed, with zeros in front if it is an integer. -/
theorem meaning_spelled {t : Token} (h : t.Valid digits) {zeros : Nat}
    (hzeros : zeros ≠ 0 → t.kind = .integer) :
    IsLexeme digits (List.replicate zeros zero ++ t.spelled) ∧
      meaning false (List.replicate zeros zero ++ t.spelled) = .ok t.key := by
  have none : t.kind ≠ .integer → zeros = 0 := fun hk => by_contra fun hz => hk (hzeros hz)
  cases h with
  | @identifier b more _ hb hmore hword =>
    rw [none (by simp), List.replicate_zero, List.nil_append, Token.spelled_of_literal rfl,
      Latin1.encode_decode]
    refine ⟨.word hb hmore, ?_⟩
    rw [meaning_word hb]
    rcases ofWord_cases (Latin1.decode (b :: more)) with ⟨-, hkey⟩ | ⟨hmem, -⟩
    · rw [hkey]
      rfl
    · exact absurd hmem hword
  | @integer n _ hle =>
    rw [Token.spelled_of_literal (Token.literal_of_number hle)]
    have hne : List.replicate zeros zero ++ Latin1.encode (Numeral.decimal n) ≠ [] := by
      simp [encode_decimal_ne_nil]
    have hdigits := digits_padded zeros n
    have hvalue := value_padded zeros n
    refine ⟨.number hne hdigits, ?_⟩
    obtain ⟨b, more, hbs⟩ := List.exists_cons_of_ne_nil hne
    rw [hbs] at hdigits hvalue ⊢
    rw [meaning_number (hdigits b List.mem_cons_self), hvalue]
    exact if_pos hle
  | illegal hblank hb =>
    rw [none (by simp), List.replicate_zero, List.nil_append,
      Token.spelled_of_literal Token.literal_of_byte, Latin1.encode_decode]
    refine ⟨.stray hblank hb, ?_⟩
    rw [meaning_stray hb]
    rfl
  | fixed hk =>
    rw [none hk.2.1, List.replicate_zero, List.nil_append,
      Token.spelled_of_literal (Token.literal_of_fixed hk)]
    exact isLexeme_fixed hk

theorem lexeme_cases {l : Bytes} {k : Kind} {p : Payload} (hl : IsLexeme digits l)
    (hm : meaning false l = .ok (k, p)) :
    (k.IsFixed ∧ p = .absent ∧ l = (Lexeme.symbol k).bytes) ∨
      (∃ b more, l = b :: more ∧ Letter b ∧ (∀ c ∈ more, Continues digits c) ∧
        Latin1.decode l ∉ keywords.map Prod.fst ∧ k = .identifier ∧ p = .text (Latin1.decode l)) ∨
      ((∀ b ∈ l, Digit b) ∧ l ≠ [] ∧ k = .integer ∧ p = .number (Numeral.value l) ∧
        Numeral.value l ≤ Lexeme.integerLimit) ∨
      ∃ b, l = [b] ∧ ¬ Blank b ∧ ¬ Starts b ∧ k = .illegal ∧ p = .number b.toNat := by
  have fixed : ∀ k ∈ (symbols ++ keywords).map Prod.snd, k.IsFixed := by decide
  have symbol : ∀ k' ∈ symbols.map Prod.snd, l = (Lexeme.symbol k').bytes →
      k.IsFixed ∧ p = .absent ∧ l = (Lexeme.symbol k).bytes := by
    intro k' hk' hbytes
    rw [hbytes, meaning_symbol hk'] at hm
    cases hm
    refine ⟨fixed k ?_, rfl, hbytes⟩
    rw [List.map_append]
    exact List.mem_append_left _ hk'
  cases hl with
  | @comparison b h =>
    have spelled : ∀ b ∈ [Byte.equals, Byte.bang], ∃ k ∈ symbols.map Prod.snd,
        [b, Byte.equals] = (Lexeme.symbol k).bytes := by decide +kernel
    obtain ⟨k', hk', hbytes⟩ := spelled b (by simpa using h)
    exact .inl (symbol k' hk' hbytes)
  | @mark b h =>
    have spelled : ∀ b ∈ marks, ∃ k ∈ symbols.map Prod.snd, [b] = (Lexeme.symbol k).bytes := by
      decide +kernel
    obtain ⟨k', hk', hbytes⟩ := spelled b h
    exact .inl (symbol k' hk' hbytes)
  | @word b more hb hmore =>
    rw [meaning_word hb] at hm
    have hkey := Except.ok.inj hm
    rcases ofWord_cases (Latin1.decode (b :: more)) with ⟨hword, h⟩ | ⟨-, k', hk', h, hbytes⟩
    · rw [h, Prod.mk.injEq] at hkey
      exact .inr (.inl ⟨b, more, rfl, hb, hmore, hword, hkey.1.symm, hkey.2.symm⟩)
    · rw [h, Prod.mk.injEq] at hkey
      obtain ⟨rfl, rfl⟩ := hkey
      rw [Latin1.encode_decode] at hbytes
      refine .inl ⟨fixed k' ?_, rfl, hbytes⟩
      rw [List.map_append]
      exact List.mem_append_right _ hk'
  | number hne hbs =>
    obtain ⟨b, more, rfl⟩ := List.exists_cons_of_ne_nil hne
    rw [meaning_number (hbs b List.mem_cons_self)] at hm
    split at hm
    · rename_i hle
      cases hm
      exact .inr (.inr (.inl ⟨hbs, hne, rfl, rfl, hle⟩))
    · cases hm
  | @stray b hblank hb =>
    rw [meaning_stray hb] at hm
    cases hm
    exact .inr (.inr (.inr ⟨b, rfl, hblank, hb, rfl, rfl⟩))

theorem valid_of_meaning {l : Bytes} {t : Token} (hl : IsLexeme digits l)
    (hm : meaning false l = .ok t.key) :
    t.Valid digits ∧ ∃ zeros, l = List.replicate zeros zero ++ t.spelled ∧
      (zeros ≠ 0 → t.kind = .integer) := by
  obtain ⟨k, p, location⟩ := t
  rcases lexeme_cases hl hm with ⟨hk, hp, hbytes⟩ | ⟨b, more, rfl, hb, hmore, hword, hk, hp⟩ |
      ⟨hdigits, hne, hk, hp, hle⟩ | ⟨b, rfl, hblank, hb, hk, hp⟩
  · obtain rfl : p = .absent := hp
    refine ⟨.fixed hk, 0, ?_, by simp⟩
    rw [Token.spelled_of_literal (Token.literal_of_fixed hk)]
    exact hbytes
  · obtain rfl : k = .identifier := hk
    obtain rfl : p = .text (Latin1.decode (b :: more)) := hp
    refine ⟨.identifier hb hmore hword, 0, ?_, by simp⟩
    rw [Token.spelled_of_literal rfl, Latin1.encode_decode]
    rfl
  · obtain rfl : k = .integer := hk
    obtain rfl : p = .number (Numeral.value l) := hp
    obtain ⟨zeros, hzeros⟩ := eq_zeros_append_decimal hdigits hne
    refine ⟨.integer hle, zeros, ?_, fun _ => rfl⟩
    rw [Token.spelled_of_literal (Token.literal_of_number hle)]
    exact hzeros
  · obtain rfl : k = .illegal := hk
    obtain rfl : p = .number b.toNat := hp
    refine ⟨.illegal hblank hb, 0, ?_, by simp⟩
    rw [Token.spelled_of_literal Token.literal_of_byte, Latin1.encode_decode]
    rfl

/-- The kind of a lexeme tells what can make it longer and what it makes longer. -/
theorem class_of_kind {b : UInt8} {more : Bytes} {k : Kind} {p : Payload}
    (hl : IsLexeme digits (b :: more)) (hm : meaning false (b :: more) = .ok (k, p)) :
    (Letter b ↔ k.IsWord) ∧ (Digit b ↔ k = .integer) ∧
      ((b = Byte.equals ∨ b = Byte.bang) ∧ more = [] ↔ k = .assign ∨ k = .bang) ∧
      (b = Byte.equals ↔ k = .assign ∨ k = .equal) := by
  have table : ∀ k ∈ Kind.all, k.IsFixed → ∀ b ∈ (Lexeme.symbol k).bytes.head?,
      (Letter b ↔ k.IsWord) ∧ ¬ Digit b ∧
        ((b = Byte.equals ∨ b = Byte.bang) ∧ (Lexeme.symbol k).bytes.tail = [] ↔
          k = .assign ∨ k = .bang) ∧
        (b = Byte.equals ↔ k = .assign ∨ k = .equal) := by decide +kernel
  -- no other lexeme starts with a mark
  have other : b ∉ marks → ((b = Byte.equals ∨ b = Byte.bang) ∧ more = [] ↔ False) ∧
      (b = Byte.equals ↔ False) := by
    intro hb
    exact ⟨iff_false_intro fun h => hb (mark_of_comparison h.1),
      iff_false_intro fun h => hb (mark_of_comparison (.inl h))⟩
  rcases lexeme_cases hl hm with ⟨hk, -, hbytes⟩ | ⟨c, more', hc, hb, -, -, rfl, -⟩ |
      ⟨hdigits, -, rfl, -⟩ | ⟨c, hc, -, hb, rfl, -⟩
  · have facts := table k k.mem_all hk b (by rw [← hbytes]; rfl)
    rw [← hbytes] at facts
    obtain ⟨hword, hdigit, hcompare, hequals⟩ := facts
    exact ⟨hword, iff_of_false hdigit hk.2.1, hcompare, hequals⟩
  · obtain ⟨rfl, rfl⟩ := List.cons.inj hc
    obtain ⟨hcompare, hequals⟩ := other hb.not_mark
    exact ⟨iff_of_true hb (.inl rfl), iff_of_false hb.not_digit (by simp),
      hcompare.trans (by simp), hequals.trans (by simp)⟩
  · have hb := hdigits b List.mem_cons_self
    obtain ⟨hcompare, hequals⟩ := other hb.not_mark
    exact ⟨iff_of_false (fun h => h.not_digit hb) (by decide), iff_of_true hb rfl,
      hcompare.trans (by simp), hequals.trans (by simp)⟩
  · obtain ⟨rfl, rfl⟩ := List.cons.inj hc
    obtain ⟨hcompare, hequals⟩ := other fun h => hb (.inl h)
    exact ⟨iff_of_false (fun h => hb (.inr (.inl h))) (by decide),
      iff_of_false (fun h => hb (.inr (.inr h))) (by simp),
      hcompare.trans (by simp), hequals.trans (by simp)⟩

/-- Tokens conflict exactly if the first byte of the one makes a longer lexeme of the other. -/
theorem isLexeme_concat_iff_conflict {l more : Bytes} {c : UInt8} {k k' : Kind} {p p' : Payload}
    (hl : IsLexeme digits l) (hm : meaning false l = .ok (k, p))
    (hl' : IsLexeme digits (c :: more)) (hm' : meaning false (c :: more) = .ok (k', p')) :
    IsLexeme digits (l ++ [c]) ↔ k.Conflict digits k' := by
  obtain ⟨b, rest, rfl⟩ := List.exists_cons_of_ne_nil hl.ne_nil
  obtain ⟨hword, hint, hcompare, -⟩ := class_of_kind hl hm
  obtain ⟨hword', hint', -, hequals'⟩ := class_of_kind hl' hm'
  rw [isLexeme_concat_iff hl, Continues, hword, hint, hcompare, hword', hint', hequals',
    Kind.Conflict, and_or_left, or_assoc]
  constructor
  · rintro (h | ⟨hw, hd, hi⟩ | h | h)
    · exact .inl h
    · exact .inr (.inr (.inr ⟨hd, hw, hi⟩))
    · exact .inr (.inl h)
    · exact .inr (.inr (.inl h))
  · rintro (h | h | h | ⟨hd, hw, hi⟩)
    · exact .inl h
    · exact .inr (.inr (.inl h))
    · exact .inr (.inr (.inr h))
    · exact .inr (.inl ⟨hw, hd, hi⟩)

end Grammar

/-! ## Prints -/

/-- A printed token: zeros, which only an integer may have in front, the literal, and a gap. -/
structure Printed where
  token : Token
  zeros : Nat
  gap : Bytes

namespace Printed

def bytes (p : Printed) : Bytes :=
  List.replicate p.zeros zero ++ p.token.spelled

/-- The token printed without zeros, and with this gap behind it. -/
def again (p : Printed) (gap : Bytes) : Printed where
  token := p.token
  zeros := 0
  gap := gap

structure Fits (digits : Bool) (p : Printed) : Prop where
  valid : p.token.Valid digits
  zeros : p.zeros ≠ 0 → p.token.kind = .integer
  gap : ∀ b ∈ p.gap, Blank b

def layout (ps : List Printed) : Bytes :=
  ps.flatMap fun p => p.bytes ++ p.gap

/-- Conflicting neighbours have a gap between them. -/
def Separated (digits : Bool) (ps : List Printed) : Prop :=
  ps.IsChain fun p q => p.gap = [] → ¬ p.token.kind.Conflict digits q.token.kind

variable {digits : Bool}

theorem layout_cons (p : Printed) (ps : List Printed) :
    layout (p :: ps) = p.bytes ++ (p.gap ++ layout ps) := by
  rw [layout, List.flatMap_cons, List.append_assoc]
  rfl

theorem Fits.isLexeme {p : Printed} (h : p.Fits digits) : IsLexeme digits p.bytes :=
  (meaning_spelled h.valid h.zeros).1

theorem Fits.meaning {p : Printed} (h : p.Fits digits) :
    meaning false p.bytes = .ok p.token.key :=
  (meaning_spelled h.valid h.zeros).2

/-- A printed token is scanned as such if it does not conflict with the next one, or if there is
something in between. -/
theorem isLongest_layout_iff {p : Printed} {ps : List Printed} (hp : p.Fits digits)
    (hps : ∀ q ∈ ps, q.Fits digits) :
    IsLongest digits (p.bytes ++ (p.gap ++ layout ps)) p.bytes.length ↔
      ∀ q ∈ ps.head?, p.gap = [] → ¬ p.token.kind.Conflict digits q.token.kind := by
  rw [isLongest_append_iff, and_iff_right hp.isLexeme]
  cases hgap : p.gap with
  | nil =>
    cases ps with
    | nil => simp [layout]
    | cons q qs =>
      have hq := hps q List.mem_cons_self
      obtain ⟨c, more, hbytes⟩ := List.exists_cons_of_ne_nil hq.isLexeme.ne_nil
      have hlex := hq.isLexeme
      have hmeaning := hq.meaning
      rw [hbytes] at hlex hmeaning
      rw [layout_cons, hbytes, List.nil_append, List.cons_append, List.head?_cons,
        List.head?_cons]
      simp only [Option.mem_some_iff, forall_eq', true_implies]
      rw [isLexeme_concat_iff_conflict hp.isLexeme hp.meaning hlex hmeaning]
  | cons c gap =>
    have hc : Blank c := hp.gap c (by rw [hgap]; exact List.mem_cons_self)
    have hext : ¬ IsLexeme digits (p.bytes ++ [c]) := fun h => h.not_blank c (by simp) hc
    simp [hext]

theorem splits_layout_iff {gap : Bytes} {ps : List Printed} (hgap : ∀ b ∈ gap, Blank b)
    (hps : ∀ p ∈ ps, p.Fits digits) :
    Splits digits (gap ++ layout ps) (ps.map bytes) ↔ Separated digits ps := by
  induction ps generalizing gap with
  | nil =>
    rw [show layout [] = [] from rfl, List.append_nil]
    exact iff_of_true (.done hgap) .nil
  | cons p ps ih =>
    rw [List.forall_mem_cons] at hps
    obtain ⟨hp, hps⟩ := hps
    rw [layout_cons, List.map_cons, splits_cons_iff hgap hp.isLexeme, ih hp.gap hps,
      isLongest_layout_iff hp hps]
    cases ps with
    | nil => simp [Separated]
    | cons q ps => simp [Separated]

theorem filter_layout {ps : List Printed} (hps : ∀ p ∈ ps, p.Fits digits) :
    (layout ps).filter (¬ Blank ·) = (ps.map bytes).flatten := by
  induction ps with
  | nil => rfl
  | cons p ps ih =>
    rw [List.forall_mem_cons] at hps
    obtain ⟨hp, hps⟩ := hps
    have hbytes : p.bytes.filter (¬ Blank ·) = p.bytes := by simpa using hp.isLexeme.not_blank
    have hgap : p.gap.filter (¬ Blank ·) = [] := by simpa using hp.gap
    rw [layout_cons, List.filter_append, List.filter_append, hbytes, hgap, ih hps]
    rfl

/-- Of lists of at least the same bytes each, none has more if there are no more in all. -/
theorem eq_of_length_flatten {ls ks : List Bytes} (h : List.Forall₂ (fun l k => k <:+ l) ls ks)
    (hlen : ls.flatten.length ≤ ks.flatten.length) : ls = ks := by
  have least : ∀ {ls ks : List Bytes}, List.Forall₂ (fun l k => k <:+ l) ls ks →
      ks.flatten.length ≤ ls.flatten.length := by
    intro ls ks h
    induction h with
    | nil => exact Nat.le_refl _
    | cons hsuffix _ ih =>
      rw [List.flatten_cons, List.flatten_cons, List.length_append, List.length_append]
      exact Nat.add_le_add hsuffix.length_le ih
  induction h with
  | nil => rfl
  | cons hsuffix hrest ih =>
    rw [List.flatten_cons, List.flatten_cons, List.length_append, List.length_append] at hlen
    have hle := hsuffix.length_le
    have hleast := least hrest
    rw [hsuffix.eq_of_length (by omega), ih (by omega)]

/-- If the tokens come back, they have been scanned from their own prints. -/
theorem eq_bytes_of_splits {gap : Bytes} {ps : List Printed} {ls : List Bytes}
    (hgap : ∀ b ∈ gap, Blank b) (hps : ∀ p ∈ ps, p.Fits digits ∧ p.zeros = 0)
    (hsplits : Splits digits (gap ++ layout ps) ls)
    (hmeaning : ls.map (Grammar.meaning false) = (ps.map fun p => p.token.key).map .ok) :
    ls = ps.map bytes := by
  rw [List.map_map, ← List.forall₂_eq_eq_eq, List.forall₂_map_left_iff,
    List.forall₂_map_right_iff, List.forall₂_iff_zip] at hmeaning
  obtain ⟨hlen, hmeaning⟩ := hmeaning
  have hsuffix : List.Forall₂ (fun l k => k <:+ l) ls (ps.map bytes) := by
    rw [List.forall₂_map_right_iff, List.forall₂_iff_zip]
    refine ⟨hlen, fun {l p} hmem => ?_⟩
    obtain ⟨hl, hp⟩ := List.of_mem_zip hmem
    obtain ⟨-, zeros, hbytes, -⟩ := valid_of_meaning (hsplits.isLexeme l hl) (hmeaning hmem)
    have hplain : p.bytes = p.token.spelled := by rw [Printed.bytes, (hps p hp).2]; rfl
    exact ⟨List.replicate zeros zero, by rw [hbytes, hplain]⟩
  -- both lists have the bytes of the source that are no blanks
  refine eq_of_length_flatten hsuffix ?_
  have hgap' : gap.filter (¬ Blank ·) = [] := by simpa using hgap
  rw [← hsplits.filter_eq, List.filter_append, hgap', filter_layout fun p hp => (hps p hp).1]
  exact Nat.le_refl _

theorem exists_layout {bs : Bytes} {ls : List Bytes} {ts : List Token}
    (h : Splits digits bs ls)
    (hmeaning : ls.map (Grammar.meaning false) = (ts.map Token.key).map .ok) :
    ∃ gap ps, (∀ b ∈ gap, Blank b) ∧ (∀ p ∈ ps, p.Fits digits) ∧ bs = gap ++ layout ps ∧
      ps.map bytes = ls ∧ ps.map token = ts := by
  induction h generalizing ts with
  | @done gap hgap =>
    obtain rfl : ts = [] := by simpa using hmeaning.symm
    exact ⟨gap, [], hgap, by simp, by simp [layout], rfl, rfl⟩
  | @next gap l rest more hgap hlong hmore ih =>
    cases ts with
    | nil => cases hmeaning
    | cons t ts =>
      obtain ⟨hkey, hkeys⟩ := List.cons.inj hmeaning
      obtain ⟨gap', ps, hgap', hps, rfl, hbytes, htokens⟩ := ih hkeys
      obtain ⟨hvalid, zeros, hl, hzeros⟩ := valid_of_meaning (isLexeme_of_isLongest hlong) hkey
      let p : Printed := ⟨t, zeros, gap'⟩
      have hp : p.Fits digits := ⟨hvalid, hzeros, hgap'⟩
      have hl' : p.bytes = l := hl.symm
      refine ⟨gap, p :: ps, hgap, List.forall_mem_cons.mpr ⟨hp, hps⟩, ?_, ?_, ?_⟩
      · rw [layout_cons, hl']
      · rw [List.map_cons, hl', hbytes]
      · rw [List.map_cons, htokens]

end Printed

/-! ## The round trip -/

open Printed

theorem Source.exists_splits {s : Source} {bs : Bytes} (hbytes : s.toBytes = .ok bs) (file : Text)
    (options : Options) :
    ∃ ls, Splits options.digits bs ls ∧
      ∀ keys, (∃ ts, (s.tokenize file options).1 = .ok ts ∧ ts.map Token.key = keys) ↔
        ∃ firsts, keys = firsts ++ [(.endOfInput, .absent)] ∧
          ls.map (meaning options.strict) = firsts.map .ok := by
  obtain ⟨ls, hsplits, hdrain⟩ := (Lexer.start bs file options).exists_splits
  refine ⟨ls, hsplits, fun keys => ?_⟩
  have hts : ∀ ts, (s.tokenize file options).1 = .ok ts ↔
      (Lexer.start bs file options).drain.result = (ts, none) := by
    intro ts
    rw [Source.tokenize_ok_iff]
    simp [hbytes]
  simp only [hts]
  exact hdrain keys

/-- The permissive scan of a source gives tokens that are equal to these, and then the end. -/
def Source.ScansAs (s : Source) (file : Text) (digits : Bool) (ts : List Token) : Prop :=
  ∃ out, (s.tokenize file ⟨digits, false⟩).1 = .ok out ∧
    out.map Token.key = ts.map Token.key ++ [(.endOfInput, .absent)]

theorem scansAs_layout_iff {digits : Bool} (file : Text) {gap : Bytes} {ps : List Printed}
    (hgap : ∀ b ∈ gap, Blank b) (hps : ∀ p ∈ ps, p.Fits digits ∧ p.zeros = 0) :
    (Source.bytes (gap ++ layout ps)).ScansAs file digits (ps.map token) ↔
      Separated digits ps := by
  have hfits : ∀ p ∈ ps, p.Fits digits := fun p hp => (hps p hp).1
  have hkeys : (ps.map token).map Token.key = ps.map fun p => p.token.key := List.map_map
  obtain ⟨ls, hsplits, hout⟩ := Source.exists_splits
    (show (Source.bytes (gap ++ layout ps)).toBytes = .ok (gap ++ layout ps) from rfl) file
    ⟨digits, false⟩
  rw [Source.ScansAs, hout, hkeys]
  constructor
  · rintro ⟨firsts, hfirsts, hmeaning⟩
    rw [← List.append_cancel_right hfirsts] at hmeaning
    rw [eq_bytes_of_splits hgap hps hsplits hmeaning] at hsplits
    exact (splits_layout_iff hgap hfits).mp hsplits
  · intro hsep
    refine ⟨_, rfl, ?_⟩
    rw [hsplits.unique ((splits_layout_iff hgap hfits).mpr hsep), List.map_map, List.map_map]
    exact List.map_congr_left fun p hp => (hfits p hp).meaning

theorem literal_of_valid {digits : Bool} {t : Token} (h : t.Valid digits) :
    ∃ s : String, t.literal = .ok (.text s) ∧ t.spelled = Latin1.encode s ∧
      Latin1.decode t.spelled = s := by
  have of_literal : ∀ s : String, t.literal = .ok (.text s) →
      Latin1.decode (Latin1.encode s) = s → ∃ s : String, t.literal = .ok (.text s) ∧
        t.spelled = Latin1.encode s ∧ Latin1.decode t.spelled = s := by
    intro s hliteral hlatin
    have hspelled := Token.spelled_of_literal hliteral
    exact ⟨s, hliteral, hspelled, hspelled ▸ hlatin⟩
  cases h with
  | @identifier b more _ hb hmore hword =>
    exact of_literal _ rfl (congrArg Latin1.decode (Latin1.encode_decode (b :: more)))
  | @integer n _ hle =>
    refine of_literal _ (Token.literal_of_number hle) ?_
    rw [Latin1.decode, map_char_encode_decimal, ← toList_decimal, String.ofList_toList]
  | @illegal b =>
    exact of_literal _ Token.literal_of_byte
      (congrArg Latin1.decode (Latin1.encode_decode [b]))
  | @fixed k _ hk =>
    have ascii : ∀ k ∈ Kind.all, Latin1.decode (Latin1.encode (k.spelling?.getD "")) =
        k.spelling?.getD "" := by decide
    exact of_literal _ (Token.literal_of_fixed hk) (ascii k k.mem_all)

theorem again_fits {digits : Bool} {p : Printed} {gap : Bytes} (hp : p.Fits digits)
    (hgap : ∀ b ∈ gap, Blank b) : (p.again gap).Fits digits ∧ (p.again gap).zeros = 0 :=
  ⟨⟨hp.valid, fun h => absurd rfl h, hgap⟩, rfl⟩

theorem scansAs_again {digits : Bool} (file : Text) {gap : Bytes} {ps : List Printed}
    {gapOf : Printed → Bytes} (hgap : ∀ b ∈ gap, Blank b) (hps : ∀ p ∈ ps, p.Fits digits)
    (hgaps : ∀ p ∈ ps, ∀ b ∈ gapOf p, Blank b)
    (hsep : Separated digits (ps.map fun p => p.again (gapOf p))) :
    (Source.bytes (gap ++ layout (ps.map fun p => p.again (gapOf p)))).ScansAs file digits
      (ps.map token) := by
  have hfits : ∀ q ∈ ps.map fun p => p.again (gapOf p), q.Fits digits ∧ q.zeros = 0 := by
    intro q hq
    obtain ⟨p, hp, rfl⟩ := List.mem_map.mp hq
    exact again_fits (hps p hp) (hgaps p hp)
  have hscan := (scansAs_layout_iff file hgap hfits).mpr hsep
  rw [List.map_map] at hscan
  exact hscan

/-- Scanning undoes printing exactly if conflicting tokens are kept apart. Every source that can be
scanned is a print of its tokens, with zeros in front of its integers. Printed again without those,
or with some other blanks between all of them, the tokens are scanned as before. -/
theorem printing_round_trip (digits : Bool) (file : Text) :
    (∀ t : Token, t.Valid digits → ∃ s : String, t.literal = .ok (.text s) ∧
      t.spelled = Latin1.encode s ∧ Latin1.decode t.spelled = s) ∧
    (∀ (gap : Bytes) (ps : List Printed), (∀ b ∈ gap, Blank b) →
      (∀ p ∈ ps, p.Fits digits ∧ p.zeros = 0) →
      ((Source.bytes (gap ++ layout ps)).ScansAs file digits (ps.map token) ↔
        Separated digits ps)) ∧
    ∀ (s : Source) (out : List Token), (s.tokenize file ⟨digits, false⟩).1 = .ok out →
      ∃ (gap : Bytes) (ps : List Printed) (last : Token), s.toBytes = .ok (gap ++ layout ps) ∧
        (∀ b ∈ gap, Blank b) ∧ (∀ p ∈ ps, p.Fits digits) ∧ Separated digits ps ∧
        out = ps.map token ++ [last] ∧ last.key = (.endOfInput, .absent) ∧
        (Source.bytes (gap ++ layout (ps.map fun p => p.again p.gap))).ScansAs file digits
          (ps.map token) ∧
        ∀ blanks : Bytes, blanks ≠ [] → (∀ b ∈ blanks, Blank b) →
          (Source.bytes (layout (ps.map fun p => p.again blanks))).ScansAs file digits
            (ps.map token) := by
  refine ⟨fun t ht => literal_of_valid ht, fun gap ps hgap hps => scansAs_layout_iff file hgap hps,
    fun s out hout => ?_⟩
  obtain ⟨bs, hbytes, -⟩ := (s.tokenize_ok_iff file _ out).mp hout
  obtain ⟨ls, hsplits, hkeys⟩ := Source.exists_splits hbytes file ⟨digits, false⟩
  obtain ⟨firsts, hfirsts, hmeaning⟩ := (hkeys _).mp ⟨out, hout, rfl⟩
  obtain ⟨ts, ends, rfl, rfl, hends⟩ := List.map_eq_append_iff.mp hfirsts
  obtain ⟨last, rfl, hlast⟩ := List.map_eq_singleton_iff.mp hends
  obtain ⟨gap, ps, hgap, hps, rfl, rfl, rfl⟩ := exists_layout hsplits hmeaning
  have hsep := (splits_layout_iff hgap hps).mp hsplits
  refine ⟨gap, ps, last, hbytes, hgap, hps, hsep, rfl, hlast, ?_, ?_⟩
  · refine scansAs_again file hgap hps (fun p hp => (hps p hp).gap) ?_
    rw [Separated, List.isChain_map]
    exact hsep
  · intro blanks hne hblanks
    have hapart : Separated digits (ps.map fun p => p.again blanks) := by
      rw [Separated, List.isChain_map]
      exact (List.pairwise_of_forall fun _ _ h => absurd h hne).isChain
    have hnil : ∀ b ∈ ([] : Bytes), Blank b := by simp
    exact scansAs_again file hnil hps (fun _ _ => hblanks) hapart

end MonkeyScan
