import Mathlib.Tactic.SplitIfs
import MonkeyScan.Utf8

/-!
# MonkeyScan.Proofs.Utf8

UTF-8 as written and as read. Writing is that of the standard library (`Utf8.encodeScalar_eq`).
Reading goes by a table of first bytes. What the table accepts are the written characters
(`Utf8.encode_of_lead`), and it accepts all of them (`Utf8.exists_lead`). So no character is written
where the table or the bytes behind it fall short (`Utf8.lead_of_written`), and reading takes a
written character from the front wherever there is one (`Utf8.segments_induction`).
-/

namespace MonkeyScan
namespace Utf8

/-! ## Written characters -/

theorem ofNat_eq_iff {n : Nat} {b : UInt8} (h : n < 256) : UInt8.ofNat n = b ↔ b.toNat = n := by
  rw [← UInt8.toNat_inj, UInt8.toNat_ofNat', Nat.mod_eq_of_lt h, eq_comm]

theorem encodeScalar_two_iff {n : Nat} (h : 0x80 ≤ n) (h' : n < 0x800) {b x : UInt8} :
    encodeScalar n = [b, x] ↔ b.toNat = 0xC0 + n / 0x40 ∧ x.toNat = 0x80 + n % 0x40 := by
  rw [encodeScalar, if_neg (by omega), if_pos h', List.cons.injEq, List.cons.injEq,
    ofNat_eq_iff (by omega), ofNat_eq_iff (by omega), and_iff_left rfl]

theorem encodeScalar_three_iff {n : Nat} (h : 0x800 ≤ n) (h' : n < 0x10000) {b x y : UInt8} :
    encodeScalar n = [b, x, y] ↔ b.toNat = 0xE0 + n / 0x1000 ∧
      x.toNat = 0x80 + n / 0x40 % 0x40 ∧ y.toNat = 0x80 + n % 0x40 := by
  rw [encodeScalar, if_neg (by omega), if_neg (by omega), if_pos h', List.cons.injEq,
    List.cons.injEq, List.cons.injEq, ofNat_eq_iff (by omega), ofNat_eq_iff (by omega),
    ofNat_eq_iff (by omega), and_iff_left rfl]

theorem encodeScalar_four_iff {n : Nat} (h : 0x10000 ≤ n) (h' : n < 0x110000) {b x y z : UInt8} :
    encodeScalar n = [b, x, y, z] ↔ b.toNat = 0xF0 + n / 0x40000 ∧
      x.toNat = 0x80 + n / 0x1000 % 0x40 ∧ y.toNat = 0x80 + n / 0x40 % 0x40 ∧
      z.toNat = 0x80 + n % 0x40 := by
  rw [encodeScalar, if_neg (by omega), if_neg (by omega), if_neg (by omega), List.cons.injEq,
    List.cons.injEq, List.cons.injEq, List.cons.injEq, ofNat_eq_iff (by omega),
    ofNat_eq_iff (by omega), ofNat_eq_iff (by omega), ofNat_eq_iff (by omega), and_iff_left rfl]

theorem toNat_lt (c : Char) : c.toNat < 0x110000 :=
  (CodePoint.ofChar c).number_lt

theorem encodeScalar_eq (c : Char) : encodeScalar c.toNat = String.utf8EncodeChar c := by
  have hlt := toNat_lt c
  have h : c.val.toNat = c.toNat := rfl
  simp only [encodeScalar, String.utf8EncodeChar, h, ← Nat.lt_succ_iff, Nat.succ_eq_add_one]
  generalize c.toNat = n at hlt
  split_ifs
  · rfl
  · rw [show n / 64 % 32 + 192 = 0xC0 + n / 0x40 by omega, Nat.add_comm (n % 64)]
  · rw [show n / 4096 % 16 + 224 = 0xE0 + n / 0x1000 by omega, Nat.add_comm (n / 64 % 64),
      Nat.add_comm (n % 64)]
  · rw [show n / 262144 % 8 + 240 = 0xF0 + n / 0x40000 by omega, Nat.add_comm (n / 4096 % 64),
      Nat.add_comm (n / 64 % 64), Nat.add_comm (n % 64)]

theorem utf8EncodeChar_ofNat {n : Nat} (h : n.isValidChar) :
    String.utf8EncodeChar (Char.ofNat n) = encodeScalar n := by
  have hn : (Char.ofNat n).toNat = n := by
    rw [Char.ofNat, dif_pos h]
    rfl
  rw [← encodeScalar_eq, hn]

theorem utf8EncodeChar_ascii {b : UInt8} (h : b < 0x80) :
    String.utf8EncodeChar (Latin1.char b) = [b] := by
  have hb : (Latin1.char b).toNat = b.toNat := rfl
  simp only [UInt8.lt_iff_toNat_lt, UInt8.reduceToNat] at h
  rw [← encodeScalar_eq, hb, encodeScalar, if_pos h, UInt8.ofNat_toNat]

/-! ## The bytes behind a first byte -/

/-- Exactly `n` bytes, the first within the bounds, the others continuations. -/
inductive Following : Nat → UInt8 → UInt8 → Bytes → Prop where
  | nil {low high : UInt8} : Following 0 low high []
  | cons {n : Nat} {low high b : UInt8} {more : Bytes} (hlow : low ≤ b) (hhigh : b ≤ high)
      (hmore : Following n 0x80 0xBF more) : Following (n + 1) low high (b :: more)

namespace Following

variable {n : Nat} {low high : UInt8} {following : Bytes}

theorem eq_nil (h : Following 0 low high following) : following = [] := by
  cases h
  rfl

theorem eq_cons (h : Following (n + 1) low high following) :
    ∃ x more, following = x :: more ∧ low ≤ x ∧ x ≤ high ∧ Following n 0x80 0xBF more := by
  cases h with
  | cons hlow hhigh hmore => exact ⟨_, _, rfl, hlow, hhigh, hmore⟩

theorem length_eq (h : Following n low high following) : following.length = n := by
  induction h with
  | nil => rfl
  | cons _ _ _ ih => rw [List.length_cons, ih]

theorem continuation_eq (h : Following n low high following) (tail : Bytes) :
    continuation n low high (following ++ tail) = following := by
  induction h with
  | nil => rfl
  | cons hlow hhigh _ ih => rw [List.cons_append, continuation, if_pos ⟨hlow, hhigh⟩, ih]

end Following

theorem following_of_length {n : Nat} {low high : UInt8} {bs : Bytes}
    (h : (continuation n low high bs).length = n) :
    Following n low high (continuation n low high bs) := by
  induction n generalizing low high bs with
  | zero => exact .nil
  | succ n ih =>
    cases bs with
    | nil => cases h
    | cons b rest =>
      rw [continuation] at h ⊢
      split at h
      · rename_i hb
        rw [if_pos hb]
        exact .cons hb.1 hb.2 (ih (Nat.succ.inj h))
      · cases h

theorem continuation_isPrefix (n : Nat) (low high : UInt8) (bs : Bytes) :
    continuation n low high bs <+: bs := by
  induction n generalizing low high bs with
  | zero => exact List.nil_prefix
  | succ n ih =>
    cases bs with
    | nil => exact List.nil_prefix
    | cons b rest =>
      rw [continuation]
      split
      · exact List.cons_prefix_cons.mpr ⟨rfl, ih 0x80 0xBF rest⟩
      · exact List.nil_prefix

theorem bounds_of_mem_continuation {n : Nat} {low high : UInt8} {bs : Bytes} (hlow : 0x80 ≤ low)
    (hhigh : high ≤ 0xBF) : ∀ x ∈ continuation n low high bs, 0x80 ≤ x ∧ x ≤ 0xBF := by
  induction n generalizing low high bs with
  | zero => simp [continuation]
  | succ n ih =>
    cases bs with
    | nil => simp [continuation]
    | cons b rest =>
      rw [continuation]
      split
      · rename_i hb
        rw [List.forall_mem_cons]
        exact ⟨⟨UInt8.le_trans hlow hb.1, UInt8.le_trans hb.2 hhigh⟩,
          ih (UInt8.le_refl _) (UInt8.le_refl _)⟩
      · simp

/-! ## The table of first bytes -/

namespace Lead

/-- The table by the number of bytes that follow. -/
theorem of?_eq (b : UInt8) :
    of? b =
      if b.toNat < 0xC2 then none
      else if b.toNat < 0xE0 then some ⟨1, 0x80, 0xBF, b.toNat - 0xC0⟩
      else if b.toNat < 0xF0 then
        some ⟨2, if b = 0xE0 then 0xA0 else 0x80, if b = 0xED then 0x9F else 0xBF, b.toNat - 0xE0⟩
      else if b.toNat < 0xF5 then
        some ⟨3, if b = 0xF0 then 0x90 else 0x80, if b = 0xF4 then 0x8F else 0xBF, b.toNat - 0xF0⟩
      else none := by
  by_cases h₁ : b = 0xE0
  · rw [h₁]; rfl
  by_cases h₂ : b = 0xED
  · rw [h₂]; rfl
  by_cases h₃ : b = 0xF0
  · rw [h₃]; rfl
  by_cases h₄ : b = 0xF4
  · rw [h₄]; rfl
  have h₄' : b.toNat ≠ 0xF4 := fun h => h₄ (UInt8.toNat_inj.mp h)
  simp only [of?, if_neg h₁, if_neg h₂, if_neg h₃, if_neg h₄, UInt8.lt_iff_toNat_lt,
    UInt8.le_iff_toNat_le, UInt8.reduceToNat]
  split_ifs <;> first | rfl | omega

variable {b : UInt8} {lead : Lead}

theorem of?_two (h : 0xC2 ≤ b.toNat) (h' : b.toNat < 0xE0) :
    of? b = some ⟨1, 0x80, 0xBF, b.toNat - 0xC0⟩ := by
  rw [of?_eq, if_neg (by omega), if_pos h']

theorem of?_three (h : 0xE0 ≤ b.toNat) (h' : b.toNat < 0xF0) :
    of? b = some ⟨2, if b = 0xE0 then 0xA0 else 0x80, if b = 0xED then 0x9F else 0xBF,
      b.toNat - 0xE0⟩ := by
  rw [of?_eq, if_neg (by omega), if_neg (by omega), if_pos h']

theorem of?_four (h : 0xF0 ≤ b.toNat) (h' : b.toNat < 0xF5) :
    of? b = some ⟨3, if b = 0xF0 then 0x90 else 0x80, if b = 0xF4 then 0x8F else 0xBF,
      b.toNat - 0xF0⟩ := by
  rw [of?_eq, if_neg (by omega), if_neg (by omega), if_neg (by omega), if_pos h']

theorem of?_eq_none (h : b.toNat < 0xC2) : of? b = none := by
  rw [of?_eq, if_pos h]

theorem of?_cases (h : of? b = some lead) :
    (0xC2 ≤ b.toNat ∧ b.toNat < 0xE0) ∨ (0xE0 ≤ b.toNat ∧ b.toNat < 0xF0) ∨
      0xF0 ≤ b.toNat ∧ b.toNat < 0xF5 := by
  rw [of?_eq] at h
  split_ifs at h <;> omega

theorem bounds (h : of? b = some lead) : 0x80 ≤ lead.low ∧ lead.high ≤ 0xBF := by
  rw [of?] at h
  split_ifs at h <;> cases h <;> exact ⟨by dsimp only; decide, by dsimp only; decide⟩

end Lead

section Written

variable {b : UInt8} {lead : Lead} {following : Bytes}

/-- A first byte and bytes that may follow it are a written character. -/
theorem encode_of_lead (h : Lead.of? b = some lead)
    (hf : Following lead.following lead.low lead.high following) :
    String.utf8EncodeChar (Char.ofNat (assemble lead.bits following)) = b :: following := by
  rcases Lead.of?_cases h with ⟨hlow, hhigh⟩ | ⟨hlow, hhigh⟩ | ⟨hlow, hhigh⟩
  · obtain rfl := Option.some.inj (h.symm.trans (Lead.of?_two hlow hhigh))
    obtain ⟨x, _, rfl, hx, hx', hf⟩ := hf.eq_cons
    obtain rfl := hf.eq_nil
    simp only [UInt8.le_iff_toNat_le, UInt8.reduceToNat] at hx hx'
    simp only [assemble, List.foldl]
    rw [utf8EncodeChar_ofNat (.inl (by omega)), encodeScalar_two_iff (by omega) (by omega)]
    omega
  · obtain rfl := Option.some.inj (h.symm.trans (Lead.of?_three hlow hhigh))
    obtain ⟨x, _, rfl, hx, hx', hf⟩ := hf.eq_cons
    obtain ⟨y, _, rfl, hy, hy', hf⟩ := hf.eq_cons
    obtain rfl := hf.eq_nil
    simp only [UInt8.le_iff_toNat_le, ← UInt8.toNat_inj, apply_ite UInt8.toNat,
      UInt8.reduceToNat] at hx hx' hy hy'
    simp only [assemble, List.foldl]
    generalize hn : 0x40 * (0x40 * (b.toNat - 0xE0) + (x.toNat - 0x80)) + (y.toNat - 0x80) = n
    -- the bounds of the second byte rule out overlong forms and surrogates
    have hrange : 0x800 ≤ n ∧ n < 0x10000 ∧ n.isValidChar ∧ 0x80 ≤ x.toNat ∧ x.toNat ≤ 0xBF := by
      unfold Nat.isValidChar
      split_ifs at hx hx' <;> omega
    rw [utf8EncodeChar_ofNat hrange.2.2.1, encodeScalar_three_iff hrange.1 hrange.2.1]
    omega
  · obtain rfl := Option.some.inj (h.symm.trans (Lead.of?_four hlow hhigh))
    obtain ⟨x, _, rfl, hx, hx', hf⟩ := hf.eq_cons
    obtain ⟨y, _, rfl, hy, hy', hf⟩ := hf.eq_cons
    obtain ⟨z, _, rfl, hz, hz', hf⟩ := hf.eq_cons
    obtain rfl := hf.eq_nil
    simp only [UInt8.le_iff_toNat_le, ← UInt8.toNat_inj, apply_ite UInt8.toNat,
      UInt8.reduceToNat] at hx hx' hy hy' hz hz'
    simp only [assemble, List.foldl]
    generalize hn : 0x40 * (0x40 * (0x40 * (b.toNat - 0xF0) + (x.toNat - 0x80)) +
      (y.toNat - 0x80)) + (z.toNat - 0x80) = n
    have hrange : 0x10000 ≤ n ∧ n < 0x110000 ∧ 0x80 ≤ x.toNat ∧ x.toNat ≤ 0xBF := by
      split_ifs at hx hx' <;> omega
    rw [utf8EncodeChar_ofNat (.inr ⟨by omega, hrange.2.1⟩),
      encodeScalar_four_iff hrange.1 hrange.2.1]
    omega

/-- A written character beyond ASCII has a first byte and bytes that may follow it. -/
theorem exists_lead (c : Char) (hc : 0x80 ≤ c.toNat) :
    ∃ b lead following, String.utf8EncodeChar c = b :: following ∧ Lead.of? b = some lead ∧
      Following lead.following lead.low lead.high following := by
  have hlt := toNat_lt c
  have hvalid : c.toNat.isValidChar := c.valid
  unfold Nat.isValidChar at hvalid
  rw [← encodeScalar_eq]
  generalize c.toNat = n at *
  rcases Nat.lt_or_ge n 0x800 with h₂ | h₂
  · obtain ⟨b, x, hbytes⟩ : ∃ b x, encodeScalar n = [b, x] := by
      rw [encodeScalar, if_neg (by omega), if_pos h₂]
      exact ⟨_, _, rfl⟩
    obtain ⟨hb, hx⟩ := (encodeScalar_two_iff hc h₂).mp hbytes
    refine ⟨b, _, [x], hbytes, Lead.of?_two (by omega) (by omega), .cons ?_ ?_ .nil⟩ <;>
      simp only [UInt8.le_iff_toNat_le, UInt8.reduceToNat] <;> omega
  rcases Nat.lt_or_ge n 0x10000 with h₃ | h₃
  · obtain ⟨b, x, y, hbytes⟩ : ∃ b x y, encodeScalar n = [b, x, y] := by
      rw [encodeScalar, if_neg (by omega), if_neg (by omega), if_pos h₃]
      exact ⟨_, _, _, rfl⟩
    obtain ⟨hb, hx, hy⟩ := (encodeScalar_three_iff h₂ h₃).mp hbytes
    refine ⟨b, _, [x, y], hbytes, Lead.of?_three (by omega) (by omega),
      .cons ?_ ?_ (.cons ?_ ?_ .nil)⟩ <;>
      simp only [UInt8.le_iff_toNat_le, ← UInt8.toNat_inj, apply_ite UInt8.toNat,
        UInt8.reduceToNat] <;> (try split_ifs) <;> omega
  · obtain ⟨b, x, y, z, hbytes⟩ : ∃ b x y z, encodeScalar n = [b, x, y, z] := by
      rw [encodeScalar, if_neg (by omega), if_neg (by omega), if_neg (by omega)]
      exact ⟨_, _, _, _, rfl⟩
    obtain ⟨hb, hx, hy, hz⟩ := (encodeScalar_four_iff h₃ hlt).mp hbytes
    refine ⟨b, _, [x, y, z], hbytes, Lead.of?_four (by omega) (by omega),
      .cons ?_ ?_ (.cons ?_ ?_ (.cons ?_ ?_ .nil))⟩ <;>
      simp only [UInt8.le_iff_toNat_le, ← UInt8.toNat_inj, apply_ite UInt8.toNat,
        UInt8.reduceToNat] <;> (try split_ifs) <;> omega

/-- Where a character is written, its first byte announces as many bytes as follow. -/
theorem lead_of_written {c : Char} {rest : Bytes} (h : String.utf8EncodeChar c <+: b :: rest)
    (hb : ¬ b < 0x80) :
    ∃ lead, Lead.of? b = some lead ∧
      (continuation lead.following lead.low lead.high rest).length = lead.following := by
  rcases Nat.lt_or_ge c.toNat 0x80 with hc | hc
  · rw [← encodeScalar_eq, encodeScalar, if_pos hc, List.cons_prefix_cons,
      ofNat_eq_iff (by omega)] at h
    exact absurd (UInt8.lt_iff_toNat_lt.mpr (h.1 ▸ hc)) hb
  · obtain ⟨b', lead, following, hbytes, hlead, hf⟩ := exists_lead c hc
    rw [hbytes, List.cons_prefix_cons] at h
    obtain ⟨rfl, tail, rfl⟩ := h
    exact ⟨lead, hlead, by rw [hf.continuation_eq, hf.length_eq]⟩

/-- No character is written where a continuation stands. -/
theorem not_written_of_continuation (h : 0x80 ≤ b ∧ b ≤ 0xBF) (c : Char) (rest : Bytes) :
    ¬ String.utf8EncodeChar c <+: b :: rest := by
  intro hc
  simp only [UInt8.le_iff_toNat_le, UInt8.reduceToNat] at h
  have hb : ¬ b < 0x80 := by
    simp only [UInt8.lt_iff_toNat_lt, UInt8.reduceToNat]
    omega
  obtain ⟨lead, hlead, -⟩ := lead_of_written hc hb
  rw [Lead.of?_eq_none (by omega)] at hlead
  cases hlead

end Written

/-! ## Segments -/

/-- A run of bytes, with `tail` behind it, where no character is written at any of the bytes. -/
inductive Unwritten (tail : Bytes) : Bytes → Prop where
  | nil : Unwritten tail []
  | cons {b : UInt8} {run : Bytes} (hb : 0x80 ≤ b)
      (hnot : ∀ c : Char, ¬ String.utf8EncodeChar c <+: b :: (run ++ tail))
      (h : Unwritten tail run) : Unwritten tail (b :: run)

theorem unwritten_of_continuations {tail run : Bytes} (h : ∀ x ∈ run, 0x80 ≤ x ∧ x ≤ 0xBF) :
    Unwritten tail run := by
  induction run with
  | nil => exact .nil
  | cons x run ih =>
    rw [List.forall_mem_cons] at h
    exact .cons h.1.1 (fun c => not_written_of_continuation h.1 c _) (ih h.2)

/-- Segment by segment: a written character where one starts, and else a run of bytes where none
is written. -/
theorem segments_induction {motive : Bytes → Prop} (nil : motive [])
    (scalar : ∀ c tail, segments (String.utf8EncodeChar c ++ tail) = .scalar c :: segments tail →
      motive tail → motive (String.utf8EncodeChar c ++ tail))
    (malformed : ∀ run tail, run ≠ [] → Unwritten tail run →
      segments (run ++ tail) = .malformed run :: segments tail →
      motive tail → motive (run ++ tail)) (bs : Bytes) : motive bs := by
  induction bs using segments.induct with
  | case1 => exact nil
  | case2 b rest hb ih =>
    have hbytes := utf8EncodeChar_ascii hb
    have hstep := scalar (Latin1.char b) rest
    rw [hbytes] at hstep
    refine hstep ?_ ih
    rw [List.singleton_append, segments, if_pos hb]
  | case3 b rest hb hlead ih =>
    have hnot : ∀ c : Char, ¬ String.utf8EncodeChar c <+: b :: rest := by
      intro c hc
      obtain ⟨lead, hsome, -⟩ := lead_of_written hc hb
      rw [hlead] at hsome
      cases hsome
    refine malformed [b] rest (by simp) (.cons (UInt8.not_lt.mp hb) hnot .nil) ?_ ih
    rw [List.singleton_append, segments, if_neg hb, hlead]
  | case4 b rest hb lead hlead following ih =>
    obtain ⟨tail, htail⟩ := continuation_isPrefix lead.following lead.low lead.high rest
    have hdrop : rest.drop following.length = tail := by
      rw [← htail]
      exact List.drop_left
    rw [hdrop] at ih
    have hsegments : segments (b :: rest) =
        (if following.length = lead.following then
          .scalar (Char.ofNat (assemble lead.bits following))
        else .malformed (b :: following)) :: segments tail := by
      rw [segments, if_neg hb, hlead, ← hdrop]
    by_cases hfull : following.length = lead.following
    · have hbytes := encode_of_lead hlead (following_of_length hfull)
      have hstep := scalar (Char.ofNat (assemble lead.bits following)) tail
      rw [hbytes, List.cons_append, htail] at hstep
      exact hstep (by rw [hsegments, if_pos hfull]) ih
    · have hnot : ∀ c : Char, ¬ String.utf8EncodeChar c <+: b :: (following ++ tail) := by
        intro c hc
        rw [htail] at hc
        obtain ⟨lead', hlead', hlength⟩ := lead_of_written hc hb
        obtain rfl := Option.some.inj (hlead.symm.trans hlead')
        exact hfull hlength
      have hrun : Unwritten tail following :=
        unwritten_of_continuations (bounds_of_mem_continuation (Lead.bounds hlead).1
          (Lead.bounds hlead).2)
      have hstep := malformed (b :: following) tail (by simp)
        (.cons (UInt8.not_lt.mp hb) hnot hrun)
      rw [List.cons_append, htail] at hstep
      exact hstep (by rw [hsegments, if_neg hfull]) ih

end Utf8
end MonkeyScan
