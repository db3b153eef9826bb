import MonkeyScan.Proofs.Utf8
import MonkeyScan.Source

/-!
# MonkeyScan.Proofs.Escaping

Any bytes can be handed on as a text and come back. `Escaped bs t` says that `t` is the text of
`bs`: written characters stand for themselves, and every other byte for the escape with its number.

* `Utf8.escaped_iff`: each byte sequence has one such text, and `Utf8.decodeEscaped` finds it.
* `Utf8.encode_eq_ok_iff`: which texts have bytes, and which bytes these are.
* `Source.text_agrees_with_bytes`: so a source may be given either way.
-/

namespace MonkeyScan

namespace CodePoint

/-- A surrogate that stands for no byte. -/
def isLone (c : CodePoint) : Bool :=
  c.isSurrogate && !c.isEscape

/-- The bytes of a code point that is no lone surrogate: those of its character, or the one byte
that it stands for. -/
def bytes (c : CodePoint) : Bytes :=
  match c.char? with
  | some ch => String.utf8EncodeChar ch
  | none => [UInt8.ofNat (c.number - 0xDC00)]

theorem isSurrogate_iff {c : CodePoint} :
    c.isSurrogate ↔ 0xD800 ≤ c.number ∧ c.number ≤ 0xDFFF := by
  rw [isSurrogate, Bool.and_eq_true, decide_eq_true_eq, decide_eq_true_eq]

theorem isEscape_iff {c : CodePoint} : c.isEscape ↔ 0xDC80 ≤ c.number ∧ c.number ≤ 0xDCFF := by
  rw [isEscape, Bool.and_eq_true, decide_eq_true_eq, decide_eq_true_eq]

theorem isSurrogate_of_isEscape {c : CodePoint} (h : c.isEscape) : c.isSurrogate := by
  rw [isEscape_iff] at h
  rw [isSurrogate_iff]
  omega

theorem isEscape_ofByte {b : UInt8} (h : 0x80 ≤ b) : (ofByte b).isEscape := by
  have hlt := b.toNat_lt
  simp only [UInt8.le_iff_toNat_le, UInt8.reduceToNat] at h
  rw [isEscape_iff]
  show 0xDC80 ≤ 0xDC00 + b.toNat ∧ 0xDC00 + b.toNat ≤ 0xDCFF
  omega

theorem char?_ofChar (c : Char) : (ofChar c).char? = some c := by
  rw [char?, dif_pos (show (ofChar c).number.isValidChar from c.valid)]
  rfl

theorem char?_eq_none {c : CodePoint} (h : c.isSurrogate) : c.char? = none := by
  rw [isSurrogate_iff] at h
  rw [char?, dif_neg]
  unfold Nat.isValidChar
  omega

theorem exists_ofChar {c : CodePoint} (h : ¬ c.isSurrogate) : ∃ ch, c = ofChar ch := by
  have hlt := c.number_lt
  rw [isSurrogate_iff] at h
  have hvalid : c.number.isValidChar := by
    unfold Nat.isValidChar
    omega
  exact ⟨Char.ofNatAux c.number hvalid, rfl⟩

theorem not_isSurrogate_ofChar (c : Char) : ¬ (ofChar c).isSurrogate := by
  intro h
  have hnone := char?_eq_none h
  rw [char?_ofChar] at hnone
  cases hnone

theorem bytes_ofChar (c : Char) : (ofChar c).bytes = String.utf8EncodeChar c := by
  rw [bytes, char?_ofChar]

theorem bytes_ofByte {b : UInt8} (h : 0x80 ≤ b) : (ofByte b).bytes = [b] := by
  rw [bytes, char?_eq_none (isSurrogate_of_isEscape (isEscape_ofByte h))]
  simp [ofByte]

end CodePoint

namespace Utf8

/-! ## Texts that have bytes -/

theorem encodePoint?_eq (c : CodePoint) :
    encodePoint? c = if c.isLone then none else some c.bytes := by
  by_cases hs : c.isSurrogate
  · rw [CodePoint.bytes, CodePoint.char?_eq_none hs]
    simp only [encodePoint?, CodePoint.isLone, hs]
    cases c.isEscape <;> rfl
  · obtain ⟨ch, rfl⟩ := CodePoint.exists_ofChar hs
    have he : ¬ (CodePoint.ofChar ch).isEscape := fun h => hs (CodePoint.isSurrogate_of_isEscape h)
    rw [CodePoint.bytes_ofChar, ← encodeScalar_eq]
    simp only [encodePoint?, CodePoint.isLone, hs, he]
    rfl

theorem encodeFrom_cons_eq_ok_iff {i : Nat} {c : CodePoint} {t : Text} {bs : Bytes} :
    encodeFrom i (c :: t) = .ok bs ↔
      ¬ c.isLone ∧ ∃ more, encodeFrom (i + 1) t = .ok more ∧ bs = c.bytes ++ more := by
  rw [encodeFrom, encodePoint?_eq]
  by_cases hc : c.isLone
  · rw [if_pos hc]
    simp [hc]
  · rw [if_neg hc]
    cases encodeFrom (i + 1) t <;> simp [hc, eq_comm]

theorem encodeFrom_eq_ok_iff {i : Nat} {t : Text} {bs : Bytes} :
    encodeFrom i t = .ok bs ↔ (∀ c ∈ t, ¬ c.isLone) ∧ bs = t.flatMap CodePoint.bytes := by
  induction t generalizing i bs with
  | nil =>
    rw [encodeFrom, Except.ok.injEq, eq_comm]
    exact (and_iff_right (by simp)).symm
  | cons c t ih =>
    rw [encodeFrom_cons_eq_ok_iff, List.forall_mem_cons, List.flatMap_cons]
    constructor
    · rintro ⟨hc, more, hmore, rfl⟩
      obtain ⟨ht, rfl⟩ := ih.mp hmore
      exact ⟨⟨hc, ht⟩, rfl⟩
    · rintro ⟨⟨hc, ht⟩, rfl⟩
      exact ⟨hc, _, ih.mpr ⟨ht, rfl⟩, rfl⟩

theorem encode_eq_ok_iff {t : Text} {bs : Bytes} :
    encode t = .ok bs ↔ (∀ c ∈ t, ¬ c.isLone) ∧ bs = t.flatMap CodePoint.bytes :=
  encodeFrom_eq_ok_iff

theorem exists_encode_eq_error_iff {t : Text} :
    (∃ e, encode t = .error e) ↔ ∃ c ∈ t, c.isLone := by
  constructor
  · rintro ⟨e, he⟩
    refine Classical.byContradiction fun hnone => ?_
    have hall : ∀ c ∈ t, ¬ c.isLone := fun c hc hlone => hnone ⟨c, hc, hlone⟩
    rw [encode_eq_ok_iff.mpr ⟨hall, rfl⟩] at he
    cases he
  · rintro ⟨c, hc, hlone⟩
    cases ht : encode t with
    | error e => exact ⟨e, rfl⟩
    | ok bs => exact absurd hlone ((encode_eq_ok_iff.mp ht).1 c hc)

/-! ## Bytes as a text -/

/-- A text for some bytes: it has the character that is written there, where one is, and otherwise
the escape for the byte. -/
inductive Escaped : Bytes → Text → Prop where
  | nil : Escaped [] []
  | scalar (c : Char) {bs : Bytes} {t : Text} (h : Escaped bs t) :
      Escaped (String.utf8EncodeChar c ++ bs) (CodePoint.ofChar c :: t)
  | escape {b : UInt8} {bs : Bytes} {t : Text} (hb : 0x80 ≤ b)
      (hnot : ∀ c : Char, ¬ String.utf8EncodeChar c <+: b :: bs) (h : Escaped bs t) :
      Escaped (b :: bs) (CodePoint.ofByte b :: t)

namespace Escaped

/-- No written character is the start of another one. -/
theorem written_unique {c c' : Char} {bs bs' : Bytes}
    (h : String.utf8EncodeChar c ++ bs = String.utf8EncodeChar c' ++ bs') : c = c' ∧ bs = bs' := by
  have hread : ∀ (c : Char) (bs : Bytes),
      (String.utf8EncodeChar c ++ bs).toByteArray.utf8DecodeChar? 0 = some c := by
    intro c bs
    rw [List.toByteArray_append, ← List.utf8Encode_singleton,
      List.utf8DecodeChar?_utf8Encode_singleton_append]
  have hc : c = c' := by
    have hfirst := hread c bs
    rw [h, hread c' bs'] at hfirst
    exact (Option.some.inj hfirst).symm
  rw [hc] at h
  exact ⟨hc, List.append_cancel_left h⟩

theorem unique {bs : Bytes} {t t' : Text} (h : Escaped bs t) (h' : Escaped bs t') : t = t' := by
  induction h generalizing t' with
  | nil =>
    generalize hbs : [] = bs at h'
    cases h' with
    | nil => rfl
    | scalar c => exact absurd (List.append_eq_nil_iff.mp hbs.symm).1 String.utf8EncodeChar_ne_nil
    | escape => cases hbs
  | @scalar c bs t _ ih =>
    generalize hbs : String.utf8EncodeChar c ++ bs = all at h'
    cases h' with
    | nil => exact absurd (List.append_eq_nil_iff.mp hbs).1 String.utf8EncodeChar_ne_nil
    | scalar c' h' =>
      obtain ⟨rfl, rfl⟩ := written_unique hbs
      rw [ih h']
    | escape _ hnot => exact absurd ⟨bs, hbs⟩ (hnot c)
  | @escape b bs t _ hnot _ ih =>
    generalize hbs : b :: bs = all at h'
    cases h' with
    | nil => cases hbs
    | @scalar c' bs' => exact absurd ⟨bs', hbs.symm⟩ (hnot c')
    | escape _ _ h' =>
      obtain ⟨rfl, rfl⟩ := List.cons.inj hbs
      rw [ih h']

/-- The bytes come back. -/
theorem bytes_eq {bs : Bytes} {t : Text} (h : Escaped bs t) :
    (∀ c ∈ t, ¬ c.isLone) ∧ t.flatMap CodePoint.bytes = bs := by
  induction h with
  | nil => exact ⟨by simp, rfl⟩
  | scalar c _ ih =>
    rw [List.forall_mem_cons, List.flatMap_cons, ih.2, CodePoint.bytes_ofChar]
    exact ⟨⟨by simp [CodePoint.isLone, CodePoint.not_isSurrogate_ofChar], ih.1⟩, rfl⟩
  | escape hb _ _ ih =>
    rw [List.forall_mem_cons, List.flatMap_cons, ih.2, CodePoint.bytes_ofByte hb]
    exact ⟨⟨by simp [CodePoint.isLone, CodePoint.isEscape_ofByte hb], ih.1⟩, rfl⟩

theorem run {tail run : Bytes} {t : Text} (hrun : Unwritten tail run) (h : Escaped tail t) :
    Escaped (run ++ tail) (run.map CodePoint.ofByte ++ t) := by
  induction hrun with
  | nil => exact h
  | cons hb hnot _ ih => exact .escape hb hnot ih

end Escaped

theorem escaped_decodeEscaped (bs : Bytes) : Escaped bs (decodeEscaped bs) := by
  induction bs using segments_induction with
  | nil =>
    rw [decodeEscaped, segments]
    exact .nil
  | scalar c tail hsegments ih =>
    rw [decodeEscaped, hsegments, List.flatMap_cons]
    exact .scalar c ih
  | malformed run tail _ hrun hsegments ih =>
    rw [decodeEscaped, hsegments, List.flatMap_cons]
    exact .run hrun ih

/-- Bytes have one text, in which nothing is lost. -/
theorem escaped_iff {bs : Bytes} {t : Text} : Escaped bs t ↔ t = decodeEscaped bs :=
  ⟨fun h => h.unique (escaped_decodeEscaped bs), fun h => h ▸ escaped_decodeEscaped bs⟩

theorem encode_decodeEscaped (bs : Bytes) : encode (decodeEscaped bs) = .ok bs := by
  obtain ⟨hlone, hbytes⟩ := (escaped_decodeEscaped bs).bytes_eq
  exact encode_eq_ok_iff.mpr ⟨hlone, hbytes.symm⟩

end Utf8

namespace Source

theorem lexer_text_eq_ok_iff {t : Text} {file : Text} {options : Options} {lx : Lexer} :
    (text t).lexer file options = .ok lx ↔
      ∃ bs, Utf8.encode t = .ok bs ∧ lx = Lexer.start bs file options := by
  rw [lexer, toBytes]
  cases Utf8.encode t <;> simp [eq_comm]

theorem lexer_text_eq_error_iff {t : Text} {file : Text} {options : Options}
    {e : Utf8.Unencodable} : (text t).lexer file options = .error e ↔ Utf8.encode t = .error e := by
  rw [lexer, toBytes]
  cases Utf8.encode t <;> simp

/-- A text with an escape for each byte that is not UTF-8 is scanned as the bytes it was made from.
Any other text is scanned as its bytes, unless it holds a surrogate that stands for none. -/
theorem text_agrees_with_bytes :
    (∀ bs t, Utf8.Escaped bs t ↔ t = Utf8.decodeEscaped bs) ∧
    (∀ bs file options,
      (text (Utf8.decodeEscaped bs)).lexer file options = .ok (Lexer.start bs file options) ∧
      (bytes bs).lexer file options = .ok (Lexer.start bs file options) ∧
      (text (Utf8.decodeEscaped bs)).tokenize file options = (bytes bs).tokenize file options) ∧
    ∀ t file options,
      ((∃ e, (text t).lexer file options = .error e) ↔ ∃ c ∈ t, c.isLone) ∧
      ∀ lx, (text t).lexer file options = .ok lx ↔
        (∀ c ∈ t, ¬ c.isLone) ∧ lx = Lexer.start (t.flatMap CodePoint.bytes) file options := by
  refine ⟨fun bs t => Utf8.escaped_iff, fun bs file options => ?_, fun t file options => ⟨?_, ?_⟩⟩
  · have htext : (text (Utf8.decodeEscaped bs)).lexer file options =
        .ok (Lexer.start bs file options) :=
      lexer_text_eq_ok_iff.mpr ⟨bs, Utf8.encode_decodeEscaped bs, rfl⟩
    refine ⟨htext, rfl, ?_⟩
    rw [tokenize, htext]
    rfl
  · rw [← Utf8.exists_encode_eq_error_iff]
    exact exists_congr fun e => lexer_text_eq_error_iff
  · intro lx
    rw [lexer_text_eq_ok_iff]
    constructor
    · rintro ⟨bs, hbs, rfl⟩
      obtain ⟨hlone, rfl⟩ := Utf8.encode_eq_ok_iff.mp hbs
      exact ⟨hlone, rfl⟩
    · rintro ⟨hlone, rfl⟩
      exact ⟨_, Utf8.encode_eq_ok_iff.mpr ⟨hlone, rfl⟩, rfl⟩

end Source

end MonkeyScan
