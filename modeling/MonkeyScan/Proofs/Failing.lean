import MonkeyScan.Proofs.Escaping
import MonkeyScan.Proofs.Listing

/-!
# MonkeyScan.Proofs.Failing

What can go wrong when a whole source is scanned.

* `Utf8.encode_eq_error_iff`: a text has no bytes because of its first lone surrogate.
* `Lexer.scanned_of_firstDiagnostic`: the scanner complains about integers out of range and, when
  it is strict, about bytes that start no lexeme, and about nothing else.
* `Source.tokenize_failures`: so scanning fails with a diagnostic or for want of bytes. It does not
  fail for want of a reading: readers of ASCII text and of short numerals are enough for it.
  `Source.tokenize_lone_surrogate` is a source without bytes.
-/

namespace MonkeyScan

open Grammar

namespace Utf8

/-- What stands behind the first lone surrogate is not looked at, but for the run of surrogates that
starts there. -/
theorem encodeFrom_lone {before after : Text} {c : CodePoint} (i : Nat)
    (h : ∀ c ∈ before, ¬ c.isLone) (hc : c.isLone) :
    encodeFrom i (before ++ c :: after) = .error ⟨i + before.length,
      i + before.length + (after.takeWhile CodePoint.isSurrogate).length, c⟩ := by
  induction before generalizing i with
  | nil =>
    rw [List.nil_append, encodeFrom, encodePoint?_eq, if_pos hc]
    rfl
  | cons b before ih =>
    rw [List.forall_mem_cons] at h
    rw [List.cons_append, encodeFrom, encodePoint?_eq, if_neg h.1, ih (i + 1) h.2,
      List.length_cons, Nat.add_right_comm i 1, Nat.add_assoc i]

/-- A text has no bytes because of its first lone surrogate. -/
theorem encode_eq_error_iff {t : Text} {e : Unencodable} :
    encode t = .error e ↔ ∃ before c after, t = before ++ c :: after ∧
      (∀ c ∈ before, ¬ c.isLone) ∧ c.isLone ∧
      e = ⟨before.length, before.length + (after.takeWhile CodePoint.isSurrogate).length, c⟩ := by
  constructor
  · intro he
    obtain ⟨c, hc⟩ : ∃ c, t.find? CodePoint.isLone = some c := by
      rw [← Option.isSome_iff_exists, List.find?_isSome]
      exact exists_encode_eq_error_iff.mp ⟨e, he⟩
    obtain ⟨hlone, before, after, rfl, hbefore⟩ := List.find?_eq_some_iff_append.mp hc
    have hbefore' : ∀ c ∈ before, ¬ c.isLone := by simpa using hbefore
    refine ⟨before, c, after, rfl, hbefore', hlone, ?_⟩
    rw [encode, encodeFrom_lone 0 hbefore' hlone, Nat.zero_add] at he
    exact (Except.error.inj he).symm
  · rintro ⟨before, c, after, rfl, hbefore, hlone, rfl⟩
    rw [encode, encodeFrom_lone 0 hbefore hlone, Nat.zero_add]

end Utf8

/-! ## Complaints of the scanner -/

/-- A cause that the scanner reports. -/
inductive Cause.Scanned (strict : Bool) : Cause → Prop where
  | overflow {digits : Bytes} (h : ∀ b ∈ digits, Digit b) (hlimit : 2 ^ 63 ≤ Numeral.value digits) :
      Scanned strict (.integerOverflow (Latin1.decode digits) (.number (2 ^ 63 - 1)))
  | stray {b : UInt8} (hstrict : strict = true) (h : ¬ Starts b) :
      Scanned strict (.invalidCharacter b.toNat)

namespace Grammar

variable {digits strict : Bool} {b : UInt8} {rest : Bytes} {l : Lexeme} {cause : Cause}

theorem scanned_of_meaning (h : Lexeme.longest? digits (b :: rest) = some l)
    (hm : meaning strict l.bytes = .error cause) : cause.Scanned strict := by
  cases l with
  | symbol k =>
    rw [meaning_symbol (kind_of_symbol h)] at hm
    cases hm
  | word c more =>
    rw [Lexeme.bytes, meaning_word (letter_of_word h)] at hm
    cases hm
  | number c more =>
    have hdigits := digits_of_number h
    rw [Lexeme.bytes, meaning_number (hdigits c List.mem_cons_self)] at hm
    split at hm
    · cases hm
    · rename_i hlimit
      cases hm
      exact .overflow hdigits (Nat.lt_of_not_le hlimit)
  | stray c =>
    have hstarts := (not_starts_of_stray h).2
    rw [Lexeme.bytes, meaning_stray hstarts] at hm
    split at hm
    · cases hm
      exact .stray ‹_› hstarts
    · cases hm

end Grammar

namespace Lexer

theorem drain_stoppedBy (lx : Lexer) :
    lx.drain.result.2 = firstDiagnostic (lx.items.result.map Item.outcome) := by
  induction lx using scan_induction with
  | done lx h =>
    rw [drain_eq_end h, items_eq_end h]
    rfl
  | step lx l b more h ih =>
    rw [h.items_eq, List.map_cons]
    cases hr : lx.next.result with
    | error d =>
      rw [drain_eq_error hr]
      rfl
    | ok t =>
      rw [drain_eq_token hr (h.not_isEnd_of_ok hr)]
      exact ih

/-- The scanner has two causes to complain, and one of them only when it is strict. -/
theorem scanned_of_firstDiagnostic {lx : Lexer} {d : Diagnostic}
    (hd : firstDiagnostic (lx.items.result.map Item.outcome) = some d) :
    d.cause.Scanned lx.options.strict := by
  induction lx using scan_induction with
  | done lx h =>
    rw [items_eq_end h] at hd
    cases hd
  | step lx l b more h ih =>
    have hcontent := h.content
    have hnext := h.next_eq
    rw [h.items_eq, List.map_cons] at hd
    cases hr : lx.next.result with
    | error d' =>
      rw [hr] at hd
      cases hd
      rw [hnext] at hr
      rw [show (lx.skipBlanks.read l).1 = .error d from hr] at hcontent
      exact scanned_of_meaning h.longest hcontent.symm
    | ok t =>
      rw [hr] at hd
      rw [hnext] at ih hd
      exact ih hd

end Lexer

namespace Source

section Tokenize

variable {s : Source}

theorem tokenize_of_error {e : Utf8.Unencodable} (h : s.toBytes = .error e) (file : Text)
    (options : Options) : s.tokenize file options = (.error (.unencodable e), []) := by
  simp only [tokenize, lexer, h]

/-- Once there are bytes, only a diagnostic of their scan stands in the way of the tokens. -/
theorem tokenize_of_bytes {bs : Bytes} (h : s.toBytes = .ok bs) (file : Text) (options : Options) :
    (firstDiagnostic (Lexer.scan bs file options) = none ∧
      ∃ ts, (s.tokenize file options).1 = .ok ts) ∨
    ∃ d, firstDiagnostic (Lexer.scan bs file options) = some d ∧
      (s.tokenize file options).1 = .error (.lexical d) := by
  have hstopped := (Lexer.start bs file options).drain_stoppedBy
  rw [Lexer.scan, ← hstopped]
  simp only [tokenize, lexer, h]
  obtain ⟨⟨ts, stoppedBy⟩, events, lx⟩ := (Lexer.start bs file options).drain
  cases stoppedBy with
  | none => exact .inl ⟨rfl, ts, rfl⟩
  | some d => exact .inr ⟨d, rfl, rfl⟩

theorem toBytes_eq_error_iff {e : Utf8.Unencodable} :
    s.toBytes = .error e ↔ ∃ before c after, s = .text (before ++ c :: after) ∧
      (∀ c ∈ before, ¬ c.isLone) ∧ c.isLone ∧
      e = ⟨before.length, before.length + (after.takeWhile CodePoint.isSurrogate).length, c⟩ := by
  cases s with
  | bytes bs => simp [toBytes]
  | text t => simp only [toBytes, Utf8.encode_eq_error_iff, text.injEq]

end Tokenize

/-- Scanning a source gives its tokens, or a complaint of the scanner, or it fails for want of
bytes. The last happens to texts with a lone surrogate and to no other source, before anything is
scanned or recorded. Readers that refuse what is not ASCII, or numerals of more than 19 digits,
never get to refuse anything. -/
theorem tokenize_failures (s : Source) (file : Text) (options : Options) :
    ((∃ ts, (s.tokenize file options).1 = .ok ts) ∨
      (∃ d, (s.tokenize file options).1 = .error (.lexical d) ∧ d.cause.Scanned options.strict) ∨
      ∃ e, s.tokenize file options = (.error (.unencodable e), [])) ∧
    (∀ e, (s.tokenize file options).1 = .error (.unencodable e) ↔
      ∃ before c after, s = .text (before ++ c :: after) ∧
        (∀ c ∈ before, ¬ c.isLone) ∧ c.isLone ∧
        e = ⟨before.length, before.length + (after.takeWhile CodePoint.isSurrogate).length, c⟩) ∧
    ∀ readers : Readers, readers.Exact → ∀ lx : Lexer, lx.nextBy readers = some lx.next := by
  rw [← and_assoc]
  refine ⟨?_, fun readers hreaders lx => lx.nextBy_eq hreaders⟩
  cases h : s.toBytes with
  | error e =>
    rw [tokenize_of_error h]
    refine ⟨.inr (.inr ⟨e, rfl⟩), fun e' => ?_⟩
    rw [← toBytes_eq_error_iff, h, Except.error.injEq, Failure.unencodable.injEq,
      Except.error.injEq]
  | ok bs =>
    have hbytes : ∀ e, ¬ s.toBytes = .error e := by simp [h]
    rcases tokenize_of_bytes h file options with ⟨-, ts, hts⟩ | ⟨d, hd, hfails⟩
    · refine ⟨.inl ⟨ts, hts⟩, fun e => ?_⟩
      rw [← toBytes_eq_error_iff, hts]
      simp [hbytes]
    · have hcause : d.cause.Scanned options.strict := Lexer.scanned_of_firstDiagnostic hd
      refine ⟨.inr (.inl ⟨d, hfails, hcause⟩), fun e => ?_⟩
      rw [← toBytes_eq_error_iff, hfails]
      simp [hbytes]

/-- Not every failure is a complaint of the scanner. -/
theorem tokenize_lone_surrogate :
    ¬ ∀ (s : Source) (file : Text) (options : Options),
      (∃ ts, (s.tokenize file options).1 = .ok ts) ∨
        ∃ d, (s.tokenize file options).1 = .error (.lexical d) := by
  intro h
  have hfails : (Source.tokenize (.text [⟨0xD800, by omega⟩]) defaultName ⟨false, false⟩).1 =
      .error (.unencodable ⟨0, 0, ⟨0xD800, by omega⟩⟩) := rfl
  rcases h (.text [⟨0xD800, by omega⟩]) defaultName ⟨false, false⟩ with ⟨ts, hts⟩ | ⟨d, hd⟩
  · rw [hfails] at hts
    cases hts
  · rw [hfails] at hd
    cases hd

end Source
end MonkeyScan
