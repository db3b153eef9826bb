import MonkeyScan.Proofs.Munch
import MonkeyScan.Proofs.Printing

/-!
# MonkeyScan.Proofs.Spelling

What the literals of tokens tell of their source. A token holds the number of an integer literal and
not its digits, so the literal of an integer comes without the zeros that may stand in front of it
(`Grammar.withoutZeros`). Every other literal is spelled as in the source.

* `Grammar.spelled_of_meaning`: the literal of a token, from the lexeme that means it.
* `Lexer.retells`: the blanks that a scan skips and the literals of its tokens, one after the other.
  They are the source itself exactly if no integer has a needless zero (`Grammar.Padded`).
* `Session.literals_without_zeros`: both, for every lexer of a session at any time.
-/

namespace MonkeyScan

open Grammar

namespace Grammar

/-! ## Needless zeros -/

/-- A run of digits without the zeros in front of it, the last digit of all kept. -/
def withoutZeros : Bytes → Bytes
  | b :: c :: more => if b = zero then withoutZeros (c :: more) else b :: c :: more
  | bs => bs

/-- A zero is in front of further digits. -/
def Padded (digits : Bytes) : Prop :=
  digits.head? = some zero ∧ 1 < digits.length

instance : DecidablePred Padded := fun digits => by unfold Padded; infer_instance

variable {bs : Bytes}

theorem withoutZeros_of_padded {c : UInt8} {more : Bytes} :
    withoutZeros (zero :: c :: more) = withoutZeros (c :: more) :=
  if_pos rfl

theorem withoutZeros_of_not_padded (h : ¬ Padded bs) : withoutZeros bs = bs := by
  match bs with
  | [] => rfl
  | [b] => rfl
  | b :: c :: more =>
    refine if_neg fun hb => h ?_
    simp [Padded, hb]

theorem length_withoutZeros_le (bs : Bytes) : (withoutZeros bs).length ≤ bs.length := by
  fun_induction withoutZeros bs with
  | case1 c more ih => exact Nat.le_succ_of_le ih
  | case2 b c more hb => exact Nat.le_refl _
  | case3 bs => exact Nat.le_refl _

theorem withoutZeros_eq_self_iff : withoutZeros bs = bs ↔ ¬ Padded bs := by
  refine ⟨fun h hpadded => ?_, withoutZeros_of_not_padded⟩
  match bs with
  | [] => simp [Padded] at hpadded
  | [b] => simp [Padded] at hpadded
  | b :: c :: more =>
    obtain rfl : b = zero := by simpa [Padded] using hpadded.1
    have hle := length_withoutZeros_le (c :: more)
    rw [withoutZeros_of_padded] at h
    rw [h] at hle
    simp at hle

/-- A number is written as the digits it was read from, without the needless zeros. -/
theorem encode_decimal_of_digits (hdigits : ∀ b ∈ bs, Digit b) (hne : bs ≠ []) :
    Latin1.encode (Numeral.decimal (Numeral.value bs)) = withoutZeros bs := by
  fun_induction withoutZeros bs with
  | case1 c more ih =>
    have hvalue : Numeral.value (zero :: c :: more) = Numeral.value (c :: more) := by
      rw [← List.singleton_append, value_append, value_singleton, zero_eq]
      simp
    rw [hvalue]
    exact ih (List.forall_mem_cons.mp hdigits).2 (by simp)
  | case2 b c more hb => exact encode_decimal_value hdigits hne (by simp [hb])
  | case3 bs hshort =>
    refine encode_decimal_value hdigits hne fun hzero => ?_
    obtain ⟨more, rfl⟩ := List.head?_eq_some_iff.mp hzero
    cases more with
    | nil => rfl
    | cons c more => exact absurd rfl (hshort zero c more)

/-! ## Literals -/

/-- What is a token to a strict scan is the same token to a permissive one. -/
theorem meaning_of_strict {strict : Bool} {key : Kind × Payload} (h : meaning strict bs = .ok key) :
    meaning false bs = .ok key := by
  cases strict with
  | false => exact h
  | true =>
    cases bs with
    | nil => exact h
    | cons b more =>
      -- only a stray byte makes a difference, and it is no token to a strict scan
      revert h
      simp only [meaning]
      repeat' split
      all_goals simp_all

theorem spelled_of_meaning {digits : Bool} {t : Token} (hl : IsLexeme digits bs)
    (hm : meaning false bs = .ok t.key) :
    t.spelled = if t.kind = .integer then withoutZeros bs else bs := by
  obtain ⟨hvalid, zeros, hbytes, hzeros⟩ := valid_of_meaning hl hm
  split
  · rename_i hkind
    cases hvalid with
    | identifier => cases hkind
    | illegal => cases hkind
    | fixed h => exact absurd hkind h.2.1
    | @integer n place hle =>
      have hspelled := Token.spelled_of_literal (@Token.literal_of_number n place hle)
      rw [hspelled] at hbytes ⊢
      have hne : bs ≠ [] := hl.ne_nil
      rw [← encode_decimal_of_digits (hbytes ▸ digits_padded zeros n) hne, hbytes, value_padded]
  · rename_i hkind
    obtain rfl : zeros = 0 := by_contra fun hz => hkind (hzeros hz)
    exact hbytes.symm

/-- Two pieces that are no longer than two others are these if they are so together. -/
theorem append_eq_append_iff_of_length_le {xs ys xs' ys' : Bytes} (h : xs.length ≤ ys.length)
    (h' : xs'.length ≤ ys'.length) : xs ++ xs' = ys ++ ys' ↔ xs = ys ∧ xs' = ys' := by
  constructor
  · intro heq
    have hlength := congrArg List.length heq
    rw [List.length_append, List.length_append] at hlength
    exact List.append_inj heq (by omega)
  · rintro ⟨rfl, rfl⟩
    rfl

end Grammar

/-- The literal of a token is a text, and it is spelled as these bytes are but for needless zeros. -/
structure Token.Spells (t : Token) (bs : Bytes) : Prop where
  literal : ∃ s : String, t.literal = .ok (.text s) ∧ t.spelled = Latin1.encode s ∧
    Latin1.decode t.spelled = s
  spelled : t.spelled = if t.kind = .integer then withoutZeros bs else bs
  at_end : t.isEnd → t.literal = .ok (.text "")

namespace Token.Spells

variable {t : Token} {bs : Bytes}

theorem spelled_eq_iff (h : t.Spells bs) : t.spelled = bs ↔ ¬ (t.kind = .integer ∧ Padded bs) := by
  rw [h.spelled]
  split
  · rename_i hkind
    rw [withoutZeros_eq_self_iff, and_iff_right hkind]
  · rename_i hkind
    exact iff_of_true rfl fun hpadded => hkind hpadded.1

theorem length_le (h : t.Spells bs) : t.spelled.length ≤ bs.length := by
  rw [h.spelled]
  split
  · exact length_withoutZeros_le bs
  · exact Nat.le_refl _

end Token.Spells

namespace Lexer

/-- The bytes that a call of `next` takes, the blanks before them left out. -/
def taken (lx : Lexer) : Bytes :=
  (lx.source.drop lx.skipBlanks.cursor.position).take
    (lx.next.lexer.cursor.position - lx.skipBlanks.cursor.position)

section Taken

variable {lx : Lexer} {l : Lexeme} {b : UInt8} {more : Bytes} {t : Token}

theorem taken_at_end (h : lx.cursor.rest.dropWhile Byte.isBlank = []) : lx.taken = [] := by
  rw [taken, next_eq_end h, Nat.sub_self, List.take_zero]

theorem Ahead.take_eq (h : lx.Ahead l b more) : (b :: more).take l.bytes.length = l.bytes :=
  (List.prefix_iff_eq_take.mp h.isPrefix).symm

theorem Ahead.taken_eq (h : lx.Ahead l b more) (ht : lx.cursor.Tracks lx.source) :
    lx.taken = l.bytes := by
  rw [taken, h.position_next ht, position_skipBlanks ht, Nat.add_sub_cancel_left,
    h.drop_source ht, h.take_eq]

theorem spells_taken (ht : lx.cursor.Tracks lx.source) (hr : lx.next.result = .ok t) :
    t.Spells lx.taken := by
  rcases next_cases lx with ⟨hnil, hnext⟩ | ⟨l, b, more, h, -⟩
  · rw [taken_at_end hnil]
    rw [hnext] at hr
    cases hr
    exact ⟨⟨"", rfl, rfl, rfl⟩, rfl, fun _ => rfl⟩
  · have hlexeme : IsLexeme lx.options.digits l.bytes := by
      rw [← h.take_eq]
      exact h.isLongest.lexeme
    have hcontent : lx.next.result.content = meaning lx.options.strict l.bytes := by
      rw [h.next_eq]
      exact h.content
    rw [hr] at hcontent
    have hmeaning := meaning_of_strict hcontent.symm
    rw [h.taken_eq ht]
    exact ⟨literal_of_valid (valid_of_meaning hlexeme hmeaning).1,
      spelled_of_meaning hlexeme hmeaning, fun hend => absurd hend (h.not_isEnd_of_ok hr)⟩

end Taken

/-! ## Whole scans -/

/-- What a scan leaves out before each of its items, from position `i` on. -/
def skipped (source : Bytes) : Nat → List Item → List Bytes
  | _, [] => []
  | i, item :: more => (source.drop i).take (item.start - i) :: skipped source item.stop more

/-- The literals of some tokens, each behind what was skipped before it. -/
def retold (gaps : List Bytes) (ts : List Token) : Bytes :=
  (List.zipWith (fun gap t => gap ++ t.spelled) gaps ts).flatten

theorem retold_cons (gap : Bytes) (gaps : List Bytes) (t : Token) (ts : List Token) :
    retold (gap :: gaps) (t :: ts) = gap ++ (t.spelled ++ retold gaps ts) := by
  rw [retold, List.zipWith_cons_cons, List.flatten_cons, List.append_assoc]
  rfl

/-- The tokens of a scan tell what lies ahead of it, but for needless zeros. -/
structure Retells (lx : Lexer) (ts : List Token) : Prop where
  blank : ∀ gap ∈ skipped lx.source lx.cursor.position lx.items.result, ∀ b ∈ gap, Blank b
  spells : List.Forall₂ (fun t item => t.Spells (item.slice.bytes lx.source)) ts lx.items.result
  exact : retold (skipped lx.source lx.cursor.position lx.items.result) ts =
      lx.source.drop lx.cursor.position ↔
    ∀ item ∈ lx.items.result, ∀ t, item.outcome = .ok t → t.kind = .integer →
      ¬ Padded (item.slice.bytes lx.source)
  length_le : (retold (skipped lx.source lx.cursor.position lx.items.result) ts).length ≤
    (lx.source.drop lx.cursor.position).length

theorem take_gap {lx : Lexer} (ht : lx.cursor.Tracks lx.source) :
    (lx.source.drop lx.cursor.position).take (lx.skipBlanks.cursor.position - lx.cursor.position) =
      lx.cursor.rest.takeWhile Byte.isBlank := by
  rw [position_skipBlanks ht, Nat.add_sub_cancel_left, ← ht.rest]
  exact (List.prefix_iff_eq_take.mp (List.takeWhile_prefix _)).symm

theorem retells_at_end {lx : Lexer} (ht : lx.cursor.Tracks lx.source)
    (h : lx.cursor.rest.dropWhile Byte.isBlank = []) :
    lx.Retells [lx.skipBlanks.endToken] := by
  obtain ⟨hblank, hsplit⟩ := blanks_append lx.cursor.rest
  rw [h, List.append_nil] at hsplit
  have hspells := spells_taken ht (congrArg Step.result (next_eq_end h))
  have hitems := congrArg Step.result (items_eq_end h)
  have hskipped : skipped lx.source lx.cursor.position lx.items.result =
      [lx.cursor.rest.takeWhile Byte.isBlank] := by
    rw [hitems, skipped, take_gap ht]
    rfl
  have hslice : (Item.slice ⟨lx.skipBlanks.cursor.position, lx.skipBlanks.cursor.position,
      .ok lx.skipBlanks.endToken⟩).bytes lx.source = [] := by
    simp [Slice.bytes, Item.slice]
  have hretold : retold [lx.cursor.rest.takeWhile Byte.isBlank] [lx.skipBlanks.endToken] =
      lx.source.drop lx.cursor.position := by
    rw [retold_cons, ← ht.rest]
    exact (List.append_nil _).trans hsplit.symm
  refine ⟨?_, ?_, ?_, ?_⟩
  · rw [hskipped]
    exact List.forall_mem_singleton.mpr hblank
  · rw [hitems]
    rw [taken_at_end h] at hspells
    refine .cons ?_ .nil
    rw [hslice]
    exact hspells
  · rw [hskipped, hitems]
    refine iff_of_true hretold (List.forall_mem_singleton.mpr ?_)
    rintro t ⟨⟩ hkind
    cases hkind
  · rw [hskipped, hretold]

theorem Ahead.rest_eq {lx : Lexer} {l : Lexeme} {b : UInt8} {more : Bytes}
    (h : lx.Ahead l b more) : lx.cursor.rest =
      lx.cursor.rest.takeWhile Byte.isBlank ++ (l.bytes ++ lx.next.lexer.cursor.rest) := by
  have hsplit : l.bytes ++ lx.next.lexer.cursor.rest = b :: more := by
    rw [h.rest_next, ← h.take_eq, List.length_take_of_le h.isPrefix.length_le,
      List.take_append_drop]
  rw [hsplit, ← h.rest]
  exact (blanks_append lx.cursor.rest).2

theorem Ahead.retells {lx : Lexer} {l : Lexeme} {b : UInt8} {more : Bytes} {t : Token}
    {ts : List Token} (h : lx.Ahead l b more) (ht : lx.cursor.Tracks lx.source)
    (hr : lx.next.result = .ok t) (hmore : lx.next.lexer.Retells ts) : lx.Retells (t :: ts) := by
  have hsource : lx.next.lexer.source = lx.source := lx.next_keeps.1
  have hspells := spells_taken ht hr
  have hitems := congrArg Step.result h.items_eq
  have hskipped : skipped lx.source lx.cursor.position lx.items.result =
      lx.cursor.rest.takeWhile Byte.isBlank :: skipped lx.next.lexer.source
        lx.next.lexer.cursor.position lx.next.lexer.items.result := by
    rw [hitems, skipped, take_gap ht, hsource]
  have hahead : lx.source.drop lx.cursor.position = lx.cursor.rest.takeWhile Byte.isBlank ++
      (lx.taken ++ lx.next.lexer.source.drop lx.next.lexer.cursor.position) := by
    rw [h.taken_eq ht, ← (tracks_next ht).rest, ← h.rest_eq, ht.rest]
  obtain ⟨hblank, hspelled, hexact, hlength⟩ := hmore
  refine ⟨?_, ?_, ?_, ?_⟩
  · rw [hskipped]
    exact List.forall_mem_cons.mpr ⟨(blanks_append lx.cursor.rest).1, hblank⟩
  · rw [hitems]
    rw [hsource] at hspelled
    exact .cons hspells hspelled
  · -- no literal is longer than its slice, so nothing makes up for a zero that is missing
    rw [hskipped, retold_cons, hahead, List.append_cancel_left_eq,
      append_eq_append_iff_of_length_le hspells.length_le hlength, hspells.spelled_eq_iff, hexact,
      hitems, List.forall_mem_cons, hsource]
    refine and_congr_left fun _ => ?_
    constructor
    · rintro hnot t' ht' hkind
      obtain rfl : t = t' := Except.ok.inj (hr.symm.trans ht')
      exact fun hpadded => hnot ⟨hkind, hpadded⟩
    · exact fun hall hpadded => hall t hr hpadded.1 hpadded.2
  · rw [hskipped, retold_cons, hahead]
    simp only [List.length_append]
    have := hspells.length_le
    omega

theorem retells {lx : Lexer} (ht : lx.cursor.Tracks lx.source) {ts : List Token}
    (hts : lx.items.result.map Item.outcome = ts.map .ok) : lx.Retells ts := by
  induction lx using scan_induction generalizing ts with
  | done lx h =>
    rw [items_eq_end h] at hts
    have hts' : [lx.skipBlanks.endToken].map Except.ok = ts.map (Except.ok (ε := Diagnostic)) := hts
    rw [← List.map_injective_iff.mpr (fun _ _ => Except.ok.inj) hts']
    exact retells_at_end ht h
  | step lx l b more h ih =>
    rw [h.items_eq, List.map_cons] at hts
    obtain ⟨t, ts, rfl, hr, hts⟩ := List.map_eq_cons_iff.mp hts.symm
    exact h.retells ht hr.symm (ih (tracks_next ht) hts.symm)

end Lexer

namespace Session

/-- At all times, the literal of a token that a call of `next` gives is spelled by the bytes taken
for it, less the needless zeros of an integer. So the literals of a scan that has tokens only, and
what it skips between them, are what was ahead of it, exactly if no integer has such zeros. -/
theorem literals_without_zeros {lx : Lexer} (h : Reachable lx) :
    (∀ t, lx.next.result = .ok t → t.Spells lx.taken ∧
      (t.spelled = lx.taken ↔ ¬ (t.kind = .integer ∧ Padded lx.taken))) ∧
    ∀ ts : List Token, lx.items.result.map Item.outcome = ts.map .ok → lx.Retells ts := by
  refine ⟨fun t ht => ?_, fun ts hts => Lexer.retells h.tracks hts⟩
  have hspells := Lexer.spells_taken h.tracks ht
  exact ⟨hspells, hspells.spelled_eq_iff⟩

/-- A word, a space and two zeros, of which the literal keeps one. -/
theorem literals_without_zeros_word :
    let lx := (Lexer.start [97, 32, 48, 48] Source.defaultName ⟨false, false⟩).next.lexer
    let t : Token := ⟨.integer, .number 0, some ⟨Source.defaultName, 1, 3⟩⟩
    let last : Token := ⟨.endOfInput, .absent, some ⟨Source.defaultName, 1, 5⟩⟩
    Reachable lx ∧ lx.next.result = .ok t ∧ t.Spells lx.taken ∧
      (t.spelled = lx.taken ↔ ¬ (t.kind = .integer ∧ Padded lx.taken)) ∧
      lx.items.result.map Item.outcome = [t, last].map .ok ∧ lx.Retells [t, last] := by
  intro lx t last
  have hreachable : Reachable lx := (reachable_start _ _ _).next
  have hresult : lx.next.result = .ok t := by decide +kernel
  have hitems : lx.items.result.map Item.outcome = [t, last].map .ok := by decide +kernel
  obtain ⟨htoken, hscan⟩ := literals_without_zeros hreachable
  obtain ⟨hspells, hexact⟩ := htoken t hresult
  exact ⟨hreachable, hresult, hspells, hexact, hitems, hscan [t, last] hitems⟩

/-- Two zeros and a seven make a token whose literal is the seven alone, and the literals of the scan
are not its source. -/
theorem literal_of_padded_seven :
    let lx := Lexer.start [48, 48, 55] Source.defaultName ⟨false, false⟩
    let t : Token := ⟨.integer, .number 7, some ⟨Source.defaultName, 1, 1⟩⟩
    let last : Token := ⟨.endOfInput, .absent, some ⟨Source.defaultName, 1, 4⟩⟩
    Reachable lx ∧ lx.next.result = .ok t ∧ lx.taken = [48, 48, 55] ∧
      t.literal = .ok (.text "7") ∧ Latin1.encode "7" ≠ lx.taken ∧
      lx.items.result.map Item.outcome = [t, last].map .ok ∧
      Lexer.retold (Lexer.skipped lx.source 0 lx.items.result) [t, last] ≠ lx.source := by
  intro lx t last
  exact ⟨reachable_start _ _ _, by decide +kernel⟩

end Session

end MonkeyScan
