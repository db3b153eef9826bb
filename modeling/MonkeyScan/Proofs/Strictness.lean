import MonkeyScan.Proofs.Tracking

/-!
# MonkeyScan.Proofs.Strictness

A strict lexer and a permissive one read a source alike. They take the same bytes, record the same
events and give the same outcomes, but for a byte that starts no lexeme: the permissive lexer makes
an illegal token of it, the strict one a diagnostic, at the same place.

* `Lexer.lockStep`: one call of `next`, under any two settings of strictness.
* `Lexer.under_afterCalls`: any run of calls leaves the two lexers where they were together, so the
  settings may change from call to call.
* `strict_relabels_permissive`: both, and what follows for whole sources.
-/

namespace MonkeyScan

open Grammar

/-- A call of `next` on two lexers: whether digits continue a word, which holds for both, and
whether the one and the other are strict. -/
structure Call where
  digits : Bool
  left : Bool
  right : Bool

def Call.leftOptions (c : Call) : Options := ⟨c.digits, c.left⟩

def Call.rightOptions (c : Call) : Options := ⟨c.digits, c.right⟩

def strayOutcome (strict : Bool) (byte : UInt8) (place : Location) (line : String) : Outcome :=
  if strict then .error ⟨.invalidCharacter byte.toNat, some place, some line⟩
  else .ok ⟨.illegal, .number byte.toNat, some place⟩

/-- Two lexers on one source before a call that asks the first one to be strict if `left` holds and
the second one if `right` holds: they are at one place, and the call tells them apart only at a byte
that starts no lexeme. -/
structure LockStep (source : Bytes) (left right : Bool) (a b : Lexer) : Prop where
  cursor : a.cursor = b.cursor
  cursor_next : a.next.lexer.cursor = b.next.lexer.cursor
  events : a.next.events = b.next.events
  result :
    (∃ x, source[a.skipBlanks.cursor.position]? = some x ∧ ¬ Starts x ∧
      a.next.result = strayOutcome left x a.skipBlanks.location a.skipBlanks.currentLine ∧
      b.next.result = strayOutcome right x a.skipBlanks.location a.skipBlanks.currentLine) ∨
    (∀ x, source[a.skipBlanks.cursor.position]? = some x → Starts x) ∧
      a.next.result = b.next.result

namespace Lexer

/-- The lexer when options have been assigned to it. -/
def under (lx : Lexer) (options : Options) : Lexer :=
  (lx.answer (.assign { digits := some options.digits, strict := some options.strict })).lexer

/-- The lexer after calls of `next`, each with options assigned right before it. -/
def afterCalls (lx : Lexer) (schedule : List Options) : Lexer :=
  schedule.foldl (fun lx options => (lx.under options).next.lexer) lx

theorem under_eq (lx : Lexer) (options : Options) :
    lx.under options = { lx with options := options } := rfl

section Relabel

variable {lx : Lexer} {l : Lexeme} {b : UInt8} {more : Bytes} {digits s s' : Bool}

theorem Ahead.under (h : (lx.under ⟨digits, s⟩).Ahead l b more) :
    (lx.under ⟨digits, s'⟩).Ahead l b more :=
  ⟨h.rest, h.not_blank, h.longest⟩

theorem Ahead.read_of_starts (h : (lx.under ⟨digits, s⟩).Ahead l b more) (hb : Starts b) :
    (lx.under ⟨digits, s⟩).skipBlanks.read l = (lx.under ⟨digits, s'⟩).skipBlanks.read l := by
  cases l with
  | symbol k => rfl
  | word c more => rfl
  | number c more => rfl
  | stray c =>
    obtain ⟨rfl, hc⟩ := not_starts_of_stray h.longest
    exact absurd hb hc

theorem Ahead.read_of_not_starts (h : (lx.under ⟨digits, s⟩).Ahead l b more) (hb : ¬ Starts b) :
    (lx.under ⟨digits, s⟩).skipBlanks.read l =
      (strayOutcome s b lx.skipBlanks.location lx.skipBlanks.currentLine,
        [.illegalByte lx.skipBlanks.location b]) := by
  obtain rfl : l = .stray b := Option.some.inj (h.longest.symm.trans (longest?_stray hb))
  rfl

theorem Ahead.kind_ne_illegal {t : Token} (h : lx.Ahead l b more) (hb : Starts b)
    (ht : lx.next.result = .ok t) : t.kind ≠ .illegal := by
  rw [h.next_eq] at ht
  cases l with
  | symbol k =>
    cases ht
    have kinds : ∀ k ∈ symbols.map Prod.snd, k ≠ .illegal := by decide
    exact kinds k (kind_of_symbol h.longest)
  | word c more =>
    cases ht
    show (Token.ofWord (Latin1.decode (c :: more))).kind ≠ .illegal
    rw [Token.ofWord, Token.ofReserved?]
    cases hk : Kind.ofReserved? (Latin1.decode (c :: more)) with
    | none => simp
    | some k =>
      obtain ⟨l₁, l₂, hl, -⟩ := List.lookup_eq_some_iff.mp hk
      have kinds : ∀ entry ∈ Kind.reserved, entry.2 ≠ .illegal := by decide
      exact kinds (Latin1.decode (c :: more), k) (by simp [hl])
  | number c more =>
    simp only [read] at ht
    split at ht
    · cases ht
      simp
    · cases ht
  | stray c =>
    obtain ⟨rfl, hc⟩ := not_starts_of_stray h.longest
    exact absurd hb hc

theorem lockStep (lx : Lexer) (ht : lx.cursor.Tracks lx.source) (digits s s' : Bool) :
    LockStep lx.source s s' (lx.under ⟨digits, s⟩) (lx.under ⟨digits, s'⟩) := by
  have hfirst : lx.source[(lx.under ⟨digits, s⟩).skipBlanks.cursor.position]? =
      (lx.cursor.rest.dropWhile Byte.isBlank).head? := getElem?_skipBlanks ht
  rcases next_cases (lx.under ⟨digits, s⟩) with ⟨hnil, hnext⟩ | ⟨l, b, more, h, -⟩
  · have hnext' : (lx.under ⟨digits, s'⟩).next = _ := next_eq_end hnil
    have hnil' : lx.cursor.rest.dropWhile Byte.isBlank = [] := hnil
    rw [hnil'] at hfirst
    refine ⟨rfl, ?_, ?_, .inr ⟨by simp [hfirst], ?_⟩⟩ <;> rw [hnext, hnext'] <;> rfl
  · have h' : (lx.under ⟨digits, s'⟩).Ahead l b more := h.under
    have hrest : lx.cursor.rest.dropWhile Byte.isBlank = b :: more := h.rest
    rw [hrest, List.head?_cons] at hfirst
    by_cases hb : Starts b
    · have hread : (lx.under ⟨digits, s⟩).skipBlanks.read l =
          (lx.under ⟨digits, s'⟩).skipBlanks.read l := h.read_of_starts hb
      refine ⟨rfl, ?_, ?_, .inr ⟨fun x hx => ?_, ?_⟩⟩
      · rw [h.next_eq, h'.next_eq]
        rfl
      · rw [h.next_eq, h'.next_eq, hread]
      · rw [← Option.some.inj (hfirst.symm.trans hx)]
        exact hb
      · rw [h.next_eq, h'.next_eq, hread]
    · have hread := h.read_of_not_starts hb
      have hread' := h'.read_of_not_starts hb
      refine ⟨rfl, ?_, ?_, .inl ⟨b, hfirst, hb, ?_, ?_⟩⟩
      · rw [h.next_eq, h'.next_eq]
        rfl
      · rw [h.next_eq, h'.next_eq, hread, hread']
      · rw [h.next_eq, hread]
        rfl
      · rw [h'.next_eq, hread']
        rfl

end Relabel

/-! ## Runs of calls -/

theorem tracks_afterCalls (lx : Lexer) (schedule : List Options)
    (ht : lx.cursor.Tracks lx.source) :
    (lx.afterCalls schedule).source = lx.source ∧
      (lx.afterCalls schedule).cursor.Tracks lx.source := by
  induction schedule generalizing lx with
  | nil => exact ⟨rfl, ht⟩
  | cons options schedule ih =>
    have hsource : (lx.under options).next.lexer.source = lx.source :=
      (lx.under options).next_moves.1
    rw [← hsource]
    exact ih (lx.under options).next.lexer (tracks_next ht)

/-- After one call the lexers are in one place: with the same options they are the same. -/
theorem under_next (lx : Lexer) (ht : lx.cursor.Tracks lx.source) (c : Call) (options : Options) :
    (lx.under c.leftOptions).next.lexer.under options =
      (lx.under c.rightOptions).next.lexer.under options := by
  have hcursor := (lx.lockStep ht c.digits c.left c.right).cursor_next
  obtain ⟨hsource, hfile, -⟩ := (lx.under c.leftOptions).next_keeps
  obtain ⟨hsource', hfile', -⟩ := (lx.under c.rightOptions).next_keeps
  rw [under_eq, under_eq, Lexer.mk.injEq]
  exact ⟨hsource.trans hsource'.symm, hfile.trans hfile'.symm, rfl, hcursor⟩

theorem under_afterCalls {lx lx' : Lexer} (hsame : ∀ options, lx.under options = lx'.under options)
    (ht : lx.cursor.Tracks lx.source) (schedule : List Call) (options : Options) :
    (lx.afterCalls (schedule.map Call.leftOptions)).under options =
      (lx'.afterCalls (schedule.map Call.rightOptions)).under options := by
  -- the options that a lexer has between two calls do not matter, so they may differ
  induction schedule generalizing lx lx' with
  | nil => exact hsame options
  | cons c schedule ih =>
    have hnext : ∀ options, (lx.under c.leftOptions).next.lexer.under options =
        (lx'.under c.rightOptions).next.lexer.under options := by
      intro options
      rw [← hsame c.rightOptions]
      exact lx.under_next ht c options
    exact ih hnext (tracks_next ht)

/-! ## Whole sources -/

/-- A strict lexer drains a source without a diagnostic exactly if a permissive one does so without
an illegal token. -/
theorem drain_strict_iff (lx : Lexer) (ht : lx.cursor.Tracks lx.source) {digits : Bool}
    (hoptions : lx.options = ⟨digits, true⟩) (ts : List Token) :
    lx.drain.result = (ts, none) ↔
      (lx.under ⟨digits, false⟩).drain.result = (ts, none) ∧ ∀ t ∈ ts, t.kind ≠ .illegal := by
  induction lx using scan_induction generalizing ts with
  | done lx hnil =>
    have hnil' : (lx.under ⟨digits, false⟩).cursor.rest.dropWhile Byte.isBlank = [] := hnil
    rw [drain_eq_end hnil, drain_eq_end hnil']
    constructor
    · intro h
      cases h
      exact ⟨rfl, by simp [endToken]⟩
    · exact fun h => h.1
  | step lx l b more h ih =>
    have hself : lx = lx.under ⟨digits, true⟩ := by
      rw [under_eq, ← hoptions]
    have h₁ : (lx.under ⟨digits, true⟩).Ahead l b more := hself ▸ h
    have h₂ : (lx.under ⟨digits, false⟩).Ahead l b more := h₁.under
    have hlexer : (lx.under ⟨digits, false⟩).next.lexer =
        lx.next.lexer.under ⟨digits, false⟩ := by
      rw [h₂.next_eq, h.next_eq]
      rfl
    by_cases hb : Starts b
    · have hresult : (lx.under ⟨digits, false⟩).next.result = lx.next.result := by
        rw [h₂.next_eq, h₂.read_of_starts hb, ← hself, h.next_eq]
      cases hr : lx.next.result with
      | error d =>
        rw [drain_eq_error hr, drain_eq_error (hresult.trans hr)]
        simp
      | ok t =>
        have hend := h.not_isEnd_of_ok hr
        have hkind := h.kind_ne_illegal hb hr
        have ih' := ih (tracks_next ht) (by rw [h.next_eq]; exact hoptions)
        rw [drain_ok_iff hr hend, drain_ok_iff (hresult.trans hr) hend, hlexer]
        constructor
        · rintro ⟨more, rfl, hmore⟩
          obtain ⟨hmore, hall⟩ := (ih' more).mp hmore
          exact ⟨⟨more, rfl, hmore⟩, List.forall_mem_cons.mpr ⟨hkind, hall⟩⟩
        · rintro ⟨⟨more, rfl, hmore⟩, hall⟩
          exact ⟨more, rfl, (ih' more).mpr ⟨hmore, (List.forall_mem_cons.mp hall).2⟩⟩
    · -- the strict lexer stops here, the permissive one goes on behind an illegal token
      have hstrict : ∃ d, lx.next.result = .error d := by
        rw [hself, h₁.next_eq, h₁.read_of_not_starts hb]
        exact ⟨_, rfl⟩
      obtain ⟨d, hd⟩ := hstrict
      have hloose : ∃ t, (lx.under ⟨digits, false⟩).next.result = .ok t ∧ t.kind = .illegal := by
        rw [h₂.next_eq, h₂.read_of_not_starts hb]
        exact ⟨_, rfl, rfl⟩
      obtain ⟨t, hr, hkind⟩ := hloose
      have hend : ¬ t.isEnd := by
        simp [Token.isEnd, hkind]
      rw [drain_eq_error hd, drain_eq_token hr hend]
      constructor
      · intro h
        cases h
      · rintro ⟨hts, hall⟩
        have hmem : t ∈ ts := by
          rw [← (Prod.mk.inj hts).1]
          exact List.mem_cons_self
        exact absurd hkind (hall t hmem)

end Lexer

/-- Two lexers on one source, whose strictness is set anew before each call, read it alike: the
results differ only at a byte that starts no lexeme, and there in the way strictness asks for. For
a whole source this means that strictness refuses the sources with an illegal token, and no
others. -/
theorem strict_relabels_permissive :
    (∀ (source : Bytes) (file : Text) (initial initial' : Options) (schedule : List Call)
      (c : Call),
      LockStep source c.left c.right
        (((Lexer.start source file initial).afterCalls
          (schedule.map Call.leftOptions)).under c.leftOptions)
        (((Lexer.start source file initial').afterCalls
          (schedule.map Call.rightOptions)).under c.rightOptions)) ∧
    ∀ (s : Source) (file : Text) (digits : Bool) (ts : List Token),
      (s.tokenize file ⟨digits, true⟩).1 = .ok ts ↔
        (s.tokenize file ⟨digits, false⟩).1 = .ok ts ∧ ∀ t ∈ ts, t.kind ≠ .illegal := by
  constructor
  · intro source file initial initial' schedule c
    obtain ⟨hsource, htracks⟩ := (Lexer.start source file initial).tracks_afterCalls
      (schedule.map Call.leftOptions) (Cursor.tracks_start source)
    have hsame : ∀ options, (Lexer.start source file initial).under options =
        (Lexer.start source file initial').under options := fun _ => rfl
    have hlock := Lexer.lockStep
      ((Lexer.start source file initial).afterCalls (schedule.map Call.leftOptions))
      (by rw [hsource]; exact htracks) c.digits c.left c.right
    rw [← Lexer.under_afterCalls hsame (Cursor.tracks_start source)]
    rw [hsource] at hlock
    exact hlock
  · intro s file digits ts
    rw [Source.tokenize_ok_iff, Source.tokenize_ok_iff]
    constructor
    · rintro ⟨bs, hbytes, h⟩
      rw [Lexer.drain_strict_iff _ (Cursor.tracks_start bs) rfl] at h
      exact ⟨⟨bs, hbytes, h.1⟩, h.2⟩
    · rintro ⟨⟨bs, hbytes, h⟩, hall⟩
      refine ⟨bs, hbytes, ?_⟩
      rw [Lexer.drain_strict_iff _ (Cursor.tracks_start bs) rfl]
      exact ⟨h, hall⟩

end MonkeyScan
