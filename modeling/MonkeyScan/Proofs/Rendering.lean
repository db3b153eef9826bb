import Mathlib
import MonkeyScan.Proofs.Delivery
import MonkeyScan.Proofs.Quoting

/-!
# MonkeyScan.Proofs.Rendering

What is shown tells what it was made from: the form of a token, and the lines of a whole listing.

* `Token.renderBy_eq_iff`: tokens with one form are the same. The name of the kind ends at the first
  bracket or comma, and the first character behind that tells a number from a text.
* `Token.renderBy?_eq_error_iff`: a token has a form unless its number has too many digits, which is
  so for no token of a scan (`Lexer.isWritable_of_next`).
* `lines_injective`: no form has a line feed, so the lines of a listing are the forms of its tokens.
* `Source.listings_unambiguous`: sources with one listing have the same tokens, and if the listing
  shows places, these are in the same places but for the end token, which is not listed.
  `Source.end_place_not_told` are two sources of which only that place differs.
-/

namespace MonkeyScan

namespace Numeral

theorem decimal_eq_repr (n : Int) : decimal n = n.repr := by
  cases n with
  | ofNat n => rfl
  | negSucc n => rfl

theorem decimal_inj {m n : Int} : decimal m = decimal n ↔ m = n := by
  rw [decimal_eq_repr, decimal_eq_repr]
  exact Int.repr_inj

theorem sign_or_digit_of_mem_decimal {n : Int} {c : Char} (h : c ∈ (decimal n).toList) :
    c = '-' ∨ c.isDigit := by
  have digits : ∀ k : Nat, c ∈ k.repr.toList → c.isDigit := by
    intro k hk
    rw [Nat.toList_repr] at hk
    exact Nat.isDigit_of_mem_toDigits (by decide) (by decide) hk
  cases n with
  | ofNat n => exact .inr (digits n h)
  | negSucc n =>
    rw [decimal, String.toList_append, List.mem_append] at h
    rcases h with h | h
    · exact .inl (List.mem_singleton.mp h)
    · exact .inr (digits (n + 1) h)

theorem not_mem_decimal {c : Char} (hsign : c ≠ '-') (hdigit : ¬ c.isDigit) (n : Int) :
    c ∉ (decimal n).toList :=
  fun h => (sign_or_digit_of_mem_decimal h).elim hsign hdigit

theorem toList_decimal_ne_nil (n : Int) : (decimal n).toList ≠ [] := by
  cases n with
  | ofNat n =>
    rw [decimal, Nat.toList_repr]
    exact Nat.toDigits_ne_nil
  | negSucc n =>
    rw [decimal, String.toList_append]
    exact List.cons_ne_nil _ _

end Numeral

/-- Where the first of two characters comes that do not occur before it. -/
theorem eq_of_append_cons_eq {xs ys us vs : List Char} {c d : Char} (hd : d ∉ xs) (hc : c ∉ ys)
    (h : xs ++ c :: us = ys ++ d :: vs) : xs = ys ∧ c = d ∧ us = vs := by
  rcases List.append_eq_append_iff.mp h with ⟨mid, rfl, htail⟩ | ⟨mid, rfl, htail⟩
  · cases mid with
    | nil =>
      obtain ⟨hcd, hrest⟩ := List.cons.inj htail
      exact ⟨(List.append_nil xs).symm, hcd, hrest⟩
    | cons e mid =>
      obtain ⟨rfl, -⟩ := List.cons.inj htail
      exact absurd (List.mem_append_right xs List.mem_cons_self) hc
  · cases mid with
    | nil =>
      obtain ⟨hdc, hrest⟩ := List.cons.inj htail
      exact ⟨List.append_nil ys, hdc.symm, hrest.symm⟩
    | cons e mid =>
      obtain ⟨rfl, -⟩ := List.cons.inj htail
      exact absurd (List.mem_append_right ys List.mem_cons_self) hd

/-! ## Tokens -/

/-- What stands behind the name of the kind in the form of a token, for any choice of the characters
that have no printed form. -/
def Payload.closingBy (hidden : Char → Bool) : Payload → String
  | .absent => ")"
  | .number n => ", " ++ (Numeral.decimal n ++ ")")
  | .text s => ", " ++ (Quoted.encodeBy hidden s ++ ")")

/-- `render` for any choice of the characters that have no printed form. -/
def Token.renderBy (hidden : Char → Bool) (t : Token) : String :=
  "Token(" ++ (t.kind.name ++ t.payload.closingBy hidden)

theorem Token.renderBy_isControl : renderBy Quoted.isControl = render := by
  funext t
  rw [renderBy, render]
  cases t.payload with
  | absent => simp [Payload.closingBy, String.append_assoc]
  | number n => simp [Payload.closingBy, Payload.quoted, String.append_assoc]
  | text s =>
    simp [Payload.closingBy, Payload.quoted, String.append_assoc, Quoted.encodeBy_isControl]

/-- `render?` for any choice of the characters that have no printed form. -/
def Token.renderBy? (hidden : Char → Bool) (t : Token) : Except TokenError String :=
  if t.payload.isWritable then .ok (t.renderBy hidden) else .error .tooLong

theorem Token.renderBy?_isControl : renderBy? Quoted.isControl = render? := by
  funext t
  rw [renderBy?, renderBy_isControl, render?]

theorem Kind.name_injective {k k' : Kind} (h : k.name = k'.name) : k = k' := by
  have table : ∀ k ∈ Kind.all, ∀ k' ∈ Kind.all, k.name = k'.name → k = k' := by decide +kernel
  exact table k k.mem_all k' k'.mem_all h

theorem Kind.not_mem_name (k : Kind) :
    ')' ∉ k.name.toList ∧ ',' ∉ k.name.toList ∧ '\n' ∉ k.name.toList := by
  have table : ∀ k ∈ Kind.all,
      ')' ∉ k.name.toList ∧ ',' ∉ k.name.toList ∧ '\n' ∉ k.name.toList := by decide +kernel
  exact table k k.mem_all

section Forms

variable {hidden : Char → Bool}

/-- A numeral starts with no quotation mark. -/
theorem decimal_append_ne_encodeBy (n : Int) (s : Text) (tail tail' : String) :
    Numeral.decimal n ++ tail ≠ Quoted.encodeBy hidden s ++ tail' := by
  intro h
  obtain ⟨c, more, hc⟩ := List.exists_cons_of_ne_nil (Numeral.toList_decimal_ne_nil n)
  have hmem : c ∈ (Numeral.decimal n).toList := by rw [hc]; exact List.mem_cons_self
  have hlists := congrArg String.toList h
  rw [String.toList_append, String.toList_append, Quoted.toList_encodeBy, hc, List.cons_append,
    List.cons_append, List.cons.injEq] at hlists
  rw [hlists.1] at hmem
  rcases Quoted.mark_cases s with hm | hm
  · rw [hm] at hmem
    exact Numeral.not_mem_decimal (by decide) (by decide) n hmem
  · rw [hm] at hmem
    exact Numeral.not_mem_decimal (by decide) (by decide) n hmem

theorem Payload.closingBy_injective {p q : Payload}
    (h : p.closingBy hidden = q.closingBy hidden) : p = q := by
  have bare : ∀ tail : String, ")" ≠ ", " ++ tail := by
    intro tail heq
    have hlists := congrArg String.toList heq
    rw [String.toList_append] at hlists
    cases hlists
  cases p with
  | absent =>
    cases q with
    | absent => rfl
    | number n => exact absurd h (bare _)
    | text s => exact absurd h (bare _)
  | number n =>
    cases q with
    | absent => exact absurd h.symm (bare _)
    | number m =>
      rw [closingBy, closingBy, String.append_right_inj, String.append_left_inj,
        Numeral.decimal_inj] at h
      rw [h]
    | text s =>
      rw [closingBy, closingBy, String.append_right_inj] at h
      exact absurd h (decimal_append_ne_encodeBy n s ")" ")")
  | text s =>
    cases q with
    | absent => exact absurd h.symm (bare _)
    | number n =>
      rw [closingBy, closingBy, String.append_right_inj] at h
      exact absurd h.symm (decimal_append_ne_encodeBy n s ")" ")")
    | text s' =>
      rw [closingBy, closingBy, String.append_right_inj, String.append_left_inj] at h
      rw [Quoted.encodeBy_injective hidden h]

theorem Payload.exists_toList_closingBy (hidden : Char → Bool) (p : Payload) :
    ∃ c rest, (p.closingBy hidden).toList = c :: rest ∧ (c = ')' ∨ c = ',') := by
  cases p with
  | absent => exact ⟨')', [], by simp [closingBy], .inl rfl⟩
  | number n => exact ⟨',', _, String.toList_append, .inr rfl⟩
  | text s => exact ⟨',', _, String.toList_append, .inr rfl⟩

theorem Payload.lineFeed_not_mem_closingBy (p : Payload) :
    '\n' ∉ (p.closingBy hidden).toList := by
  cases p with
  | absent => simp [closingBy]
  | number n =>
    have hnumeral := Numeral.not_mem_decimal (by decide : '\n' ≠ '-') (by decide) n
    simp [closingBy, hnumeral]
  | text s =>
    have hquoted := Quoted.lineFeed_not_mem_encodeBy hidden s
    simp [closingBy, hquoted]

namespace Token

theorem toList_renderBy (t : Token) : (t.renderBy hidden).toList =
    "Token(".toList ++ (t.kind.name.toList ++ (t.payload.closingBy hidden).toList) := by
  rw [renderBy, String.toList_append, String.toList_append]

/-- Tokens with one form are the same. -/
theorem renderBy_eq_iff (a b : Token) : a.renderBy hidden = b.renderBy hidden ↔ a.same b := by
  rw [same, beq_iff_eq, key, key, Prod.mk.injEq]
  constructor
  · intro h
    obtain ⟨c, rest, hc, hstop⟩ := a.payload.exists_toList_closingBy hidden
    obtain ⟨c', rest', hc', hstop'⟩ := b.payload.exists_toList_closingBy hidden
    have outside : ∀ (k : Kind) (c : Char), c = ')' ∨ c = ',' → c ∉ k.name.toList := by
      rintro k c (rfl | rfl)
      · exact k.not_mem_name.1
      · exact k.not_mem_name.2.1
    -- no name has a bracket or a comma, so it ends where the first of these stands
    have hlists := congrArg String.toList h
    rw [toList_renderBy, toList_renderBy, List.append_cancel_left_eq, hc, hc'] at hlists
    obtain ⟨hname, rfl, rfl⟩ :=
      eq_of_append_cons_eq (outside a.kind c' hstop') (outside b.kind c hstop) hlists
    have hclosing := String.toList_inj.mp (hc.trans hc'.symm)
    exact ⟨Kind.name_injective (String.toList_inj.mp hname), Payload.closingBy_injective hclosing⟩
  · rintro ⟨hkind, hpayload⟩
    rw [renderBy, renderBy, hkind, hpayload]

theorem lineFeed_not_mem_renderBy (t : Token) : '\n' ∉ (t.renderBy hidden).toList := by
  have hopening : '\n' ∉ "Token(".toList := by decide
  rw [toList_renderBy, List.mem_append, List.mem_append, not_or, not_or]
  exact ⟨hopening, t.kind.not_mem_name.2.2, t.payload.lineFeed_not_mem_closingBy⟩

theorem renderBy?_eq_ok_iff {t : Token} {s : String} :
    t.renderBy? hidden = .ok s ↔ t.payload.isWritable ∧ t.renderBy hidden = s := by
  rw [renderBy?]
  split
  · rename_i hwritable
    simp [hwritable]
  · rename_i hlong
    simp [hlong]

/-- Only a number of too many digits has no form. -/
theorem renderBy?_eq_error_iff {t : Token} {e : TokenError} :
    t.renderBy? hidden = .error e ↔
      e = .tooLong ∧ ∃ n : Int, t.payload = .number n ∧ 10 ^ Numeral.digitLimit ≤ n.natAbs := by
  have hlong : (∃ n : Int, t.payload = .number n ∧ 10 ^ Numeral.digitLimit ≤ n.natAbs) ↔
      ¬ t.payload.isWritable := by
    cases t.payload with
    | absent => simp [Payload.isWritable]
    | text s => simp [Payload.isWritable]
    | number n =>
      rw [Payload.isWritable, Grammar.isWritable_iff, Nat.not_lt]
      constructor
      · rintro ⟨n', heq, hle⟩
        cases heq
        exact hle
      · intro hle
        exact ⟨n, rfl, hle⟩
  rw [hlong, renderBy?]
  split
  · rename_i hwritable
    simp [hwritable]
  · rename_i hunwritable
    simp [hunwritable, eq_comm]

theorem render_eq_iff (a b : Token) : a.render = b.render ↔ a.same b := by
  rw [← renderBy_isControl]
  exact renderBy_eq_iff a b

theorem lineFeed_not_mem_render (t : Token) : '\n' ∉ t.render.toList := by
  rw [← renderBy_isControl]
  exact t.lineFeed_not_mem_renderBy

/-- Both tokens have a place, and the line and the column of these are the same. -/
def SamePlace (a b : Token) : Prop :=
  ∃ l m, a.location = some l ∧ b.location = some m ∧ l.line = m.line ∧ l.column = m.column

theorem toList_renderLocated {t : Token} {l : Location} (h : t.location = some l) :
    t.renderLocated.toList = (Numeral.decimal l.line).toList ++
      ':' :: ((Numeral.decimal l.column).toList ++ '\t' :: t.render.toList) := by
  simp [renderLocated, h]

theorem same_of_renderLocated {a b : Token} {l m : Location} (ha : a.location = some l)
    (hb : b.location = some m) (h : a.renderLocated = b.renderLocated) :
    a.same b ∧ a.SamePlace b := by
  have colon := Numeral.not_mem_decimal (by decide : ':' ≠ '-') (by decide)
  have tab := Numeral.not_mem_decimal (by decide : '\t' ≠ '-') (by decide)
  have hlists := congrArg String.toList h
  rw [toList_renderLocated ha, toList_renderLocated hb] at hlists
  obtain ⟨hline, -, hlists⟩ := eq_of_append_cons_eq (colon l.line) (colon m.line) hlists
  obtain ⟨hcolumn, -, hrender⟩ := eq_of_append_cons_eq (tab l.column) (tab m.column) hlists
  rw [String.toList_inj, Numeral.decimal_inj] at hline hcolumn
  exact ⟨(render_eq_iff a b).mp (String.toList_inj.mp hrender), l, m, ha, hb, hline, hcolumn⟩

theorem lineFeed_not_mem_renderLocated (t : Token) : '\n' ∉ t.renderLocated.toList := by
  have hrender := t.lineFeed_not_mem_render
  cases hl : t.location with
  | none =>
    rw [renderLocated, hl]
    exact hrender
  | some l =>
    have numeral := Numeral.not_mem_decimal (by decide : '\n' ≠ '-') (by decide)
    rw [toList_renderLocated hl]
    simp [numeral, hrender]

theorem lineFeed_not_mem_display (located : Bool) (t : Token) :
    '\n' ∉ (t.display located).toList := by
  cases located with
  | false => exact t.lineFeed_not_mem_render
  | true => exact t.lineFeed_not_mem_renderLocated

end Token

end Forms

/-! ## Listings -/

namespace Grammar

/-- No number that the scanner makes is long. -/
theorem isWritable_of_meaning {strict : Bool} {w : Bytes} {kind : Kind} {p : Payload}
    (h : meaning strict w = .ok (kind, p)) : p.isWritable := by
  cases w with
  | nil =>
    cases h
    rfl
  | cons b more =>
    simp only [meaning] at h
    split at h
    · cases h
      rfl
    · split at h
      · cases h
        rfl
      · split at h
        · split at h
          · rename_i hle
            cases h
            exact isWritable_of_le hle
          · cases h
        · split at h
          · cases h
          · cases h
            exact isWritable_of_le (b.toNat_lt.le.trans (by decide))

end Grammar

theorem Lexer.isWritable_of_next {lx : Lexer} {t : Token} (h : lx.next.result = .ok t) :
    t.payload.isWritable := by
  rcases next_cases lx with ⟨-, hnext⟩ | ⟨l, b, more, hahead, -⟩
  · rw [hnext] at h
    cases h
    rfl
  · have hcontent := hahead.content
    rw [hahead.next_eq] at h
    rw [show (lx.skipBlanks.read l).1 = .ok t from h] at hcontent
    exact Grammar.isWritable_of_meaning hcontent.symm

/-- Texts of one line each can be told from their lines. -/
theorem lines_injective {xs ys : List String} (hx : ∀ s ∈ xs, '\n' ∉ s.toList)
    (hy : ∀ s ∈ ys, '\n' ∉ s.toList) (h : lines xs = lines ys) : xs = ys := by
  have toList_lines_cons : ∀ (s : String) (more : List String),
      (lines (s :: more)).toList = s.toList ++ '\n' :: (lines more).toList := by
    intro s more
    rw [lines_cons, String.toList_append, String.toList_append, List.append_assoc]
    rfl
  induction xs generalizing ys with
  | nil =>
    cases ys with
    | nil => rfl
    | cons y ys =>
      have hlists := congrArg String.toList h
      rw [toList_lines_cons] at hlists
      exact absurd hlists.symm (by simp [lines])
  | cons x xs ih =>
    have hlists := congrArg String.toList h
    rw [toList_lines_cons] at hlists
    cases ys with
    | nil => exact absurd hlists (by simp [lines])
    | cons y ys =>
      rw [toList_lines_cons] at hlists
      rw [List.forall_mem_cons] at hx hy
      obtain ⟨hxy, -, hmore⟩ := eq_of_append_cons_eq hx.1 hy.1 hlists
      rw [String.toList_inj.mp hxy, ih hx.2 hy.2 (String.toList_inj.mp hmore)]

namespace Lexer

/-- Calls of `next` come to the end token or to a diagnostic. -/
theorem exists_comesTo (lx : Lexer) : ∃ n ts stop, lx.ComesTo n ts stop := by
  induction lx using scan_induction with
  | done lx h => exact ⟨1, _, none, .finish h⟩
  | step lx l b more h ih =>
    cases hr : lx.next.result with
    | error d => exact ⟨1, [], some d, .stop hr⟩
    | ok t =>
      obtain ⟨n, ts, stop, hmore⟩ := ih
      exact ⟨n + 1, t :: ts, stop, .token hr (h.not_isEnd_of_ok hr) hmore⟩

namespace ComesTo

variable {lx lx₁ lx₂ : Lexer} {n n₁ n₂ : Nat} {ts ts₁ ts₂ : List Token} {stop : Option Diagnostic}

/-- The end token is the last one, and the only one of its kind. -/
theorem exists_last (h : lx.ComesTo n ts none) :
    ∃ last, ts = Token.withoutEnd ts ++ [last] ∧ last.key = (.endOfInput, .absent) := by
  generalize hstop : (none : Option Diagnostic) = stop at h
  induction h with
  | @finish lx h => exact ⟨_, rfl, rfl⟩
  | @stop lx d h => cases hstop
  | @token lx n t ts stop hr ht _ ih =>
    obtain ⟨last, hts, hlast⟩ := ih hstop
    refine ⟨last, ?_, hlast⟩
    rw [Token.withoutEnd_cons ht, List.cons_append, ← hts]

/-- What a listing shows of a token is its form. -/
theorem render?_eq_ok (h : lx.ComesTo n ts stop) : ∀ t ∈ ts, t.render? = .ok t.render := by
  have written : ∀ t : Token, t.payload.isWritable → t.render? = .ok t.render :=
    fun _ hwritable => if_pos hwritable
  induction h with
  | @finish lx h => exact List.forall_mem_singleton.mpr (written _ rfl)
  | stop => exact List.forall_mem_nil _
  | @token lx n t ts stop hr _ _ ih =>
    exact List.forall_mem_cons.mpr ⟨written t (isWritable_of_next hr), ih⟩

/-- Listings with the same lines are listings of the same tokens. -/
theorem forall₂_of_stdout (h₁ : lx₁.ComesTo n₁ ts₁ none) (h₂ : lx₂.ComesTo n₂ ts₂ none)
    {located : Bool}
    (h : (lx₁.listing located).output.stdout = (lx₂.listing located).output.stdout) :
    List.Forall₂ (fun a b => a.same b ∧ (located → a.SamePlace b)) (Token.withoutEnd ts₁)
      (Token.withoutEnd ts₂) := by
  have unbroken : ∀ ts : List Token, ∀ s ∈ ts.map (Token.display located), '\n' ∉ s.toList := by
    intro ts s hs
    obtain ⟨t, -, rfl⟩ := List.mem_map.mp hs
    exact t.lineFeed_not_mem_display located
  rw [(h₁.listing located).1, (h₂.listing located).1] at h
  have hforms := lines_injective (unbroken _) (unbroken _) h
  rw [← List.forall₂_eq_eq_eq, List.forall₂_map_left_iff, List.forall₂_map_right_iff,
    List.forall₂_iff_zip] at hforms
  obtain ⟨hlength, hforms⟩ := hforms
  rw [List.forall₂_iff_zip]
  refine ⟨hlength, fun {a b} hmem => ?_⟩
  obtain ⟨ha, hb⟩ := List.of_mem_zip hmem
  have hform := hforms hmem
  cases located with
  | false => exact ⟨(Token.render_eq_iff a b).mp hform, fun hlocated => by cases hlocated⟩
  | true =>
    rw [← h₁.leading_items.1] at ha
    rw [← h₂.leading_items.1] at hb
    obtain ⟨l, hl⟩ := exists_location_of_leading ha
    obtain ⟨m, hm⟩ := exists_location_of_leading hb
    obtain ⟨hsame, hplace⟩ := Token.same_of_renderLocated hl hm hform
    exact ⟨hsame, fun _ => hplace⟩

end ComesTo

end Lexer

namespace Source

/-- The listing of a source goes through to the end, and this is what it puts out. -/
def Lists (s : Source) (file : Text) (options : Options) (located : Bool) (out : String) : Prop :=
  ∃ lx, s.lexer file options = .ok lx ∧ (lx.listing located).stoppedBy = none ∧
    (lx.listing located).output.stdout = out

theorem Lists.exists_comesTo {s : Source} {file : Text} {options : Options} {located : Bool}
    {out : String} (h : s.Lists file options located out) :
    ∃ (lx : Lexer) (n : Nat) (ts : List Token), lx.ComesTo n ts none ∧
      (s.tokenize file options).1 = .ok ts ∧ (lx.listing located).output.stdout = out := by
  obtain ⟨lx, hlexer, hstop, hout⟩ := h
  obtain ⟨n, ts, stop, hcomes⟩ := lx.exists_comesTo
  obtain rfl : stop = none := (hcomes.listing located).2.2.symm.trans hstop
  refine ⟨lx, n, ts, hcomes, ?_, hout⟩
  rw [tokenize, hlexer]
  simp only [hcomes.drain.1]

/-- What two listings with the same lines tell of their sources. -/
theorem Lists.same_tokens {s₁ s₂ : Source} {file₁ file₂ : Text} {options₁ options₂ : Options}
    {located : Bool} {out : String} (h₁ : s₁.Lists file₁ options₁ located out)
    (h₂ : s₂.Lists file₂ options₂ located out) :
    ∃ ts₁ ts₂, (s₁.tokenize file₁ options₁).1 = .ok ts₁ ∧
      (s₂.tokenize file₂ options₂).1 = .ok ts₂ ∧
      (∀ t ∈ ts₁ ++ ts₂, t.render? = .ok t.render) ∧
      List.Forall₂ (fun a b => a.same b) ts₁ ts₂ ∧
      (located → List.Forall₂ Token.SamePlace (Token.withoutEnd ts₁) (Token.withoutEnd ts₂)) := by
  obtain ⟨lx₁, n₁, ts₁, hcomes₁, htokens₁, hout₁⟩ := h₁.exists_comesTo
  obtain ⟨lx₂, n₂, ts₂, hcomes₂, htokens₂, hout₂⟩ := h₂.exists_comesTo
  have hpairs := hcomes₁.forall₂_of_stdout hcomes₂ (hout₁.trans hout₂.symm)
  have hforms := List.forall_mem_append.mpr ⟨hcomes₁.render?_eq_ok, hcomes₂.render?_eq_ok⟩
  obtain ⟨last₁, hts₁, hlast₁⟩ := hcomes₁.exists_last
  obtain ⟨last₂, hts₂, hlast₂⟩ := hcomes₂.exists_last
  have hlast : last₁.same last₂ := by
    rw [Token.same, hlast₁, hlast₂]
    rfl
  refine ⟨ts₁, ts₂, htokens₁, htokens₂, hforms, ?_,
    fun hlocated => hpairs.imp fun a b h => h.2 hlocated⟩
  rw [hts₁, hts₂]
  exact List.rel_append (hpairs.imp fun a b h => h.1) (.cons hlast .nil)

/-- A token has a form, whichever characters are hidden, unless its number has too many digits. The
form tells kind and payload, and is one line. So sources whose listings come to the end with the
same lines have the same tokens. If the listings are located, these tokens have the same lines and
columns, but for the end token, which is not listed. -/
theorem listings_unambiguous :
    Token.renderBy? Quoted.isControl = Token.render? ∧
    (∀ (hidden : Char → Bool) (t : Token) (e : TokenError), t.renderBy? hidden = .error e ↔
      e = .tooLong ∧ ∃ n : Int, t.payload = .number n ∧ 10 ^ 4300 ≤ n.natAbs) ∧
    (∀ (hidden : Char → Bool) (a b : Token) (s s' : String), a.renderBy? hidden = .ok s →
      b.renderBy? hidden = .ok s' → (s = s' ↔ a.same b)) ∧
    (∀ (hidden : Char → Bool) (t : Token) (s : String), t.renderBy? hidden = .ok s →
      '\n' ∉ s.toList) ∧
    ∀ (s₁ s₂ : Source) (file₁ file₂ : Text) (options₁ options₂ : Options) (located : Bool)
      (out : String), s₁.Lists file₁ options₁ located out → s₂.Lists file₂ options₂ located out →
      ∃ ts₁ ts₂, (s₁.tokenize file₁ options₁).1 = .ok ts₁ ∧
        (s₂.tokenize file₂ options₂).1 = .ok ts₂ ∧
        (∀ t ∈ ts₁ ++ ts₂, t.render? = .ok t.render) ∧
        List.Forall₂ (fun a b => a.same b) ts₁ ts₂ ∧
        (located → List.Forall₂ Token.SamePlace (Token.withoutEnd ts₁) (Token.withoutEnd ts₂)) := by
  refine ⟨Token.renderBy?_isControl, ?_, ?_, ?_, ?_⟩
  · intro hidden t e
    rw [show 4300 = Numeral.digitLimit from rfl]
    exact Token.renderBy?_eq_error_iff
  · intro hidden a b s s' ha hb
    rw [Token.renderBy?_eq_ok_iff] at ha hb
    rw [← ha.2, ← hb.2]
    exact Token.renderBy_eq_iff a b
  · intro hidden t s hs
    rw [← (Token.renderBy?_eq_ok_iff.mp hs).2]
    exact t.lineFeed_not_mem_renderBy
  · intro s₁ s₂ file₁ file₂ options₁ options₂ located out h₁ h₂
    exact h₁.same_tokens h₂

/-- Two sources that differ in their blanks, in a needless zero and in their names. -/
theorem listings_unambiguous_spaced :
    let s₁ : Source := .bytes [120, 32, 53]
    let s₂ : Source := .text "x\n05"
    let out := "Token(IDENT, 'x')\nToken(INT, 5)\n"
    s₁.Lists defaultName ⟨false, false⟩ false out ∧ s₂.Lists "a.mk" ⟨true, true⟩ false out ∧
      ∃ ts₁ ts₂, (s₁.tokenize defaultName ⟨false, false⟩).1 = .ok ts₁ ∧
        (s₂.tokenize "a.mk" ⟨true, true⟩).1 = .ok ts₂ ∧
        List.Forall₂ (fun a b => a.same b) ts₁ ts₂ := by
  intro s₁ s₂ out
  have h₁ : s₁.Lists defaultName ⟨false, false⟩ false out :=
    ⟨.start [120, 32, 53] defaultName ⟨false, false⟩, rfl, by decide +kernel⟩
  have h₂ : s₂.Lists "a.mk" ⟨true, true⟩ false out :=
    ⟨.start [120, 10, 48, 53] "a.mk" ⟨true, true⟩, by decide +kernel, by decide +kernel⟩
  obtain ⟨-, -, -, -, hlisted⟩ := listings_unambiguous
  obtain ⟨ts₁, ts₂, hts₁, hts₂, -, hsame, -⟩ := hlisted s₁ s₂ _ _ _ _ false out h₁ h₂
  exact ⟨h₁, h₂, ts₁, ts₂, hts₁, hts₂, hsame⟩

/-- A blank at the end of a source changes the place of the end token, and nothing in the located
listing. And there are integers that are too long to be shown. -/
theorem end_place_not_told :
    let s₁ : Source := .text "x"
    let s₂ : Source := .text "x "
    let out := "1:1\tToken(IDENT, 'x')\n"
    let word : Token := ⟨.identifier, .text "x", some ⟨defaultName, 1, 1⟩⟩
    s₁.Lists defaultName ⟨false, false⟩ true out ∧ s₂.Lists defaultName ⟨false, false⟩ true out ∧
      (s₁.tokenize defaultName ⟨false, false⟩).1 =
        .ok [word, ⟨.endOfInput, .absent, some ⟨defaultName, 1, 2⟩⟩] ∧
      (s₂.tokenize defaultName ⟨false, false⟩).1 =
        .ok [word, ⟨.endOfInput, .absent, some ⟨defaultName, 1, 3⟩⟩] ∧
      ∃ n : Int, (Token.mk .integer (.number n) none).render? = .error .tooLong := by
  intro s₁ s₂ out word
  have h₁ : s₁.Lists defaultName ⟨false, false⟩ true out :=
    ⟨.start [120] defaultName ⟨false, false⟩, by decide +kernel, by decide +kernel⟩
  have h₂ : s₂.Lists defaultName ⟨false, false⟩ true out :=
    ⟨.start [120, 32] defaultName ⟨false, false⟩, by decide +kernel, by decide +kernel⟩
  refine ⟨h₁, h₂, by decide +kernel, by decide +kernel, (10 ^ Numeral.digitLimit : Nat), ?_⟩
  rw [← Token.renderBy?_isControl, Token.renderBy?_eq_error_iff]
  exact ⟨rfl, _, rfl, (Int.natAbs_natCast _).ge⟩

end Source

end MonkeyScan
