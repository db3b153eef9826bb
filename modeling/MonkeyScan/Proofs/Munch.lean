import MonkeyScan.Proofs.Tracking

/-!
# MonkeyScan.Proofs.Munch

Scanning as the grammar defines it. `IsMunch` says of a list of slices that it is a reading of a
source: the slices are in order, only blanks are left out, each slice is the longest lexeme at its
start, and it means what its bytes mean. `items_unique_munch` says that every source has exactly
one reading, and that the scanner finds it.

Both halves go through `MunchFrom`, which cuts off one slice after the other. Its rules are
deterministic (`MunchFrom.unique`) and those of the scanner (`munchFrom_items`), and from the start
of a source they say the same as `IsMunch`.
-/

namespace MonkeyScan

open Grammar

/-- Some bytes of a source, from `start` up to `stop`, and what they mean. -/
structure Slice where
  start : Nat
  stop : Nat
  content : Content

def Slice.bytes (source : Bytes) (p : Slice) : Bytes :=
  (source.drop p.start).take (p.stop - p.start)

def Item.slice (item : Item) : Slice :=
  ⟨item.start, item.stop, item.outcome.content⟩

structure IsMunch (options : Options) (source : Bytes) (slices : List Slice) : Prop where
  ordered : slices.Pairwise fun p q => p.stop ≤ q.start
  blank : ∀ i b, source[i]? = some b → (∀ p ∈ slices, ¬ (p.start ≤ i ∧ i < p.stop)) → Blank b
  longest : ∀ p ∈ slices, IsLongest options.digits (source.drop p.start) (p.stop - p.start)
  meaning : ∀ p ∈ slices, p.content = meaning options.strict (p.bytes source)

/-- The readings of what a source holds from a position on. -/
inductive MunchFrom (options : Options) (source : Bytes) : Nat → List Slice → Prop where
  | done {i : Nat} (h : ∀ j b, i ≤ j → source[j]? = some b → Blank b) : MunchFrom options source i []
  | next {i start n : Nat} {more : List Slice} (hi : i ≤ start)
      (hgap : ∀ j b, i ≤ j → j < start → source[j]? = some b → Blank b)
      (hlong : IsLongest options.digits (source.drop start) n)
      (hmore : MunchFrom options source (start + n) more) :
      MunchFrom options source i
        (⟨start, start + n, meaning options.strict ((source.drop start).take n)⟩ :: more)

/-- The longest lexeme at a place starts with the byte there, which is no blank. -/
theorem head_of_isLongest {digits : Bool} {source : Bytes} {start n : Nat}
    (h : IsLongest digits (source.drop start) n) :
    0 < n ∧ start + n ≤ source.length ∧ ∃ b, source[start]? = some b ∧ ¬ Blank b := by
  obtain ⟨hle, hlex, -⟩ := h
  cases hd : source.drop start with
  | nil =>
    rw [hd, List.take_nil] at hlex
    exact absurd rfl hlex.ne_nil
  | cons b rest =>
    have hget : source[start]? = some b := by
      rw [← List.head?_drop, hd]
      rfl
    have hlt := (List.getElem?_eq_some_iff.mp hget).1
    rw [List.length_drop] at hle
    rw [hd] at hlex
    cases n with
    | zero => exact absurd rfl hlex.ne_nil
    | succ n => exact ⟨by omega, by omega, b, hget, hlex.not_blank b List.mem_cons_self⟩

namespace MunchFrom

variable {options : Options} {source : Bytes}

/-- A slice starts at the first byte that is no blank. -/
theorem start_le {i start start' n' : Nat} (hi : i ≤ start)
    (hgap : ∀ j b, i ≤ j → j < start' → source[j]? = some b → Blank b)
    (hlong : IsLongest options.digits (source.drop start) n') : start' ≤ start := by
  obtain ⟨-, -, b, hget, hb⟩ := head_of_isLongest hlong
  rcases Nat.lt_or_ge start start' with hlt | hge
  · exact absurd (hgap start b hi hlt hget) hb
  · exact hge

theorem unique {i : Nat} {xs ys : List Slice} (hx : MunchFrom options source i xs)
    (hy : MunchFrom options source i ys) : xs = ys := by
  -- both start at the first byte that is no blank, and are as long as the longest lexeme there
  induction hx generalizing ys with
  | done hblank =>
    cases hy with
    | done => rfl
    | @next _ start _ _ hi _ hlong _ =>
      obtain ⟨-, -, b, hget, hb⟩ := head_of_isLongest hlong
      exact absurd (hblank start b hi hget) hb
  | @next i start n more hi hgap hlong _ ih =>
    cases hy with
    | done hblank =>
      obtain ⟨-, -, b, hget, hb⟩ := head_of_isLongest hlong
      exact absurd (hblank start b hi hget) hb
    | @next _ start' n' more' hi' hgap' hlong' hmore' =>
      obtain rfl : start = start' :=
        Nat.le_antisymm (start_le hi' hgap hlong') (start_le hi hgap' hlong)
      obtain rfl := hlong.unique hlong'
      rw [ih hmore']

theorem le_start {i : Nat} {slices : List Slice} (h : MunchFrom options source i slices) :
    ∀ p ∈ slices, i ≤ p.start := by
  induction h with
  | done => simp
  | next hi _ _ _ ih =>
    intro p hp
    rcases List.mem_cons.mp hp with rfl | hp
    · exact hi
    · have := ih p hp
      omega

theorem isMunch {slices : List Slice} (h : MunchFrom options source 0 slices) :
    IsMunch options source slices := by
  suffices hfrom : ∀ i slices, MunchFrom options source i slices →
      slices.Pairwise (fun p q => p.stop ≤ q.start) ∧
      (∀ j b, i ≤ j → source[j]? = some b →
        (∀ p ∈ slices, ¬ (p.start ≤ j ∧ j < p.stop)) → Blank b) ∧
      (∀ p ∈ slices, IsLongest options.digits (source.drop p.start) (p.stop - p.start)) ∧
      ∀ p ∈ slices, p.content = meaning options.strict (p.bytes source) by
    obtain ⟨hordered, hblank, hlongest, hmeaning⟩ := hfrom 0 slices h
    exact ⟨hordered, fun j b => hblank j b (Nat.zero_le j), hlongest, hmeaning⟩
  intro i slices h
  induction h with
  | done hblank => exact ⟨.nil, fun j b hj hget _ => hblank j b hj hget, by simp, by simp⟩
  | @next i start n more hi hgap hlong hmore ih =>
    obtain ⟨hordered, hblank, hlongest, hmeaning⟩ := ih
    refine ⟨.cons (fun q hq => hmore.le_start q hq) hordered, ?_, ?_, ?_⟩
    · intro j b hj hget hout
      rw [List.forall_mem_cons] at hout
      rcases Nat.lt_or_ge j start with hlt | hge
      · exact hgap j b hj hlt hget
      · refine hblank j b ?_ hget hout.2
        have : ¬ (start ≤ j ∧ j < start + n) := hout.1
        omega
    · rw [List.forall_mem_cons]
      exact ⟨by simpa using hlong, hlongest⟩
    · rw [List.forall_mem_cons]
      exact ⟨by simp [Slice.bytes], hmeaning⟩

end MunchFrom

namespace IsMunch

variable {options : Options} {source : Bytes}

theorem munchFrom {slices : List Slice} (h : IsMunch options source slices) :
    MunchFrom options source 0 slices := by
  suffices hfrom : ∀ slices i, (∀ p ∈ slices, i ≤ p.start) →
      slices.Pairwise (fun p q => p.stop ≤ q.start) →
      (∀ j b, i ≤ j → source[j]? = some b →
        (∀ p ∈ slices, ¬ (p.start ≤ j ∧ j < p.stop)) → Blank b) →
      (∀ p ∈ slices, IsLongest options.digits (source.drop p.start) (p.stop - p.start)) →
      (∀ p ∈ slices, p.content = Grammar.meaning options.strict (p.bytes source)) →
      MunchFrom options source i slices from
    hfrom slices 0 (fun _ _ => Nat.zero_le _) h.ordered (fun j b _ => h.blank j b) h.longest
      h.meaning
  intro slices
  induction slices with
  | nil =>
    intro i _ _ hblank _ _
    exact .done fun j b hj hget => hblank j b hj hget (by simp)
  | cons p more ih =>
    intro i hi hordered hblank hlongest hmeaning
    rw [List.forall_mem_cons] at hi hlongest hmeaning
    rw [List.pairwise_cons] at hordered
    obtain ⟨hpos, -, -⟩ := head_of_isLongest hlongest.1
    obtain ⟨n, hn⟩ : ∃ n, p.stop = p.start + n := ⟨p.stop - p.start, by omega⟩
    have hwidth : p.stop - p.start = n := by omega
    -- what lies behind the first slice is read by the rest
    have hmore : MunchFrom options source (p.start + n) more := by
      rw [← hn]
      refine ih p.stop hordered.1 hordered.2 ?_ hlongest.2 hmeaning.2
      intro j b hj hget hout
      refine hblank j b (by omega) hget ?_
      rw [List.forall_mem_cons]
      exact ⟨by omega, hout⟩
    have hfirst : p =
        ⟨p.start, p.start + n, Grammar.meaning options.strict ((source.drop p.start).take n)⟩ := by
      have hc := hmeaning.1
      rw [Slice.bytes, hwidth] at hc
      cases p
      simp only at hn hc
      rw [hn, hc]
    rw [hfirst]
    refine .next hi.1 ?_ (hwidth ▸ hlongest.1) hmore
    intro j b hj hlt hget
    refine hblank j b hj hget ?_
    rw [List.forall_mem_cons]
    refine ⟨by omega, fun q hq => ?_⟩
    have := hordered.1 q hq
    omega

end IsMunch

/-! ## The scanner -/

namespace Lexer

theorem munchFrom_items (lx : Lexer) (ht : lx.cursor.Tracks lx.source)
    (hle : lx.cursor.position ≤ lx.source.length) :
    ∃ slices, lx.items.result.map Item.slice =
        slices ++ [⟨lx.source.length, lx.source.length, .ok (.endOfInput, .absent)⟩] ∧
      MunchFrom lx.options lx.source lx.cursor.position slices := by
  induction lx using scan_induction with
  | done lx hnil =>
    have hend := position_at_end hnil ht hle
    refine ⟨[], ?_, .done fun j b hj hget => ?_⟩
    · rw [items_eq_end hnil, position_skipBlanks ht, hend]
      rfl
    · refine blank_of_gap ht hj ?_ hget
      have := (List.getElem?_eq_some_iff.mp hget).1
      omega
  | step lx l b more h ih =>
    have hdrop := h.drop_source ht
    have hpos := h.position_next ht
    have hlexer : lx.next.lexer.source = lx.source ∧ lx.next.lexer.options = lx.options := by
      rw [h.next_eq]
      exact ⟨rfl, rfl⟩
    rw [hpos, hlexer.1, hlexer.2] at ih
    obtain ⟨slices, hslices, hmunch⟩ := ih (hlexer.1 ▸ tracks_next ht) (h.position_next_le ht)
    have hbytes : (b :: more).take l.bytes.length = l.bytes :=
      (List.prefix_iff_eq_take.mp h.isPrefix).symm
    have hfirst : Item.slice ⟨lx.skipBlanks.cursor.position, lx.next.lexer.cursor.position,
        lx.next.result⟩ =
        ⟨lx.cursor.position + lx.gap, lx.cursor.position + lx.gap + l.bytes.length,
          meaning lx.options.strict
            ((lx.source.drop (lx.cursor.position + lx.gap)).take l.bytes.length)⟩ := by
      rw [hdrop, hbytes, ← h.content, Item.slice, position_skipBlanks ht, hpos, h.next_eq]
    refine ⟨_ :: slices, ?_, .next (Nat.le_add_right _ _) ?_ (hdrop ▸ h.isLongest) hmunch⟩
    · rw [h.items_eq, List.map_cons, hfirst, hslices, List.cons_append]
    · exact fun j c hj hlt hget => blank_of_gap ht hj hlt hget

/-- The scan of a source, up to the first end token, is its only reading and then the end. -/
theorem items_unique_munch (source : Bytes) (file : Text) (options : Options) :
    ∃ slices, (start source file options).items.result.map Item.slice =
        slices ++ [⟨source.length, source.length, .ok (.endOfInput, .absent)⟩] ∧
      IsMunch options source slices ∧
      ∀ other, IsMunch options source other → other = slices := by
  obtain ⟨slices, hitems, hmunch⟩ := munchFrom_items (start source file options)
    (Cursor.tracks_start source) (Nat.zero_le _)
  exact ⟨slices, hitems, hmunch.isMunch, fun other hother => hother.munchFrom.unique hmunch⟩

end Lexer

end MonkeyScan
