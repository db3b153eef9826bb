import MonkeyScan.Proofs.Consumption
import MonkeyScan.Proofs.Failing
import MonkeyScan.Proofs.Reporting

/-!
# MonkeyScan.Proofs.Delivery

The ways to read a whole source: pull a stream until it is finished, drain the lexer, ask for all
tokens at once, list them. Each goes on in its own way and stops at the end or at a diagnostic.

* `Lexer.ComesTo`: what calls of `next` come to, the tokens up to the end token or up to a first
  diagnostic. `Lexer.comesTo_of_items` tells it from the items of the scan.
* `Lexer.ComesTo.drain`, `Lexer.ComesTo.listing`, `Session.run_pulls`: what each way makes of it.
* `Source.drivers_agree`: so all of them deliver the same tokens, stop at the same diagnostic, and
  record the same.
-/

namespace MonkeyScan

open Grammar

namespace Lexer

/-- The first `n` calls of `next`. -/
def calls (lx : Lexer) : Nat → List (Step Outcome)
  | 0 => []
  | n + 1 => lx.next :: lx.next.lexer.calls n

/-- What the first `n` calls of `next` record. -/
def recorded (lx : Lexer) (n : Nat) : List Event :=
  (lx.calls n).flatMap Step.events

theorem recorded_succ (lx : Lexer) (n : Nat) :
    lx.recorded (n + 1) = lx.next.events ++ lx.next.lexer.recorded n :=
  List.flatMap_cons

theorem recorded_one (lx : Lexer) : lx.recorded 1 = lx.next.events :=
  List.append_nil _

/-- So many calls of `next` give these tokens, the end token last, or they come to a diagnostic
behind them. -/
inductive ComesTo : Lexer → Nat → List Token → Option Diagnostic → Prop where
  | finish {lx : Lexer} (h : lx.cursor.rest.dropWhile Byte.isBlank = []) :
      ComesTo lx 1 [lx.skipBlanks.endToken] none
  | stop {lx : Lexer} {d : Diagnostic} (h : lx.next.result = .error d) : ComesTo lx 1 [] (some d)
  | token {lx : Lexer} {n : Nat} {t : Token} {ts : List Token} {stop : Option Diagnostic}
      (h : lx.next.result = .ok t) (ht : ¬ t.isEnd) (more : ComesTo lx.next.lexer n ts stop) :
      ComesTo lx (n + 1) (t :: ts) stop

theorem items_of_not_isEnd {lx : Lexer} (hend : ¬ lx.next.result.isEnd) :
    lx.items.result.map Item.outcome =
      lx.next.result :: lx.next.lexer.items.result.map Item.outcome := by
  obtain ⟨l, b, more, h⟩ := exists_ahead hend
  rw [h.items_eq, List.map_cons]

theorem items_eq_calls (lx : Lexer) :
    lx.items.result.map Item.outcome = (lx.calls lx.items.result.length).map Step.result := by
  induction lx using scan_induction with
  | done lx h =>
    rw [items_eq_end h]
    show [Except.ok lx.skipBlanks.endToken] = [lx.next.result]
    rw [next_eq_end h]
  | step lx l b more h ih =>
    rw [h.items_eq, List.map_cons, ih]
    rfl

/-- The items of a scan are tokens, up to the end or up to a first diagnostic. -/
theorem comesTo_of_items {lx : Lexer} {ts : List Token} {stop : Option Diagnostic}
    {more : List Outcome} (h : lx.items.result.map Item.outcome = ts.map .ok ++ more)
    (hstop : more.head? = stop.map .error) :
    lx.ComesTo (ts.length + stop.toList.length) ts stop := by
  induction lx using scan_induction generalizing ts with
  | done lx hnil =>
    rw [items_eq_end hnil, List.map_singleton] at h
    cases ts with
    | nil =>
      rw [List.map_nil, List.nil_append] at h
      rw [← h] at hstop
      cases stop <;> cases hstop
    | cons t ts =>
      rw [List.map_cons, List.cons_append, List.cons.injEq] at h
      obtain ⟨hts, rfl⟩ := List.append_eq_nil_iff.mp h.2.symm
      obtain rfl := List.map_eq_nil_iff.mp hts
      obtain rfl := Except.ok.inj h.1
      cases stop with
      | none => exact .finish hnil
      | some d => cases hstop
  | step lx l b rest hahead ih =>
    rw [hahead.items_eq, List.map_cons] at h
    cases ts with
    | nil =>
      rw [List.map_nil, List.nil_append] at h
      rw [← h] at hstop
      cases stop with
      | none => cases hstop
      | some d => exact .stop (Option.some.inj hstop)
    | cons t ts =>
      rw [List.map_cons, List.cons_append, List.cons.injEq] at h
      rw [List.length_cons, Nat.succ_add]
      exact .token h.1 (hahead.not_isEnd_of_ok h.1) (ih h.2)

end Lexer

/-- The records in an output, in their order. -/
def Output.events (out : Output) : List Event :=
  out.filterMap fun
    | .record e => some e
    | _ => none

theorem Output.events_append (out more : Output) :
    (out ++ more).events = out.events ++ more.events :=
  List.filterMap_append

theorem Output.events_records (events : List Event) :
    Output.events (events.map Piece.record) = events := by
  induction events with
  | nil => rfl
  | cons e events ih => exact congrArg (e :: ·) ih

/-- The tokens that a listing shows. -/
def Token.withoutEnd (ts : List Token) : List Token :=
  ts.filter fun t => !t.isEnd

theorem Token.withoutEnd_cons {t : Token} (h : ¬ t.isEnd) (ts : List Token) :
    withoutEnd (t :: ts) = t :: withoutEnd ts :=
  List.filter_cons_of_pos (by simpa using h)

namespace Lexer.ComesTo

variable {lx : Lexer} {n : Nat} {ts : List Token} {stop : Option Diagnostic}

theorem drain (h : lx.ComesTo n ts stop) :
    lx.drain.result = (ts, stop) ∧ lx.drain.events = lx.recorded n := by
  induction h with
  | @finish lx h =>
    rw [drain_eq_end h, recorded_one, next_eq_end h]
    exact ⟨rfl, rfl⟩
  | @stop lx d h =>
    rw [drain_eq_error h, recorded_one]
    exact ⟨rfl, rfl⟩
  | @token lx n t ts stop h ht _ ih =>
    rw [drain_eq_token h ht, ih.1, ih.2, recorded_succ]
    exact ⟨rfl, rfl⟩

theorem leading_items (h : lx.ComesTo n ts stop) :
    leading (lx.items.result.map Item.outcome) = Token.withoutEnd ts ∧
      firstDiagnostic (lx.items.result.map Item.outcome) = stop := by
  induction h with
  | @finish lx h =>
    rw [items_eq_end h, List.map_singleton, leading_of_finishes rfl]
    exact ⟨rfl, rfl⟩
  | @stop lx d h =>
    have hend : ¬ lx.next.result.isEnd := by simp [h, Outcome.isEnd]
    rw [items_of_not_isEnd hend, h, leading_of_finishes rfl]
    exact ⟨rfl, rfl⟩
  | @token lx n t ts stop h ht _ ih =>
    have hend : ¬ lx.next.result.isEnd := by rwa [h]
    rw [items_of_not_isEnd hend, h, leading_token_cons ht, Token.withoutEnd_cons ht, ih.1]
    exact ⟨rfl, ih.2⟩

theorem listing (h : lx.ComesTo n ts stop) (located : Bool) :
    (lx.listing located).output.stdout =
        lines ((Token.withoutEnd ts).map (Token.display located)) ∧
      (lx.listing located).count = (Token.withoutEnd ts).length ∧
      (lx.listing located).stoppedBy = stop := by
  obtain ⟨hleading, hstop⟩ := h.leading_items
  obtain ⟨hstdout, -, hcount⟩ := lx.listing_shows located
  rw [hstdout, hcount, (lx.listing_eq located).2, hleading, hstop]
  exact ⟨rfl, rfl, rfl⟩

theorem listing_events (h : lx.ComesTo n ts stop) (located : Bool) :
    (lx.listing located).output.events = lx.recorded n := by
  induction h with
  | @finish lx h =>
    rw [listing_eq_end located h, recorded_one, next_eq_end h]
    rfl
  | @stop lx d h =>
    rw [listing_eq_error located h, recorded_one]
    exact Output.events_records _
  | @token lx n t ts stop h ht _ ih =>
    rw [listing_eq_token located h ht, recorded_succ, Output.events_append, Output.events_records,
      ← ih]
    rfl

end Lexer.ComesTo

/-! ## Streams -/

namespace Session

/-- A stream that is not finished hands out what the lexer gives next, and this may finish it. -/
theorem On.pull_next {s : Session} {lx : Lexer} (h : s.On lx) {name : String}
    (hlookup : s.streams.lookup name = some ⟨0, false⟩) :
    ∃ s', s.act (.pull name) = ⟨.token lx.next.result, lx.next.events, s'⟩ ∧ s'.On lx.next.lexer ∧
      s'.streams.lookup name = some ⟨0, lx.next.result.finishes⟩ := by
  have hstreams := h.pull_streams name
  rcases h.pull_cases name with ⟨hold, -⟩ | ⟨stream, hold, hf, -⟩ | ⟨stream, hold, -, hpull⟩
  · rw [hlookup] at hold
    cases hold
  · rw [hlookup] at hold
    cases hold
    cases hf
  · rw [hlookup] at hold
    cases hold
    rw [hpull] at hstreams
    exact ⟨_, hpull, ⟨rfl, hstreams⟩, List.lookup_cons_self⟩

/-- A pull that finishes the stream, and pulls after it. -/
theorem run_pulls_last {s : Session} {lx : Lexer} (hon : s.On lx) {name : String}
    (hlookup : s.streams.lookup name = some ⟨0, false⟩) (hlast : lx.next.result.finishes = true)
    (more : Nat) :
    (s.run (List.replicate (1 + more) (.pull name))).map Effect.reply =
        .token lx.next.result :: List.replicate more .finished ∧
      (s.run (List.replicate (1 + more) (.pull name))).flatMap Effect.events = lx.recorded 1 := by
  obtain ⟨s', hact, hon', hlookup'⟩ := hon.pull_next hlookup
  rw [hlast] at hlookup'
  have hended : s'.run (List.replicate more (.pull name)) =
      List.replicate more ⟨.finished, [], s'⟩ := by
    induction more with
    | zero => rfl
    | succ more ih =>
      rw [List.replicate_succ, run, pull_ended hon' hlookup', ih, List.replicate_succ]
  rw [Nat.add_comm, List.replicate_succ, run, hact, hended, Lexer.recorded_one]
  simp

/-- Pulls of a stream hand out what calls of `next` come to, and then nothing more. -/
theorem run_pulls {s : Session} {lx : Lexer} (hon : s.On lx) {name : String}
    (hlookup : s.streams.lookup name = some ⟨0, false⟩) {n : Nat} {ts : List Token}
    {stop : Option Diagnostic} (h : lx.ComesTo n ts stop) (more : Nat) :
    (s.run (List.replicate (n + more) (.pull name))).map Effect.reply =
        ts.map (fun t => .token (.ok t)) ++ stop.toList.map (fun d => .token (.error d)) ++
          List.replicate more .finished ∧
      (s.run (List.replicate (n + more) (.pull name))).flatMap Effect.events = lx.recorded n := by
  induction h generalizing s with
  | @finish lx h =>
    have hlast := run_pulls_last hon hlookup (by rw [Lexer.next_eq_end h]; rfl) more
    rw [Lexer.next_eq_end h] at hlast
    exact hlast
  | @stop lx d h =>
    have hlast := run_pulls_last hon hlookup (by rw [h]; rfl) more
    rw [h] at hlast
    exact hlast
  | @token lx n t ts stop h ht _ ih =>
    obtain ⟨s', hact, hon', hlookup'⟩ := hon.pull_next hlookup
    have hlive : lx.next.result.finishes = false := by
      rw [h]
      exact Bool.eq_false_iff.mpr ht
    rw [hlive] at hlookup'
    obtain ⟨hreplies, hevents⟩ := ih hon' hlookup'
    rw [Nat.succ_add, List.replicate_succ, run, hact, List.map_cons, List.flatMap_cons, hreplies,
      hevents, h, Lexer.recorded_succ]
    exact ⟨rfl, rfl⟩

end Session

/-! ## Whole sources -/

namespace Source

/-- Each way to read a source gives these tokens and, if there is one, stops at this diagnostic, and
it records what `n` calls of `next` do. -/
structure Delivers (s : Source) (bs : Bytes) (file : Text) (options : Options) (n : Nat)
    (ts : List Token) (stop : Option Diagnostic) : Prop where
  drained : (Lexer.start bs file options).drain.result = (ts, stop) ∧
    (Lexer.start bs file options).drain.events = (Lexer.start bs file options).recorded n
  /-- A stream gives them one by one, and then no more. -/
  pulled : ∀ (name : String) (more : Nat),
    let effects := (Session.opened [(bs, file, options)] false).run
      (.openStream 0 name :: List.replicate (n + more) (.pull name))
    effects.map Effect.reply =
        .done :: (ts.map (fun t => .token (.ok t)) ++
          stop.toList.map (fun d => .token (.error d)) ++ List.replicate more .finished) ∧
      effects.flatMap Effect.events = (Lexer.start bs file options).recorded n
  /-- A diagnostic leaves nothing of the tokens before it. -/
  tokenized : s.tokenize file options =
    (stop.elim (.ok ts) fun d => .error (.lexical d), (Lexer.start bs file options).recorded n)
  /-- A listing has a line for each token but the end token, and counts these lines. -/
  listed : ∀ located : Bool,
    let listing := (Lexer.start bs file options).listing located
    listing.output.stdout = lines ((Token.withoutEnd ts).map (Token.display located)) ∧
      listing.count = (Token.withoutEnd ts).length ∧ listing.stoppedBy = stop ∧
      listing.output.events = (Lexer.start bs file options).recorded n

theorem delivers {s : Source} {bs : Bytes} (hbytes : s.toBytes = .ok bs) {file : Text}
    {options : Options} {n : Nat} {ts : List Token} {stop : Option Diagnostic}
    (h : (Lexer.start bs file options).ComesTo n ts stop) :
    s.Delivers bs file options n ts stop := by
  refine ⟨h.drain, fun name more => ?_, ?_, fun located => ?_⟩
  · have hon := (Session.on_opened bs file options false).openStream name
    obtain ⟨hreplies, hevents⟩ := Session.run_pulls hon List.lookup_cons_self h more
    exact ⟨congrArg (Reply.done :: ·) hreplies, hevents⟩
  · simp only [tokenize, lexer, hbytes, h.drain.1, h.drain.2]
    cases stop <;> rfl
  · obtain ⟨hstdout, hcount, hstop⟩ := h.listing located
    exact ⟨hstdout, hcount, hstop, h.listing_events located⟩

/-- All ways to read a source agree, whether its scan has a diagnostic or not. A source without
bytes cannot be read at all. -/
theorem drivers_agree (s : Source) (file : Text) (options : Options) :
    (∀ e, s.toBytes = .error e → s.tokenize file options = (.error (.unencodable e), [])) ∧
    ∀ bs, s.toBytes = .ok bs →
      let items := (Lexer.start bs file options).items.result.map Item.outcome
      items = ((Lexer.start bs file options).calls items.length).map Step.result ∧
        (∀ ts : List Token, items = ts.map .ok →
          s.Delivers bs file options items.length ts none) ∧
        ∀ (k : Nat) (ts : List Token) (d : Diagnostic), items.take k = ts.map .ok →
          items[k]? = some (.error d) → s.Delivers bs file options (k + 1) ts (some d) := by
  refine ⟨fun e he => tokenize_of_error he file options, fun bs hbytes => ?_⟩
  intro items
  have hcalls := (Lexer.start bs file options).items_eq_calls
  refine ⟨by rwa [List.length_map], fun ts hts => ?_, fun k ts d hts hd => ?_⟩
  · have hlength : items.length = ts.length := by rw [hts, List.length_map]
    have hsplit : items = ts.map .ok ++ [] := by rw [hts, List.append_nil]
    rw [hlength]
    exact delivers hbytes (@Lexer.comesTo_of_items _ ts none [] hsplit rfl)
  · have hlt := (List.getElem?_eq_some_iff.mp hd).1
    have hlength : k = ts.length := by
      rw [← List.length_take_of_le hlt.le, hts, List.length_map]
    have hsplit : items = ts.map .ok ++ items.drop k := by
      rw [← hts, List.take_append_drop]
    have hhead : (items.drop k).head? = (some d).map .error := by
      rw [List.head?_drop, hd]
      rfl
    subst hlength
    exact delivers hbytes (Lexer.comesTo_of_items hsplit hhead)

/-- A number, and a stray byte at which a strict scan stops, with a word behind it. -/
theorem drivers_agree_stray :
    let items := (Lexer.start [49, 64, 97] defaultName ⟨false, true⟩).items.result.map Item.outcome
    let number : Token := ⟨.integer, .number 1, some ⟨defaultName, 1, 1⟩⟩
    let stray : Diagnostic := ⟨.invalidCharacter 64, some ⟨defaultName, 1, 2⟩, some "1@a"⟩
    items.length = 4 ∧ items.take 1 = [number].map .ok ∧ items[1]? = some (.error stray) ∧
      (Source.text "1@a").toBytes = .ok [49, 64, 97] ∧
      (Source.text "1@a").Delivers [49, 64, 97] defaultName ⟨false, true⟩ 2 [number]
        (some stray) := by
  intro items number stray
  have hbytes : (Source.text "1@a").toBytes = .ok [49, 64, 97] := by decide +kernel
  have htake : items.take 1 = [number].map .ok := by decide +kernel
  have hstray : items[1]? = some (.error stray) := by decide +kernel
  exact ⟨by decide +kernel, htake, hstray, hbytes,
    ((drivers_agree (.text "1@a") defaultName ⟨false, true⟩).2 _ hbytes).2.2 1 [number] stray htake
      hstray⟩

end Source
end MonkeyScan
