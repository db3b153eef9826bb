import Mathlib.Data.Stream.Init
import MonkeyScan.Proofs.Tracking

/-!
# MonkeyScan.Proofs.Consumption

A lexer that is used in several ways at once: asked for its next token, drained, drawn from through
any number of streams, its blanks skipped. `Lexer.outcomes` is all that a lexer has yet to give, an
endless sequence that repeats the end token.

* `Lexer.exists_outcomes_eq`: it starts with the items of the scan and goes on with the last one.
* `Session.On.act`: a use takes from the front of this sequence what it hands out, and leaves the
  rest in place. Skipping blanks takes nothing.
* `Session.lookup_after`: a stream is finished when it has handed out an end token or a diagnostic
  since it was opened.
* `Session.consumed_in_order`: so everything comes out once and in order, whoever asks.
-/

namespace MonkeyScan

open Grammar

def Reply.outcomes : Reply → List Outcome
  | .token o => [o]
  | .tokens ts stoppedBy => ts.map .ok ++ stoppedBy.toList.map .error
  | _ => []

namespace Lexer

/-! ## What a lexer has yet to give -/

/-- The outcomes of `next`, called again and again. -/
def outcomes (lx : Lexer) : Stream' Outcome :=
  Stream'.corec (fun lx => lx.next.result) (fun lx => lx.next.lexer) lx

theorem outcomes_eq (lx : Lexer) :
    lx.outcomes = [lx.next.result] ++ₛ lx.next.lexer.outcomes :=
  Stream'.corec_eq _ _ _

theorem outcomes_skipBlanks (lx : Lexer) : lx.skipBlanks.outcomes = lx.outcomes := by
  rw [outcomes_eq, outcomes_eq lx, next_skipBlanks]

/-- Behind the last lexeme there is the end token again and again. -/
theorem outcomes_at_end {lx : Lexer} (h : lx.cursor.rest.dropWhile Byte.isBlank = []) :
    lx.outcomes = Stream'.const (.ok lx.skipBlanks.endToken) := by
  have hcons : lx.outcomes = [.ok lx.skipBlanks.endToken] ++ₛ lx.outcomes := by
    conv_lhs => rw [outcomes_eq, next_eq_end h, outcomes_skipBlanks]
  ext k
  induction k with
  | zero =>
    rw [hcons]
    rfl
  | succ k ih =>
    rw [hcons]
    exact ih

theorem exists_outcomes_eq (lx : Lexer) :
    ∃ init last, lx.items.result.map Item.outcome = init ++ [last] ∧
      lx.outcomes = init ++ₛ Stream'.const last := by
  induction lx using scan_induction with
  | done lx h =>
    refine ⟨[], .ok lx.skipBlanks.endToken, ?_, outcomes_at_end h⟩
    rw [items_eq_end h]
    rfl
  | step lx l b more h ih =>
    obtain ⟨init, last, hitems, houtcomes⟩ := ih
    refine ⟨lx.next.result :: init, last, ?_, ?_⟩
    · rw [h.items_eq, List.map_cons, hitems]
      rfl
    · rw [outcomes_eq, houtcomes]
      rfl

/-- Behind the last item the end token comes again and again. -/
theorem getElem?_items (lx : Lexer) (k : Nat) :
    (lx.items.result.map Item.outcome)[min k (lx.items.result.length - 1)]? =
      some (lx.outcomes.get k) := by
  obtain ⟨init, last, hitems, houtcomes⟩ := lx.exists_outcomes_eq
  have hlength : lx.items.result.length - 1 = init.length := by
    have := congrArg List.length hitems
    rw [List.length_map, List.length_append, List.length_singleton] at this
    omega
  rw [hitems, hlength, houtcomes]
  rcases Nat.lt_or_ge k init.length with hlt | hge
  · rw [Nat.min_eq_left hlt.le, List.getElem?_append_left hlt, Stream'.get_append_left _ _ _ hlt,
      List.getElem?_eq_getElem hlt]
  · obtain ⟨n, rfl⟩ := Nat.exists_eq_add_of_le hge
    rw [Nat.min_eq_right hge, List.getElem?_concat_length, Stream'.get_append_right,
      Stream'.get_const]

/-- A drain takes from the front, up to the first outcome that stops it. -/
theorem exists_drain_eq (lx : Lexer) :
    ∃ first last, (Reply.tokens lx.drain.result.1 lx.drain.result.2).outcomes = first ++ [last] ∧
      (∀ o ∈ first, ¬ o.finishes) ∧ last.finishes ∧
      lx.outcomes = (first ++ [last]) ++ₛ lx.drain.lexer.outcomes := by
  induction lx using scan_induction with
  | done lx h =>
    refine ⟨[], .ok lx.skipBlanks.endToken, ?_, by simp, rfl, ?_⟩
    · rw [drain_eq_end h]
      rfl
    · rw [drain_eq_end h, outcomes_eq, next_eq_end h]
      rfl
  | step lx l b more h ih =>
    cases hr : lx.next.result with
    | error d =>
      refine ⟨[], .error d, ?_, by simp, rfl, ?_⟩
      · rw [drain_eq_error hr]
        rfl
      · rw [drain_eq_error hr, outcomes_eq, hr]
        rfl
    | ok t =>
      have ht := h.not_isEnd_of_ok hr
      obtain ⟨first, last, houtcomes, hfirst, hlast, hstream⟩ := ih
      refine ⟨.ok t :: first, last, ?_, List.forall_mem_cons.mpr ⟨ht, hfirst⟩, hlast, ?_⟩
      · rw [drain_eq_token hr ht]
        exact congrArg (Except.ok t :: ·) houtcomes
      · rw [drain_eq_token hr ht, outcomes_eq, hr, hstream]
        rfl

end Lexer

/-! ## Sessions on one lexer -/

/-- A way to use the one lexer of a session. -/
inductive Use where
  | next
  | drain
  | skipBlanks
  | openStream (name : String)
  | pull (name : String)

def Use.act : Use → Act
  | .next => .ask 0 .next
  | .drain => .ask 0 .drain
  | .skipBlanks => .ask 0 .skipBlanks
  | .openStream name => .openStream 0 name
  | .pull name => .pull name

namespace Session

/-- Everything that some acts hand out, in the order of time. -/
def handedOut (s : Session) (acts : List Act) : List Outcome :=
  (s.run acts).flatMap fun effect => effect.reply.outcomes

theorem handedOut_cons (s : Session) (a : Act) (acts : List Act) :
    s.handedOut (a :: acts) = (s.act a).reply.outcomes ++ (s.act a).session.handedOut acts :=
  rfl

/-- The session has this one lexer, and all of its streams draw from it. -/
structure On (s : Session) (lx : Lexer) : Prop where
  lexers : s.lexers = [lx]
  streams : ∀ name stream, s.streams.lookup name = some stream → stream.lexer = 0

theorem on_opened (source : Bytes) (file : Text) (options : Options) (shared : Bool) :
    (opened [(source, file, options)] shared).On (Lexer.start source file options) where
  lexers := rfl
  streams := by
    intro name stream h
    cases h

theorem ask_eq {s : Session} {lx : Lexer} (h : s.On lx) (request : Request)
    (hassign : ∀ change, request ≠ .assign change) :
    s.ask 0 request = ⟨(lx.answer request).result, (lx.answer request).events,
      { s with lexers := [(lx.answer request).lexer] }⟩ := by
  have hget : s.lexers[0]? = some lx := by
    rw [h.lexers]
    rfl
  have hshare : s.share request (s.lexers.set 0 (lx.answer request).lexer) =
      [(lx.answer request).lexer] := by
    rw [h.lexers]
    unfold share
    split
    · exact absurd rfl (hassign _)
    · rfl
  simp only [ask, hget, hshare]

/-- A draw from a stream that is there and not finished is a call of `next`; any other does
nothing. -/
theorem On.pull_cases {s : Session} {lx : Lexer} (h : s.On lx) (n : String) :
    (s.streams.lookup n = none ∧ s.pull n = ⟨.missing, [], s⟩) ∨
    (∃ stream, s.streams.lookup n = some stream ∧ stream.finished = true ∧
      s.pull n = ⟨.finished, [], s⟩) ∨
    ∃ stream, s.streams.lookup n = some stream ∧ stream.finished = false ∧
      s.pull n = ⟨.token lx.next.result, lx.next.events,
        { s with
          lexers := [lx.next.lexer]
          streams := (n, { stream with finished := lx.next.result.finishes }) :: s.streams }⟩ := by
  cases hlookup : s.streams.lookup n with
  | none => exact .inl ⟨rfl, by simp only [pull, hlookup]⟩
  | some stream =>
    cases hf : stream.finished with
    | true => exact .inr (.inl ⟨stream, rfl, hf, by simp only [pull, hlookup, hf, if_true]⟩)
    | false =>
      refine .inr (.inr ⟨stream, rfl, hf, ?_⟩)
      have hget : s.lexers[stream.lexer]? = some lx := by
        rw [h.streams n stream hlookup, h.lexers]
        rfl
      have hset : s.lexers.set stream.lexer lx.next.lexer = [lx.next.lexer] := by
        rw [h.streams n stream hlookup, h.lexers]
        rfl
      simp only [pull, hlookup, hf, hget, hset]
      rfl

theorem lookup_cons_eq (streams : List (String × Stream)) (stream : Stream) (name n : String) :
    ((n, stream) :: streams).lookup name = if name = n then some stream else streams.lookup name := by
  by_cases hn : name = n
  · rw [hn, List.lookup_cons_self, if_pos rfl]
  · rw [List.lookup_cons, beq_eq_false_iff_ne.mpr hn, if_neg hn]

/-- A stream that is drawn from is finished by what it hands out, if by anything. -/
theorem lookup_pull {s : Session} {lx : Lexer} (h : s.On lx) (n name : String) :
    (s.pull n).session.streams.lookup name =
      if name = n then
        (s.streams.lookup name).map fun stream =>
          { stream with finished := stream.finished || lx.next.result.finishes }
      else s.streams.lookup name := by
  by_cases hn : name = n
  · subst hn
    rw [if_pos rfl]
    rcases h.pull_cases name with ⟨hlookup, hpull⟩ | ⟨stream, hlookup, hf, hpull⟩ |
      ⟨stream, hlookup, hf, hpull⟩
    · rw [hpull, hlookup]
      rfl
    · rw [hpull, hlookup, Option.map_some, hf, Bool.true_or, ← hf]
    · rw [hpull, hlookup, Option.map_some, hf, Bool.false_or]
      exact List.lookup_cons_self
  · rw [if_neg hn]
    rcases h.pull_cases n with ⟨-, hpull⟩ | ⟨stream, -, -, hpull⟩ | ⟨stream, -, -, hpull⟩
    · rw [hpull]
    · rw [hpull]
    · rw [hpull, lookup_cons_eq, if_neg hn]

theorem On.pull_streams {s : Session} {lx : Lexer} (h : s.On lx) (n name : String) (stream : Stream)
    (hlookup : (s.pull n).session.streams.lookup name = some stream) : stream.lexer = 0 := by
  rw [lookup_pull h] at hlookup
  split at hlookup
  · obtain ⟨old, hold, rfl⟩ := Option.map_eq_some_iff.mp hlookup
    exact h.streams name old hold
  · exact h.streams name stream hlookup

theorem On.openStream {s : Session} {lx : Lexer} (h : s.On lx) (n : String) :
    (s.act (.openStream 0 n)).session.On lx where
  lexers := h.lexers
  streams := by
    intro name stream hlookup
    rw [show (s.act (.openStream 0 n)).session.streams = (n, { lexer := 0 }) :: s.streams from rfl,
      lookup_cons_eq] at hlookup
    split at hlookup
    · cases hlookup
      rfl
    · exact h.streams name stream hlookup

/-- A use takes from the front of what the lexer has yet to give. -/
theorem On.act {s : Session} {lx : Lexer} (h : s.On lx) (u : Use) :
    ∃ lx', (s.act u.act).session.On lx' ∧
      lx.outcomes = (s.act u.act).reply.outcomes ++ₛ lx'.outcomes := by
  cases u with
  | next =>
    simp only [Use.act, Session.act, ask_eq h .next (by simp)]
    exact ⟨lx.next.lexer, ⟨rfl, h.streams⟩, lx.outcomes_eq⟩
  | drain =>
    simp only [Use.act, Session.act, ask_eq h .drain (by simp)]
    obtain ⟨first, last, houtcomes, -, -, hstream⟩ := lx.exists_drain_eq
    rw [← houtcomes] at hstream
    exact ⟨lx.drain.lexer, ⟨rfl, h.streams⟩, hstream⟩
  | skipBlanks =>
    simp only [Use.act, Session.act, ask_eq h .skipBlanks (by simp)]
    exact ⟨lx.skipBlanks, ⟨rfl, h.streams⟩, lx.outcomes_skipBlanks.symm⟩
  | openStream n => exact ⟨lx, h.openStream n, rfl⟩
  | pull n =>
    have hstreams := h.pull_streams n
    simp only [Use.act, Session.act]
    rcases h.pull_cases n with ⟨-, hpull⟩ | ⟨stream, -, -, hpull⟩ | ⟨stream, -, -, hpull⟩
    · rw [hpull]
      exact ⟨lx, h, rfl⟩
    · rw [hpull]
      exact ⟨lx, h, rfl⟩
    · rw [hpull] at hstreams ⊢
      exact ⟨lx.next.lexer, ⟨rfl, hstreams⟩, lx.outcomes_eq⟩

/-- Nothing is lost, repeated or put out of order: what has been handed out, and then what the lexer
has yet to give, is what it had to give at first. -/
theorem On.after {s : Session} {lx : Lexer} (h : s.On lx) (uses : List Use) :
    ∃ lx', (s.after (uses.map Use.act)).On lx' ∧
      lx.outcomes = s.handedOut (uses.map Use.act) ++ₛ lx'.outcomes := by
  induction uses generalizing s lx with
  | nil => exact ⟨lx, h, rfl⟩
  | cons u uses ih =>
    obtain ⟨lx₁, h₁, hfirst⟩ := h.act u
    obtain ⟨lx₂, h₂, hmore⟩ := ih h₁
    refine ⟨lx₂, ?_, ?_⟩
    · rw [List.map_cons, after_cons]
      exact h₂
    · rw [List.map_cons, handedOut_cons, Stream'.append_append_stream, ← hmore, hfirst]

/-! ## Streams -/

/-- A stream has handed out an end token or a diagnostic, and was not opened again since then. -/
def Ended (s : Session) (acts : List Act) (name : String) : Prop :=
  ∃ before later o, acts = before ++ .pull name :: later ∧
    ((s.after before).pull name).reply = .token o ∧ o.finishes ∧ ∀ i, .openStream i name ∉ later

theorem not_ended_nil (s : Session) (name : String) : ¬ s.Ended [] name := by
  rintro ⟨before, later, o, hacts, -⟩
  cases before <;> cases hacts

theorem ended_concat_iff (s : Session) (acts : List Act) (a : Act) (name : String) :
    s.Ended (acts ++ [a]) name ↔
      (a = .pull name ∧ ∃ o, ((s.after acts).pull name).reply = .token o ∧ o.finishes) ∨
        s.Ended acts name ∧ ∀ i, a ≠ .openStream i name := by
  constructor
  · rintro ⟨before, later, o, hacts, hreply, ho, hlater⟩
    rcases List.eq_nil_or_concat' later with rfl | ⟨later, last, rfl⟩
    · obtain ⟨rfl, hlast⟩ := List.append_inj' hacts rfl
      exact .inl ⟨List.singleton_inj.mp hlast, o, hreply, ho⟩
    · rw [← List.cons_append, ← List.append_assoc] at hacts
      obtain ⟨rfl, hlast⟩ := List.append_inj' hacts rfl
      obtain rfl := List.singleton_inj.mp hlast
      refine .inr ⟨⟨before, later, o, rfl, hreply, ho, fun i hi => hlater i ?_⟩, fun i hi => ?_⟩
      · exact List.mem_append_left _ hi
      · exact hlater i (by simp [hi])
  · rintro (⟨rfl, o, hreply, ho⟩ | ⟨⟨before, later, o, rfl, hreply, ho, hlater⟩, ha⟩)
    · exact ⟨acts, [], o, rfl, hreply, ho, by simp⟩
    · refine ⟨before, later ++ [a], o, by simp, hreply, ho, fun i hi => ?_⟩
      rcases List.mem_append.mp hi with hi | hi
      · exact hlater i hi
      · exact ha i (List.mem_singleton.mp hi).symm

theorem streams_ask (s : Session) (i : Nat) (request : Request) :
    (s.ask i request).session.streams = s.streams := by
  unfold ask
  split <;> rfl

/-- What the table of streams says of a stream that was opened. -/
theorem lookup_after {s : Session} {lx : Lexer} (h : s.On lx) (uses : List Use)
    (name : String) :
    (s.Ended (uses.map Use.act) name →
      (s.after (uses.map Use.act)).streams.lookup name = some ⟨0, true⟩) ∧
    (¬ s.Ended (uses.map Use.act) name → .openStream 0 name ∈ uses.map Use.act →
      (s.after (uses.map Use.act)).streams.lookup name = some ⟨0, false⟩) := by
  induction uses using List.reverseRecOn with
  | nil => exact ⟨fun hended => absurd hended (s.not_ended_nil name), fun _ hopened => by cases hopened⟩
  | append_singleton uses u ih =>
    obtain ⟨lx', hon, -⟩ := h.after uses
    rw [List.map_append, List.map_singleton, after_concat, ended_concat_iff]
    generalize s.after (uses.map Use.act) = t at ih hon ⊢
    cases u with
    | next => simpa [Use.act, act, streams_ask] using ih
    | drain => simpa [Use.act, act, streams_ask] using ih
    | skipBlanks => simpa [Use.act, act, streams_ask] using ih
    | openStream n =>
      have hlookup : (t.act (Use.openStream n).act).session.streams.lookup name =
          if name = n then some ⟨0, false⟩ else t.streams.lookup name := lookup_cons_eq _ _ _ _
      rw [hlookup]
      by_cases hn : name = n
      · simp [Use.act, hn]
      · simpa [Use.act, hn, Ne.symm hn] using ih
    | pull n =>
      have hlookup := lookup_pull hon n name
      by_cases hn : name = n
      · subst hn
        simp only [Use.act, act] at ih ⊢
        rcases hon.pull_cases name with ⟨hold, hpull⟩ | ⟨stream, hold, hf, hpull⟩ |
          ⟨stream, hold, hf, hpull⟩
        · simpa [hpull] using ih
        · simpa [hpull] using ih
        · have hlive : ¬ s.Ended (uses.map Use.act) name := by
            intro hended
            have := ih.1 hended
            rw [hold, Option.some.injEq] at this
            rw [this] at hf
            cases hf
          rw [hlookup, if_pos rfl, hold, Option.map_some, hf, Bool.false_or,
            show stream.lexer = 0 from hon.streams name stream hold, hpull]
          cases hr : lx'.next.result.finishes with
          | true => simp [hr]
          | false => simp [hr, hlive]
      · rw [if_neg hn] at hlookup
        simpa [Use.act, act, hlookup, Ne.symm hn] using ih

/-! ## Order -/

/-- What comes out of a scan with these items at index `k`, where the last item comes again and
again. -/
def due (items : List Outcome) (k : Nat) : Option Outcome :=
  items[min k (items.length - 1)]?

/-- Some acts have handed out the items of a scan in their order, and whatever is asked next, by
whichever way, goes on with the item that is due. -/
structure InOrder (items : List Outcome) (s : Session) (acts : List Act) : Prop where
  handedOut : ∀ k o, (s.handedOut acts)[k]? = some o → due items k = some o
  next : ∃ o, due items (s.handedOut acts).length = some o ∧
    ((s.after acts).act (.ask 0 .next)).reply = .token o
  drain : ∃ first last,
    ((s.after acts).act (.ask 0 .drain)).reply.outcomes = first ++ [last] ∧
      (∀ o ∈ first, ¬ o.finishes) ∧ last.finishes ∧
      ∀ k o, (first ++ [last])[k]? = some o → due items ((s.handedOut acts).length + k) = some o
  /-- A stream that has ended gives nothing and touches nothing. -/
  ended : ∀ name, s.Ended acts name →
    (s.after acts).act (.pull name) = ⟨.finished, [], s.after acts⟩
  live : ∀ name, .openStream 0 name ∈ acts → ¬ s.Ended acts name →
    ∃ o, due items (s.handedOut acts).length = some o ∧
      ((s.after acts).act (.pull name)).reply = .token o
  /-- A stream opened only now takes up where the others are. -/
  fresh : ∀ name, ∃ o, due items (s.handedOut acts).length = some o ∧
    ((s.after (acts ++ [.openStream 0 name])).act (.pull name)).reply = .token o

theorem due_eq {lx lx' : Lexer} {given : List Outcome} (h : lx.outcomes = given ++ₛ lx'.outcomes)
    (k : Nat) :
    due (lx.items.result.map Item.outcome) (given.length + k) = some (lx'.outcomes.get k) := by
  rw [due, List.length_map, Lexer.getElem?_items, h, Stream'.get_append_right]

theorem due_given {lx lx' : Lexer} {given : List Outcome} (h : lx.outcomes = given ++ₛ lx'.outcomes)
    {k : Nat} {o : Outcome} (hk : given[k]? = some o) :
    due (lx.items.result.map Item.outcome) k = some o := by
  obtain ⟨hlt, rfl⟩ := List.getElem?_eq_some_iff.mp hk
  rw [due, List.length_map, Lexer.getElem?_items, h, Stream'.get_append_left _ _ _ hlt]

theorem pull_live {s : Session} {lx : Lexer} (h : s.On lx) {name : String}
    (hlookup : s.streams.lookup name = some ⟨0, false⟩) :
    (s.act (.pull name)).reply = .token lx.next.result := by
  rcases h.pull_cases name with ⟨hold, -⟩ | ⟨stream, hold, hf, -⟩ | ⟨stream, -, -, hpull⟩
  · rw [hlookup] at hold
    cases hold
  · rw [hlookup] at hold
    cases hold
    cases hf
  · rw [act, hpull]

theorem pull_ended {s : Session} {lx : Lexer} (h : s.On lx) {name : String}
    (hlookup : s.streams.lookup name = some ⟨0, true⟩) :
    s.act (.pull name) = ⟨.finished, [], s⟩ := by
  rcases h.pull_cases name with ⟨hold, -⟩ | ⟨stream, -, -, hpull⟩ | ⟨stream, hold, hf, -⟩
  · rw [hlookup] at hold
    cases hold
  · rw [act, hpull]
  · rw [hlookup] at hold
    cases hold
    cases hf

/-- However a lexer is used, in whatever mixture, the items of its scan are handed out once and in
order, then the end token again and again. -/
theorem consumed_in_order (source : Bytes) (file : Text) (options : Options) (shared : Bool)
    (uses : List Use) :
    InOrder ((Lexer.start source file options).items.result.map Item.outcome)
      (opened [(source, file, options)] shared) (uses.map Use.act) := by
  have hopened := on_opened source file options shared
  obtain ⟨lx, hon, hstream⟩ := hopened.after uses
  have hdue := due_eq hstream 0
  refine ⟨fun k o hk => due_given hstream hk, ⟨_, hdue, ?_⟩, ?_, fun name hended => ?_,
    fun name hopen hlive => ⟨_, hdue, ?_⟩, fun name => ⟨_, hdue, ?_⟩⟩
  · rw [act, ask_eq hon .next (by simp)]
    rfl
  · obtain ⟨first, last, houtcomes, hfirst, hlast, hdrain⟩ := lx.exists_drain_eq
    refine ⟨first, last, ?_, hfirst, hlast, fun k o hk => ?_⟩
    · rw [act, ask_eq hon .drain (by simp)]
      exact houtcomes
    · obtain ⟨hlt, rfl⟩ := List.getElem?_eq_some_iff.mp hk
      rw [due_eq hstream k, hdrain, Stream'.get_append_left _ _ _ hlt]
  · exact pull_ended hon ((lookup_after hopened uses name).1 hended)
  · exact pull_live hon ((lookup_after hopened uses name).2 hlive hopen)
  · obtain ⟨lx', hon', hsame⟩ := hon.act (.openStream name)
    rw [after_concat]
    refine (pull_live hon' List.lookup_cons_self).trans ?_
    rw [hsame]
    rfl

end Session
end MonkeyScan
