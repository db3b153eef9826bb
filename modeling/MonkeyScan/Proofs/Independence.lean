import MonkeyScan.Proofs.Consumption
import MonkeyScan.Proofs.Strictness

/-!
# MonkeyScan.Proofs.Independence

Several lexers side by side, each asked directly and drawn from through streams, in any order. An
act belongs to one lexer: a request to the lexer it is made to, the drawing of a token to the lexer
that the stream was last opened on, whoever draws. `Session.part` takes from a history the acts of
one lexer; on shared options it also keeps, at their places, the assignments to options that were
made through the others.

* `Session.Agrees.step`: a lexer of a session and the same lexer alone stay in step, act by act.
* `Session.lexers_independent`: so a lexer shows what it would show alone.
* `Session.options_shared`: options that are shared are the same in all lexers at all times.
-/

namespace MonkeyScan

/-- What an assignment does to lexers that share their options with the one it is made through. -/
def Change.onOptions (change : Change) : Change :=
  { change with file := none }

theorem Change.applyTo_applyTo (change : Change) (options : Options) :
    change.applyTo (change.applyTo options) = change.applyTo options := by
  obtain ⟨digits, strict, file⟩ := change
  cases digits <;> cases strict <;> rfl

/-- The same act in a session on one lexer. -/
def Act.alone : Act → Act
  | .ask _ request => .ask 0 request
  | .openStream _ name => .openStream 0 name
  | .pull name => .pull name

/-- What lexers see of an act on another one of them: assignments to options that they share. -/
def Act.broadcast? (shared : Bool) (count : Nat) : Act → Option Act
  | .ask i (.assign change) =>
    if shared ∧ i < count then some (.ask 0 (.assign change.onOptions)) else none
  | _ => none

theorem Act.broadcast?_separate (count : Nat) (a : Act) : a.broadcast? false count = none := by
  unfold broadcast?
  split
  · exact if_neg fun h => Bool.false_ne_true h.1
  · rfl

namespace Session

/-! ## Parts of a history -/

/-- The lexer that the stream of this name was opened on, the last time if there are several. -/
def streamOwner (before : List Act) (name : String) : Option Nat :=
  before.reverse.findSome? fun
    | .openStream i n => if n = name then some i else none
    | _ => none

/-- The lexer that an act belongs to, when some acts went before it. -/
def ownerOf (before : List Act) : Act → Option Nat
  | .ask i _ => some i
  | .openStream i _ => some i
  | .pull name => streamOwner before name

/-- What is left of an act for lexer `i` alone, when some acts went before it. -/
def portion? (shared : Bool) (count i : Nat) (before : List Act) (a : Act) : Option Act :=
  if ownerOf before a = some i then some a.alone else a.broadcast? shared count

/-- The acts of lexer `i` among some acts, in their order. On shared options the assignments made
through other lexers stand among them, without the names of sources. -/
def part (shared : Bool) (count i : Nat) (before : List Act) : List Act → List Act
  | [] => []
  | a :: acts =>
    (portion? shared count i before a).toList ++ part shared count i (before ++ [a]) acts

theorem part_concat (shared : Bool) (count i : Nat) (before acts : List Act) (a : Act) :
    part shared count i before (acts ++ [a]) =
      part shared count i before acts ++ (portion? shared count i (before ++ acts) a).toList := by
  induction acts generalizing before with
  | nil => rw [List.append_nil]; exact List.append_nil _
  | cons b acts ih =>
    rw [List.cons_append, part, part, ih, List.append_assoc, List.append_assoc]
    rfl

theorem streamOwner_concat (before : List Act) (a : Act) (name : String) :
    streamOwner (before ++ [a]) name =
      match a with
      | .openStream i n => if n = name then some i else streamOwner before name
      | _ => streamOwner before name := by
  rw [streamOwner, List.reverse_concat, List.findSome?_cons]
  cases a with
  | openStream i n => by_cases hn : n = name <;> simp [hn, streamOwner]
  | ask => rfl
  | pull => rfl

/-! ## One act -/

/-- What a request to one lexer does to the others. -/
def reach (shared : Bool) (request : Request) (lx : Lexer) : Lexer :=
  match shared, request with
  | true, .assign change => { lx with options := change.applyTo lx.options }
  | _, _ => lx

theorem share_eq_map (s : Session) (request : Request) (lexers : List Lexer) :
    s.share request lexers = lexers.map (reach s.shared request) := by
  unfold share reach
  split <;> simp_all

theorem reach_answer (shared : Bool) (request : Request) (lx : Lexer) :
    reach shared request (lx.answer request).lexer = (lx.answer request).lexer := by
  unfold reach
  split
  · simp only [Lexer.answer, Change.applyTo_applyTo]
  · rfl

theorem ask_of_get {s : Session} {i : Nat} {lx : Lexer} (h : s.lexers[i]? = some lx)
    (request : Request) :
    s.ask i request = ⟨(lx.answer request).result, (lx.answer request).events,
      { s with
        lexers := (s.lexers.set i (lx.answer request).lexer).map (reach s.shared request) }⟩ := by
  simp only [ask, h, share_eq_map]

theorem On.getElem?_lexers {t : Session} {lx : Lexer} (h : t.On lx) : t.lexers[0]? = some lx := by
  rw [h.lexers]
  rfl

theorem ask_alone {t : Session} {lx : Lexer} (h : t.On lx) (request : Request) :
    t.ask 0 request = ⟨(lx.answer request).result, (lx.answer request).events,
      { t with lexers := [(lx.answer request).lexer] }⟩ := by
  have hreach : reach t.shared request (lx.answer request).lexer = (lx.answer request).lexer :=
    reach_answer _ _ _
  rw [ask_of_get h.getElem?_lexers, h.lexers, List.set_cons_zero, List.map_singleton, hreach]

/-- A request to a lexer is seen by another one of them as `reach` says. -/
theorem after_broadcast {t : Session} {lx : Lexer} (h : t.On lx) (shared : Bool) {count j : Nat}
    (hj : j < count) (request : Request) :
    t.after ((Act.ask j request).broadcast? shared count).toList =
      { t with lexers := [reach shared request lx] } := by
  have hsame : { t with lexers := [lx] } = t := by rw [← h.lexers]
  cases shared with
  | false =>
    rw [Act.broadcast?_separate]
    exact hsame.symm
  | true =>
    cases request with
    | assign change =>
      have hsome : (Act.ask j (.assign change)).broadcast? true count =
          some (.ask 0 (.assign change.onOptions)) := if_pos ⟨rfl, hj⟩
      rw [hsome]
      exact congrArg Effect.session (ask_alone h (.assign change.onOptions))
    | _ => exact hsame.symm

theorem pull_live_eq {s : Session} {name : String} {j : Nat} {lx : Lexer}
    (hlookup : s.streams.lookup name = some ⟨j, false⟩) (hget : s.lexers[j]? = some lx) :
    s.pull name = ⟨.token lx.next.result, lx.next.events,
      { s with
        lexers := s.lexers.set j lx.next.lexer
        streams := (name, ⟨j, lx.next.result.finishes⟩) :: s.streams }⟩ := by
  simp only [pull, hlookup, hget]
  rfl

theorem pull_finished_eq {s : Session} {name : String} {j : Nat}
    (hlookup : s.streams.lookup name = some ⟨j, true⟩) : s.pull name = ⟨.finished, [], s⟩ := by
  simp only [pull, hlookup, if_true]

/-- A draw from a stream is a call of `next` if the stream is live and has a lexer; any other leaves
the session as it is. -/
theorem pull_session_cases (s : Session) (name : String) :
    (s.pull name).session = s ∨
      ∃ j lx, s.streams.lookup name = some ⟨j, false⟩ ∧ s.lexers[j]? = some lx ∧
        (s.pull name).session = { s with
          lexers := s.lexers.set j lx.next.lexer
          streams := (name, ⟨j, lx.next.result.finishes⟩) :: s.streams } := by
  cases hlookup : s.streams.lookup name with
  | none => exact .inl (by simp only [pull, hlookup])
  | some stream =>
    obtain ⟨j, finished⟩ := stream
    cases finished with
    | true => exact .inl (by rw [pull_finished_eq hlookup])
    | false =>
      cases hget : s.lexers[j]? with
      | none => exact .inl (by simp only [pull, hlookup, hget]; rfl)
      | some lx => exact .inr ⟨j, lx, rfl, hget, by rw [pull_live_eq hlookup hget]⟩

/-- A draw does not bind a stream to another lexer. -/
theorem lookup_lexer_pull (s : Session) (name n : String) :
    ((s.pull name).session.streams.lookup n).map Stream.lexer =
      (s.streams.lookup n).map Stream.lexer := by
  rcases s.pull_session_cases name with hsame | ⟨j, lx, hlookup, -, hpull⟩
  · rw [hsame]
  · rw [hpull, lookup_cons_eq]
    by_cases hn : n = name
    · rw [if_pos hn, hn, hlookup]
      rfl
    · rw [if_neg hn]

/-- Lexer `i` of the first session is the only lexer of the second one, and its streams are there
too. Some acts went before in the first session. -/
structure Agrees (shared : Bool) (count i : Nat) (before : List Act) (s t : Session) : Prop where
  sharing : s.shared = shared
  count : s.lexers.length = count
  lexer : ∃ lx, s.lexers[i]? = some lx ∧ t.On lx
  owner : ∀ name, (s.streams.lookup name).map Stream.lexer = streamOwner before name
  streams : ∀ name finished, s.streams.lookup name = some ⟨i, finished⟩ →
    t.streams.lookup name = some ⟨0, finished⟩

/-- What lexer `i` shows of an act: the answer, what is recorded, and its state afterwards. -/
def shown (i : Nat) (effect : Effect) : Reply × List Event × Option Lexer :=
  (effect.reply, effect.events, effect.session.lexers[i]?)

variable {shared : Bool} {count i : Nat} {before : List Act} {s t : Session}

/-- A stream that was bound to lexer `i` is bound to it alone. -/
theorem Agrees.streams_self (h : Agrees shared count i before s t) {name : String}
    {finished : Bool} (n : String) (finished' : Bool)
    (hn : ((name, ⟨i, finished⟩) :: s.streams).lookup n = some ⟨i, finished'⟩) :
    ((name, ⟨0, finished⟩) :: t.streams).lookup n = some ⟨0, finished'⟩ := by
  rw [lookup_cons_eq] at hn ⊢
  split at hn
  · cases hn
    rw [if_pos ‹_›]
  · rw [if_neg ‹_›]
    exact h.streams n finished' hn

/-- A stream that was bound to another lexer is out of reach under its name. -/
theorem Agrees.streams_other (h : Agrees shared count i before s t) {j : Nat} (hj : j ≠ i)
    {name : String} {finished : Bool} (n : String) (finished' : Bool)
    (hn : ((name, ⟨j, finished⟩) :: s.streams).lookup n = some ⟨i, finished'⟩) :
    t.streams.lookup n = some ⟨0, finished'⟩ := by
  rw [lookup_cons_eq] at hn
  split at hn
  · cases hn
    exact absurd rfl hj
  · exact h.streams n finished' hn

theorem Agrees.owner_ask (h : Agrees shared count i before s t) (j : Nat) (request : Request)
    (n : String) :
    (s.streams.lookup n).map Stream.lexer = streamOwner (before ++ [.ask j request]) n := by
  rw [streamOwner_concat]
  exact h.owner n

theorem Agrees.ask_self (h : Agrees shared count i before s t) (request : Request) :
    Agrees shared count i (before ++ [.ask i request]) (s.ask i request).session
        (t.ask 0 request).session ∧
      shown i (s.ask i request) = shown 0 (t.ask 0 request) := by
  obtain ⟨lx, hget, hon⟩ := h.lexer
  have hlt := (List.getElem?_eq_some_iff.mp hget).1
  have hnew : ((s.lexers.set i (lx.answer request).lexer).map (reach s.shared request))[i]? =
      some (lx.answer request).lexer := by
    rw [List.getElem?_map, List.getElem?_set_self hlt, Option.map_some, reach_answer]
  rw [ask_of_get hget, ask_alone hon]
  refine ⟨⟨h.sharing, ?_, ⟨_, hnew, rfl, hon.streams⟩, h.owner_ask i request, h.streams⟩, ?_⟩
  · rw [List.length_map, List.length_set, h.count]
  · rw [shown, hnew]
    rfl

/-- A request to another lexer is a request for its options at most, if these are shared. -/
theorem Agrees.ask_other (h : Agrees shared count i before s t) {j : Nat} (hj : j ≠ i)
    (request : Request) :
    Agrees shared count i (before ++ [.ask j request]) (s.ask j request).session
      (t.after ((Act.ask j request).broadcast? shared count).toList) := by
  have howner := h.owner_ask j request
  obtain ⟨lx, hget, hon⟩ := h.lexer
  cases hold : s.lexers[j]? with
  | none =>
    have hle : count ≤ j := h.count ▸ List.getElem?_eq_none_iff.mp hold
    have hnone : (Act.ask j request).broadcast? shared count = none := by
      cases request <;> simp [Act.broadcast?, hle]
    have hsame : s.ask j request = ⟨.missing, [], s⟩ := by simp only [ask, hold]
    rw [hnone, hsame]
    exact ⟨h.sharing, h.count, h.lexer, howner, h.streams⟩
  | some old =>
    have hlt : j < count := h.count ▸ (List.getElem?_eq_some_iff.mp hold).1
    have hreach : ((s.lexers.set j (old.answer request).lexer).map
        (reach s.shared request))[i]? = some (reach shared request lx) := by
      rw [List.getElem?_map, List.getElem?_set_ne hj, hget, h.sharing]
      rfl
    have hcount : ((s.lexers.set j (old.answer request).lexer).map
        (reach s.shared request)).length = count := by
      rw [List.length_map, List.length_set, h.count]
    rw [ask_of_get hold, after_broadcast hon shared hlt]
    exact ⟨h.sharing, hcount, ⟨_, hreach, rfl, hon.streams⟩, howner, h.streams⟩

theorem lookup_openStream (s : Session) (j : Nat) (name n : String) :
    (s.act (.openStream j name)).session.streams.lookup n =
      if n = name then some ⟨j, false⟩ else s.streams.lookup n :=
  lookup_cons_eq _ _ _ _

theorem Agrees.owner_openStream (h : Agrees shared count i before s t) (j : Nat)
    (name n : String) :
    ((s.act (.openStream j name)).session.streams.lookup n).map Stream.lexer =
      streamOwner (before ++ [.openStream j name]) n := by
  rw [lookup_openStream, streamOwner_concat]
  by_cases hn : n = name
  · simp [hn]
  · simpa [hn, Ne.symm hn] using h.owner n

theorem Agrees.openStream_self (h : Agrees shared count i before s t) (name : String) :
    Agrees shared count i (before ++ [.openStream i name]) (s.act (.openStream i name)).session
      (t.act (.openStream 0 name)).session ∧
      shown i (s.act (.openStream i name)) = shown 0 (t.act (.openStream 0 name)) := by
  obtain ⟨lx, hget, hon⟩ := h.lexer
  have hopen : ∀ n stream, (t.act (.openStream 0 name)).session.streams.lookup n = some stream →
      stream.lexer = 0 := by
    intro n stream hn
    rw [lookup_openStream] at hn
    split at hn
    · cases hn
      rfl
    · exact hon.streams n stream hn
  refine ⟨⟨h.sharing, h.count, ⟨lx, hget, hon.lexers, hopen⟩, h.owner_openStream i name,
    h.streams_self⟩, ?_⟩
  simp only [shown, act, hget, hon.lexers]
  rfl

theorem Agrees.openStream_other (h : Agrees shared count i before s t) {j : Nat} (hj : j ≠ i)
    (name : String) :
    Agrees shared count i (before ++ [.openStream j name]) (s.act (.openStream j name)).session
      t :=
  ⟨h.sharing, h.count, h.lexer, h.owner_openStream j name, h.streams_other hj⟩

theorem Agrees.owner_pull (h : Agrees shared count i before s t) (name n : String) :
    ((s.pull name).session.streams.lookup n).map Stream.lexer =
      streamOwner (before ++ [.pull name]) n := by
  rw [lookup_lexer_pull, streamOwner_concat]
  exact h.owner n

theorem Agrees.pull_self (h : Agrees shared count i before s t) {name : String}
    (howner : streamOwner before name = some i) :
    Agrees shared count i (before ++ [.pull name]) (s.pull name).session
        (t.pull name).session ∧
      shown i (s.pull name) = shown 0 (t.pull name) := by
  obtain ⟨lx, hget, hon⟩ := h.lexer
  have hlt := (List.getElem?_eq_some_iff.mp hget).1
  have hget₀ := hon.getElem?_lexers
  have howner' := h.owner_pull name
  obtain ⟨⟨j, finished⟩, hlookup, hj⟩ := Option.map_eq_some_iff.mp ((h.owner name).trans howner)
  obtain rfl : j = i := hj
  have hlookup₀ := h.streams name finished hlookup
  cases finished with
  | true =>
    rw [pull_finished_eq hlookup, pull_finished_eq hlookup₀]
    rw [pull_finished_eq hlookup] at howner'
    refine ⟨⟨h.sharing, h.count, h.lexer, howner', h.streams⟩, ?_⟩
    rw [shown, shown, hget, hget₀]
  | false =>
    rw [pull_live_eq hlookup hget] at howner'
    have hon' := hon.pull_streams name
    rw [pull_live_eq hlookup₀ hget₀] at hon'
    rw [pull_live_eq hlookup hget, pull_live_eq hlookup₀ hget₀]
    have hnew : (s.lexers.set j lx.next.lexer)[j]? = some lx.next.lexer :=
      List.getElem?_set_self hlt
    have hnew₀ : t.lexers.set 0 lx.next.lexer = [lx.next.lexer] := by
      rw [hon.lexers]
      rfl
    refine ⟨⟨h.sharing, by rw [List.length_set, h.count], ⟨_, hnew, hnew₀, hon'⟩, howner',
      h.streams_self⟩, ?_⟩
    rw [shown, shown, hnew, hnew₀]
    rfl

theorem Agrees.pull_other (h : Agrees shared count i before s t) {name : String}
    (howner : streamOwner before name ≠ some i) :
    Agrees shared count i (before ++ [.pull name]) (s.pull name).session t := by
  have howner' := h.owner_pull name
  rcases s.pull_session_cases name with hsame | ⟨j, old, hlookup, -, hpull⟩
  · rw [hsame] at howner' ⊢
    exact ⟨h.sharing, h.count, h.lexer, howner', h.streams⟩
  · rw [hpull] at howner' ⊢
    have hj : j ≠ i := by
      rintro rfl
      rw [← h.owner name, hlookup] at howner
      exact howner rfl
    obtain ⟨lx, hget, hon⟩ := h.lexer
    exact ⟨h.sharing, by rw [List.length_set, h.count],
      ⟨lx, by rw [List.getElem?_set_ne hj, hget], hon⟩, howner', h.streams_other hj⟩

/-- An act keeps the two sessions in step, and shows the same in both if it is one of lexer `i`. -/
theorem Agrees.step (h : Agrees shared count i before s t) (a : Act) :
    Agrees shared count i (before ++ [a]) (s.act a).session
        (t.after (portion? shared count i before a).toList) ∧
      (ownerOf before a = some i → shown i (s.act a) = shown 0 (t.act a.alone)) := by
  by_cases hown : ownerOf before a = some i
  · rw [portion?, if_pos hown]
    suffices hstep : Agrees shared count i (before ++ [a]) (s.act a).session
        (t.act a.alone).session ∧ shown i (s.act a) = shown 0 (t.act a.alone) from
      ⟨hstep.1, fun _ => hstep.2⟩
    cases a with
    | ask j request =>
      obtain rfl : j = i := Option.some.inj hown
      exact h.ask_self request
    | openStream j name =>
      obtain rfl : j = i := Option.some.inj hown
      exact h.openStream_self name
    | pull name => exact h.pull_self hown
  · rw [portion?, if_neg hown]
    refine ⟨?_, fun hown' => absurd hown' hown⟩
    cases a with
    | ask j request => exact h.ask_other (fun hj => hown (congrArg some hj)) request
    | openStream j name => exact h.openStream_other (fun hj => hown (congrArg some hj)) name
    | pull name => exact h.pull_other hown

theorem agrees_opened {starts : List (Bytes × Text × Options)} (shared : Bool)
    {start : Bytes × Text × Options} (h : starts[i]? = some start) :
    Agrees shared starts.length i [] (opened starts shared) (opened [start] false) where
  sharing := rfl
  count := List.length_map _
  lexer := by
    refine ⟨Lexer.start start.1 start.2.1 start.2.2, ?_, on_opened _ _ _ _⟩
    show (starts.map _)[i]? = _
    rw [List.getElem?_map, h]
    rfl
  owner := fun _ => rfl
  streams := fun _ _ hlookup => by cases hlookup

theorem Agrees.run (h : Agrees shared count i [] s t) (acts : List Act) :
    Agrees shared count i acts (s.after acts) (t.after (part shared count i [] acts)) := by
  induction acts using List.reverseRecOn with
  | nil => exact h
  | append_singleton acts a ih =>
    rw [part_concat, List.nil_append, after_concat, after_append]
    exact (ih.step a).1

/-- Whatever is asked of the lexers of a session, directly or through streams, a lexer shows of
its own acts what it would show if it were alone and only these were asked of it. On options of
its own nothing that is asked of the others is seen; on shared options their assignments are. -/
theorem lexers_independent (starts : List (Bytes × Text × Options)) (shared : Bool)
    (acts : List Act) (a : Act) {i : Nat} {start : Bytes × Text × Options}
    (h : starts[i]? = some start) :
    let session := (opened starts shared).after acts
    let alone := (opened [start] false).after (part shared starts.length i [] acts)
    (∃ lx, session.lexers[i]? = some lx ∧ alone.lexers = [lx]) ∧
      (ownerOf acts a = some i → shown i (session.act a) = shown 0 (alone.act a.alone)) := by
  intro session alone
  have hagrees : Agrees shared starts.length i acts session alone :=
    (agrees_opened shared h).run acts
  obtain ⟨lx, hget, hon⟩ := hagrees.lexer
  exact ⟨⟨lx, hget, hon.lexers⟩, (hagrees.step a).2⟩

/-- Two lexers on shared options: the second one is made strict and reads a token, and then a
stream on the first one complains about its stray byte. -/
theorem lexers_independent_stray :
    let starts : List (Bytes × Text × Options) :=
      [([64], Source.defaultName, ⟨false, false⟩), ([97], Source.defaultName, ⟨false, false⟩)]
    let acts : List Act :=
      [.openStream 0 "s", .ask 1 (.assign { strict := some true }), .ask 1 .next]
    let own : List Act := [.openStream 0 "s", .ask 0 (.assign { strict := some true })]
    let session := (opened starts true).after acts
    let alone := (opened [([64], Source.defaultName, ⟨false, false⟩)] false).after own
    starts[0]? = some ([64], Source.defaultName, ⟨false, false⟩) ∧
      ownerOf acts (.pull "s") = some 0 ∧ part true 2 0 [] acts = own ∧
      shown 0 (session.act (.pull "s")) = shown 0 (alone.act (.pull "s")) ∧
      ∃ d, (session.act (.pull "s")).reply = .token (.error d) := by
  intro starts acts own session alone
  have howner : ownerOf acts (.pull "s") = some 0 := by decide
  have hpart : part true 2 0 [] acts = own := by decide
  have hshown := (lexers_independent starts true acts (.pull "s") (rfl : starts[0]? = _)).2 howner
  rw [show part true starts.length 0 [] acts = own from hpart] at hshown
  exact ⟨rfl, howner, hpart, hshown, _, rfl⟩

/-! ## Shared options -/

theorem drain_options (lx : Lexer) : lx.drain.lexer.options = lx.options := by
  induction lx using Lexer.scan_induction with
  | done lx h =>
    rw [Lexer.drain_eq_end h]
    rfl
  | step lx l b more h ih =>
    cases hr : lx.next.result with
    | error d =>
      rw [Lexer.drain_eq_error hr]
      exact lx.next_keeps.2.2
    | ok t =>
      rw [Lexer.drain_eq_token hr (h.not_isEnd_of_ok hr)]
      exact ih.trans lx.next_keeps.2.2

/-- A request changes the options of its lexer as it changes those of the others, if these are
shared. -/
theorem options_answer (lx : Lexer) (request : Request) :
    (lx.answer request).lexer.options = (reach true request lx).options := by
  cases request with
  | next => exact lx.next_keeps.2.2
  | peek => exact lx.next_keeps.2.2
  | drain => exact drain_options lx
  | _ => rfl

theorem options_reach {lx lx' : Lexer} (h : lx.options = lx'.options) {request : Request} :
    (reach true request lx).options = (reach true request lx').options := by
  unfold reach
  split
  · exact congrArg (Change.applyTo _) h
  · exact h

/-- All lexers of the session have these options, and share them. -/
def HasOptions (s : Session) (options : Options) : Prop :=
  s.shared = true ∧ ∀ lx ∈ s.lexers, lx.options = options

theorem options_act {s : Session} {options : Options} (h : s.HasOptions options) (a : Act) :
    ∃ options', (s.act a).session.HasOptions options' := by
  obtain ⟨hshared, hall⟩ := h
  cases a with
  | ask j request =>
    cases hold : s.lexers[j]? with
    | none =>
      refine ⟨options, ?_⟩
      rw [show s.act (.ask j request) = ⟨.missing, [], s⟩ by simp only [act, ask, hold]]
      exact ⟨hshared, hall⟩
    | some old =>
      refine ⟨(reach true request old).options, ?_⟩
      rw [act, ask_of_get hold]
      refine ⟨hshared, fun lx hlx => ?_⟩
      obtain ⟨lx₀, hlx₀, rfl⟩ := List.mem_map.mp hlx
      rw [hshared]
      rcases List.mem_or_eq_of_mem_set hlx₀ with hmem | rfl
      · exact options_reach ((hall lx₀ hmem).trans (hall old (List.mem_of_getElem? hold)).symm)
      · rw [reach_answer, options_answer]
  | openStream j name => exact ⟨options, hshared, hall⟩
  | pull name =>
    refine ⟨options, ?_⟩
    rcases s.pull_session_cases name with hsame | ⟨j, lx, -, hget, hpull⟩
    · rw [act, hsame]
      exact ⟨hshared, hall⟩
    · rw [act, hpull]
      refine ⟨hshared, fun lx' hlx' => ?_⟩
      rcases List.mem_or_eq_of_mem_set hlx' with hmem | rfl
      · exact hall lx' hmem
      · exact lx.next_keeps.2.2.trans (hall lx (List.mem_of_getElem? hget))

/-- Options that are shared are the same in all lexers at all times. -/
theorem options_shared {starts : List (Bytes × Text × Options)} {options : Options}
    (h : ∀ start ∈ starts, start.2.2 = options) (acts : List Act) :
    ∃ options', ((opened starts true).after acts).HasOptions options' := by
  induction acts using List.reverseRecOn with
  | nil =>
    refine ⟨options, rfl, fun lx hlx => ?_⟩
    obtain ⟨start, hstart, rfl⟩ := List.mem_map.mp hlx
    exact h start hstart
  | append_singleton acts a ih =>
    obtain ⟨options', hall⟩ := ih
    rw [after_concat]
    exact options_act hall a

end Session
end MonkeyScan
