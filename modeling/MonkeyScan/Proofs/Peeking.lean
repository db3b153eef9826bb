import MonkeyScan.Proofs.Tracking

/-!
# MonkeyScan.Proofs.Peeking

Looking ahead. `Lexer.peek_eq` says that `peek` gives and records what `next` would, and leaves the
lexer as it is. `Session.peeks_leave_no_trace` carries this over to sessions: looks ahead may be put
between any acts, on any lexers, and each of them shows what a call of `next` would have shown in
its place, while all else that happens is as it would be without them.
-/

namespace MonkeyScan

theorem Lexer.peek_eq (lx : Lexer) : lx.peek = ⟨lx.next.result, lx.next.events, lx⟩ := by
  obtain ⟨hsource, hfile, hoptions⟩ := lx.next_keeps
  rw [peek, Step.mk.injEq, Lexer.mk.injEq]
  exact ⟨rfl, rfl, hsource, hfile, hoptions, rfl⟩

/-- What is done to a session: an act of its own, or a look ahead that is put in. -/
inductive Turn where
  | own (a : Act)
  | look (lexer : Nat)

namespace Turn

def act : Turn → Act
  | .own a => a
  | .look i => .ask i .peek

def own? : Turn → Option Act
  | .own a => some a
  | .look _ => none

/-- The session's own acts, without the looks ahead. -/
def ownActs (turns : List Turn) : List Act :=
  turns.filterMap own?

/-- The effects of the session's own acts, among those of all turns. -/
def ownEffects (turns : List Turn) (effects : List Effect) : List Effect :=
  (turns.zip effects).filterMap fun (turn, effect) => turn.own?.map fun _ => effect

end Turn

namespace Session

open Turn

/-- A session after a look ahead is the same session, and was shown what `next` would show. -/
theorem act_look (s : Session) (i : Nat) :
    s.act (Turn.look i).act = ⟨(s.ask i .next).reply, (s.ask i .next).events, s⟩ := by
  simp only [Turn.act, act, ask]
  cases hget : s.lexers[i]? with
  | none => rfl
  | some lx =>
    have hset : s.lexers.set i lx = s.lexers := by
      obtain ⟨hlt, rfl⟩ := List.getElem?_eq_some_iff.mp hget
      exact List.set_getElem_self hlt
    have hshare : s.share .peek s.lexers = s.lexers := by
      unfold share
      split
      · rename_i heq
        cases heq
      · rfl
    simp only [Lexer.answer, lx.peek_eq, hset, hshare]

theorem getElem?_run (s : Session) (acts : List Act) (n : Nat) :
    (s.run acts)[n]? = acts[n]?.map fun a => (s.after (acts.take n)).act a := by
  induction acts generalizing s n with
  | nil => rfl
  | cons a acts ih =>
    cases n with
    | zero => rfl
    | succ n =>
      rw [List.take_succ_cons, after_cons]
      exact ih (s.act a).session n

theorem after_turns (s : Session) (turns : List Turn) :
    s.after (turns.map Turn.act) = s.after (ownActs turns) := by
  induction turns generalizing s with
  | nil => rfl
  | cons turn turns ih =>
    rw [List.map_cons, after_cons]
    cases turn with
    | own a =>
      show _ = s.after (a :: ownActs turns)
      rw [after_cons]
      exact ih (s.act a).session
    | look i =>
      rw [act_look]
      exact ih s

theorem ownEffects_run (s : Session) (turns : List Turn) :
    ownEffects turns (s.run (turns.map Turn.act)) = s.run (ownActs turns) := by
  induction turns generalizing s with
  | nil => rfl
  | cons turn turns ih =>
    cases turn with
    | own a => exact congrArg (s.act a :: ·) (ih (s.act a).session)
    | look i =>
      have hsame : (s.act (Turn.look i).act).session = s := by rw [act_look]
      show ownEffects turns ((s.act (Turn.look i).act).session.run _) = _
      rw [hsame]
      exact ih s

/-- A look ahead gives what the next call would give, records what it would record, and leaves the
lexer where it is. So in a session, whatever its state, looks ahead may be put in between any acts:
these have the effects that they have without them, and each look is one at the lexer as the acts
before it leave it. -/
theorem peeks_leave_no_trace :
    (∀ lx : Lexer, lx.peek = ⟨lx.next.result, lx.next.events, lx⟩) ∧
    ∀ (s : Session) (turns : List Turn),
      ownEffects turns (s.run (turns.map Turn.act)) = s.run (ownActs turns) ∧
      s.after (turns.map Turn.act) = s.after (ownActs turns) ∧
      ∀ n i, turns[n]? = some (.look i) →
        let here := s.after (ownActs (turns.take n))
        (s.run (turns.map Turn.act))[n]? =
          some ⟨(here.ask i .next).reply, (here.ask i .next).events, here⟩ := by
  refine ⟨Lexer.peek_eq, fun s turns => ⟨ownEffects_run s turns, after_turns s turns, ?_⟩⟩
  intro n i hlook here
  rw [getElem?_run, List.getElem?_map, hlook, ← List.map_take, after_turns]
  exact congrArg some (act_look here i)

end Session
end MonkeyScan
