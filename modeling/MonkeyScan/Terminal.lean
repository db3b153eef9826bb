import MonkeyScan.Output

/-!
# MonkeyScan.Terminal

The consoles that a program is run with. To a terminal complaints go as they are, and for any other
reader control sequences are taken out of them.

Control sequences drive a terminal. Such a sequence is the escape character and an opening bracket,
any number of parameters, any number of intermediates, and a final character, all of them ASCII.
`ControlSequence.remove` takes them out of a text. It goes through the text once, so what is left
may happen to form a new sequence.
-/

namespace MonkeyScan
namespace ControlSequence

def isParameter (c : CodePoint) : Bool :=
  0x30 ≤ c.number && c.number ≤ 0x3F

def isIntermediate (c : CodePoint) : Bool :=
  0x20 ≤ c.number && c.number ≤ 0x2F

def isFinal (c : CodePoint) : Bool :=
  0x40 ≤ c.number && c.number ≤ 0x7E

/-- What follows the sequence that starts with this code point, if one does. -/
def after? (first : CodePoint) (rest : Text) : Option Text :=
  match rest with
  | [] => none
  | second :: rest =>
    if first.number = 0x1B ∧ second.number = 0x5B then
      match (rest.dropWhile isParameter).dropWhile isIntermediate with
      | [] => none
      | final :: rest => if isFinal final then some rest else none
    else none

theorem length_of_after? {first : CodePoint} {rest more : Text} (h : after? first rest = some more) :
    more.length < rest.length := by
  unfold after? at h
  split at h
  · cases h
  · rename_i second rest
    have hp := (List.dropWhile_sublist isParameter (l := rest)).length_le
    have hi := (List.dropWhile_sublist isIntermediate (l := rest.dropWhile isParameter)).length_le
    split at h
    · split at h
      · cases h
      · rename_i final tail ht
        split at h
        · cases h
          rw [ht, List.length_cons] at hi
          rw [List.length_cons]
          omega
        · cases h
    · cases h

def remove : Text → Text
  | [] => []
  | c :: rest =>
    match _ : after? c rest with
    | none => c :: remove rest
    | some more => remove more
termination_by t => t.length
decreasing_by
  · simp
  · have := length_of_after? ‹_›
    rw [List.length_cons]
    omega

end ControlSequence

namespace Console

/-- The first line of each trace. What follows it differs from build to build and is left out. -/
def traceOpening : Text := "Traceback (most recent call last):\n"

/-- A terminal is sent everything as it is. -/
def terminal : Console where
  strip := id
  trace := fun _ => traceOpening

/-- A pipe or a file does not know what to do with control sequences. -/
def piped : Console where
  strip := ControlSequence.remove
  trace := fun _ => traceOpening

end Console
end MonkeyScan
