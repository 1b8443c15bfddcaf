import Narrowing.Comparison.Rule
import Narrowing.Guard
import Narrowing.Type.Pair

/-!
Guarded comparison. A pair that is met on its own path counts as top, which
makes recursive types comparable; a pair that a limit refuses counts as bottom.
The recursion is on the room that the guard leaves, so it needs no bound of its
own: where there is no room the guard admits no pair.
-/

namespace Narrowing

/-- The outcome of a comparison: its answer, the guard after it, and its trace. -/
structure Run where
  answer : Except Fault Selector
  guard : Guard TypePair
  trace : List Entry

namespace Run

/-- The run of a pair that the guard does not admit: top if it is on its own path, and bottom otherwise. -/
def turnedAway (attempt : Entrance × Guard TypePair) (lhs rhs : TypeId) : Run :=
  if attempt.1 = .cycle then ⟨.ok .top, attempt.2, [.event (.assumed lhs rhs)]⟩
  else ⟨.ok .bottom, attempt.2, [.event (.refused lhs rhs)]⟩

/-- The run of a pair from that of its rule: its end is marked, and if it has an answer the pair is left. -/
def enclose (run : Run) (lhs rhs : TypeId) : Run :=
  match run.answer with
  | .ok s =>
    ⟨.ok s, run.guard.retract (.of lhs rhs),
      .opened lhs rhs :: run.trace ++ [.event (.computed s), .closed]⟩
  | .error fault => ⟨.error fault, run.guard, .opened lhs rhs :: run.trace ++ [.closed]⟩

end Run

/-- Carry an inquiry out, where `compare` answers its questions. The first fault ends it. -/
def Inquiry.run (compare : Guard TypePair → TypeId → TypeId → Run) (guard : Guard TypePair) : Inquiry → Run
  | .done s => ⟨.ok s, guard, []⟩
  | .fail fault => ⟨.error fault, guard, []⟩
  | .note event next =>
    let rest := next.run compare guard
    { rest with trace := .event event :: rest.trace }
  | .ask l r next =>
    let first := compare guard l r
    match first.answer with
    | .error _ => first
    | .ok s =>
      let rest := (next s).run compare first.guard
      { rest with trace := first.trace ++ rest.trace }

namespace Environment

/-- Compare a pair, at most `room` pairs deep. -/
def compareWithin (env : Environment) : (room : Nat) → Guard TypePair → TypeId → TypeId → Run
  | 0, guard, lhs, rhs => .turnedAway (guard.enter (.of lhs rhs)) lhs rhs
  | room + 1, guard, lhs, rhs =>
    let attempt := guard.enter (.of lhs rhs)
    if attempt.1 = .entered then
      ((env.dispatch lhs rhs).run (env.compareWithin room) attempt.2).enclose lhs rhs
    else .turnedAway attempt lhs rhs

/-- Compare a pair while others may be in progress. -/
def compareFrom (env : Environment) (guard : Guard TypePair) (lhs rhs : TypeId) : Run :=
  env.compareWithin guard.room guard lhs rhs

/-- Compare a pair under limits. -/
def compare (env : Environment) (limits : Limits) (lhs rhs : TypeId) : Run :=
  env.compareFrom (.fresh limits) lhs rhs

end Environment

end Narrowing
