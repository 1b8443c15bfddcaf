import Narrowing.Selector.Basic
import Narrowing.Type.Basic

/-!
The trace of a computation on types: what happened, in order, with each
comparison between the marks of its beginning and its end.
-/

namespace Narrowing

/-- A remark on the way. -/
inductive Event where
  /-- A pair was met on its own path and taken to be top. -/
  | assumed (lhs rhs : TypeId)
  /-- A limit kept a pair from being compared. -/
  | refused (lhs rhs : TypeId)
  /-- A declaration was replaced by its body. -/
  | unfolded (decl : DeclId) (body : TypeId)
  /-- An alternative on the right takes all of the left. -/
  | accepted (lhs alternative : TypeId)
  /-- A comparison came to its end. -/
  | computed (result : Selector)
  /-- A selector was applied to a type of another shape. -/
  | misfit (source : TypeId) (selector : Selector)
deriving DecidableEq, Repr

def Event.message : Event → String
  | .assumed .. => "pair already in progress, assuming top"
  | .refused .. => "recursion limit reached"
  | .unfolded .. => "unfolding nominal"
  | .accepted .. => "union alternative accepts atom"
  | .computed .. => "selector computed"
  | .misfit .. => "selector does not fit source shape"

/-- An entry of a trace. -/
inductive Entry where
  /-- A comparison begins. -/
  | opened (lhs rhs : TypeId)
  | event (event : Event)
  /-- The comparison that began last and has not ended ends. -/
  | closed
deriving DecidableEq, Repr

end Narrowing
