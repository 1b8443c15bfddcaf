import Narrowing.Comparison.Query
import Narrowing.Refinement

/-!
Narrowing: a type is compared with a target, and what the selector lets through
of it is its narrowed form.
-/

namespace Narrowing

/-- The selector of a type against a target and the part of the type that it lets through. -/
structure Narrowed where
  selector : Selector
  type : TypeId
deriving DecidableEq, Repr

/-- Narrow `source` to `target`. -/
def Environment.narrow (env : Environment) (source target : TypeId) : Except Fault Narrowed × Environment :=
  match env.selector source target with
  | .error fault => (.error fault, env)
  | .ok selector =>
    let (refined, env) := env.refine source selector
    (.ok ⟨selector, refined.type⟩, env)

end Narrowing
