import Narrowing.Type.Store

/-!
Lifetimes and which of them lies within which. Every lifetime lies within the
static one and within itself; a scope adds nesting by declaration. A lifetime
declared again moves to its new place, and links may run in a circle.
-/

namespace Narrowing

/-- Lifetimes nested by declaration. -/
structure LifetimeScope where
  /-- The outermost lifetime. -/
  static : Name
  /-- Each declared lifetime with the one directly around it; no lifetime is declared twice. -/
  parents : List (Name × Name) := []
deriving DecidableEq, Repr, Inhabited

namespace LifetimeScope

/-- The name of the static lifetime. -/
def staticText : String := "*"

/-- The scope that declares nothing. -/
def empty (static : Name) : LifetimeScope := { static }

/-- The lifetime directly around another. -/
def parent? (s : LifetimeScope) (n : Name) : Option Name := s.parents.lookup n

/-- Place `inner` directly in `outer`. -/
def declare (s : LifetimeScope) (inner outer : Name) : LifetimeScope :=
  { s with parents := (inner, outer) :: s.parents.filter (·.1 ≠ inner) }

/-- Place lifetimes one after another, each first in the second of its pair. -/
def declareAll (s : LifetimeScope) (pairs : List (Name × Name)) : LifetimeScope :=
  pairs.foldl (fun s (inner, outer) => s.declare inner outer) s

/-- Whether at most `links` links lead from one lifetime to another. -/
def reachesWithin (s : LifetimeScope) : (links : Nat) → Name → Name → Bool
  | 0, current, outer => current = outer
  | links + 1, current, outer =>
    current = outer || (s.parent? current).any (s.reachesWithin links · outer)

/-- Whether one lifetime lies within another. More links than declarations are never needed. -/
def isWithin (s : LifetimeScope) (inner outer : Name) : Bool :=
  outer = s.static || s.reachesWithin s.parents.length inner outer

end LifetimeScope

/-- What is known about lifetimes. -/
inductive Lifetimes where
  /-- Only which of them is static. -/
  | static (outermost : Name)
  | scoped (scope : LifetimeScope)
deriving DecidableEq, Repr, Inhabited

namespace Lifetimes

/-- Whether one lifetime is known to lie within another. -/
def isWithin : Lifetimes → Name → Name → Bool
  | .static outermost, inner, outer => inner = outer || outer = outermost
  | .scoped scope, inner, outer => scope.isWithin inner outer

end Lifetimes

/-- The lifetimes that texts declare, each first in the second of its pair. Without a list only the static
    lifetime is known. -/
def Build.lifetimes (pairs? : Option (List (String × String))) : Build Lifetimes := do
  let static ← name LifetimeScope.staticText
  match pairs? with
  | none => return .static static
  | some pairs =>
    let pairs ← pairs.mapM fun (inner, outer) => do
      let inner ← name inner
      return (inner, ← name outer)
    return .scoped ((LifetimeScope.empty static).declareAll pairs)

end Narrowing
