/-!
A guard over a recursive computation. It knows the keys on the current path, so
that meeting one again is seen as a cycle, and it counts depth and attempts
against two limits. A refusal is remembered until the guard is reset.

`leave` and `release` are those of debug builds, which check a guard for wrong use. The
`leave` of release builds, which reports nothing and lets the depth fall also where the
key is not on the path, is not modelled.
-/

namespace Narrowing

universe u

/-- How deep a computation may go and how often it may try to enter. -/
structure Limits where
  maxDepth : Nat
  maxIterations : Nat
deriving DecidableEq, Repr, Inhabited

namespace Limits

/-- The largest count that is kept; more attempts are not told apart. -/
def ceiling : Nat := 0xFFFFFFFF

/-- Limits that only a computation too long to finish would meet. -/
def unbounded : Limits := ⟨ceiling, ceiling⟩

/-- Limits for graphs that are not trusted. -/
def bounded : Limits := ⟨100, 100000⟩

end Limits

/-- The answer to an attempt to enter. -/
inductive Entrance where
  | entered
  | cycle
  | depthExceeded
  | iterationsExceeded
deriving DecidableEq, Repr, Inhabited

namespace Entrance

/-- The attempt was refused by a limit. -/
def isRefusal : Entrance → Bool
  | .depthExceeded | .iterationsExceeded => true
  | _ => false

end Entrance

/-- The state of a guarded computation. -/
structure Guard (κ : Type u) where
  limits : Limits
  /-- The keys on the current path, last entered first. -/
  visiting : List κ := []
  depth : Nat := 0
  /-- The attempts to enter, up to the ceiling. -/
  iterations : Nat := 0
  /-- Some attempt was refused. -/
  exceeded : Bool := false
deriving Repr

/-- A wrong use of a guard. -/
inductive GuardError where
  /-- A key is left that is not being visited. -/
  | notVisiting
  /-- The guard is given up while keys are still being visited. -/
  | abandoned (count : Nat)
deriving DecidableEq, Repr

def GuardError.message : GuardError → String
  | .notVisiting =>
    "RecursionGuard::leave() called with a key that is not in the visiting set. " ++
      "This indicates a double-leave or a leave without a matching enter()."
  | .abandoned count =>
    "RecursionGuard dropped with " ++ toString count ++ " active entries still in the visiting set. " ++
      "This indicates leaked enter() calls without matching leave() calls."

namespace Guard

variable {κ : Type u}

/-- A guard that visits nothing. -/
def fresh (limits : Limits) : Guard κ := { limits }

/-- Forget everything but the limits. -/
def reset (g : Guard κ) : Guard κ := fresh g.limits

/-- Some key is being visited. -/
def isActive (g : Guard κ) : Bool := 0 < g.depth

/-- How much deeper the computation may go. -/
def room (g : Guard κ) : Nat := g.limits.maxDepth - g.depth

/-- Give the guard up. That is an error while keys are being visited, unless it is an error that makes the guard be
    given up. -/
def release (g : Guard κ) (unwinding : Bool := false) : Except GuardError Unit :=
  if unwinding ∨ g.visiting.isEmpty then .ok () else .error (.abandoned g.visiting.length)

variable [DecidableEq κ]

def isVisiting (g : Guard κ) (key : κ) : Bool := key ∈ g.visiting

/-- Try to enter a key. The number of attempts is checked first, then whether the key is on the path, and
    the depth last. -/
def enter (g : Guard κ) (key : κ) : Entrance × Guard κ :=
  let g := { g with iterations := min (g.iterations + 1) Limits.ceiling }
  if g.limits.maxIterations < g.iterations then (.iterationsExceeded, { g with exceeded := true })
  else if g.isVisiting key then (.cycle, g)
  else if g.limits.maxDepth ≤ g.depth then (.depthExceeded, { g with exceeded := true })
  else (.entered, { g with visiting := key :: g.visiting, depth := g.depth + 1 })

/-- Take a key off the path. -/
def retract (g : Guard κ) (key : κ) : Guard κ :=
  { g with visiting := g.visiting.erase key, depth := g.depth - 1 }

/-- Leave a key, which must be on the path. -/
def leave (g : Guard κ) (key : κ) : Except GuardError (Guard κ) :=
  if g.isVisiting key then .ok (g.retract key) else .error .notVisiting

end Guard

end Narrowing
