import Narrowing.Declaration
import Narrowing.Type.Printer

/-!
An environment: the types built so far and the declarations they may refer to.
-/

namespace Narrowing

structure Environment where
  types : TypeStore
  declarations : Declarations
deriving Inhabited

namespace Environment

def empty : Environment := ⟨.empty, .empty⟩

/-- Run a construction on the types. -/
def build {α : Type} (env : Environment) (construction : Build α) : α × Environment :=
  let (a, types) := construction.run env.types
  (a, { env with types })

/-- Whether declarations are written by their names or by their numbers. -/
inductive Naming where
  | declared
  | anonymous
deriving DecidableEq, Repr, Inhabited

/-- The text for a declaration. -/
def label? (env : Environment) : Naming → DeclId → Option String
  | .declared, d => (env.declarations.name? d).map (·.display env.types.names)
  | .anonymous, _ => none

/-- The text of a type; there is none for a type that contains itself without a declaration between. -/
def text? (env : Environment) (naming : Naming) (t : TypeId) : Option String :=
  (env.types.print (env.label? naming) t).map String.ofList

end Environment

end Narrowing
