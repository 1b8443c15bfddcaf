import Narrowing.Refinement
import Narrowing.Storage.Interner

/-!
Refinement of types as they are kept. It looks types up, and enters what it builds by the
constructors only.
-/

namespace Narrowing

namespace Interner

/-- Follow declarations from a type, at most `links` of them, until one has no body or the type is no
    declaration. -/
def concreteWithin (x : Interner) (ds : Declarations) : (links : Nat) → TypeId → TypeId
  | 0, t => t
  | links + 1, t =>
    match x.node? t with
    | some (.nominal d) =>
      match ds.body? d with
      | some body => x.concreteWithin ds links body
      | none => t
    | _ => t

/-- The node of the type behind declarations. -/
def concrete? (x : Interner) (ds : Declarations) (t : TypeId) : Option TypeNode :=
  x.node? (x.concreteWithin ds ds.size t)

/-- The element of an array type, seen through declarations. -/
def elementOf? (x : Interner) (ds : Declarations) (t : TypeId) : Option TypeId :=
  match x.concrete? ds t with
  | some (.array element) => some element
  | _ => none

/-- The shape of a record type, seen through declarations. -/
def recordOf? (x : Interner) (ds : Declarations) (t : TypeId) : Option RecordShape :=
  match x.concrete? ds t with
  | some (.record id) => x.record? id
  | _ => none

/-- The alternatives of a union type, seen through declarations. -/
def alternativesOf? (x : Interner) (ds : Declarations) (t : TypeId) : Option (List TypeId) :=
  match x.concrete? ds t with
  | some (.union id) => x.list? id
  | _ => none

end Interner

namespace Entering

variable (h : Hashing) (ds : Declarations)

mutual

/-- The part of `source` that a selector lets through. -/
def refine (source : TypeId) : Selector → Entering Refined
  | .top => return ⟨source, []⟩
  | .bottom => return ⟨.void, []⟩
  | .array item => do
    match (← get).elementOf? ds source with
    | some element =>
      let refined ← refine element item
      return ⟨← array h refined.type, refined.trace⟩
    | none => return ⟨source, [.misfit source (.array item)]⟩
  | .record items => do
    match (← get).recordOf? ds source with
    | some shape =>
      if shape.fields.length = items.length then
        let refined ← refineAll (shape.fields.map Field.type) items
        return ⟨← record h (shape.withTypes (refined.map Refined.type)), refined.flatMap Refined.trace⟩
      else return ⟨source, [.misfit source (.record items)]⟩
    | none => return ⟨source, [.misfit source (.record items)]⟩
  | .union items => do
    match (← get).alternativesOf? ds source with
    | some alternatives =>
      if alternatives.length = items.length then
        let refined ← refineKept alternatives items
        return ⟨← union h (refined.map Refined.type), refined.flatMap Refined.trace⟩
      else return ⟨source, [.misfit source (.union items)]⟩
    | none => return ⟨source, [.misfit source (.union items)]⟩

/-- Refine each source by the selector at its place. -/
def refineAll : List TypeId → List Selector → Entering (List Refined)
  | source :: sources, item :: items => do
    let refined ← refine source item
    return refined :: (← refineAll sources items)
  | _, _ => return []

/-- Refine each source by the selector at its place, except where that is bottom. -/
def refineKept : List TypeId → List Selector → Entering (List Refined)
  | source :: sources, item :: items => do
    if item.isBottom then refineKept sources items
    else
      let refined ← refine source item
      return refined :: (← refineKept sources items)
  | _, _ => return []

end

end Entering

end Narrowing
