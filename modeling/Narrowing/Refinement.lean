import Narrowing.Environment
import Narrowing.Trace
import Narrowing.Type.Normal

/-!
Refinement: the part of a type that a selector lets through. Top keeps the whole
type and bottom leaves void; any other selector looks through declarations to the
shape it belongs to. A selector that does not fit its source leaves it as it is.
-/

namespace Narrowing

namespace TypeStore

/-- Follow declarations from a type, at most `links` of them, until one has no body or the type is no
    declaration. -/
def concreteWithin (s : TypeStore) (ds : Declarations) : (links : Nat) → TypeId → TypeId
  | 0, t => t
  | links + 1, t =>
    match s.node? t with
    | some (.nominal d) =>
      match ds.body? d with
      | some body => s.concreteWithin ds links body
      | none => t
    | _ => t

/-- The type behind declarations. Links that run in a circle are given up on one of them. -/
def concrete (s : TypeStore) (ds : Declarations) (t : TypeId) : TypeId :=
  s.concreteWithin ds ds.size t

/-- The element of an array type, seen through declarations. -/
def elementOf? (s : TypeStore) (ds : Declarations) (t : TypeId) : Option TypeId :=
  match s.node? (s.concrete ds t) with
  | some (.array element) => some element
  | _ => none

/-- The shape of a record type, seen through declarations. -/
def recordOf? (s : TypeStore) (ds : Declarations) (t : TypeId) : Option RecordShape :=
  match s.node? (s.concrete ds t) with
  | some (.record id) => s.record? id
  | _ => none

/-- The alternatives of a union type, seen through declarations. -/
def alternativesOf? (s : TypeStore) (ds : Declarations) (t : TypeId) : Option (List TypeId) :=
  match s.node? (s.concrete ds t) with
  | some (.union id) => s.list? id
  | _ => none

end TypeStore

/-- A refined type and the remarks made on the way. -/
structure Refined where
  type : TypeId
  trace : List Event := []
deriving DecidableEq, Repr

namespace RecordShape

/-- The shape with other types for its fields; fields beyond the given types keep theirs. -/
def withTypes (shape : RecordShape) (types : List TypeId) : RecordShape where
  isOpen := shape.isOpen
  fields := shape.fields.mapIdx fun i f => { f with type := types[i]?.getD f.type }
  distinct := by
    have same : (shape.fields.mapIdx fun i f => ({ f with type := types[i]?.getD f.type } : Field)).map Field.name =
        shape.fields.map Field.name := by
      apply List.ext_getElem <;> simp
    rw [same]
    exact shape.distinct

end RecordShape

mutual

/-- The part of `source` that a selector lets through. -/
def refine (ds : Declarations) (source : TypeId) : Selector → Build Refined
  | .top => return ⟨source, []⟩
  | .bottom => return ⟨.void, []⟩
  | .array item => do
    match (← get).elementOf? ds source with
    | some element =>
      let refined ← refine ds element item
      return ⟨← Build.array refined.type, refined.trace⟩
    | none => return ⟨source, [.misfit source (.array item)]⟩
  | .record items => do
    match (← get).recordOf? ds source with
    | some shape =>
      if shape.fields.length = items.length then
        let refined ← refineAll ds (shape.fields.map Field.type) items
        return ⟨← Build.record (shape.withTypes (refined.map Refined.type)), refined.flatMap Refined.trace⟩
      else return ⟨source, [.misfit source (.record items)]⟩
    | none => return ⟨source, [.misfit source (.record items)]⟩
  | .union items => do
    match (← get).alternativesOf? ds source with
    | some alternatives =>
      if alternatives.length = items.length then
        let refined ← refineKept ds alternatives items
        return ⟨← Build.union (refined.map Refined.type), refined.flatMap Refined.trace⟩
      else return ⟨source, [.misfit source (.union items)]⟩
    | none => return ⟨source, [.misfit source (.union items)]⟩

/-- Refine each source by the selector at its place. -/
def refineAll (ds : Declarations) : List TypeId → List Selector → Build (List Refined)
  | source :: sources, item :: items => do
    let refined ← refine ds source item
    return refined :: (← refineAll ds sources items)
  | _, _ => return []

/-- Refine each source by the selector at its place, except where that is bottom. -/
def refineKept (ds : Declarations) : List TypeId → List Selector → Build (List Refined)
  | source :: sources, item :: items => do
    if item.isBottom then refineKept ds sources items
    else
      let refined ← refine ds source item
      return refined :: (← refineKept ds sources items)
  | _, _ => return []

end

/-- Refine a type of an environment. -/
def Environment.refine (env : Environment) (source : TypeId) (selector : Selector) : Refined × Environment :=
  env.build (Narrowing.refine env.declarations source selector)

end Narrowing
