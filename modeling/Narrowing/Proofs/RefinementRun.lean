import Narrowing.Proofs.Growth
import Narrowing.Refinement

/-!
Runs of refinement. Refining threads a store through the parts of a type; here each
step is given as an equation, for a selector that fits the type and for one that
does not.
-/

namespace Narrowing

namespace RecordShape

theorem withTypes_type_mem {shape : RecordShape} {types : List TypeId} (count : types.length = shape.fields.length) :
    ∀ f ∈ (shape.withTypes types).fields, f.type ∈ types := by
  intro f member
  obtain ⟨i, inside, rfl⟩ := List.getElem_of_mem member
  have insideT : i < types.length := by simpa [withTypes, count] using inside
  simp [withTypes, insideT]

end RecordShape

namespace Environment

/-- The same declarations over another store. -/
def withStore (env : Environment) (store : TypeStore) : Environment := { env with types := store }

theorem extends_withStore {env : Environment} {store : TypeStore} (larger : env.types.Extends store) :
    env.Extends (env.withStore store) := ⟨larger, rfl⟩

theorem withStore_extends (env : Environment) {store store' : TypeStore} (larger : store.Extends store') :
    (env.withStore store).Extends (env.withStore store') := ⟨larger, rfl⟩

end Environment

section
variable {ds : Declarations} {source : TypeId} {items : List Selector} {s : TypeStore}

private theorem Build.get_bind {α : Type} (next : TypeStore → Build α) (s : TypeStore) : (get >>= next) s = next s s := rfl

theorem refine_array {element : TypeId} {item : Selector} (shown : s.elementOf? ds source = some element) :
    refine ds source (.array item) s =
      let x := refine ds element item s
      let t := Build.array x.1.type x.2
      (⟨t.1, x.1.trace⟩, t.2) := by
  rw [refine, Build.get_bind, shown]
  rfl

theorem refine_record {shape : RecordShape} (shown : s.recordOf? ds source = some shape)
    (fits : shape.fields.length = items.length) :
    refine ds source (.record items) s =
      let xs := refineAll ds (shape.fields.map Field.type) items s
      let t := Build.record (shape.withTypes (xs.1.map Refined.type)) xs.2
      (⟨t.1, xs.1.flatMap Refined.trace⟩, t.2) := by
  rw [refine, Build.get_bind, shown]
  simp only [fits, if_true]
  rfl

theorem refine_union {alternatives : List TypeId} (shown : s.alternativesOf? ds source = some alternatives)
    (fits : alternatives.length = items.length) :
    refine ds source (.union items) s =
      let xs := refineKept ds alternatives items s
      let t := Build.union (xs.1.map Refined.type) xs.2
      (⟨t.1, xs.1.flatMap Refined.trace⟩, t.2) := by
  rw [refine, Build.get_bind, shown]
  simp only [fits, if_true]
  rfl

theorem refineAll_nil (sources : List TypeId) : refineAll ds sources [] s = ([], s) := by
  cases sources <;> rfl

theorem refineAll_cons (sources : List TypeId) (item : Selector) :
    refineAll ds (source :: sources) (item :: items) s =
      let x := refine ds source item s
      let xs := refineAll ds sources items x.2
      (x.1 :: xs.1, xs.2) := by
  rw [refineAll]
  rfl

theorem refineKept_nil (sources : List TypeId) : refineKept ds sources [] s = ([], s) := by
  cases sources <;> rfl

theorem refineKept_cons (sources : List TypeId) (item : Selector) :
    refineKept ds (source :: sources) (item :: items) s =
      if item.isBottom then refineKept ds sources items s
      else
        let x := refine ds source item s
        let xs := refineKept ds sources items x.2
        (x.1 :: xs.1, xs.2) := by
  rw [refineKept]
  split <;> rfl

/-! ### Selectors that do not fit -/

theorem refine_array_misfit {item : Selector} (misfit : s.elementOf? ds source = none) :
    refine ds source (.array item) s = (⟨source, [.misfit source (.array item)]⟩, s) := by
  rw [refine, Build.get_bind, misfit]
  rfl

theorem refine_record_misfit
    (misfit : ¬ ∃ shape, s.recordOf? ds source = some shape ∧ shape.fields.length = items.length) :
    refine ds source (.record items) s = (⟨source, [.misfit source (.record items)]⟩, s) := by
  rw [refine, Build.get_bind]
  cases shown : s.recordOf? ds source with
  | none => rfl
  | some shape =>
    have short : ¬ shape.fields.length = items.length := fun fits => misfit ⟨shape, shown, fits⟩
    simp only [short, if_false]
    rfl

theorem refine_union_misfit
    (misfit : ¬ ∃ alternatives, s.alternativesOf? ds source = some alternatives ∧ alternatives.length = items.length) :
    refine ds source (.union items) s = (⟨source, [.misfit source (.union items)]⟩, s) := by
  rw [refine, Build.get_bind]
  cases shown : s.alternativesOf? ds source with
  | none => rfl
  | some alternatives =>
    have short : ¬ alternatives.length = items.length := fun fits => misfit ⟨alternatives, shown, fits⟩
    simp only [short, if_false]
    rfl

end

end Narrowing
