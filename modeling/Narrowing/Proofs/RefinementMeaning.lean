import Narrowing.Proofs.Meaning
import Narrowing.Proofs.RefinementRun

/-!
The values of a refined type. Each layer that refinement rebuilds has the values
that its parts make up (`means_array`, `means_record`), and a union those of the
types it is built from, whatever it opens and leaves out (`means_union`). So a
refined type has exactly the values of its source that the selector lets through
(`refine_means`).
-/

namespace Narrowing

universe u

namespace RecordShape

/-- With other types for all of its fields, a record keeps its names. -/
theorem map_withTypes {α : Type u} {shape : RecordShape} {types : List TypeId} (f : Name → TypeId → α)
    (count : types.length = shape.fields.length) :
    (shape.withTypes types).fields.map (fun x => f x.name x.type) =
      List.zipWith (fun x t => f x.name t) shape.fields types := by
  apply List.ext_getElem
  · simp [withTypes, count]
  · intro i inside inside'
    have place : i < types.length := by
      simp only [List.length_zipWith] at inside'
      omega
    simp [withTypes, place]

end RecordShape

namespace Environment

variable {V : Type u} {I : Interpretation V} {env : Environment}

variable (I) in
/-- A type without circles that has the given values. -/
structure Means (env : Environment) (t : TypeId) (values : Set V) : Prop where
  grounded : env.Grounded t
  meaning_eq : env.meaning I t = values

theorem Means.of_extends {env' : Environment} {t : TypeId} {values : Set V} (means : env.Means I t values)
    (larger : env.Extends env') : env'.Means I t values :=
  ⟨means.grounded.of_extends larger, (larger.meaning_eq means.grounded).trans means.meaning_eq⟩

theorem Grounded.means {t : TypeId} (grounded : env.Grounded t) : env.Means I t (env.meaning I t) := ⟨grounded, rfl⟩

theorem means_void : env.Means I .void ∅ := by
  have known : env.types.node? .void = some (.primitive .void) := env.types.node?_primitive .void
  have grounded : env.Grounded .void := grounded_of_node known rfl (by simp [partsOf])
  exact ⟨grounded, by rw [grounded.meaning_eq known, layer, I.void]⟩

theorem means_array {t x : TypeId} {values : Set V} (known : env.types.node? t = some (.array x))
    (element : env.Means I x values) : env.Means I t (I.lists values) := by
  have grounded : env.Grounded t := grounded_of_node known rfl (by simpa [partsOf] using element.grounded)
  exact ⟨grounded, by rw [grounded.meaning_eq known, layer, element.meaning_eq]⟩

theorem means_record {env' : Environment} (larger : env.Extends env') {t : TypeId} {r : RecordId} {shape : RecordShape}
    {types : List TypeId} (known : env'.types.node? t = some (.record r))
    (found : env'.types.record? r = some (shape.withTypes types)) (count : types.length = shape.fields.length)
    (grounded : ∀ t ∈ types, env.Grounded t) :
    env'.Means I t (I.record shape.isOpen (List.zipWith (fun f t => (f.name, env.meaning I t)) shape.fields types)) := by
  have inside : ∀ f ∈ (shape.withTypes types).fields, env.Grounded f.type :=
    fun f member => grounded f.type (RecordShape.withTypes_type_mem count f member)
  have whole : env'.Grounded t := by
    refine grounded_of_node known (by simp [resolves, found]) ?_
    simpa [partsOf, found] using fun f member => (inside f member).of_extends larger
  have fields : (shape.withTypes types).fields.map (fun f => (f.name, env'.meaning I f.type)) =
      (shape.withTypes types).fields.map fun f => (f.name, env.meaning I f.type) := by
    refine List.map_congr_left fun f member => ?_
    rw [larger.meaning_eq (inside f member)]
  refine ⟨whole, ?_⟩
  rw [whole.meaning_eq known]
  simp only [layer, found]
  rw [fields, RecordShape.map_withTypes (fun name t => (name, env.meaning I t)) count]
  rfl

/-- Opening nested unions to any depth changes no value. -/
theorem Grounded.mem_meaning_leaves {t : TypeId} (grounded : env.Grounded t) (depth : Nat) :
    (∀ m ∈ env.types.leavesWithin TypeNode.alternatives? depth t, env.Grounded m) ∧
      ∀ v, v ∈ env.meaning I t ↔
        ∃ m ∈ env.types.leavesWithin TypeNode.alternatives? depth t, v ∈ env.meaning I m := by
  induction depth generalizing t with
  | zero => simpa [TypeStore.leavesWithin] using grounded
  | succ depth ih =>
    by_cases union : ∃ l, env.types.node? t = some (.union l)
    · obtain ⟨l, known⟩ := union
      obtain ⟨n, known', rests⟩ := (closed_grounded env).rests grounded
      rw [known] at known'
      cases known'
      obtain ⟨members, found, inside⟩ := rests.union
      have opened : env.types.leavesWithin TypeNode.alternatives? (depth + 1) t =
          members.flatMap (env.types.leavesWithin TypeNode.alternatives? depth) := by
        simp [TypeStore.leavesWithin, known, TypeNode.alternatives?, found]
      rw [opened]
      constructor
      · intro u leaf
        obtain ⟨m, listed, leaf⟩ := List.mem_flatMap.mp leaf
        exact (ih (inside m listed)).1 u leaf
      · intro v
        rw [grounded.mem_meaning_union known found]
        simp only [List.mem_flatMap]
        constructor
        · rintro ⟨m, listed, value⟩
          obtain ⟨u, leaf, value⟩ := ((ih (inside m listed)).2 v).mp value
          exact ⟨u, ⟨m, listed, leaf⟩, value⟩
        · rintro ⟨u, ⟨m, listed, leaf⟩, value⟩
          exact ⟨m, listed, ((ih (inside m listed)).2 v).mpr ⟨u, leaf, value⟩⟩
    · rw [TypeStore.leavesWithin_of_plain (alternatives?_eq_none (not_exists.mp union))]
      simpa using grounded

/-- A union has the values of the types that it is built from, whichever of them it leaves out or opens. -/
theorem means_union {types : List TypeId} (grounded : ∀ t ∈ types, env.Grounded t) :
    env.types.Extends (Build.union types env.types).2 ∧
      (env.withStore (Build.union types env.types).2).Means I (Build.union types env.types).1
        {v | ∃ t ∈ types, v ∈ env.meaning I t} := by
  have members : ∀ m ∈ Build.unionMembers types env.types, env.Grounded m := by
    intro m member
    obtain ⟨-, t, listed, leaf⟩ := Build.mem_unionMembers.mp member
    exact ((grounded t listed).mem_meaning_leaves (I := I) _).1 m leaf
  have values : {v | ∃ t ∈ types, v ∈ env.meaning I t} =
      {v | ∃ m ∈ Build.unionMembers types env.types, v ∈ env.meaning I m} := by
    ext v
    constructor
    · rintro ⟨t, listed, value⟩
      obtain ⟨m, leaf, value⟩ := (((grounded t listed).mem_meaning_leaves _).2 v).mp value
      refine ⟨m, Build.mem_unionMembers.mpr ⟨?_, t, listed, leaf⟩, value⟩
      rintro rfl
      rw [means_void.meaning_eq] at value
      exact value
    · rintro ⟨m, member, value⟩
      obtain ⟨-, t, listed, leaf⟩ := Build.mem_unionMembers.mp member
      exact ⟨t, listed, (((grounded t listed).mem_meaning_leaves _).2 v).mpr ⟨m, leaf, value⟩⟩
  obtain ⟨grown, result⟩ := Build.union_spec types env.types
  have larger := extends_withStore grown
  refine ⟨grown, ?_⟩
  rw [values]
  rcases result with ⟨none, void⟩ | single | ⟨-, l, built, entered⟩
  · rw [void, none]
    simpa using means_void
  · have only := (members _ (by rw [single]; exact List.mem_singleton_self _)).means.of_extends (I := I) larger
    rw [single]
    simpa using only
  · have whole : (env.withStore (Build.union types env.types).2).Grounded (Build.union types env.types).1 :=
      grounded_of_node built (by simp [resolves, withStore, entered])
        (by simpa [partsOf, withStore, entered] using fun m member => (members m member).of_extends larger)
    refine ⟨whole, ?_⟩
    ext v
    rw [whole.mem_meaning_union built entered]
    refine exists_congr fun m => and_congr_right fun member => ?_
    rw [larger.meaning_eq (members m member)]

mutual

/-- A refined type has the values of its source that the selector lets through. -/
theorem refine_means (env : Environment) : ∀ (s : Selector) {a : TypeId} {store : TypeStore}, env.Grounded a →
    env.types.Extends store →
      let result := Narrowing.refine env.declarations a s store
      store.Extends result.2 ∧ (env.withStore result.2).Means I result.1.type (env.selected I a s)
  | .top, a, store, grounded, larger => by
    rw [Narrowing.refine, selected]
    exact ⟨.refl store, grounded.means.of_extends (extends_withStore larger)⟩
  | .bottom, a, store, _, _ => by
    rw [Narrowing.refine, selected]
    exact ⟨.refl store, means_void⟩
  | .array item, a, store, grounded, larger => by
    have wide := extends_withStore larger
    have shown : store.elementOf? env.declarations a = _ := wide.elementOf?_eq grounded
    rw [selected]
    cases here : env.types.elementOf? env.declarations a with
    | none =>
      rw [refine_array_misfit (shown.trans here)]
      exact ⟨.refl store, grounded.means.of_extends wide⟩
    | some e =>
      rw [refine_array (shown.trans here)]
      obtain ⟨grown, means⟩ := refine_means env item ((closed_grounded env).element grounded here) larger
      generalize Narrowing.refine env.declarations e item store = x at grown means
      have grown' := Build.extends_intern (.array x.1.type) x.2
      have built := Build.node?_intern (.array x.1.type) x.2
      exact ⟨grown.trans grown', means_array built (means.of_extends (env.withStore_extends grown'))⟩
  | .record items, a, store, grounded, larger => by
    have wide := extends_withStore larger
    have shown : store.recordOf? env.declarations a = _ := wide.recordOf?_eq grounded
    by_cases fitting : ∃ shape, env.types.recordOf? env.declarations a = some shape ∧ shape.fields.length = items.length
    · obtain ⟨shape, here, fits⟩ := fitting
      rw [refine_record (shown.trans here) fits, selected_record here fits]
      obtain ⟨grown, count, inside, values⟩ :=
        refineAll_means env items fits ((closed_grounded env).fields grounded here) larger
      rw [← values]
      generalize refineAll env.declarations (shape.fields.map Field.type) items store = xs at grown count inside
      obtain ⟨grown', r, built, entered⟩ := Build.record_spec (shape.withTypes (xs.1.map Refined.type)) xs.2
      exact ⟨grown.trans grown', means_record (env.withStore_extends grown') built entered count inside⟩
    · rw [selected_record_misfit fitting]
      rw [← shown] at fitting
      rw [refine_record_misfit fitting]
      exact ⟨.refl store, grounded.means.of_extends wide⟩
  | .union items, a, store, grounded, larger => by
    have wide := extends_withStore larger
    have shown : store.alternativesOf? env.declarations a = _ := wide.alternativesOf?_eq grounded
    by_cases fitting : ∃ alternatives, env.types.alternativesOf? env.declarations a = some alternatives ∧
        alternatives.length = items.length
    · obtain ⟨alternatives, here, fits⟩ := fitting
      rw [refine_union (shown.trans here) fits, selected_union here fits]
      obtain ⟨grown, inside, values⟩ :=
        refineKept_means env items ((closed_grounded env).alternatives grounded here) larger
      rw [← values]
      generalize refineKept env.declarations alternatives items store = xs at grown inside
      obtain ⟨grown', means⟩ := means_union (I := I) inside
      exact ⟨grown.trans grown', means⟩
    · rw [selected_union_misfit fitting]
      rw [← shown] at fitting
      rw [refine_union_misfit fitting]
      exact ⟨.refl store, grounded.means.of_extends wide⟩

theorem refineAll_means (env : Environment) : ∀ (items : List Selector) {fields : List Field} {store : TypeStore},
    fields.length = items.length → (∀ f ∈ fields, env.Grounded f.type) → env.types.Extends store →
      let result := refineAll env.declarations (fields.map Field.type) items store
      store.Extends result.2 ∧ (result.1.map Refined.type).length = fields.length ∧
        (∀ t ∈ result.1.map Refined.type, (env.withStore result.2).Grounded t) ∧
        List.zipWith (fun f t => (f.name, (env.withStore result.2).meaning I t)) fields (result.1.map Refined.type) =
          env.selectedFields I fields items
  | [], fields, store, fits, _, _ => by
    obtain rfl : fields = [] := List.eq_nil_of_length_eq_zero fits
    rw [List.map_nil, refineAll_nil]
    exact ⟨.refl store, rfl, by simp, rfl⟩
  | item :: items, [], _, fits, _, _ => by simp at fits
  | item :: items, f :: fields, store, fits, grounded, larger => by
    obtain ⟨here, rest⟩ := List.forall_mem_cons.mp grounded
    obtain ⟨grown, means⟩ := refine_means env item here larger
    obtain ⟨grown', count, inside, values⟩ := refineAll_means env items (by simpa using fits) rest (larger.trans grown)
    have first := means.of_extends (env.withStore_extends grown')
    rw [List.map_cons, refineAll_cons]
    refine ⟨grown.trans grown', congrArg (· + 1) count, List.forall_mem_cons.mpr ⟨first.grounded, inside⟩, ?_⟩
    simp only [List.map_cons, List.zipWith_cons_cons, selectedFields, values, first.meaning_eq]

theorem refineKept_means (env : Environment) : ∀ (items : List Selector) {sources : List TypeId} {store : TypeStore},
    (∀ t ∈ sources, env.Grounded t) → env.types.Extends store →
      let result := refineKept env.declarations sources items store
      store.Extends result.2 ∧ (∀ t ∈ result.1.map Refined.type, (env.withStore result.2).Grounded t) ∧
        {v | ∃ t ∈ result.1.map Refined.type, v ∈ (env.withStore result.2).meaning I t} =
          env.selectedAny I sources items
  | [], sources, store, _, _ => by
    rw [refineKept_nil]
    cases sources <;> exact ⟨.refl store, by simp, by simp [selectedAny]⟩
  | item :: items, [], store, _, _ => by
    rw [show refineKept env.declarations [] (item :: items) store = ([], store) from rfl]
    exact ⟨.refl store, by simp, by simp [selectedAny]⟩
  | item :: items, source :: sources, store, grounded, larger => by
    obtain ⟨here, rest⟩ := List.forall_mem_cons.mp grounded
    rw [refineKept_cons, selectedAny]
    split
    case isTrue bottom =>
      rw [Selector.isBottom_iff.mp bottom, selected, Set.empty_union]
      exact refineKept_means env items rest larger
    case isFalse =>
      obtain ⟨grown, means⟩ := refine_means env item here larger
      obtain ⟨grown', inside, values⟩ := refineKept_means env items rest (larger.trans grown)
      have first := means.of_extends (env.withStore_extends grown')
      refine ⟨grown.trans grown', List.forall_mem_cons.mpr ⟨first.grounded, inside⟩, ?_⟩
      rw [← values, ← first.meaning_eq]
      ext v
      simp

end

end Environment

end Narrowing
