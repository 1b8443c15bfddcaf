import Narrowing.Proofs.LargerLimits
import Narrowing.Proofs.Reflexivity
import Narrowing.Proofs.RefinementTarget

/-!
Refinement never widens. Whatever the selector, what is refined is tidy again and
justified below its source (`refine_narrows`): the parts are by induction, each
layer that is rebuilt is below the layer that it replaces, and a union that shrinks
to one of its alternatives is found behind the declarations of the source. A selector
that does not fit leaves the type as it is.
-/

namespace Narrowing

namespace RecordShape

theorem pairs_self (shape : RecordShape) : shape.pairs shape = shape.fields.map fun f => (f.type, f.type) := by
  rw [pairs, List.zip_eq_zipWith, List.zipWith_self, List.map_map]
  rfl

/-- Fields that keep their names make a record with any types. -/
theorem ofFields?_withTypes (shape : RecordShape) (types : List TypeId) :
    ofFields? shape.isOpen (shape.withTypes types).fields = some (shape.withTypes types) := by
  rw [ofFields?, dif_pos (shape.withTypes types).distinct]
  rfl

end RecordShape

namespace Environment

/-- A type is tidy and justified below another. -/
structure Narrows (env : Environment) (a t : TypeId) : Prop where
  tidy : env.Tidy t
  justified : env.Justified t a

section
variable {env env' : Environment} {a t : TypeId}

theorem Lands.narrows {condition : Prop} (lands : env.Lands a t condition) (holds : condition) : env.Narrows a t :=
  ⟨lands.tidy, lands.justified_iff.mpr holds⟩

theorem Tidy.narrows_refl (tidy : env.Tidy a) : env.Narrows a a := ⟨tidy, tidy.justified_refl⟩

theorem Tidy.narrows_void (tidy : env.Tidy a) : env.Narrows a .void := ⟨tidy_void env, tidy.justified_void⟩

theorem Narrows.of_extends (narrows : env.Narrows a t) (tidy : env.Tidy a) (larger : env.Extends env') :
    env'.Narrows a t :=
  ⟨narrows.tidy.of_extends larger, (larger.justified_iff narrows.tidy tidy).mpr narrows.justified⟩

/-- Types below what is behind a target make a union below the target. -/
theorem union_narrows {ds : List DeclId} {b y : TypeId} {types : List TypeId} (tidyB : env.Tidy b)
    (chain : env.Unfolds ds b y) (last : env.IsConcrete y) (narrows : ∀ t ∈ types, env.Narrows y t) :
    env.types.Extends (Build.union types env.types).2 ∧
      (env.withStore (Build.union types env.types).2).Narrows b (Build.union types env.types).1 := by
  have tidy : ∀ t ∈ types, env.Tidy t := fun t listed => (narrows t listed).tidy
  have members := tidy_unionMembers tidy
  have below : ∀ m ∈ Build.unionMembers types env.types, env.Justified m y :=
    (justified_unionMembers_iff (tidyB.of_unfolds chain) last tidy).mpr fun t listed => (narrows t listed).justified
  obtain ⟨grown, result⟩ := Build.union_spec types env.types
  have larger := extends_withStore grown
  refine ⟨grown, ?_⟩
  rcases result with ⟨-, void⟩ | single | ⟨several, l, built, entered⟩
  · rw [void]
    exact (tidyB.of_extends larger).narrows_void
  · have listed : (Build.union types env.types).1 ∈ Build.unionMembers types env.types := by
      rw [single]
      exact List.mem_singleton_self _
    -- The only member may be a declaration, and is then compared with the target as it stands.
    have tidyM := (members _ listed).1
    have narrowsM : env.Narrows b (Build.union types env.types).1 :=
      ⟨tidyM, (below _ listed).of_unfolds tidyM tidyB chain⟩
    exact narrowsM.of_extends tidyB larger
  · have normal := normalMembers_unionMembers tidy several
    have layer := several_land larger tidyB chain last normal (fun m member => (members m member).1) built entered
    exact layer.narrows below

end

mutual

/-- Whatever the selector, the refined type is tidy and justified below its source. -/
theorem refine_narrows : ∀ (s : Selector) {env : Environment} {a : TypeId}, env.Tidy a →
    let result := Narrowing.refine env.declarations a s env.types
    env.types.Extends result.2 ∧ (env.withStore result.2).Narrows a result.1.type
  | .top, env, a, tidy => by
    rw [Narrowing.refine]
    exact ⟨.refl env.types, tidy.narrows_refl⟩
  | .bottom, env, a, tidy => by
    rw [Narrowing.refine]
    exact ⟨.refl env.types, tidy.narrows_void⟩
  | .array item, env, a, tidy => by
    cases shown : env.types.elementOf? env.declarations a with
    | none =>
      rw [refine_array_misfit shown]
      exact ⟨.refl env.types, tidy.narrows_refl⟩
    | some e =>
      obtain ⟨grown, narrows⟩ := refine_narrows item (tidy.element shown)
      have wide := extends_withStore grown
      rw [refine_array shown]
      generalize Narrowing.refine env.declarations e item env.types = x at grown narrows wide
      have grown' := Build.extends_intern (.array x.1.type) x.2
      have built := Build.node?_intern (.array x.1.type) x.2
      have layer := array_lands (env.withStore_extends grown') (tidy.of_extends wide) narrows.tidy
        (wide.elementOf? shown) built
      exact ⟨grown.trans grown', layer.narrows narrows.justified⟩
  | .record items, env, a, tidy => by
    by_cases fits : ∃ shape, env.types.recordOf? env.declarations a = some shape ∧ shape.fields.length = items.length
    · obtain ⟨shape, shown, count⟩ := fits
      have tidyFields : ∀ u ∈ shape.fields.map Field.type, env.Tidy u :=
        List.forall_mem_map.mpr (tidy.fields shown)
      obtain ⟨grown, tidyTypes, below⟩ := refineAll_narrows items tidyFields (by simpa using count)
      have filled := below.length_eq.trans (List.length_map _)
      have wide := extends_withStore grown
      rw [refine_record shown count]
      generalize refineAll env.declarations (shape.fields.map Field.type) items env.types = xs
        at grown tidyTypes below filled wide
      obtain ⟨grown', r, built, entered⟩ := Build.record_spec (shape.withTypes (xs.1.map Refined.type)) xs.2
      have layer := record_lands (env.withStore_extends grown') (tidy.of_extends wide) tidyTypes (wide.recordOf? shown)
        rfl rfl filled built entered
      refine ⟨grown.trans grown', layer.narrows ?_⟩
      rw [RecordShape.pairs_self, List.forall₂_map_right_iff]
      exact List.forall₂_map_right_iff.mp below
    · rw [refine_record_misfit fits]
      exact ⟨.refl env.types, tidy.narrows_refl⟩
  | .union items, env, a, tidy => by
    by_cases fits : ∃ alternatives, env.types.alternativesOf? env.declarations a = some alternatives ∧
        alternatives.length = items.length
    · obtain ⟨alternatives, shown, count⟩ := fits
      obtain ⟨normal, tidyAlternatives⟩ := tidy.alternatives shown
      obtain ⟨grown, narrows⟩ := refineKept_narrows items tidyAlternatives
      have wide := extends_withStore grown
      obtain ⟨ds, y, l, chain, last, found⟩ := alternativesOf?_eq_some_iff.mp shown
      have tidyY := tidy.of_unfolds chain
      rw [refine_union shown count]
      generalize refineKept env.declarations alternatives items env.types = xs at grown narrows wide
      have behind : ∀ t ∈ xs.1.map Refined.type, (env.withStore xs.2).Narrows y t := by
        intro t listed
        obtain ⟨m, member, here⟩ := narrows t listed
        exact ⟨here.tidy, here.justified.of_alternative here.tidy (tidyY.of_extends wide) (wide.types.node last)
          (wide.types.list found) member⟩
      have concrete := isConcrete_of_node? (wide.types.node last) (by simp)
      obtain ⟨grown', layer⟩ := union_narrows (tidy.of_extends wide) (chain.of_extends wide) concrete behind
      exact ⟨grown.trans grown', layer⟩
    · rw [refine_union_misfit fits]
      exact ⟨.refl env.types, tidy.narrows_refl⟩

theorem refineAll_narrows : ∀ (items : List Selector) {env : Environment} {sources : List TypeId},
    (∀ a ∈ sources, env.Tidy a) → sources.length = items.length →
    let result := refineAll env.declarations sources items env.types
    env.types.Extends result.2 ∧ (∀ t ∈ result.1.map Refined.type, (env.withStore result.2).Tidy t) ∧
      List.Forall₂ (env.withStore result.2).Justified (result.1.map Refined.type) sources
  | [], env, sources, _, count => by
    obtain rfl : sources = [] := List.eq_nil_of_length_eq_zero count
    rw [refineAll_nil]
    exact ⟨.refl env.types, by simp, .nil⟩
  | item :: items, env, [], _, count => by simp at count
  | item :: items, env, source :: sources, tidy, count => by
    obtain ⟨tidyHere, tidyRest⟩ := List.forall_mem_cons.mp tidy
    obtain ⟨grown, narrows⟩ := refine_narrows item tidyHere
    have wide := extends_withStore grown
    have tidyRest' := fun u listed => (tidyRest u listed).of_extends wide
    obtain ⟨grown', tidyTypes, below⟩ := refineAll_narrows items tidyRest' (by simpa using count)
    have first := narrows.of_extends (tidyHere.of_extends wide) (env.withStore_extends grown')
    rw [refineAll_cons]
    exact ⟨grown.trans grown', List.forall_mem_cons.mpr ⟨first.tidy, tidyTypes⟩, .cons first.justified below⟩

theorem refineKept_narrows : ∀ (items : List Selector) {env : Environment} {sources : List TypeId},
    (∀ a ∈ sources, env.Tidy a) →
    let result := refineKept env.declarations sources items env.types
    env.types.Extends result.2 ∧
      ∀ t ∈ result.1.map Refined.type, ∃ a ∈ sources, (env.withStore result.2).Narrows a t
  | [], env, sources, _ => by
    rw [refineKept_nil]
    exact ⟨.refl env.types, by simp⟩
  | item :: items, env, [], _ => by
    rw [refineKept]
    · exact ⟨.refl env.types, fun t listed => absurd listed List.not_mem_nil⟩
    · simp
  | item :: items, env, source :: sources, tidy => by
    obtain ⟨tidyHere, tidyRest⟩ := List.forall_mem_cons.mp tidy
    rw [refineKept_cons]
    split
    case isTrue =>
      obtain ⟨grown, narrows⟩ := refineKept_narrows items tidyRest
      refine ⟨grown, fun t listed => ?_⟩
      obtain ⟨m, member, here⟩ := narrows t listed
      exact ⟨m, List.mem_cons_of_mem source member, here⟩
    case isFalse =>
      obtain ⟨grown, narrows⟩ := refine_narrows item tidyHere
      have wide := extends_withStore grown
      have tidyRest' := fun u listed => (tidyRest u listed).of_extends wide
      obtain ⟨grown', narrows'⟩ := refineKept_narrows items tidyRest'
      refine ⟨grown.trans grown', List.forall_mem_cons.mpr ⟨⟨source, by simp, ?_⟩, fun t listed => ?_⟩⟩
      · exact narrows.of_extends (tidyHere.of_extends wide) (env.withStore_extends grown')
      · obtain ⟨m, member, here⟩ := narrows' t listed
        exact ⟨m, List.mem_cons_of_mem source member, here⟩

end

variable {env : Environment}

/-- A justified pair is found top by every query whose limits allow for all pairs of its graph. -/
theorem WellFormed.checkedSelector_of_justified {l r : TypeId} (wellFormed : env.WellFormed l r)
    (justified : env.Justified l r) {limits : Limits} (patient : Limits.ceiling ≤ limits.maxIterations)
    (deep : env.pairBound l r ≤ limits.maxDepth) : env.checkedSelector limits l r = .ok (.selector .top) := by
  have answered : (env.compareFrom (.fresh limits) l r).answer = .ok .top :=
    wellFormed.closed.compareFrom_of_justified (left_mem_reachable l r) (right_mem_reachable l r) justified patient
      (wellFormed.shallow_of_pairBound deep)
  exact checkedSelector_eq_selector_iff.mpr ⟨answered, wellFormed.exceeded_eq_false deep patient⟩

/-- Refining a tidy type by any selector, one that fits it or not, gives a tidy type that is a subtype of it, unless
    more pairs are nested than can be counted; under limits that allow for all pairs of the graph that is found
    without a refusal. The types that were there are kept, and the one check on what is built, that the fields of a
    record have different names, is passed by every record with other types. -/
theorem refinement_narrows {a : TypeId} (tidy : env.Tidy a) (s : Selector) :
    env.Extends (env.refine a s).2 ∧ (env.refine a s).2.Tidy (env.refine a s).1.type ∧
    ((env.refine a s).2.Shallow .unbounded (env.refine a s).1.type a →
      (env.refine a s).2.isSubtype (env.refine a s).1.type a = .ok true) ∧
    (∀ limits : Limits, Limits.ceiling ≤ limits.maxIterations →
      (env.refine a s).2.pairBound (env.refine a s).1.type a ≤ limits.maxDepth →
      (env.refine a s).2.checkedSelector limits (env.refine a s).1.type a = .ok (.selector .top)) ∧
    ∀ (shape : RecordShape) (types : List TypeId),
      RecordShape.ofFields? shape.isOpen (shape.withTypes types).fields = some (shape.withTypes types) := by
  obtain ⟨grown, narrows⟩ := refine_narrows s tidy
  have larger : env.Extends (env.refine a s).2 := extends_withStore grown
  have wellFormed : (env.refine a s).2.WellFormed (env.refine a s).1.type a :=
    narrows.tidy.wellFormed (tidy.of_extends larger)
  refine ⟨larger, narrows.tidy, fun shallow => ?_, fun limits patient deep => ?_, RecordShape.ofFields?_withTypes⟩
  · exact isSubtype_eq_true_iff.mpr (wellFormed.selector_of_justified narrows.justified shallow)
  · exact wellFormed.checkedSelector_of_justified narrows.justified patient deep

/-- An alias of an optional list, the option, and the list, which goes on with the alias. -/
def aliasedOption : Environment :=
  .ofBodies [.node (.nominal ⟨2⟩), .union [.node (.nominal ⟨3⟩), .type .null],
    .record false [("val", .type .int), ("next", .node (.nominal ⟨1⟩))]]

/-- A selector with a union for the list, which is none, and with nothing for null. It leaves the bare name of the list,
    which is found behind the alias and the option. -/
theorem aliasedOption_narrows :
    aliasedOption.Tidy ⟨103⟩ ∧
      (aliasedOption.refine ⟨103⟩ (.union [.union [.bottom], .bottom])).1 =
        ⟨⟨101⟩, [.misfit ⟨101⟩ (.union [.bottom])]⟩ ∧
      (aliasedOption.refine ⟨103⟩ (.union [.union [.bottom], .bottom])).2.isSubtype ⟨101⟩ ⟨103⟩ = .ok true := by
  have closed : aliasedOption.Closed {t | t ∈ [⟨100⟩, ⟨101⟩, ⟨102⟩, ⟨103⟩, ⟨104⟩, .int, .null]} :=
    .of_list _ (by decide +kernel)
  have normal : ∀ t ∈ [⟨100⟩, ⟨101⟩, ⟨102⟩, ⟨103⟩, ⟨104⟩, .int, .null], aliasedOption.isNormal t := by decide +kernel
  have tidy : aliasedOption.Tidy ⟨103⟩ := closed.tidy normal (by simp)
  have refined : (aliasedOption.refine ⟨103⟩ (.union [.union [.bottom], .bottom])).1 =
      ⟨⟨101⟩, [.misfit ⟨101⟩ (.union [.bottom])]⟩ := by decide +kernel
  obtain ⟨-, -, subtype, -⟩ := refinement_narrows tidy (.union [.union [.bottom], .bottom])
  rw [refined] at subtype
  exact ⟨tidy, refined, subtype (by decide +kernel)⟩

end Environment

end Narrowing
