import Narrowing.Proofs.Grounded
import Narrowing.Proofs.JustifiedLaws

/-!
Transitivity without recursive declarations. The middle type meets its left-hand
neighbour by one rule and its right-hand one by another, so that the proof goes by
the kind of the target first: declarations are opened in step where two of them
meet, a target union has an alternative for a middle type that is none, and shapes
compose by their components. Each case leads to types with fewer types behind them,
by which the induction goes (`Tame.justified_trans`).
-/

namespace Narrowing

private theorem forall₂_trans {α : Type} {R S T : α → α → Prop} {as bs cs : List α} (first : List.Forall₂ R as bs)
    (second : List.Forall₂ S bs cs) (step : ∀ a ∈ as, ∀ b ∈ bs, ∀ c ∈ cs, R a b → S b c → T a c) :
    List.Forall₂ T as cs := by
  induction first generalizing cs with
  | nil =>
    cases second
    exact .nil
  | @cons a b as bs ab _ ih =>
    cases second with
    | @cons _ c _ cs bc rest =>
      refine .cons (step a (by simp) b (by simp) c (by simp) ab bc) (ih rest ?_)
      intro x memberX y memberY z memberZ
      exact step x (by simp [memberX]) y (by simp [memberY]) z (by simp [memberZ])

namespace Environment

variable {env : Environment}

/-- Shapes compose if their components do, those of negations in both directions. -/
theorem ShapesFollow.trans {S : TypeId → TypeId → Prop} {n m k : TypeNode}
    (step : ∀ x ∈ env.partsOf n, ∀ y ∈ env.partsOf m, ∀ z ∈ env.partsOf k,
      (S x y → S y z → S x z) ∧ (S z y → S y x → S z x))
    (first : env.ShapesFollow S n m) (second : env.ShapesFollow S m k) : env.ShapesFollow S n k := by
  cases n with
  | primitive p =>
    cases p with
    | void => cases k <;> simp [ShapesFollow]
    | _ =>
      cases m <;> simp only [ShapesFollow] at first
      simp at first
      exact first ▸ second
  | array x =>
    cases m <;> simp only [ShapesFollow] at first
    cases k <;> simp only [ShapesFollow] at second
    exact (step x (by simp [partsOf]) _ (by simp [partsOf]) _ (by simp [partsOf])).1 first second
  | reference x =>
    cases m <;> simp only [ShapesFollow] at first
    cases k <;> simp only [ShapesFollow] at second
    exact (step x (by simp [partsOf]) _ (by simp [partsOf]) _ (by simp [partsOf])).1 first second
  | negation x =>
    cases m <;> simp only [ShapesFollow] at first
    cases k <;> simp only [ShapesFollow] at second
    rename_i y z
    obtain ⟨along, back⟩ := step x (by simp [partsOf]) y (by simp [partsOf]) z (by simp [partsOf])
    exact ⟨along first.1 second.1, back second.2 first.2⟩
  | var v =>
    cases m <;> simp only [ShapesFollow] at first
    exact first ▸ second
  | record r =>
    cases m <;> simp only [ShapesFollow] at first
    cases k <;> simp only [ShapesFollow] at second
    obtain ⟨ls, foundL, ms, foundM, openL, fieldsL⟩ := first
    obtain ⟨ms', foundM', rs, foundR, openR, fieldsR⟩ := second
    obtain rfl := Option.some.inj (foundM.symm.trans foundM')
    refine ⟨ls, foundL, rs, foundR, openL.trans openR, forall₂_trans fieldsL fieldsR ?_⟩
    intro f memberF g memberG h memberH fg gh
    refine ⟨fg.1.trans gh.1, (step f.type ?_ g.type ?_ h.type ?_).1 fg.2 gh.2⟩
    · simpa [partsOf, foundL] using ⟨f, memberF, rfl⟩
    · simpa [partsOf, foundM] using ⟨g, memberG, rfl⟩
    · simpa [partsOf, foundR] using ⟨h, memberH, rfl⟩
  | callable c =>
    cases m <;> simp only [ShapesFollow] at first
    cases k <;> simp only [ShapesFollow] at second
    obtain ⟨ls, foundL, ms, foundM, kindL, paramsL, returnsL⟩ := first
    obtain ⟨ms', foundM', rs, foundR, kindR, paramsR, returnsR⟩ := second
    obtain rfl := Option.some.inj (foundM.symm.trans foundM')
    simp only [partsOf, foundL, foundM, foundR, Option.map_some, Option.getD_some, List.mem_append] at step
    refine ⟨ls, foundL, rs, foundR, kindL.trans kindR, forall₂_trans paramsL paramsR ?_, forall₂_trans returnsL returnsR ?_⟩
    · intro x memberX y memberY z memberZ
      exact (step x (.inl memberX) y (.inl memberY) z (.inl memberZ)).1
    · intro x memberX y memberY z memberZ
      exact (step x (.inr memberX) y (.inr memberY) z (.inr memberZ)).1
  | intersection l =>
    cases m <;> simp only [ShapesFollow] at first
    cases k <;> simp only [ShapesFollow] at second
    obtain ⟨ls, foundL, ms, foundM, operandsL⟩ := first
    obtain ⟨ms', foundM', rs, foundR, operandsR⟩ := second
    obtain rfl := Option.some.inj (foundM.symm.trans foundM')
    simp only [partsOf, foundL, foundM, foundR, Option.getD_some] at step
    exact ⟨ls, foundL, rs, foundR, forall₂_trans operandsL operandsR fun x memberX y memberY z memberZ =>
      (step x memberX y memberY z memberZ).1⟩
  | _ => cases m <;> simp [ShapesFollow] at first

/-- A type whose unions are in normal form and that is not reached from its own parts, nor is any type behind it. -/
structure Tame (env : Environment) (t : TypeId) : Prop where
  tidy : env.Tidy t
  grounded : env.Grounded t

section
variable {t : TypeId} (tame : env.Tame t)
include tame

theorem Tame.part {u : TypeId} (part : u ∈ env.parts t) : env.Tame u ∧ env.rank u < env.rank t :=
  ⟨⟨tame.tidy.part part, tame.grounded.part part⟩, tame.grounded.rank_lt part⟩

theorem Tame.body {d : DeclId} (known : env.types.node? t = some (.nominal d)) :
    ∃ body, env.declarations.body? d = some body ∧ env.Tame body ∧ env.rank body < env.rank t := by
  obtain ⟨body, found, -⟩ := (tame.tidy.rests known).nominal
  exact ⟨body, found, tame.part (by simp [parts_of_node known, partsOf, found])⟩

theorem Tame.members {l : ListId} (known : env.types.node? t = some (.union l)) :
    ∃ members, env.types.list? l = some members ∧ ∀ m ∈ members, env.Tame m ∧ env.rank m < env.rank t := by
  obtain ⟨members, found, -⟩ := (tame.tidy.rests known).union
  exact ⟨members, found, fun m member => tame.part (by simpa [parts_of_node known, partsOf, found] using member)⟩

end

/-- Transitivity of all triples with fewer types behind them than given. -/
def TransitiveBelow (env : Environment) (bound : Nat) : Prop :=
  ∀ a b c, env.Tame a → env.Tame b → env.Tame c → env.rank a + env.rank b + env.rank c < bound →
    env.Justified a b → env.Justified b c → env.Justified a c

section
variable {a b c : TypeId} (tameA : env.Tame a) (tameB : env.Tame b) (tameC : env.Tame c)
  (ih : env.TransitiveBelow (env.rank a + env.rank b + env.rank c)) (ab : env.Justified a b) (bc : env.Justified b c)
include tameA tameB tameC ih ab bc

private theorem trans_to_nominal {e : DeclId} (known : env.types.node? c = some (.nominal e)) : env.Justified a c := by
  obtain ⟨z, found, tameZ, lessZ⟩ := tameC.body known
  by_cases nominalB : ∃ d, env.types.node? b = some (.nominal d)
  · obtain ⟨d, knownB⟩ := nominalB
    obtain ⟨y, foundB, tameY, lessY⟩ := tameB.body knownB
    rcases (justified_nominals knownB foundB known found).mp bc with rfl | yz
    · exact TypeStore.node?_inj knownB known ▸ ab
    by_cases nominalA : ∃ d, env.types.node? a = some (.nominal d)
    · obtain ⟨d', knownA⟩ := nominalA
      obtain ⟨x, foundA, tameX, lessX⟩ := tameA.body knownA
      refine (justified_nominals knownA foundA known found).mpr (.inr ?_)
      rcases (justified_nominals knownA foundA knownB foundB).mp ab with rfl | xy
      · obtain rfl : x = y := Option.some.inj (foundA.symm.trans foundB)
        exact yz
      · exact ih x y z tameX tameY tameZ (by omega) xy yz
    · have last : env.IsConcrete a := not_exists.mp nominalA
      have ay := (justified_nominal_right tameA.tidy.resolved last knownB foundB).mp ab
      apply (justified_nominal_right tameA.tidy.resolved last known found).mpr
      exact ih a y z tameA tameY tameZ (by omega) ay yz
  · have bz := (justified_nominal_right tameB.tidy.resolved (not_exists.mp nominalB) known found).mp bc
    have az := ih a b z tameA tameB tameZ (by omega) ab bz
    exact az.of_body tameA.tidy tameZ.tidy known found

private theorem trans_from_union (lastB : env.IsConcrete b) (lastC : env.IsConcrete c) {l : ListId}
    (known : env.types.node? a = some (.union l)) : env.Justified a c := by
  obtain ⟨members, found, inside⟩ := tameA.members known
  have each := (justified_union_iff tameB.tidy lastB tameA.tidy known found).mp ab
  apply (justified_union_iff tameC.tidy lastC tameA.tidy known found).mpr
  intro m member
  obtain ⟨tameM, less⟩ := inside m member
  exact ih m b c tameM tameB tameC (by omega) (each m member) bc

private theorem trans_through_union (plain : ∀ k, env.types.node? a ≠ some (.union k)) (lastC : env.IsConcrete c)
    {l : ListId} (known : env.types.node? b = some (.union l)) : env.Justified a c := by
  obtain ⟨members, found, inside⟩ := tameB.members known
  have each := (justified_union_iff tameC.tidy lastC tameB.tidy known found).mp bc
  obtain ⟨m, member, am⟩ := (justified_union_right tameA.tidy.resolved plain known found).mp ab
  obtain ⟨tameM, less⟩ := inside m member
  exact ih a m c tameA tameM tameC (by omega) am (each m member)

private theorem trans_to_union (plain : ∀ k, env.types.node? b ≠ some (.union k)) {l : ListId}
    (known : env.types.node? c = some (.union l)) : env.Justified a c := by
  obtain ⟨members, found, inside⟩ := tameC.members known
  obtain ⟨m, member, bm⟩ := (justified_union_right tameB.tidy.resolved plain known found).mp bc
  obtain ⟨tameM, less⟩ := inside m member
  have am := ih a b m tameA tameB tameM (by omega) ab bm
  exact am.of_alternative tameA.tidy tameC.tidy known found member

/-- A declaration before a shape is opened, together with the type before it if that is a declaration too. -/
private theorem trans_through_nominal {d : DeclId} (knownB : env.types.node? b = some (.nominal d)) {k : TypeNode}
    (known : env.types.node? c = some k) (shape : k.IsShape) : env.Justified a c := by
  obtain ⟨y, foundB, tameY, lessY⟩ := tameB.body knownB
  have yc := (justified_nominal_left knownB foundB known shape).mp bc
  by_cases nominalA : ∃ d, env.types.node? a = some (.nominal d)
  · obtain ⟨d', knownA⟩ := nominalA
    obtain ⟨x, foundA, tameX, lessX⟩ := tameA.body knownA
    apply (justified_nominal_left knownA foundA known shape).mpr
    rcases (justified_nominals knownA foundA knownB foundB).mp ab with rfl | xy
    · obtain rfl : x = y := Option.some.inj (foundA.symm.trans foundB)
      exact yc
    · exact ih x y c tameX tameY tameC (by omega) xy yc
  · have ay := (justified_nominal_right tameA.tidy.resolved (not_exists.mp nominalA) knownB foundB).mp ab
    exact ih a y c tameA tameY tameC (by omega) ay yc

private theorem trans_shapes {n m k : TypeNode} (knownA : env.types.node? a = some n) (shapeA : n.IsShape)
    (knownB : env.types.node? b = some m) (shapeB : m.IsShape) (knownC : env.types.node? c = some k)
    (shapeC : k.IsShape) : env.Justified a c := by
  rw [justified_shapes knownA shapeA knownB shapeB] at ab
  rw [justified_shapes knownB shapeB knownC shapeC] at bc
  rw [justified_shapes knownA shapeA knownC shapeC]
  refine ab.trans (fun x partX y partY z partZ => ?_) bc
  obtain ⟨tameX, lessX⟩ := tameA.part (by rwa [parts_of_node knownA])
  obtain ⟨tameY, lessY⟩ := tameB.part (by rwa [parts_of_node knownB])
  obtain ⟨tameZ, lessZ⟩ := tameC.part (by rwa [parts_of_node knownC])
  exact ⟨ih x y z tameX tameY tameZ (by omega), ih z y x tameZ tameY tameX (by omega)⟩

private theorem trans_to_shape {k : TypeNode} (known : env.types.node? c = some k) (shape : k.IsShape) :
    env.Justified a c := by
  have lastC : env.IsConcrete c := isConcrete_of_node? known shape.1
  rcases tameB.tidy.kinds with ⟨d, _, knownB, -⟩ | ⟨l, _, knownB, -⟩ | ⟨m, knownB, shapeB⟩
  · exact trans_through_nominal tameA tameB tameC ih ab bc knownB known shape
  · by_cases unionA : ∃ k, env.types.node? a = some (.union k)
    · obtain ⟨k, knownA⟩ := unionA
      exact trans_from_union tameA tameB tameC ih ab bc (isConcrete_of_node? knownB (by simp)) lastC knownA
    · exact trans_through_union tameA tameB tameC ih ab bc (not_exists.mp unionA) lastC knownB
  · rcases tameA.tidy.kinds with ⟨d, _, knownA, -⟩ | ⟨l, _, knownA, -⟩ | ⟨n, knownA, shapeA⟩
    · obtain ⟨x, foundA, tameX, lessX⟩ := tameA.body knownA
      have xb := (justified_nominal_left knownA foundA knownB shapeB).mp ab
      apply (justified_nominal_left knownA foundA known shape).mpr
      exact ih x b c tameX tameB tameC (by omega) xb bc
    · exact trans_from_union tameA tameB tameC ih ab bc (isConcrete_of_node? knownB shapeB.1) lastC knownA
    · exact trans_shapes tameA tameB tameC ih ab bc knownA shapeA knownB shapeB known shape

end

theorem Tame.justified_trans {a b c : TypeId} (tameA : env.Tame a) (tameB : env.Tame b) (tameC : env.Tame c)
    (ab : env.Justified a b) (bc : env.Justified b c) : env.Justified a c := by
  induction behind : env.rank a + env.rank b + env.rank c using Nat.strong_induction_on generalizing a b c with
  | _ bound earlier =>
    have ih : env.TransitiveBelow (env.rank a + env.rank b + env.rank c) := by
      intro x y z tameX tameY tameZ less xy yz
      exact earlier _ (behind ▸ less) tameX tameY tameZ xy yz rfl
    rcases tameC.tidy.kinds with ⟨e, _, known, -⟩ | ⟨l, _, known, -⟩ | ⟨k, known, shape⟩
    · exact trans_to_nominal tameA tameB tameC ih ab bc known
    · by_cases unionB : ∃ k, env.types.node? b = some (.union k)
      · obtain ⟨k, knownB⟩ := unionB
        have lastB : env.IsConcrete b := isConcrete_of_node? knownB (by simp)
        have lastC : env.IsConcrete c := isConcrete_of_node? known (by simp)
        by_cases unionA : ∃ k, env.types.node? a = some (.union k)
        · obtain ⟨k', knownA⟩ := unionA
          exact trans_from_union tameA tameB tameC ih ab bc lastB lastC knownA
        · exact trans_through_union tameA tameB tameC ih ab bc (not_exists.mp unionA) lastC knownB
      · exact trans_to_union tameA tameB tameC ih ab bc (not_exists.mp unionB) known
    · exact trans_to_shape tameA tameB tameC ih ab bc known shape

/-- Being a subtype is transitive on graphs in normal form without recursive declarations, unless more pairs are
    nested than can be counted. -/
theorem isSubtype_trans {types : Set TypeId} (closed : env.Closed types) (normal : ∀ t ∈ types, env.isNormal t)
    (acyclic : env.Acyclic types) {a b c : TypeId} (insideA : a ∈ types) (insideB : b ∈ types) (insideC : c ∈ types)
    (shallow : env.Shallow .unbounded a c) (ab : env.isSubtype a b = .ok true) (bc : env.isSubtype b c = .ok true) :
    env.isSubtype a c = .ok true := by
  have tame : ∀ t ∈ types, env.Tame t := fun t member =>
    ⟨closed.tidy normal member, closed.grounded acyclic member⟩
  have below : ∀ {l r}, l ∈ types → r ∈ types → env.isSubtype l r = .ok true → env.Justified l r := by
    intro l r left right
    exact (closed.wellFormed left right).justified_of_isSubtype
      ((tame l left).grounded.assumesSoundly (tame r right).grounded)
  have justified : env.Justified a c := (tame a insideA).justified_trans (tame b insideB) (tame c insideC)
    (below insideA insideB ab) (below insideB insideC bc)
  exact isSubtype_eq_true_iff.mpr ((closed.wellFormed insideA insideC).selector_of_justified justified shallow)

/-- A declared number, a declared union with one more alternative than another, and a record that mentions them. -/
def aliasedNumbers : Environment :=
  .ofBodies [.type .int, .union [.type .int, .type .null, .type .bool],
    .record false [("plain", .node (.nominal ⟨1⟩)), ("maybe", .union [.type .int, .type .null]),
      ("loose", .node (.nominal ⟨2⟩))]]

def aliasedTypes : List TypeId := [⟨101⟩, ⟨102⟩, ⟨103⟩, ⟨100⟩, .int, .null, .bool]

theorem aliasedTypes_closed : aliasedNumbers.Closed {t | t ∈ aliasedTypes} := .of_list aliasedTypes (by decide +kernel)

theorem aliasedTypes_acyclic : aliasedNumbers.Acyclic {t | t ∈ aliasedTypes} :=
  aliasedTypes_closed.acyclic_of_list [⟨100⟩, .int, .null, .bool] (by decide +kernel) (by decide +kernel)
    (by decide +kernel)

/-- A declared number is below a union with numbers, and that below a declared union. -/
theorem aliasedNumbers_trans :
    aliasedNumbers.isSubtype ⟨101⟩ ⟨102⟩ = .ok true ∧ aliasedNumbers.isSubtype ⟨102⟩ ⟨103⟩ = .ok true ∧
      aliasedNumbers.isSubtype ⟨101⟩ ⟨103⟩ = .ok true := by
  have first : aliasedNumbers.isSubtype ⟨101⟩ ⟨102⟩ = .ok true := by decide +kernel
  have second : aliasedNumbers.isSubtype ⟨102⟩ ⟨103⟩ = .ok true := by decide +kernel
  have normal : ∀ t ∈ aliasedTypes, aliasedNumbers.isNormal t := by decide +kernel
  refine ⟨first, second, ?_⟩
  exact isSubtype_trans aliasedTypes_closed normal aliasedTypes_acyclic (by decide) (by decide) (by decide)
    (by decide +kernel) first second

end Environment

end Narrowing
