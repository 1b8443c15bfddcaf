import Narrowing.Proofs.Completeness
import Narrowing.Proofs.JustifiedLaws

/-!
Reflexivity. A type of a closed graph is below itself if no union on the way is
empty, and comparing it with itself finds that, whichever pairs are in progress
when the comparison starts. Declarations may refer to themselves, and unions may be
nested in each other and even in themselves.
-/

namespace Narrowing

namespace Environment

/-- The attempts of a comparison while others may be in progress. -/
def attemptsFrom (env : Environment) (guard : Guard TypePair) (lhs rhs : TypeId) : List Attempt :=
  env.attemptsWithin guard.room (guard.visiting.map fun p => (p.low, p.high)) guard lhs rhs

variable {env : Environment} {types : Set TypeId}

theorem Closed.compareFrom_of_justified (closed : env.Closed types) {l r : TypeId} (left : l ∈ types)
    (right : r ∈ types) (justified : env.Justified l r) {g : Guard TypePair}
    (patient : Limits.ceiling ≤ g.limits.maxIterations)
    (shallow : ∀ a ∈ env.attemptsFrom g l r, a.entrance ≠ .depthExceeded) :
    (env.compareFrom g l r).answer = .ok .top := by
  have visited : g.visiting = (g.visiting.map fun p => (p.low, p.high)).map fun p => .of p.1 p.2 := by
    rw [List.map_map]
    refine (List.map_id _).symm.trans (List.map_congr_left fun p _ => ?_)
    simp [TypePair.of, p.ordered]
  -- The derivation starts from nothing, so what the guard has in progress can only end it earlier.
  have derivable : env.Derivable StopsEitherWay (g.visiting.map fun p => (p.low, p.high)) l r :=
    (closed.derivable _ left right justified).weaken fun _ _ _ => .inl
  rw [compareFrom, answer_compareWithin g.room g patient rfl]
  exact closed.outcome_of_derivable patient rfl visited left right derivable shallow

/-- Comparing a type with itself yields top, from the start and whatever other pairs are in progress, unless more
    pairs are nested than can be counted. -/
theorem comparison_refl (closed : env.Closed types) (filled : env.Filled types) {t : TypeId} (member : t ∈ types) :
    (env.Shallow .unbounded t t → env.selector t t = .ok .top) ∧
    ∀ g : Guard TypePair, Limits.ceiling ≤ g.limits.maxIterations →
      (∀ a ∈ env.attemptsFrom g t t, a.entrance ≠ .depthExceeded) → (env.compareFrom g t t).answer = .ok .top := by
  have justified := closed.justified_refl member filled
  constructor
  · exact (closed.wellFormed member member).selector_of_justified justified
  · intro g patient shallow
    exact closed.compareFrom_of_justified member member justified patient shallow

/-- A list that names its own union: a union whose first alternative is the union itself, and the intersection of
    the same two types. -/
def circularUnion : Environment := .ofBodies [.intersection [.node (.union ⟨1⟩), .type .null]]

/-- An intersection with a union that contains itself is found below itself, from the start and while its operands
    are being compared. -/
theorem circularUnion_refl :
    circularUnion.types.list? ⟨1⟩ = some [⟨100⟩, .null] ∧ circularUnion.selector ⟨101⟩ ⟨101⟩ = .ok .top ∧
      (circularUnion.compareFrom ((Guard.fresh .unbounded).enter (.of ⟨100⟩ .null)).2 ⟨101⟩ ⟨101⟩).answer =
        .ok .top := by
  have closed : circularUnion.Closed {t | t ∈ [⟨100⟩, ⟨101⟩, .null]} := .of_list _ (by decide +kernel)
  have filled : circularUnion.Filled {t | t ∈ [⟨100⟩, ⟨101⟩, .null]} := by
    have checked : ∀ t ∈ [⟨100⟩, ⟨101⟩, .null], circularUnion.parts t = [] → t = .null := by decide +kernel
    intro t listed l known empty
    have null := checked t listed (by simp [parts_of_node known, partsOf, empty])
    rw [null] at known
    exact absurd known (by simp [show circularUnion.types.node? .null = _ from TypeStore.node?_primitive _ .null])
  have refl := comparison_refl closed filled (t := ⟨101⟩) (by simp)
  exact ⟨by decide +kernel, refl.1 (by decide +kernel), refl.2 _ (Nat.le_refl _) (by decide +kernel)⟩

end Environment

end Narrowing
