import Narrowing.Proofs.Justification
import Narrowing.Proofs.Termination

/-!
Derivable pairs are found. The guarded comparison assumes every pair that is in
progress, in either direction, so it follows any derivation that stops at such
pairs: what is derivable compares as top wherever depth refuses nothing
(`WellFormed.selector_of_derivable`). Justified pairs are derivable, so they
compare as top.
-/

namespace Narrowing

namespace Environment

variable {env : Environment} {types : Set TypeId}

theorem Closed.outcome_of_derivable (closed : env.Closed types) {room : Nat} {path : List (TypeId × TypeId)}
    {g : Guard TypePair} (patient : Limits.ceiling ≤ g.limits.maxIterations) (exact : g.room = room)
    (visited : g.visiting = path.map fun p => .of p.1 p.2) {l r : TypeId} (left : l ∈ types) (right : r ∈ types)
    (derivable : env.Derivable StopsEitherWay path l r)
    (shallow : ∀ a ∈ env.attemptsWithin room path g l r, a.entrance ≠ .depthExceeded) :
    env.outcome room g.visiting l r = .ok .top := by
  -- The run may have stopped already where the derivation goes on.
  by_cases old : TypePair.of l r ∈ g.visiting
  · exact outcome_of_inProgress old
  induction derivable generalizing room g with
  | stop here =>
    refine absurd ?_ old
    rw [visited, List.mem_map]
    rcases here with same | reversed
    · exact ⟨_, same, rfl⟩
    · exact ⟨_, reversed, TypePair.of_comm _ _⟩
  | @rule path l r premise follows _ ih =>
    cases room with
    | zero =>
      have first := shallow ⟨path, g, l, r⟩ (by simp [attemptsWithin])
      simp [Attempt.entrance, Guard.enter_patient patient, old, exact] at first
    | succ room =>
      rw [outcome_of_new old]
      refine closed.settle_of_follows left right (fun a b => closed.exists_outcome room _) follows ?_
      intro p asked premised
      have inside := Inquiry.allowed_of_asked (rule_within closed left right) p asked
      obtain ⟨g', limits, visiting, left_over, included⟩ := attempts_of_asked_rule patient exact old asked
      rw [← visiting]
      by_cases again : TypePair.of p.1 p.2 ∈ g'.visiting
      · exact outcome_of_inProgress again
      · exact ih p.1 p.2 premised (by rwa [limits]) left_over (by simp [visiting, visited]) inside.1 inside.2
          (fun a member => shallow a (included a member)) again

/-- Comparing a pair yields top if it has a derivation that stops only at pairs in progress, in either direction,
    unless more pairs are nested than can be counted. -/
theorem WellFormed.selector_of_derivable {l r : TypeId} (wellFormed : env.WellFormed l r)
    (derivable : env.Derivable StopsEitherWay [] l r)
    (shallow : env.Shallow .unbounded l r) : env.selector l r = .ok .top := by
  rw [selector_eq_outcome]
  exact wellFormed.closed.outcome_of_derivable (g := .fresh .unbounded) (Nat.le_refl _) rfl rfl
    (left_mem_reachable l r) (right_mem_reachable l r) derivable shallow

theorem WellFormed.selector_of_justified {l r : TypeId} (wellFormed : env.WellFormed l r)
    (justified : env.Justified l r) (shallow : env.Shallow .unbounded l r) : env.selector l r = .ok .top := by
  have derivable := wellFormed.justified_iff_derivable.mp justified
  exact wellFormed.selector_of_derivable (derivable.weaken fun _ _ _ => .inl) shallow

/-- Every pair of a consistent set compares as top. -/
theorem selector_of_consistent {pairs : Set (TypeId × TypeId)} (consistent : env.Consistent pairs) {l r : TypeId}
    (member : (l, r) ∈ pairs) (wellFormed : env.WellFormed l r) (shallow : env.Shallow .unbounded l r) :
    env.selector l r = .ok .top := by
  have justified : env.Justified l r := ⟨pairs, consistent, member⟩
  exact wellFormed.selector_of_justified justified shallow

/-- The pairs by which one of the copied lists is below the other: the lists, their bodies, and the fields. -/
def copiedPairs : List (TypeId × TypeId) :=
  [(⟨100⟩, ⟨103⟩), (⟨102⟩, ⟨105⟩), (.int, .int), (⟨101⟩, ⟨104⟩), (⟨100⟩, ⟨104⟩), (.null, ⟨104⟩), (.null, .null)]

/-- Copies of a list compare as top, by a set of seven pairs. -/
theorem copiedLists_selector :
    copiedLists.Consistent {p | p ∈ copiedPairs} ∧ copiedLists.WellFormed ⟨100⟩ ⟨103⟩ ∧
      copiedLists.selector ⟨100⟩ ⟨103⟩ = .ok .top := by
  have consistent : copiedLists.Consistent {p | p ∈ copiedPairs} := .of_list copiedPairs (by decide +kernel)
  refine ⟨consistent, copiedLists_wellFormed, ?_⟩
  exact selector_of_consistent consistent (by decide) copiedLists_wellFormed (by decide +kernel)

end Environment

end Narrowing
