import Narrowing.Proofs.Attempts

/-!
Comparisons end, also where types recur. Every pair that is entered is a new pair
of the graph, so no more are open than the graph has unordered pairs
(`length_visiting_le`); a depth limit of that many is never met, and raising it
further changes no answer (`outcome_of_deep`). A limit is reported exactly if some
attempt was refused (`exceeded_compare`).
-/

namespace Narrowing

theorem Guard.exceeded_enter {κ : Type} [DecidableEq κ] (g : Guard κ) (key : κ) :
    (g.enter key).2.exceeded = (g.exceeded || (g.enter key).1.isRefusal) := by
  rcases g.enter_cases key with ⟨-, result⟩ | ⟨-, -, result⟩ | ⟨-, -, -, result⟩ | ⟨-, -, -, result⟩ <;>
    simp [result, Entrance.isRefusal, counted]

theorem Inquiry.exceeded_run {compare : Guard TypePair → TypeId → TypeId → Run}
    {attempts : Guard TypePair → TypeId → TypeId → List Attempt}
    (shown : ∀ g l r,
      (compare g l r).guard.exceeded = (g.exceeded || (attempts g l r).any fun a => a.entrance.isRefusal))
    (g : Guard TypePair) (i : Inquiry) :
    (i.run compare g).guard.exceeded =
      (g.exceeded || (i.attempts compare attempts g).any fun a => a.entrance.isRefusal) := by
  induction i generalizing g with
  | done | fail => simp [run, Inquiry.attempts]
  | note event next ih => exact ih g
  | ask l r next ih =>
    simp only [run, Inquiry.attempts]
    cases found : (compare g l r).answer with
    | error fault => simp [shown]
    | ok s => simp [shown, ih, Bool.or_assoc]

namespace Environment

variable {env : Environment}

theorem guard_turnedAway (attempt : Entrance × Guard TypePair) (l r : TypeId) :
    (Run.turnedAway attempt l r).guard = attempt.2 := by
  unfold Run.turnedAway
  split <;> rfl

theorem exceeded_enclose (run : Run) (l r : TypeId) : (run.enclose l r).guard.exceeded = run.guard.exceeded := by
  unfold Run.enclose
  split <;> rfl

theorem exceeded_compareWithin (room : Nat) (path : List (TypeId × TypeId)) (g : Guard TypePair) (l r : TypeId) :
    (env.compareWithin room g l r).guard.exceeded =
      (g.exceeded || (env.attemptsWithin room path g l r).any fun a => a.entrance.isRefusal) := by
  induction room generalizing path g l r with
  | zero => simp [compareWithin, guard_turnedAway, attemptsWithin, Guard.exceeded_enter, Attempt.entrance]
  | succ room ih =>
    by_cases entered : (g.enter (.of l r)).1 = .entered
    · rw [compareWithin_entered entered, exceeded_enclose, Inquiry.exceeded_run (ih ((l, r) :: path)),
        Guard.exceeded_enter]
      simp [attemptsWithin, entered, Attempt.entrance, Entrance.isRefusal]
    · rw [compareWithin_turnedAway entered, guard_turnedAway, Guard.exceeded_enter]
      simp [attemptsWithin, entered, Attempt.entrance]

/-- A comparison reports its limits exactly if some attempt was refused. -/
theorem exceeded_compare (limits : Limits) (l r : TypeId) :
    (env.compare limits l r).guard.exceeded = (env.attempts limits l r).any fun a => a.entrance.isRefusal :=
  exceeded_compareWithin _ [] _ l r

/-! ### The bound on pairs in progress -/

/-- How many unordered pairs there are of the types that are reached from two. -/
noncomputable def pairBound (env : Environment) (l r : TypeId) : Nat :=
  (env.reachable l r).ncard * ((env.reachable l r).ncard + 1) / 2

section
variable {l r : TypeId} (wellFormed : env.WellFormed l r)
include wellFormed

theorem WellFormed.length_le_pairBound {pairs : List TypePair}
    (distinct : TypePair.DistinctIn (env.reachable l r) pairs) : pairs.length ≤ env.pairBound l r :=
  distinct.length_le wellFormed.finite_reachable

theorem WellFormed.length_lt_pairBound {pairs : List TypePair}
    (distinct : TypePair.DistinctIn (env.reachable l r) pairs) {a b : TypeId} (left : a ∈ env.reachable l r)
    (right : b ∈ env.reachable l r) (new : TypePair.of a b ∉ pairs) : pairs.length < env.pairBound l r :=
  wellFormed.length_le_pairBound (distinct.cons left right new)

/-- Before an attempt and after it no more pairs are open than there are. -/
theorem WellFormed.length_visiting_le {limits : Limits} {a : Attempt} (member : a ∈ env.attempts limits l r) :
    a.guard.visiting.length ≤ env.pairBound l r ∧ a.after.visiting.length ≤ env.pairBound l r := by
  have sound := wellFormed.attemptSound a member
  have before := wellFormed.length_le_pairBound sound.distinct
  refine ⟨before, ?_⟩
  by_cases entered : a.entrance = .entered
  · obtain ⟨new, -, -, visiting, -⟩ := Guard.enter_entered entered
    rw [Attempt.after, visiting]
    exact wellFormed.length_lt_pairBound sound.distinct sound.left sound.right new
  · rwa [Attempt.after, (Guard.samePath_enter entered).visiting]

/-- A comparison is shallow if as many pairs may be open as its graph has. -/
theorem WellFormed.shallow_of_pairBound {limits : Limits} (deep : env.pairBound l r ≤ limits.maxDepth) :
    env.Shallow limits l r := by
  intro a member refused
  have sound := wellFormed.attemptSound a member
  obtain ⟨new, full⟩ := sound.of_depthExceeded refused
  have open_pairs := wellFormed.length_lt_pairBound sound.distinct sound.left sound.right new
  omega

/-- From the bound on, it does not matter how much room is left. -/
theorem WellFormed.outcome_of_deep {room room' : Nat} {inProgress : List TypePair}
    (distinct : TypePair.DistinctIn (env.reachable l r) inProgress)
    (deep : env.pairBound l r ≤ room + inProgress.length) (deep' : env.pairBound l r ≤ room' + inProgress.length)
    {a b : TypeId} (left : a ∈ env.reachable l r) (right : b ∈ env.reachable l r) :
    env.outcome room inProgress a b = env.outcome room' inProgress a b := by
  induction room generalizing room' inProgress a b with
  | zero =>
    -- Without room every pair of the graph is open already.
    have old : TypePair.of a b ∈ inProgress := by
      by_contra new
      have := wellFormed.length_lt_pairBound distinct left right new
      omega
    rw [outcome_of_inProgress old, outcome_of_inProgress old]
  | succ room ih =>
    by_cases old : TypePair.of a b ∈ inProgress
    · rw [outcome_of_inProgress old, outcome_of_inProgress old]
    · have fewer := wellFormed.length_lt_pairBound distinct left right old
      obtain ⟨room', rfl⟩ : ∃ n, room' = n + 1 := Nat.exists_eq_add_one.mpr (by omega)
      rw [outcome_of_new old, outcome_of_new old]
      refine Inquiry.settle_congr fun p asked => ?_
      have inside := Inquiry.allowed_of_asked (rule_within wellFormed.closed left right) p asked
      exact ih (distinct.cons left right old) (by rw [List.length_cons]; omega) (by rw [List.length_cons]; omega)
        inside.1 inside.2

theorem WellFormed.exists_limitedSelector (limits : Limits) : ∃ s, env.limitedSelector limits l r = .ok s :=
  wellFormed.closed.exists_answer _ _ (left_mem_reachable l r) (right_mem_reachable l r)

theorem WellFormed.exists_isSubtype : ∃ below, env.isSubtype l r = .ok below := by
  obtain ⟨s, answer⟩ : ∃ s, env.selector l r = .ok s := wellFormed.exists_limitedSelector _
  exact ⟨s.isTop, by rw [isSubtype, answer, Except.map]⟩

/-- Where attempts are unlimited and depth refuses nothing, nothing is refused. -/
theorem WellFormed.exceeded_of_shallow {limits : Limits} (patient : Limits.ceiling ≤ limits.maxIterations)
    (shallow : env.Shallow limits l r) : (env.compare limits l r).guard.exceeded = false := by
  rw [exceeded_compare, List.any_eq_false]
  intro a member
  have sound := wellFormed.attemptSound a member
  have fits := shallow a member
  rw [Attempt.entrance, Guard.enter_patient (by rwa [sound.limits])] at fits ⊢
  by_cases old : TypePair.of a.lhs a.rhs ∈ a.guard.visiting
  · simp [old, Entrance.isRefusal]
  · by_cases full : a.guard.room = 0
    · simp [old, full] at fits
    · simp [old, full, Entrance.isRefusal]

theorem WellFormed.exceeded_eq_false {limits : Limits} (deep : env.pairBound l r ≤ limits.maxDepth)
    (patient : Limits.ceiling ≤ limits.maxIterations) : (env.compare limits l r).guard.exceeded = false :=
  wellFormed.exceeded_of_shallow patient (wellFormed.shallow_of_pairBound deep)

end

/-- Comparing types of a well-formed graph always ends with a selector, so it meets no fault; that two nodes of one family
    have no rule does not happen in any graph. No more pairs are ever open than the graph has. Once the depth limit
    allows for that many, depth refuses nothing, and the limit does not show in the answer. -/
theorem comparison_terminates {l r : TypeId} (wellFormed : env.WellFormed l r) :
    (env.reachable l r).Finite ∧ (∃ s, env.selector l r = .ok s) ∧
    (∀ rhs n m family, n.family? = some family → m.family? = some family → ∃ i, env.alike? rhs n m = some i) ∧
    (∀ limits, (∃ s, env.limitedSelector limits l r = .ok s) ∧
      ∀ a ∈ env.attempts limits l r,
        a.guard.visiting.length ≤ env.pairBound l r ∧ a.after.visiting.length ≤ env.pairBound l r ∧
          (env.pairBound l r ≤ limits.maxDepth → a.entrance ≠ .depthExceeded)) ∧
    ∃ s, ∀ limits : Limits, env.pairBound l r ≤ limits.maxDepth → Limits.ceiling ≤ limits.maxIterations →
      env.checkedSelector limits l r = .ok (.selector s) := by
  refine ⟨wellFormed.finite_reachable, wellFormed.exists_limitedSelector _, ?_, fun limits => ⟨?_, fun a member => ?_⟩, ?_⟩
  · exact fun rhs n m family left right => env.exists_alike rhs left right
  · exact wellFormed.exists_limitedSelector limits
  · have bounded := wellFormed.length_visiting_le member
    exact ⟨bounded.1, bounded.2, fun deep => wellFormed.shallow_of_pairBound deep a member⟩
  · obtain ⟨s, answer⟩ := wellFormed.exists_limitedSelector ⟨env.pairBound l r, Limits.ceiling⟩
    rw [limitedSelector_eq_outcome (Nat.le_refl _)] at answer
    refine ⟨s, fun limits deep patient => ?_⟩
    have same : (env.compare limits l r).answer = .ok s := by
      rw [← answer, ← limitedSelector, limitedSelector_eq_outcome patient]
      exact wellFormed.outcome_of_deep .nil (by simpa using deep) (by simp) (left_mem_reachable l r)
        (right_mem_reachable l r)
    simp [checkedSelector, Run.checked, same, wellFormed.exceeded_eq_false deep patient, Except.map]

/-- Seven types are reached from the crossed records, so that depth 28 is enough to compare them. -/
theorem crossedRecords_terminate :
    crossedRecords.WellFormed ⟨103⟩ ⟨100⟩ ∧ crossedRecords.pairBound ⟨103⟩ ⟨100⟩ ≤ 28 ∧
      (∀ a ∈ crossedRecords.attempts ⟨28, 1000⟩ ⟨103⟩ ⟨100⟩, a.after.visiting.length ≤ 28 ∧ a.entrance ≠ .depthExceeded) ∧
      ∃ s, crossedRecords.checkedSelector ⟨28, Limits.ceiling⟩ ⟨103⟩ ⟨100⟩ = .ok (.selector s) := by
  have few : crossedRecords.pairBound ⟨103⟩ ⟨100⟩ ≤ 28 := by
    have seven : (crossedRecords.reachable ⟨103⟩ ⟨100⟩).ncard ≤ 7 :=
      ncard_reachable_le crossedTypes (by decide) (by decide) fun t member => (crossedTypes_closed t member).2
    exact Nat.div_le_div_right (Nat.mul_le_mul seven (Nat.add_le_add_right seven 1))
  obtain ⟨-, -, -, bounded, s, answer⟩ := comparison_terminates crossedRecords_wellFormed
  refine ⟨crossedRecords_wellFormed, few, fun a member => ?_, s, answer _ few (Nat.le_refl _)⟩
  obtain ⟨-, after, shallow⟩ := (bounded ⟨28, 1000⟩).2 a member
  exact ⟨Nat.le_trans after few, shallow few⟩

end Environment

end Narrowing
