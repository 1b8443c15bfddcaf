import Narrowing.Proofs.Completeness

/-!
What a positive answer shows. A comparison that yields top is a derivation that
stops where a pair was assumed (`Closed.derivable_of_outcome`). Pairs are assumed
by their unordered key, so a derivation may stop at the reverse of a pair that is
being derived, and then what it derives need not be justified; if the assumed pairs
are in progress in the same direction, or justified by themselves, it is.
-/

namespace Narrowing

namespace Environment

variable {env : Environment} {types : Set TypeId}

theorem Closed.derivable_of_outcome (closed : env.Closed types)
    {stops : List (TypeId × TypeId) → TypeId → TypeId → Prop} {room : Nat} {path : List (TypeId × TypeId)}
    {g : Guard TypePair} (patient : Limits.ceiling ≤ g.limits.maxIterations) (exact : g.room = room) {l r : TypeId}
    (left : l ∈ types) (right : r ∈ types) (top : env.outcome room g.visiting l r = .ok .top)
    (assumed : ∀ a ∈ env.attemptsWithin room path g l r, a.entrance = .cycle → stops a.path a.lhs a.rhs) :
    env.Derivable stops path l r := by
  induction room generalizing path g l r with
  | zero =>
    have old : TypePair.of l r ∈ g.visiting := by simpa [outcome] using top
    exact .stop (assumed ⟨path, g, l, r⟩ (by simp [attemptsWithin])
      (by simp [Attempt.entrance, Guard.enter_patient patient, old]))
  | succ room ih =>
    by_cases old : TypePair.of l r ∈ g.visiting
    · exact .stop (assumed ⟨path, g, l, r⟩ (by simp [attemptsWithin])
        (by simp [Attempt.entrance, Guard.enter_patient patient, old]))
    · rw [outcome_of_new old] at top
      refine .rule _ (closed.follows_asked left right (fun a b => closed.exists_outcome room _) top) ?_
      rintro a b ⟨asked, premise⟩
      have inside := Inquiry.allowed_of_asked (rule_within closed left right) (a, b) asked
      obtain ⟨g', limits, visiting, left_over, included⟩ := attempts_of_asked_rule patient exact old asked
      rw [← visiting] at premise
      exact ih (by rwa [limits]) left_over inside.1 inside.2 premise fun c member => assumed c (included c member)

theorem WellFormed.derivable_of_isSubtype {stops : List (TypeId × TypeId) → TypeId → TypeId → Prop} {l r : TypeId}
    (wellFormed : env.WellFormed l r) (subtype : env.isSubtype l r = .ok true)
    (assumed : ∀ a ∈ env.attempts .unbounded l r, a.entrance = .cycle → stops a.path a.lhs a.rhs) :
    env.Derivable stops [] l r := by
  have top : env.outcome Limits.ceiling [] l r = .ok .top := by
    rw [← selector_eq_outcome]
    exact isSubtype_eq_true_iff.mp subtype
  exact wellFormed.closed.derivable_of_outcome (g := .fresh .unbounded) (Nat.le_refl _) rfl (left_mem_reachable l r)
    (right_mem_reachable l r) top assumed

/-- Every pair that is assumed when two types are compared is in progress in the same direction, or justified. -/
def AssumesSoundly (env : Environment) (l r : TypeId) : Prop :=
  ∀ a ∈ env.attempts .unbounded l r, a.entrance = .cycle → (a.lhs, a.rhs) ∈ a.path ∨ env.Justified a.lhs a.rhs

section
variable {l r : TypeId} (wellFormed : env.WellFormed l r) (sound : env.AssumesSoundly l r)
include wellFormed sound

theorem WellFormed.justified_of_isSubtype (subtype : env.isSubtype l r = .ok true) : env.Justified l r := by
  have derivable : env.Derivable (fun path a b => (a, b) ∈ path ∨ env.Justified a b) [] l r :=
    wellFormed.derivable_of_isSubtype subtype sound
  exact derivable.justified fun _ _ _ => id

theorem WellFormed.isSubtype_iff (shallow : env.Shallow .unbounded l r) :
    env.isSubtype l r = .ok true ↔ env.Justified l r := by
  constructor
  · exact wellFormed.justified_of_isSubtype sound
  · intro justified
    exact isSubtype_eq_true_iff.mpr (wellFormed.selector_of_justified justified shallow)

end

/-- A pair that is assumed is in progress, in one direction or the other. -/
theorem AttemptSound.stopsEitherWay {limits : Limits} {a : Attempt} (sound : AttemptSound types limits a)
    (assumed : a.entrance = .cycle) : StopsEitherWay a.path a.lhs a.rhs := by
  have old := a.mem_visiting_of_cycle assumed
  rw [sound.visiting, List.mem_map] at old
  obtain ⟨⟨b, c⟩, listed, same⟩ := old
  rcases TypePair.of_eq_of_iff.mp same with ⟨rfl, rfl⟩ | ⟨rfl, rfl⟩
  · exact .inl listed
  · exact .inr listed

/-- What a positive answer shows. It justifies the pair if every pair that was assumed on the way was in progress in
    the same direction, or is justified itself. In general a justified pair has a derivation that stops only at
    pairs in progress in the same direction, while a positive answer is given exactly for the pairs whose derivation
    may also stop at pairs in progress in the other direction. -/
theorem isSubtype_sound {l r : TypeId} (wellFormed : env.WellFormed l r) :
    (env.isSubtype l r = .ok true →
      (∀ a ∈ env.attempts .unbounded l r, a.entrance = .cycle →
        (a.lhs, a.rhs) ∈ a.path ∨ env.Justified a.lhs a.rhs) → env.Justified l r) ∧
    (env.Justified l r ↔ env.Derivable StopsAlong [] l r) ∧
    (env.isSubtype l r = .ok true → env.Derivable StopsEitherWay [] l r) ∧
    (env.Shallow .unbounded l r → env.Derivable StopsEitherWay [] l r → env.isSubtype l r = .ok true) := by
  refine ⟨fun subtype assumed => ?_, wellFormed.justified_iff_derivable, fun subtype => ?_, fun shallow derivable => ?_⟩
  · have derivable : env.Derivable (fun path a b => (a, b) ∈ path ∨ env.Justified a b) [] l r :=
      wellFormed.derivable_of_isSubtype subtype assumed
    exact derivable.justified fun _ _ _ => id
  · exact wellFormed.derivable_of_isSubtype subtype fun a made => (wellFormed.attemptSound a made).stopsEitherWay
  · exact isSubtype_eq_true_iff.mpr (wellFormed.selector_of_derivable derivable shallow)

/-- Between copies of a list every pair that is assumed is in progress in the same direction. -/
theorem copiedLists_sound :
    copiedLists.WellFormed ⟨100⟩ ⟨103⟩ ∧ copiedLists.isSubtype ⟨100⟩ ⟨103⟩ = .ok true ∧
      copiedLists.Justified ⟨100⟩ ⟨103⟩ := by
  have subtype : copiedLists.isSubtype ⟨100⟩ ⟨103⟩ = .ok true := by decide +kernel
  have assumed : ∀ a ∈ copiedLists.attempts .unbounded ⟨100⟩ ⟨103⟩, a.entrance = .cycle → (a.lhs, a.rhs) ∈ a.path := by
    decide +kernel
  refine ⟨copiedLists_wellFormed, subtype, ?_⟩
  exact (isSubtype_sound copiedLists_wellFormed).1 subtype fun a made cycle => .inl (assumed a made cycle)

/-- The first of the crossed records counts as a subtype of the second, by the assumption that the second is one of
    the first; but a record whose value may be null is not below one whose value may not. -/
theorem crossedRecords_not_sound :
    crossedRecords.WellFormed ⟨103⟩ ⟨100⟩ ∧ crossedRecords.isSubtype ⟨103⟩ ⟨100⟩ = .ok true ∧
      ¬ ∃ pairs, crossedRecords.Consistent pairs ∧ (⟨103⟩, ⟨100⟩) ∈ pairs := by
  refine ⟨crossedRecords_wellFormed, by decide +kernel, ?_⟩
  have refuted : crossedRecords.refutes [(⟨103⟩, ⟨100⟩), (⟨101⟩, ⟨104⟩), (⟨100⟩, ⟨103⟩), (⟨104⟩, ⟨101⟩), (⟨102⟩, .int),
      (.null, .int)] := by decide +kernel
  exact not_justified_of_refutes refuted (⟨103⟩, ⟨100⟩) (by simp)

end Environment

end Narrowing
