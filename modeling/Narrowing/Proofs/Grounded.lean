import Narrowing.Proofs.Soundness
import Narrowing.Proofs.Unfolding

/-!
Graphs without circles. A type is grounded if all that is reached from it is there
and going from part to part ends; in a closed graph these are the types of which
none is reached from its own parts (`Closed.grounded`). A rule asks about parts of
its pair, so that on grounded types the number of types behind a pair falls with
every question (`Grounded.rule_falls`). Hence no pair is met while it is in
progress, in either direction, and a comparison of grounded types assumes nothing
(`Grounded.entrance_ne_cycle`), so that its positive answers are sound.
-/

namespace Narrowing

namespace Environment

variable {env : Environment} {types : Set TypeId}

/-! ### Grounded types -/

/-- A type that is there and whose parts are grounded. -/
inductive Grounded (env : Environment) : TypeId → Prop where
  | intro {t : TypeId} : env.isResolved t → (∀ u ∈ env.parts t, Grounded env u) → Grounded env t

/-- No type of a graph is reached from one of its own parts. -/
def Acyclic (env : Environment) (types : Set TypeId) : Prop := ∀ t ∈ types, ∀ u ∈ env.parts t, ¬ env.Reaches u t

/-- Where every type but a declaration is made of types with smaller numbers, as it is if types are made one after
    the other, it is enough that no declaration refers to itself, directly or through others. -/
theorem Closed.acyclic_of_declarations (closed : env.Closed types)
    (made : ∀ t ∈ types, env.IsConcrete t → ∀ u ∈ env.parts t, u.val < t.val)
    (apart : ∀ t ∈ types, ¬ env.IsConcrete t → ∀ u ∈ env.parts t, ¬ env.Reaches u t) : env.Acyclic types := by
  -- Numbers fall along a path unless it goes through a declaration.
  have falls : ∀ {u v}, u ∈ types → env.Reaches u v → v.val ≤ u.val ∨
      ∃ t ∈ types, ¬ env.IsConcrete t ∧ env.Reaches u t ∧ ∃ w ∈ env.parts t, env.Reaches w v := by
    intro u v inside path
    induction path with
    | refl => exact .inl (Nat.le_refl _)
    | @tail v w path part ih =>
      rcases ih with below | ⟨t, insideT, declared, before, x, partX, after⟩
      · have insideV : v ∈ types := reachable_subset inside inside closed.parts (.inl path)
        by_cases concrete : env.IsConcrete v
        · have less := made v insideV concrete w part
          exact .inl (by omega)
        · exact .inr ⟨v, insideV, concrete, path, w, part, .refl⟩
      · exact .inr ⟨t, insideT, declared, before, x, partX, after.tail part⟩
  intro t inside u part back
  by_cases concrete : env.IsConcrete t
  · rcases falls (closed.parts t inside u part) back with above | ⟨n, insideN, declared, before, w, partW, after⟩
    · have less := made t inside concrete u part
      omega
    · exact apart n insideN declared w partW (after.trans (.head part before))
  · exact apart t inside concrete u part back

/-- Declarations whose bodies mention no declaration do not refer to themselves, which can be checked type by type. -/
theorem Closed.acyclic_of_list {types : List TypeId} (closed : env.Closed {t | t ∈ types}) (plain : List TypeId)
    (made : ∀ t ∈ types, env.IsConcrete t → ∀ u ∈ env.parts t, u.val < t.val)
    (flat : ∀ t ∈ types, ¬ env.IsConcrete t → ∀ u ∈ env.parts t, u ∈ plain)
    (stays : ∀ t ∈ plain, env.IsConcrete t ∧ ∀ u ∈ env.parts t, u ∈ plain) : env.Acyclic {t | t ∈ types} := by
  refine closed.acyclic_of_declarations made ?_
  intro t listed declared u part back
  have start := flat t listed declared u part
  have behind := mem_of_reachable plain start start (fun t listed => (stays t listed).2) t (.inl back)
  exact declared (stays t behind).1

section
variable {t u : TypeId}

theorem Grounded.resolved (grounded : env.Grounded t) : env.isResolved t := by
  obtain ⟨resolved, -⟩ := grounded
  exact resolved

theorem Grounded.part (grounded : env.Grounded t) (part : u ∈ env.parts t) : env.Grounded u := by
  obtain ⟨-, parts⟩ := grounded
  exact parts u part

theorem grounded_of_node {n : TypeNode} (known : env.types.node? t = some n) (resolved : env.resolves n)
    (parts : ∀ u ∈ env.partsOf n, env.Grounded u) : env.Grounded t := by
  refine .intro (isResolved_iff.mpr ⟨n, known, resolved⟩) ?_
  rwa [parts_of_node known]

theorem closed_grounded (env : Environment) : env.Closed {t | env.Grounded t} :=
  ⟨fun _ grounded => grounded.resolved, fun _ grounded _ part => grounded.part part⟩

theorem Grounded.not_reaches (grounded : env.Grounded t) (part : u ∈ env.parts t) : ¬ env.Reaches u t := by
  induction grounded generalizing u with
  | @intro t _ _ ih =>
    intro back
    rcases Relation.ReflTransGen.cases_head back with rfl | ⟨v, next, rest⟩
    · exact ih u part part .refl
    · exact ih u part next (rest.tail part)

/-- How many types are reached from a type. -/
noncomputable def rank (env : Environment) (t : TypeId) : Nat := {u | env.Reaches t u}.ncard

/-- A part from which the type is not reached has fewer types behind it. -/
theorem Closed.rank_lt (closed : env.Closed types) (member : t ∈ types) (part : u ∈ env.parts t)
    (apart : ¬ env.Reaches u t) : env.rank u < env.rank t := by
  have inside : {v | env.Reaches t v} ⊆ types := fun v path =>
    reachable_subset member member closed.parts (.inl path)
  refine Set.ncard_lt_ncard ⟨fun v path => .head part path, fun back => ?_⟩ (closed.finite.subset inside)
  exact apart (back .refl)

theorem Grounded.rank_lt (grounded : env.Grounded t) (part : u ∈ env.parts t) : env.rank u < env.rank t :=
  (closed_grounded env).rank_lt grounded part (grounded.not_reaches part)

theorem Closed.grounded (closed : env.Closed types) (acyclic : env.Acyclic types) (member : t ∈ types) :
    env.Grounded t := by
  induction behind : env.rank t using Nat.strong_induction_on generalizing t with
  | _ n ih =>
    refine .intro (closed.resolved t member) fun u part => ?_
    exact ih _ (behind ▸ closed.rank_lt member part (acyclic t member u part)) (closed.parts t member u part) rfl

end

/-! ### Pairs of grounded types -/

/-- How many types are behind a pair. -/
noncomputable def weight (env : Environment) (p : TypePair) : Nat := env.rank p.low + env.rank p.high

theorem weight_of (a b : TypeId) : env.weight (.of a b) = env.rank a + env.rank b := by
  unfold TypePair.of weight
  split
  · rfl
  · exact Nat.add_comm _ _

/-- A pair with fewer types behind it than any that is in progress is not in progress. -/
theorem not_mem_of_weight {l r : TypeId} {visiting : List TypePair}
    (above : ∀ p ∈ visiting, env.rank l + env.rank r < env.weight p) : TypePair.of l r ∉ visiting := by
  intro old
  have less := above _ old
  rw [weight_of] at less
  omega

section
variable {l r : TypeId} (left : env.Grounded l) (right : env.Grounded r)
include left right

/-- On grounded types every question is about fewer types than the pair it is asked for. -/
theorem Grounded.rule_falls :
    (env.rule l r).Within fun a b =>
      env.Grounded a ∧ env.Grounded b ∧ env.rank a + env.rank b < env.rank l + env.rank r := by
  refine (rule_descends left.resolved right.resolved).mono ?_
  intro a b descends
  cases descends with
  | both partA partB =>
    exact ⟨left.part partA, right.part partB, Nat.add_lt_add (left.rank_lt partA) (right.rank_lt partB)⟩
  | left part => exact ⟨left.part part, right, Nat.add_lt_add_right (left.rank_lt part) _⟩
  | right part => exact ⟨left, right.part part, Nat.add_lt_add_left (right.rank_lt part) _⟩
  | crossed partA partB =>
    have fallA := right.rank_lt partA
    have fallB := left.rank_lt partB
    exact ⟨right.part partA, left.part partB, by omega⟩

end

/-! ### The course of a comparison -/

theorem Grounded.rank_pos {t : TypeId} (grounded : env.Grounded t) : 0 < env.rank t := by
  have finite : {u | env.Reaches t u}.Finite := (closed_grounded env).finite.subset fun u path =>
    reachable_subset grounded grounded (closed_grounded env).parts (.inl path)
  exact (Set.ncard_pos finite).mpr ⟨t, .refl⟩

/-- An attempt about grounded types. Fewer types are behind its pair than behind each pair in progress, and of the
    types that were behind the first pair at least one was left behind with each. -/
structure Falls (env : Environment) (behind : Nat) (a : Attempt) : Prop where
  left : env.Grounded a.lhs
  right : env.Grounded a.rhs
  above : ∀ p ∈ a.guard.visiting, env.rank a.lhs + env.rank a.rhs < env.weight p
  length : a.guard.visiting.length + (env.rank a.lhs + env.rank a.rhs) ≤ behind

theorem Falls.new {behind : Nat} {a : Attempt} (falls : env.Falls behind a) :
    TypePair.of a.lhs a.rhs ∉ a.guard.visiting :=
  not_mem_of_weight falls.above

theorem Falls.length_lt {behind : Nat} {a : Attempt} (falls : env.Falls behind a) :
    a.guard.visiting.length < behind := by
  have some_behind := falls.left.rank_pos
  have bounded := falls.length
  omega

theorem Falls.below {behind : Nat} {path : List (TypeId × TypeId)} {g g' : Guard TypePair} {l r l' r' : TypeId}
    (falls : env.Falls behind ⟨path, g, l, r⟩) (entered : (g.enter (.of l r)).1 = .entered)
    (same : (g.enter (.of l r)).2.SamePath g') (left : env.Grounded l') (right : env.Grounded r')
    (fewer : env.rank l' + env.rank r' < env.rank l + env.rank r) :
    env.Falls behind ⟨(l, r) :: path, g', l', r'⟩ := by
  obtain ⟨-, -, -, visiting, -⟩ := Guard.enter_entered entered
  refine ⟨left, right, ?_, ?_⟩
  · rw [same.visiting, visiting]
    exact List.forall_mem_cons.mpr ⟨by rwa [weight_of], fun p old => fewer.trans (falls.above p old)⟩
  · have bounded := falls.length
    simp only [same.visiting, visiting, List.length_cons] at bounded ⊢
    omega

theorem Falls.attemptsWithin {behind room : Nat} {path : List (TypeId × TypeId)} {g : Guard TypePair} {l r : TypeId}
    (falls : env.Falls behind ⟨path, g, l, r⟩) (enough : g.room ≤ room) :
    ∀ a ∈ env.attemptsWithin room path g l r, env.Falls behind a := by
  refine attemptsWithin_preserve (fun a fallsHere entered => ?_) enough falls
  refine (fallsHere.left.rule_falls fallsHere.right).mono fun x y fewer g' same => ?_
  exact fallsHere.below entered same fewer.1 fewer.2.1 fewer.2.2

section
variable {l r : TypeId} (left : env.Grounded l) (right : env.Grounded r)
include left right

theorem Grounded.falls_first (limits : Limits) :
    env.Falls (env.rank l + env.rank r) ⟨[], .fresh limits, l, r⟩ :=
  ⟨left, right, by simp [Guard.fresh], by simp [Guard.fresh]⟩

theorem Grounded.falls {limits : Limits} : ∀ a ∈ env.attempts limits l r, env.Falls (env.rank l + env.rank r) a :=
  (left.falls_first right limits).attemptsWithin (Nat.le_refl _)

/-- A comparison of grounded types assumes nothing. -/
theorem Grounded.entrance_ne_cycle {limits : Limits} : ∀ a ∈ env.attempts limits l r, a.entrance ≠ .cycle := by
  intro a member assumed
  exact (left.falls right a member).new (a.mem_visiting_of_cycle assumed)

/-- A comparison of grounded types is shallow if as many pairs may be open as types are behind the first one. -/
theorem Grounded.shallow_of_rank {limits : Limits} (deep : env.rank l + env.rank r ≤ limits.maxDepth) :
    env.Shallow limits l r := by
  refine ((closed_grounded env).wellFormed left right).shallow_of_length fun a member => ?_
  exact Nat.lt_of_lt_of_le (left.falls right a member).length_lt deep

theorem Grounded.assumesSoundly : env.AssumesSoundly l r :=
  fun a member assumed => absurd assumed (left.entrance_ne_cycle right a member)

end

end Environment

end Narrowing
