import Narrowing.Proofs.Grounded
import Narrowing.Proofs.LargerLimits

/-!
Comparison without a guard. `Yields` is the plain recursion: every question of a
rule is answered by the rule for its pair, whatever has been asked before. A guarded
comparison of grounded types that refuses nothing takes the same course, since it
meets no pair again (`Falls.yields`). So on a graph without circles the guard does
not show, and the depth it needs is at most the number of types behind the pair.
-/

namespace Narrowing

namespace Environment

/-- What an inquiry ends with if each question is answered by the rule for its pair, without a guard. -/
inductive Yields (env : Environment) : Inquiry → Selector → Prop where
  | done {s : Selector} : Yields env (.done s) s
  | note {event : Event} {next : Inquiry} {s : Selector} : Yields env next s → Yields env (.note event next) s
  | ask {l r : TypeId} {next : Selector → Inquiry} {t s : Selector} :
    Yields env (env.rule l r) t → Yields env (next t) s → Yields env (.ask l r next) s

variable {env : Environment}

theorem Yields.unique {i : Inquiry} {s t : Selector} (first : env.Yields i s) (second : env.Yields i t) : s = t := by
  induction first generalizing t with
  | done =>
    cases second
    rfl
  | note _ ih =>
    cases second with
    | note rest => exact ih rest
  | ask _ _ ihAnswer ihRest =>
    cases second with
    | ask answer rest =>
      obtain rfl := ihAnswer answer
      exact ihRest rest

section
variable {compare : Guard TypePair → TypeId → TypeId → Run} {start : Guard TypePair}
  {allowed : TypeId → TypeId → Prop}

/-- A run that refuses nothing ends as the plain recursion does, if its comparisons do. -/
theorem yields_of_run (steady : KeepsPath compare start)
    (sticky : ∀ g l r, (compare g l r).guard.exceeded = false → g.exceeded = false)
    (compared : ∀ g, start.SamePath g → ∀ l r s, allowed l r → (compare g l r).answer = .ok s →
      (compare g l r).guard.exceeded = false → env.Yields (env.rule l r) s)
    {g : Guard TypePair} (path : start.SamePath g) {i : Inquiry} (within : i.Within allowed) {s : Selector}
    (answered : (i.run compare g).answer = .ok s) (kept : (i.run compare g).guard.exceeded = false) :
    env.Yields i s := by
  induction i generalizing g with
  | done t =>
    obtain rfl := Except.ok.inj answered
    exact .done
  | fail => exact within.elim
  | note event next ih => exact .note (ih path within answered kept)
  | ask l r next ih =>
    simp only [Inquiry.run] at answered kept
    cases found : (compare g l r).answer with
    | error fault => simp [found] at answered
    | ok t =>
      simp only [found] at answered kept
      -- The guard remembers refusals, so the first comparison has met none either.
      have first := compared g path l r t within.1 found (Inquiry.exceeded_of_run sticky kept)
      exact .ask first (ih t (path.trans (steady g path l r t found)) (within.2 t) answered kept)

end

section
variable {behind room : Nat} {path : List (TypeId × TypeId)} {g : Guard TypePair} {l r : TypeId}

/-- A pair is turned away if it is met again, which it is not, or if it is refused. -/
theorem Falls.entered (falls : env.Falls behind ⟨path, g, l, r⟩)
    (kept : (env.compareWithin room g l r).guard.exceeded = false) : (g.enter (.of l r)).1 = .entered := by
  by_contra outside
  rw [compareWithin_turnedAway outside, guard_turnedAway] at kept
  rcases g.enter_cases (.of l r) with ⟨-, result⟩ | ⟨-, old, -⟩ | ⟨-, -, -, result⟩ | ⟨-, -, -, result⟩
  · simp [result] at kept
  · exact falls.new old
  · simp [result] at kept
  · simp [result] at outside

/-- A comparison of grounded types that refuses nothing ends as the plain recursion does. -/
theorem Falls.yields (falls : env.Falls behind ⟨path, g, l, r⟩) (enough : g.room ≤ room) {s : Selector}
    (answered : (env.compareWithin room g l r).answer = .ok s)
    (kept : (env.compareWithin room g l r).guard.exceeded = false) : env.Yields (env.rule l r) s := by
  induction room, g, l, r, enough using compareWithin_induction generalizing path s with
  | away room g l r _ outside => exact absurd (falls.entered kept) outside
  | entered room g l r _ entered left_over ih =>
    rw [compareWithin_entered entered] at answered kept
    rw [answer_enclose] at answered
    rw [exceeded_enclose] at kept
    refine yields_of_run (keepsPath_compareWithin left_over) exceeded_of_compareWithin ?_ (.refl _)
      (falls.left.rule_falls falls.right) answered kept
    intro g' same a b t fewer answeredHere keptHere
    have fallsHere := falls.below entered same fewer.1 fewer.2.1 fewer.2.2
    exact ih g' a b (by rwa [same.room]) fallsHere answeredHere keptHere

end

section
variable {l r : TypeId} (left : env.Grounded l) (right : env.Grounded r)
include left right

/-- A checked query about grounded types succeeds with what the plain recursion ends with, if it succeeds. -/
theorem Grounded.yields_of_checkedSelector {limits : Limits} {s : Selector}
    (success : env.checkedSelector limits l r = .ok (.selector s)) : env.Yields (env.rule l r) s := by
  obtain ⟨answered, kept⟩ := checkedSelector_eq_selector_iff.mp success
  exact (left.falls_first right limits).yields (Nat.le_refl _) answered kept

end

/-- On a graph without circles no pair is met while it is in progress, under any limits, and no more pairs are in
    progress than types are behind the first one. The plain recursion ends with exactly one selector, and that is the
    selector of the pair, unless more pairs are nested than can be counted; it is also the answer of every checked
    query whose limits allow for so many pairs. -/
theorem comparison_of_acyclic {l r : TypeId} (wellFormed : env.WellFormed l r)
    (acyclic : env.Acyclic (env.reachable l r)) :
    (∀ limits, ∀ a ∈ env.attempts limits l r,
      TypePair.of a.lhs a.rhs ∉ a.guard.visiting ∧ a.guard.visiting.length < env.rank l + env.rank r) ∧
    ∃ s, (∀ t, env.Yields (env.rule l r) t ↔ t = s) ∧
      (env.Shallow .unbounded l r → env.selector l r = .ok s) ∧
      ∀ limits : Limits, Limits.ceiling ≤ limits.maxIterations → env.rank l + env.rank r ≤ limits.maxDepth →
        env.checkedSelector limits l r = .ok (.selector s) := by
  have left := wellFormed.closed.grounded acyclic (left_mem_reachable l r)
  have right := wellFormed.closed.grounded acyclic (right_mem_reachable l r)
  -- Where depth suffices the query succeeds, and then with what the plain recursion ends with.
  have succeeds (limits : Limits) (patient : Limits.ceiling ≤ limits.maxIterations)
      (shallow : env.Shallow limits l r) : ∃ s, env.checkedSelector limits l r = .ok (.selector s) := by
    obtain ⟨s, answered⟩ := wellFormed.exists_limitedSelector limits
    exact ⟨s, checkedSelector_eq_selector_iff.mpr ⟨answered, wellFormed.exceeded_of_shallow patient shallow⟩⟩
  obtain ⟨s, success⟩ := succeeds ⟨env.rank l + env.rank r, Limits.ceiling⟩ (Nat.le_refl _)
    (left.shallow_of_rank right (Nat.le_refl _))
  have yields := left.yields_of_checkedSelector right success
  refine ⟨fun limits a member => ?_, s, fun t => ?_, fun shallow => ?_, fun limits patient enough => ?_⟩
  · have falls := left.falls right a member
    exact ⟨falls.new, falls.length_lt⟩
  · exact ⟨fun other => other.unique yields, fun same => same ▸ yields⟩
  · obtain ⟨t, found⟩ := succeeds .unbounded (Nat.le_refl _) shallow
    obtain rfl := (left.yields_of_checkedSelector right found).unique yields
    exact (checkedSelector_eq_selector_iff.mp found).1
  · obtain ⟨t, found⟩ := succeeds limits patient (left.shallow_of_rank right enough)
    obtain rfl := (left.yields_of_checkedSelector right found).unique yields
    exact found

/-- Two records of numbers, written with a declared name in different places. -/
def negatedNumbers : Environment :=
  .ofBodies [.type .int,
    .record false [("not", .negation (.node (.nominal ⟨1⟩))), ("all", .array (.union [.type .int, .type .null]))],
    .record false [("not", .negation (.type .int)), ("all", .array (.node (.nominal ⟨1⟩)))]]

def negatedTypes : List TypeId := [⟨100⟩, ⟨101⟩, ⟨102⟩, ⟨103⟩, ⟨104⟩, ⟨105⟩, ⟨106⟩, ⟨107⟩, .int, .null]

/-- Under the negation the name is compared with the number and then the number with the name, and the number is met
    once more in the arrays; none of these pairs is in progress when it is met. -/
theorem negatedNumbers_unguarded :
    negatedNumbers.WellFormed ⟨104⟩ ⟨107⟩ ∧ negatedNumbers.Acyclic (negatedNumbers.reachable ⟨104⟩ ⟨107⟩) ∧
      negatedNumbers.selector ⟨104⟩ ⟨107⟩ = .ok (.record [.top, .array (.union [.top, .bottom])]) ∧
      negatedNumbers.Yields (negatedNumbers.rule ⟨104⟩ ⟨107⟩) (.record [.top, .array (.union [.top, .bottom])]) := by
  have whole : ∀ t ∈ negatedTypes, negatedNumbers.isResolved t ∧ ∀ u ∈ negatedNumbers.parts t, u ∈ negatedTypes := by
    decide +kernel
  have wellFormed : negatedNumbers.WellFormed ⟨104⟩ ⟨107⟩ := .of_list negatedTypes (by decide) (by decide) whole
  have acyclic : negatedNumbers.Acyclic (negatedNumbers.reachable ⟨104⟩ ⟨107⟩) := by
    have listed : negatedNumbers.Acyclic {t | t ∈ negatedTypes} :=
      (Closed.of_list negatedTypes whole).acyclic_of_list [.int] (by decide +kernel) (by decide +kernel)
        (by decide +kernel)
    intro t member
    exact listed t (mem_of_reachable negatedTypes (by decide) (by decide) (fun t member => (whole t member).2) t member)
  have found : negatedNumbers.selector ⟨104⟩ ⟨107⟩ = .ok (.record [.top, .array (.union [.top, .bottom])]) := by
    decide +kernel
  obtain ⟨-, s, yields, unbounded, -⟩ := comparison_of_acyclic wellFormed acyclic
  have same := unbounded (by decide +kernel)
  rw [found, Except.ok.injEq] at same
  exact ⟨wellFormed, acyclic, found, (yields _).mpr same⟩

end Environment

end Narrowing
