import Narrowing.Proofs.Termination

/-!
Comparisons under larger limits. A guard that refuses nothing answers every
attempt as it would with more generous limits (`Guard.enter_withLimits`). A refusal
is remembered to the end of a run, so a run that reports none has met none, and
under larger limits it goes through the same states one by one
(`compareWithin_withLimits`). Its answer is then the answer of every more generous
query, and a refusal is reported whether or not the selector depends on it.
-/

namespace Narrowing

universe u

namespace Limits

/-- Limits that allow at least as much. -/
instance : LE Limits := ⟨fun few many => few.maxDepth ≤ many.maxDepth ∧ few.maxIterations ≤ many.maxIterations⟩

instance (few many : Limits) : Decidable (few ≤ many) := inferInstanceAs (Decidable (_ ∧ _))

end Limits

namespace Guard

variable {κ : Type u}

/-- The same state under other limits. -/
def withLimits (g : Guard κ) (limits : Limits) : Guard κ := { g with limits }

variable [DecidableEq κ]

/-- An attempt that is not refused comes to the same under larger limits. -/
theorem enter_withLimits {g : Guard κ} {larger : Limits} (more : g.limits ≤ larger) {key : κ}
    (allowed : (g.enter key).1.isRefusal = false) :
    (g.withLimits larger).enter key = ((g.enter key).1, (g.enter key).2.withLimits larger) := by
  obtain ⟨deeper, longer⟩ := more
  rcases g.enter_cases key with ⟨-, result⟩ | ⟨few, old, result⟩ | ⟨-, -, -, result⟩ | ⟨few, new, fits, result⟩
  · simp [result, Entrance.isRefusal] at allowed
  · have still : ¬ larger.maxIterations < min (g.iterations + 1) Limits.ceiling := by
      simp only [counted] at few
      omega
    rw [result]
    simp [enter, withLimits, counted, isVisiting, still, old]
  · simp [result, Entrance.isRefusal] at allowed
  · have still : ¬ larger.maxIterations < min (g.iterations + 1) Limits.ceiling := by
      simp only [counted] at few
      omega
    have room : ¬ larger.maxDepth ≤ g.depth := by omega
    rw [result]
    simp [enter, withLimits, counted, isVisiting, still, new, room]

end Guard

namespace Run

/-- The same run, with a guard that has other limits. -/
def withLimits (run : Run) (limits : Limits) : Run := { run with guard := run.guard.withLimits limits }

theorem turnedAway_withLimits (e : Entrance) (g : Guard TypePair) (limits : Limits) (l r : TypeId) :
    turnedAway (e, g.withLimits limits) l r = (turnedAway (e, g) l r).withLimits limits := by
  simp only [turnedAway]
  split <;> rfl

theorem enclose_withLimits (run : Run) (limits : Limits) (l r : TypeId) :
    (run.withLimits limits).enclose l r = (run.enclose l r).withLimits limits := by
  simp only [enclose, withLimits]
  split <;> rfl

end Run

namespace Inquiry

variable {compare compare' : Guard TypePair → TypeId → TypeId → Run} {start : Guard TypePair} {larger : Limits}

/-- What was refused before an inquiry is still remembered after it. -/
theorem exceeded_of_run (sticky : ∀ g l r, (compare g l r).guard.exceeded = false → g.exceeded = false)
    {g : Guard TypePair} {i : Inquiry} (kept : (i.run compare g).guard.exceeded = false) : g.exceeded = false := by
  induction i generalizing g with
  | done | fail => exact kept
  | note event next ih => exact ih kept
  | ask l r next ih =>
    simp only [run] at kept
    cases found : (compare g l r).answer with
    | error fault => exact sticky g l r (by simpa [found] using kept)
    | ok s => exact sticky g l r (ih s (by simpa [found] using kept))

/-- If comparisons that refuse nothing are the same under larger limits, so is an inquiry that refuses nothing. -/
theorem run_withLimits (steady : KeepsPath compare start)
    (sticky : ∀ g l r, (compare g l r).guard.exceeded = false → g.exceeded = false)
    (same : ∀ g, start.SamePath g → ∀ l r, (compare g l r).guard.exceeded = false →
      compare' (g.withLimits larger) l r = (compare g l r).withLimits larger)
    {g : Guard TypePair} (path : start.SamePath g) {i : Inquiry} (kept : (i.run compare g).guard.exceeded = false) :
    i.run compare' (g.withLimits larger) = (i.run compare g).withLimits larger := by
  induction i generalizing g with
  | done | fail => rfl
  | note event next ih =>
    have rest := ih path kept
    simp only [run, rest]
    rfl
  | ask l r next ih =>
    simp only [run] at kept ⊢
    cases found : (compare g l r).answer with
    | error fault =>
      simp only [found] at kept
      rw [same g path l r kept]
      simp [Run.withLimits, found]
    | ok s =>
      simp only [found] at kept
      -- What the rest remembers includes the first comparison.
      have first := same g path l r (exceeded_of_run sticky kept)
      have rest := ih s (path.trans (steady g path l r s found)) kept
      simp only [first, Run.withLimits, found]
      simp only [rest]
      rfl

end Inquiry

namespace Environment

variable {env : Environment}

theorem exceeded_of_compareWithin {room : Nat} (g : Guard TypePair) (l r : TypeId)
    (kept : (env.compareWithin room g l r).guard.exceeded = false) : g.exceeded = false := by
  rw [exceeded_compareWithin room [] g l r, Bool.or_eq_false_iff] at kept
  exact kept.1

/-- A pair that is turned away without a refusal is turned away under larger limits as well. -/
private theorem turnedAway_larger {g : Guard TypePair} {larger : Limits} (more : g.limits ≤ larger) {room room' : Nat}
    {l r : TypeId} (outside : (g.enter (.of l r)).1 ≠ .entered)
    (kept : (env.compareWithin room g l r).guard.exceeded = false) :
    env.compareWithin room' (g.withLimits larger) l r = (env.compareWithin room g l r).withLimits larger := by
  rw [compareWithin_turnedAway outside] at kept ⊢
  rw [guard_turnedAway, Guard.exceeded_enter, Bool.or_eq_false_iff] at kept
  have attempt := Guard.enter_withLimits more kept.2
  rw [compareWithin_turnedAway (by simpa [attempt] using outside), attempt]
  exact Run.turnedAway_withLimits _ _ _ l r

/-- A comparison that refuses nothing is the same, state by state, under larger limits. -/
theorem compareWithin_withLimits {room room' : Nat} {g : Guard TypePair} {larger : Limits} (more : g.limits ≤ larger)
    (enough : g.room ≤ room) (wider : room ≤ room') {l r : TypeId}
    (kept : (env.compareWithin room g l r).guard.exceeded = false) :
    env.compareWithin room' (g.withLimits larger) l r = (env.compareWithin room g l r).withLimits larger := by
  induction room, g, l, r, enough using compareWithin_induction generalizing room' with
  | away room g l r _ outside => exact turnedAway_larger more outside kept
  | entered room g l r _ entered left_over ih =>
    have allowed : (g.enter (.of l r)).1.isRefusal = false := by simp [entered, Entrance.isRefusal]
    have attempt := Guard.enter_withLimits more allowed
    obtain ⟨-, -, limits, -, -⟩ := Guard.enter_entered entered
    obtain ⟨room', rfl⟩ : ∃ n, room' = n + 1 := Nat.exists_eq_add_one.mpr (by omega)
    rw [compareWithin_entered entered] at kept ⊢
    rw [compareWithin_entered (by simpa [attempt] using entered), attempt]
    rw [exceeded_enclose] at kept
    have inner : (env.rule l r).run (env.compareWithin room') ((g.enter (.of l r)).2.withLimits larger) =
        ((env.rule l r).run (env.compareWithin room) (g.enter (.of l r)).2).withLimits larger := by
      refine Inquiry.run_withLimits (keepsPath_compareWithin left_over) exceeded_of_compareWithin ?_ (.refl _) kept
      intro g' path a b keptHere
      refine ih g' a b (by rwa [path.room]) ?_ (by omega) keptHere
      rwa [path.limits, limits]
    rw [inner, Run.enclose_withLimits]

theorem compare_withLimits {limits larger : Limits} (more : limits ≤ larger) {l r : TypeId}
    (kept : (env.compare limits l r).guard.exceeded = false) :
    env.compare larger l r = (env.compare limits l r).withLimits larger :=
  compareWithin_withLimits (g := .fresh limits) more (Nat.le_refl _) (Nat.sub_le_sub_right more.1 _) kept

/-- A guard has the limits it started with wherever a run ends with an answer. -/
theorem limits_compare {limits : Limits} {l r : TypeId} {s : Selector}
    (answered : (env.compare limits l r).answer = .ok s) : (env.compare limits l r).guard.limits = limits :=
  (samePath_compareWithin (g := .fresh limits) (Nat.le_refl _) answered).limits

theorem checkedSelector_eq_selector_iff {limits : Limits} {l r : TypeId} {s : Selector} :
    env.checkedSelector limits l r = .ok (.selector s) ↔
      env.limitedSelector limits l r = .ok s ∧ (env.compare limits l r).guard.exceeded = false := by
  unfold checkedSelector limitedSelector Run.checked
  cases (env.compare limits l r).answer with
  | error fault => simp [Except.map]
  | ok t => cases (env.compare limits l r).guard.exceeded <;> simp [Except.map]

theorem checkedSelector_eq_exceeded {limits : Limits} {l r : TypeId} {s : Selector}
    (answered : env.limitedSelector limits l r = .ok s) (exceeded : (env.compare limits l r).guard.exceeded = true) :
    env.checkedSelector limits l r = .ok (.exceeded limits) := by
  have kept := limits_compare answered
  unfold limitedSelector at answered
  simp [checkedSelector, Run.checked, answered, exceeded, kept, Except.map]

/-- A checked query that succeeds has the answer of every query with larger limits, and of the query without any,
    unless its own limits are beyond what is counted. A query that ends with a selector reports its limits if some
    attempt was refused, and otherwise succeeds with that selector. -/
theorem checkedSelector_agrees (env : Environment) (limits : Limits) (l r : TypeId) :
    (∀ s, env.checkedSelector limits l r = .ok (.selector s) →
      (∀ larger, limits ≤ larger → env.checkedSelector larger l r = .ok (.selector s)) ∧
        (limits ≤ .unbounded → env.selector l r = .ok s)) ∧
    ∀ s, env.limitedSelector limits l r = .ok s →
      ((∃ a ∈ env.attempts limits l r, a.entrance.isRefusal) →
        env.checkedSelector limits l r = .ok (.exceeded limits)) ∧
      ((∀ a ∈ env.attempts limits l r, ¬ a.entrance.isRefusal) →
        env.checkedSelector limits l r = .ok (.selector s)) := by
  constructor
  · intro s success
    obtain ⟨answered, kept⟩ := checkedSelector_eq_selector_iff.mp success
    have same : ∀ larger, limits ≤ larger → env.checkedSelector larger l r = .ok (.selector s) := by
      intro larger more
      have run := compare_withLimits more kept
      refine checkedSelector_eq_selector_iff.mpr ⟨?_, ?_⟩
      · rw [limitedSelector, run]
        exact answered
      · rw [run]
        exact kept
    exact ⟨same, fun counted => (checkedSelector_eq_selector_iff.mp (same .unbounded counted)).1⟩
  · intro s answered
    constructor
    · rintro ⟨a, made, refused⟩
      refine checkedSelector_eq_exceeded answered ?_
      rw [exceeded_compare, List.any_eq_true]
      exact ⟨a, made, refused⟩
    · intro allowed
      refine checkedSelector_eq_selector_iff.mpr ⟨answered, ?_⟩
      rw [exceeded_compare, List.any_eq_false]
      exact allowed

/-- A union of an alias of bool, and int. -/
def aliasOrNumber : Environment := .ofBodies [.type .bool, .union [.node (.nominal ⟨1⟩), .type .int]]

/-- Depth 3 and four attempts are enough to find int in the union. With depth 2 the alias is not looked through; the
    selector does not depend on it, but the refusal is reported. -/
theorem aliasOrNumber_agrees :
    aliasOrNumber.checkedSelector ⟨3, 4⟩ .int ⟨101⟩ = .ok (.selector .top) ∧
      aliasOrNumber.checkedSelector .bounded .int ⟨101⟩ = .ok (.selector .top) ∧
      aliasOrNumber.selector .int ⟨101⟩ = .ok .top ∧
      aliasOrNumber.limitedSelector ⟨2, 100⟩ .int ⟨101⟩ = .ok .top ∧
      aliasOrNumber.checkedSelector ⟨2, 100⟩ .int ⟨101⟩ = .ok (.exceeded ⟨2, 100⟩) := by
  have success : aliasOrNumber.checkedSelector ⟨3, 4⟩ .int ⟨101⟩ = .ok (.selector .top) := by decide +kernel
  have answered : aliasOrNumber.limitedSelector ⟨2, 100⟩ .int ⟨101⟩ = .ok .top := by decide +kernel
  have refused : ∃ a ∈ aliasOrNumber.attempts ⟨2, 100⟩ .int ⟨101⟩, a.entrance.isRefusal := by decide +kernel
  obtain ⟨larger, unbounded⟩ := (checkedSelector_agrees aliasOrNumber ⟨3, 4⟩ .int ⟨101⟩).1 .top success
  obtain ⟨reported, -⟩ := (checkedSelector_agrees aliasOrNumber ⟨2, 100⟩ .int ⟨101⟩).2 .top answered
  exact ⟨success, larger .bounded (by decide), unbounded (by decide), answered, reported refused⟩

end Environment

end Narrowing
