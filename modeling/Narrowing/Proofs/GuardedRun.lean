import Narrowing.Comparison.Query
import Narrowing.Proofs.Settlement

/-!
Guarded comparisons as functions of the path. Every comparison that has an answer
leaves the path of its guard as it found it (`samePath_compareWithin`), on a closed
graph every comparison has one (`Closed.exists_answer`), and where only depth is
limited the answer depends on the path and on the depth that is left, not on what
was compared before (`answer_compareWithin`).
-/

namespace Narrowing

universe u

namespace Guard

variable {κ : Type u}

/-- Two guards with the same limits and the same keys on the path. -/
structure SamePath (g g' : Guard κ) : Prop where
  limits : g'.limits = g.limits
  visiting : g'.visiting = g.visiting
  depth : g'.depth = g.depth

theorem SamePath.refl (g : Guard κ) : g.SamePath g := ⟨rfl, rfl, rfl⟩

theorem SamePath.trans {a b c : Guard κ} (first : a.SamePath b) (second : b.SamePath c) : a.SamePath c :=
  ⟨second.limits.trans first.limits, second.visiting.trans first.visiting, second.depth.trans first.depth⟩

theorem SamePath.room {g g' : Guard κ} (same : g.SamePath g') : g'.room = g.room := by
  simp only [Guard.room, same.limits, same.depth]

/-- The guard after one more attempt is counted. -/
def counted (g : Guard κ) : Guard κ := { g with iterations := min (g.iterations + 1) Limits.ceiling }

variable [DecidableEq κ]

/-- What an attempt can come to. -/
theorem enter_cases (g : Guard κ) (key : κ) :
    (g.limits.maxIterations < g.counted.iterations ∧
      g.enter key = (.iterationsExceeded, { g.counted with exceeded := true })) ∨
    (g.counted.iterations ≤ g.limits.maxIterations ∧ key ∈ g.visiting ∧ g.enter key = (.cycle, g.counted)) ∨
    (g.counted.iterations ≤ g.limits.maxIterations ∧ key ∉ g.visiting ∧ g.limits.maxDepth ≤ g.depth ∧
      g.enter key = (.depthExceeded, { g.counted with exceeded := true })) ∨
    (g.counted.iterations ≤ g.limits.maxIterations ∧ key ∉ g.visiting ∧ g.depth < g.limits.maxDepth ∧
      g.enter key = (.entered, { g.counted with visiting := key :: g.visiting, depth := g.depth + 1 })) := by
  by_cases iterations : g.limits.maxIterations < g.counted.iterations
  · refine .inl ⟨iterations, ?_⟩
    simp only [counted] at iterations
    simp [enter, counted, iterations]
  · refine .inr ?_
    have attempts := Nat.not_lt.mp iterations
    simp only [counted] at iterations
    by_cases visiting : key ∈ g.visiting
    · exact .inl ⟨attempts, visiting, by simp [enter, counted, iterations, isVisiting, visiting]⟩
    · by_cases depth : g.limits.maxDepth ≤ g.depth
      · exact .inr (.inl ⟨attempts, visiting, depth, by simp [enter, counted, iterations, isVisiting, visiting, depth]⟩)
      · exact .inr (.inr ⟨attempts, visiting, Nat.not_le.mp depth,
          by simp [enter, counted, iterations, isVisiting, visiting, depth]⟩)

/-- An attempt that does not enter leaves the path as it is. -/
theorem samePath_enter {g : Guard κ} {key : κ} (outside : (g.enter key).1 ≠ .entered) : g.SamePath (g.enter key).2 := by
  rcases g.enter_cases key with ⟨-, result⟩ | ⟨-, -, result⟩ | ⟨-, -, -, result⟩ | ⟨-, -, -, result⟩
  · exact result ▸ ⟨rfl, rfl, rfl⟩
  · exact result ▸ ⟨rfl, rfl, rfl⟩
  · exact result ▸ ⟨rfl, rfl, rfl⟩
  · exact absurd (by rw [result]) outside

/-- A key that is entered is new, fits, and becomes the last one on the path. -/
theorem enter_entered {g : Guard κ} {key : κ} (entered : (g.enter key).1 = .entered) :
    key ∉ g.visiting ∧ g.depth < g.limits.maxDepth ∧ (g.enter key).2.limits = g.limits ∧
      (g.enter key).2.visiting = key :: g.visiting ∧ (g.enter key).2.depth = g.depth + 1 := by
  rcases g.enter_cases key with ⟨-, result⟩ | ⟨-, -, result⟩ | ⟨-, -, -, result⟩ | ⟨-, new, fits, result⟩
  · simp [result] at entered
  · simp [result] at entered
  · simp [result] at entered
  · simp [result, new, fits, counted]

theorem room_enter {g : Guard κ} {key : κ} (entered : (g.enter key).1 = .entered) :
    (g.enter key).2.room + 1 = g.room := by
  obtain ⟨-, fits, limits, -, depth⟩ := enter_entered entered
  simp only [room, limits, depth]
  omega

theorem samePath_retract {g g' : Guard κ} {key : κ} (entered : (g.enter key).1 = .entered)
    (same : (g.enter key).2.SamePath g') : g.SamePath (g'.retract key) := by
  obtain ⟨-, -, limits, visiting, depth⟩ := enter_entered entered
  refine ⟨same.limits.trans limits, ?_, ?_⟩
  · simp [retract, same.visiting, visiting]
  · simp [retract, same.depth, depth]

/-- With attempts unlimited, what an attempt comes to is decided by the path and the depth. -/
theorem enter_patient {g : Guard κ} (patient : Limits.ceiling ≤ g.limits.maxIterations) (key : κ) :
    (g.enter key).1 = if key ∈ g.visiting then .cycle else if g.room = 0 then .depthExceeded else .entered := by
  have few : g.counted.iterations ≤ g.limits.maxIterations := Nat.le_trans (Nat.min_le_right ..) patient
  rcases g.enter_cases key with ⟨many, -⟩ | ⟨-, old, result⟩ | ⟨-, new, deep, result⟩ | ⟨-, new, fits, result⟩
  · omega
  · simp [result, old]
  · have full : g.room = 0 := Nat.sub_eq_zero_of_le deep
    simp [result, new, full]
  · have free : g.room ≠ 0 := Nat.sub_ne_zero_of_lt fits
    simp [result, new, free]

end Guard

/-! ### The path and the answer of a run -/

/-- On the path of a guard, comparisons that have an answer keep to the path. -/
def KeepsPath (compare : Guard TypePair → TypeId → TypeId → Run) (start : Guard TypePair) : Prop :=
  ∀ g, start.SamePath g → ∀ l r s, (compare g l r).answer = .ok s → g.SamePath (compare g l r).guard

namespace Inquiry

section
variable {compare : Guard TypePair → TypeId → TypeId → Run} {start : Guard TypePair}

theorem samePath_run (steady : KeepsPath compare start) {g : Guard TypePair} (same : start.SamePath g) {i : Inquiry} {s : Selector}
    (answered : (i.run compare g).answer = .ok s) : g.SamePath (i.run compare g).guard := by
  induction i generalizing g with
  | done => exact .refl g
  | fail => simp [run] at answered
  | note event next ih => exact ih same answered
  | ask l r next ih =>
    simp only [run] at answered ⊢
    cases found : (compare g l r).answer with
    | error fault => simp [found] at answered
    | ok t =>
      simp only [found] at answered ⊢
      have first := steady g same l r t found
      exact first.trans (ih t (same.trans first) answered)

/-- If the answers depend on the path only, a run ends as they settle it. -/
theorem answer_run (steady : KeepsPath compare start) {answer : TypeId → TypeId → Except Fault Selector}
    (answers : ∀ g, start.SamePath g → ∀ l r, (compare g l r).answer = answer l r)
    {g : Guard TypePair} (same : start.SamePath g) (i : Inquiry) : (i.run compare g).answer = i.settle answer := by
  induction i generalizing g with
  | done | fail => rfl
  | note event next ih => exact ih same
  | ask l r next ih =>
    have first := answers g same l r
    simp only [run, settle]
    cases found : answer l r with
    | error fault => simp [first, found]
    | ok s =>
      rw [found] at first
      simpa [first] using ih s (same.trans (steady g same l r s first))

theorem exists_answer_run {allowed : TypeId → TypeId → Prop}
    (answered : ∀ g l r, allowed l r → ∃ s, (compare g l r).answer = .ok s) {i : Inquiry} (within : i.Within allowed)
    (g : Guard TypePair) : ∃ s, (i.run compare g).answer = .ok s := by
  induction i generalizing g with
  | done s => exact ⟨s, rfl⟩
  | fail => exact within.elim
  | note event next ih => exact ih within g
  | ask l r next ih =>
    obtain ⟨s, found⟩ := answered g l r within.1
    simpa [run, found] using ih s (within.2 s) (compare g l r).guard

end

end Inquiry

namespace Environment

variable {env : Environment}

/-- A pair that is turned away is not compared, whatever room there is. -/
theorem compareWithin_turnedAway {room : Nat} {g : Guard TypePair} {l r : TypeId}
    (outside : (g.enter (.of l r)).1 ≠ .entered) :
    env.compareWithin room g l r = .turnedAway (g.enter (.of l r)) l r := by
  cases room with
  | zero => rfl
  | succ room => simp [compareWithin, outside]

theorem compareWithin_entered {room : Nat} {g : Guard TypePair} {l r : TypeId}
    (entered : (g.enter (.of l r)).1 = .entered) :
    env.compareWithin (room + 1) g l r =
      ((env.rule l r).run (env.compareWithin room) (g.enter (.of l r)).2).enclose l r := by
  simp [compareWithin, entered, dispatch_eq_rule]

theorem room_pos_of_entered {g : Guard TypePair} {l r : TypeId} (entered : (g.enter (.of l r)).1 = .entered) :
    0 < g.room := by
  have := Guard.room_enter entered
  omega

theorem answer_enclose (run : Run) (l r : TypeId) : (run.enclose l r).answer = run.answer := by
  unfold Run.enclose
  split <;> simp_all

theorem answer_turnedAway (attempt : Entrance × Guard TypePair) (l r : TypeId) :
    (Run.turnedAway attempt l r).answer = .ok (.ofBool (attempt.1 = .cycle)) := by
  unfold Run.turnedAway
  split <;> simp_all [Selector.ofBool]

/-- Induction along a comparison that has as much room as its guard. A pair is turned away, or it is entered and what
    is to be shown holds of every comparison on the way. -/
theorem compareWithin_induction
    {motive : (room : Nat) → (g : Guard TypePair) → TypeId → TypeId → g.room ≤ room → Prop}
    (away : ∀ room g l r enough, (g.enter (.of l r)).1 ≠ .entered → motive room g l r enough)
    (entered : ∀ room g l r enough, (g.enter (.of l r)).1 = .entered → (g.enter (.of l r)).2.room ≤ room →
      (∀ g' a b less, motive room g' a b less) → motive (room + 1) g l r enough)
    (room : Nat) (g : Guard TypePair) (l r : TypeId) (enough : g.room ≤ room) : motive room g l r enough := by
  induction room generalizing g l r with
  | zero =>
    -- The guard has no more room than the recursion, so it lets nothing in.
    refine away 0 g l r enough fun inside => ?_
    have := room_pos_of_entered inside
    omega
  | succ room ih =>
    by_cases inside : (g.enter (.of l r)).1 = .entered
    · have left_over := Guard.room_enter inside
      exact entered room g l r enough inside (by omega) ih
    · exact away _ g l r enough inside

/-- A comparison that has an answer leaves the path as it found it. -/
theorem samePath_compareWithin {room : Nat} {g : Guard TypePair} (enough : g.room ≤ room) {l r : TypeId} {s : Selector}
    (answered : (env.compareWithin room g l r).answer = .ok s) : g.SamePath (env.compareWithin room g l r).guard := by
  induction room, g, l, r, enough using compareWithin_induction generalizing s with
  | away room g l r _ outside =>
    rw [compareWithin_turnedAway outside]
    unfold Run.turnedAway
    split <;> exact Guard.samePath_enter outside
  | entered room g l r _ entered left_over ih =>
    rw [compareWithin_entered entered] at answered ⊢
    rw [answer_enclose] at answered
    have steady : KeepsPath (env.compareWithin room) (g.enter (.of l r)).2 :=
      fun g' same a b t => ih g' a b (by rwa [same.room])
    have inner := Inquiry.samePath_run steady (.refl _) answered
    simp only [Run.enclose, answered]
    exact Guard.samePath_retract entered inner

theorem keepsPath_compareWithin {room : Nat} {g : Guard TypePair} (enough : g.room ≤ room) :
    KeepsPath (env.compareWithin room) g :=
  fun _ same _ _ _ => samePath_compareWithin (by rwa [same.room])

/-- On a closed graph every comparison has an answer. -/
theorem Closed.exists_answer {types : Set TypeId} (closed : env.Closed types) (room : Nat) (g : Guard TypePair)
    {l r : TypeId} (left : l ∈ types) (right : r ∈ types) : ∃ s, (env.compareWithin room g l r).answer = .ok s := by
  induction room generalizing g l r with
  | zero => exact ⟨_, answer_turnedAway _ l r⟩
  | succ room ih =>
    by_cases entered : (g.enter (.of l r)).1 = .entered
    · rw [compareWithin_entered entered, answer_enclose]
      exact Inquiry.exists_answer_run (fun g a b inside => ih g inside.1 inside.2) (rule_within closed left right) _
    · rw [compareWithin_turnedAway entered]
      exact ⟨_, answer_turnedAway _ l r⟩

/-- The answer for a pair while others are in progress and `room` more may be entered. -/
def outcome (env : Environment) : (room : Nat) → (inProgress : List TypePair) → TypeId → TypeId → Except Fault Selector
  | 0, inProgress, l, r => .ok (.ofBool (TypePair.of l r ∈ inProgress))
  | room + 1, inProgress, l, r =>
    if TypePair.of l r ∈ inProgress then .ok .top
    else (env.rule l r).settle (env.outcome room (.of l r :: inProgress))

theorem outcome_of_inProgress {room : Nat} {inProgress : List TypePair} {l r : TypeId}
    (old : TypePair.of l r ∈ inProgress) : env.outcome room inProgress l r = .ok .top := by
  cases room <;> simp [outcome, old, Selector.ofBool]

theorem outcome_of_new {room : Nat} {inProgress : List TypePair} {l r : TypeId} (new : TypePair.of l r ∉ inProgress) :
    env.outcome (room + 1) inProgress l r = (env.rule l r).settle (env.outcome room (.of l r :: inProgress)) := by
  simp [outcome, new]

theorem Closed.exists_outcome {types : Set TypeId} (closed : env.Closed types) (room : Nat) (inProgress : List TypePair)
    {l r : TypeId} (left : l ∈ types) (right : r ∈ types) : ∃ s, env.outcome room inProgress l r = .ok s := by
  induction room generalizing inProgress l r with
  | zero => exact ⟨_, rfl⟩
  | succ room ih =>
    by_cases old : TypePair.of l r ∈ inProgress
    · exact ⟨.top, outcome_of_inProgress old⟩
    · rw [outcome_of_new old]
      exact Inquiry.exists_settle (rule_within closed left right) fun a b inside => ih _ inside.1 inside.2

/-- With attempts unlimited, the answer depends only on the path and on the room that is left. -/
theorem answer_compareWithin (room : Nat) (g : Guard TypePair) (patient : Limits.ceiling ≤ g.limits.maxIterations)
    (exact : g.room = room) (l r : TypeId) :
    (env.compareWithin room g l r).answer = env.outcome room g.visiting l r := by
  have attempt := Guard.enter_patient patient (.of l r)
  induction room generalizing g l r with
  | zero =>
    simp only [compareWithin, answer_turnedAway, outcome, attempt, exact, if_true]
    by_cases old : TypePair.of l r ∈ g.visiting <;> simp [old]
  | succ room ih =>
    simp only [exact, Nat.add_one_ne_zero, if_false] at attempt
    by_cases old : TypePair.of l r ∈ g.visiting
    · simp only [old, if_true] at attempt
      rw [compareWithin_turnedAway (by simp [attempt]), answer_turnedAway, outcome_of_inProgress old]
      simp [attempt, Selector.ofBool]
    · simp only [old, if_false] at attempt
      rw [compareWithin_entered attempt, answer_enclose, outcome_of_new old]
      have left_over := Guard.room_enter attempt
      obtain ⟨-, -, limits, visiting, -⟩ := Guard.enter_entered attempt
      -- The guard moves from question to question, but its path does not.
      refine Inquiry.answer_run (keepsPath_compareWithin (by omega)) (fun g' same a b => ?_) (.refl _) _
      rw [← visiting, ← same.visiting]
      have patient' : Limits.ceiling ≤ g'.limits.maxIterations := by rwa [same.limits, limits]
      exact ih g' patient' (by rw [same.room]; omega) a b (Guard.enter_patient patient' _)

theorem limitedSelector_eq_outcome {limits : Limits} (patient : Limits.ceiling ≤ limits.maxIterations) (l r : TypeId) :
    env.limitedSelector limits l r = env.outcome limits.maxDepth [] l r :=
  answer_compareWithin _ (.fresh limits) patient rfl l r

theorem selector_eq_outcome (l r : TypeId) : env.selector l r = env.outcome Limits.ceiling [] l r :=
  limitedSelector_eq_outcome (Nat.le_refl _) l r

theorem isSubtype_eq_true_iff {l r : TypeId} : env.isSubtype l r = .ok true ↔ env.selector l r = .ok .top := by
  cases found : env.selector l r <;> simp [isSubtype, found, Except.map, Selector.isTop_iff]

end Environment

end Narrowing
