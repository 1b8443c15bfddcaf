import Narrowing.Proofs.GuardedRun

/-!
The course of a comparison: each attempt to enter a pair, in order, with the pairs
that are open when it is made. The attempts are those that the trace shows
(`trace_attempts`). On a closed graph every attempt is about the graph, and the
pairs that are open are different pairs of it (`WellFormed.attemptSound`).
-/

namespace Narrowing

/-- An attempt to enter a pair: the ordered pairs that are open, the last one first, the guard as it stands, and
    the pair. -/
structure Attempt where
  path : List (TypeId × TypeId)
  guard : Guard TypePair
  lhs : TypeId
  rhs : TypeId

namespace Attempt

/-- What the attempt comes to. -/
def entrance (a : Attempt) : Entrance := (a.guard.enter (.of a.lhs a.rhs)).1

/-- The guard after the attempt. -/
def after (a : Attempt) : Guard TypePair := (a.guard.enter (.of a.lhs a.rhs)).2

/-- A pair that is assumed is in progress. -/
theorem mem_visiting_of_cycle (a : Attempt) (assumed : a.entrance = .cycle) :
    TypePair.of a.lhs a.rhs ∈ a.guard.visiting := by
  rcases a.guard.enter_cases (.of a.lhs a.rhs) with
    ⟨-, result⟩ | ⟨-, old, -⟩ | ⟨-, -, -, result⟩ | ⟨-, -, -, result⟩
  · simp [entrance, result] at assumed
  · exact old
  · simp [entrance, result] at assumed
  · simp [entrance, result] at assumed

end Attempt

/-- The attempts of an inquiry, where `attempts` lists those of each comparison. -/
def Inquiry.attempts (compare : Guard TypePair → TypeId → TypeId → Run)
    (attempts : Guard TypePair → TypeId → TypeId → List Attempt) (guard : Guard TypePair) : Inquiry → List Attempt
  | .done _ | .fail _ => []
  | .note _ next => next.attempts compare attempts guard
  | .ask l r next =>
    attempts guard l r ++
      match (compare guard l r).answer with
      | .ok s => (next s).attempts compare attempts (compare guard l r).guard
      | .error _ => []

namespace Environment

/-- The attempts of a comparison, at most `room` pairs deep. -/
def attemptsWithin (env : Environment) :
    (room : Nat) → (path : List (TypeId × TypeId)) → Guard TypePair → TypeId → TypeId → List Attempt
  | 0, path, guard, lhs, rhs => [⟨path, guard, lhs, rhs⟩]
  | room + 1, path, guard, lhs, rhs =>
    ⟨path, guard, lhs, rhs⟩ ::
      if (guard.enter (.of lhs rhs)).1 = .entered then
        (env.rule lhs rhs).attempts (env.compareWithin room) (env.attemptsWithin room ((lhs, rhs) :: path))
          (guard.enter (.of lhs rhs)).2
      else []

def attempts (env : Environment) (limits : Limits) (lhs rhs : TypeId) : List Attempt :=
  env.attemptsWithin (Guard.fresh limits : Guard TypePair).room [] (.fresh limits) lhs rhs

/-- Comparing two types is never refused for its depth. -/
def Shallow (env : Environment) (limits : Limits) (lhs rhs : TypeId) : Prop :=
  ∀ a ∈ env.attempts limits lhs rhs, a.entrance ≠ .depthExceeded

instance (env : Environment) (limits : Limits) (lhs rhs : TypeId) : Decidable (env.Shallow limits lhs rhs) :=
  inferInstanceAs (Decidable (∀ a ∈ env.attempts limits lhs rhs, a.entrance ≠ .depthExceeded))

end Environment

/-- The pair that an entry says was tried: one that was opened, assumed or refused. -/
def Entry.tried? : Entry → Option (TypeId × TypeId)
  | .opened l r | .event (.assumed l r) | .event (.refused l r) => some (l, r)
  | _ => none

namespace Inquiry

variable {compare : Guard TypePair → TypeId → TypeId → Run} {start : Guard TypePair}
  {attempts : Guard TypePair → TypeId → TypeId → List Attempt}

/-- Every attempt of an inquiry is made by a comparison that it asks for on its path. -/
theorem of_mem_attempts {allowed : TypeId → TypeId → Prop} (steady : KeepsPath compare start) {g : Guard TypePair}
    (same : start.SamePath g) {i : Inquiry} (within : i.Within allowed) {a : Attempt}
    (member : a ∈ i.attempts compare attempts g) :
    ∃ g' l r, start.SamePath g' ∧ allowed l r ∧ a ∈ attempts g' l r := by
  induction i generalizing g with
  | done | fail => simp [Inquiry.attempts] at member
  | note event next ih => exact ih same within member
  | ask l r next ih =>
    simp only [Inquiry.attempts, List.mem_append] at member
    rcases member with first | later
    · exact ⟨g, l, r, same, within.1, first⟩
    · cases found : (compare g l r).answer with
      | error fault => simp [found] at later
      | ok s =>
        simp only [found] at later
        exact ih s (same.trans (steady g same l r s found)) (within.2 s) later

/-- Every comparison that an inquiry asks for makes its attempts on the path of the inquiry. -/
theorem attempts_of_asked (steady : KeepsPath compare start) {answer : TypeId → TypeId → Except Fault Selector}
    (answers : ∀ g, start.SamePath g → ∀ l r, (compare g l r).answer = answer l r) {g : Guard TypePair}
    (same : start.SamePath g) {i : Inquiry} {p : TypeId × TypeId} (asked : p ∈ i.asked answer) :
    ∃ g', start.SamePath g' ∧ ∀ a ∈ attempts g' p.1 p.2, a ∈ i.attempts compare attempts g := by
  induction i generalizing g with
  | done | fail => simp [Inquiry.asked] at asked
  | note event next ih => exact ih same asked
  | ask l r next ih =>
    have first := answers g same l r
    simp only [Inquiry.asked, List.mem_cons] at asked
    rcases asked with rfl | later
    · exact ⟨g, same, fun a member => by simp [Inquiry.attempts, member]⟩
    · cases found : answer l r with
      | error fault => simp [found] at later
      | ok s =>
        rw [found] at first
        obtain ⟨g', same', inside⟩ :=
          ih s (same.trans (steady g same l r s first)) (by simpa [found] using later)
        exact ⟨g', same', fun a member => by simp [Inquiry.attempts, first, inside a member]⟩

/-- The remarks of an inquiry are not about attempts, whatever the answers. -/
def Plain : Inquiry → Prop
  | .done _ | .fail _ => True
  | .note event next => (Entry.event event).tried? = none ∧ next.Plain
  | .ask _ _ next => ∀ s, (next s).Plain

theorem plain_require {α : Type} {part? : Option α} {fault : Fault} {next : α → Inquiry} (plain : ∀ a, (next a).Plain) :
    (require part? fault next).Plain := by
  cases part? with
  | none => trivial
  | some a => exact plain a

theorem plain_every (pairs : List (TypeId × TypeId)) : (every pairs).Plain := by
  induction pairs with
  | nil => trivial
  | cons p rest ih =>
    intro s
    by_cases top : s.isTop <;> simp [top, ih, Plain]

theorem plain_oneOf (lhs : TypeId) (alternatives : List TypeId) : (oneOf lhs alternatives).Plain := by
  induction alternatives with
  | nil => trivial
  | cons r rest ih =>
    intro s
    by_cases top : s.isTop <;> simp [top, ih, Plain, Entry.tried?]

theorem plain_each (rhs : TypeId) (found : List Selector) (alternatives : List TypeId) :
    (each rhs found alternatives).Plain := by
  induction alternatives generalizing found with
  | nil => trivial
  | cons l rest ih => exact fun s => ih (found ++ [s])

theorem plain_fieldwise (found : List Selector) (fields : List (Field × Field)) : (fieldwise found fields).Plain := by
  induction fields generalizing found with
  | nil => trivial
  | cons p rest ih =>
    obtain ⟨l, r⟩ := p
    by_cases named : l.name = r.name
    · simp only [fieldwise, named, if_true]
      intro s
      by_cases bottom : s.isBottom <;> simp [bottom, ih, Plain]
    · simp [fieldwise, named, Plain]

theorem trace_attempts_run
    (shown : ∀ g l r, (compare g l r).trace.filterMap Entry.tried? = (attempts g l r).map fun a => (a.lhs, a.rhs))
    (g : Guard TypePair) {i : Inquiry} (plain : i.Plain) :
    (i.run compare g).trace.filterMap Entry.tried? = (i.attempts compare attempts g).map fun a => (a.lhs, a.rhs) := by
  induction i generalizing g with
  | done | fail => rfl
  | note event next ih => simpa [run, Inquiry.attempts, plain.1] using ih g plain.2
  | ask l r next ih =>
    simp only [run, Inquiry.attempts]
    cases found : (compare g l r).answer with
    | error fault => simp [shown]
    | ok s => simp [shown, ih s _ (plain s)]

end Inquiry

namespace Environment

variable {env : Environment}

theorem plain_compareShapes (l r : TypeNode) : (env.compareShapes l r).Plain := by
  unfold compareShapes
  split
  case h_1 | h_8 | h_9 | h_10 => trivial
  case h_2 => exact fun _ => trivial
  case h_3 =>
    refine Inquiry.plain_require fun ls => Inquiry.plain_require fun rs => ?_
    split
    · exact Inquiry.plain_fieldwise _ _
    · trivial
  case h_4 | h_7 => exact Inquiry.plain_every _
  case h_5 | h_6 =>
    refine Inquiry.plain_require fun ls => Inquiry.plain_require fun rs => ?_
    split
    · exact Inquiry.plain_every _
    · trivial

theorem plain_rule (lhs rhs : TypeId) : (env.rule lhs rhs).Plain := by
  refine Inquiry.plain_require fun l => Inquiry.plain_require fun r => ?_
  split
  case h_1 | h_2 => trivial
  case h_3 =>
    split
    · trivial
    · exact Inquiry.plain_require fun a => ⟨rfl, Inquiry.plain_require fun b => ⟨rfl, fun _ => trivial⟩⟩
  case h_4 | h_7 => exact Inquiry.plain_require fun b => ⟨rfl, fun _ => trivial⟩
  case h_5 => exact Inquiry.plain_require fun alternatives => Inquiry.plain_each rhs [] alternatives
  case h_6 => exact Inquiry.plain_require fun alternatives => Inquiry.plain_oneOf lhs alternatives
  case h_8 => exact plain_compareShapes _ _

theorem trace_turnedAway (attempt : Entrance × Guard TypePair) (l r : TypeId) :
    (Run.turnedAway attempt l r).trace.filterMap Entry.tried? = [(l, r)] := by
  unfold Run.turnedAway
  split <;> rfl

theorem trace_enclose (run : Run) (l r : TypeId) :
    (run.enclose l r).trace.filterMap Entry.tried? = (l, r) :: run.trace.filterMap Entry.tried? := by
  unfold Run.enclose
  split <;> simp [Entry.tried?]

theorem trace_attemptsWithin (room : Nat) (path : List (TypeId × TypeId)) (g : Guard TypePair) (l r : TypeId) :
    (env.compareWithin room g l r).trace.filterMap Entry.tried? =
      (env.attemptsWithin room path g l r).map fun a => (a.lhs, a.rhs) := by
  induction room generalizing path g l r with
  | zero => exact trace_turnedAway _ l r
  | succ room ih =>
    by_cases entered : (g.enter (.of l r)).1 = .entered
    · rw [compareWithin_entered entered, trace_enclose,
        Inquiry.trace_attempts_run (ih ((l, r) :: path)) _ (plain_rule l r)]
      simp [attemptsWithin, entered]
    · rw [compareWithin_turnedAway entered, trace_turnedAway]
      simp [attemptsWithin, entered]

/-- The attempts of a comparison are those that its trace shows, in order. -/
theorem trace_attempts (limits : Limits) (l r : TypeId) :
    (env.compare limits l r).trace.filterMap Entry.tried? =
      (env.attempts limits l r).map fun a => (a.lhs, a.rhs) :=
  trace_attemptsWithin _ [] _ l r

/-- A question of a rule is put on the path of the pair that was entered, and its attempts are among those of that
    pair. -/
theorem attempts_of_asked_rule {room : Nat} {path : List (TypeId × TypeId)} {g : Guard TypePair}
    (patient : Limits.ceiling ≤ g.limits.maxIterations) (exact : g.room = room + 1) {l r : TypeId}
    (new : TypePair.of l r ∉ g.visiting) {p : TypeId × TypeId}
    (asked : p ∈ (env.rule l r).asked (env.outcome room (.of l r :: g.visiting))) :
    ∃ g' : Guard TypePair, g'.limits = g.limits ∧ g'.visiting = .of l r :: g.visiting ∧ g'.room = room ∧
      ∀ a ∈ env.attemptsWithin room ((l, r) :: path) g' p.1 p.2, a ∈ env.attemptsWithin (room + 1) path g l r := by
  have entered : (g.enter (.of l r)).1 = .entered := by simp [Guard.enter_patient patient, new, exact]
  obtain ⟨-, -, limits, visiting, -⟩ := Guard.enter_entered entered
  have room_left := Guard.room_enter entered
  have answers : ∀ g', (g.enter (.of l r)).2.SamePath g' → ∀ a b,
      (env.compareWithin room g' a b).answer = env.outcome room (.of l r :: g.visiting) a b := by
    intro g' same a b
    rw [← visiting, ← same.visiting]
    exact answer_compareWithin room g' (by rwa [same.limits, limits]) (by rw [same.room]; omega) a b
  have keeps : KeepsPath (env.compareWithin room) (g.enter (.of l r)).2 := keepsPath_compareWithin (by omega)
  obtain ⟨g', same, inside⟩ : ∃ g', (g.enter (.of l r)).2.SamePath g' ∧
      ∀ a ∈ env.attemptsWithin room ((l, r) :: path) g' p.1 p.2, a ∈ (env.rule l r).attempts (env.compareWithin room)
        (env.attemptsWithin room ((l, r) :: path)) (g.enter (.of l r)).2 :=
    Inquiry.attempts_of_asked keeps answers (.refl _) asked
  refine ⟨g', same.limits.trans limits, same.visiting.trans visiting, by rw [same.room]; omega, fun a member => ?_⟩
  simp [attemptsWithin, entered, inside a member]

/-! ### Attempts on a closed graph -/

/-- An attempt about a graph, on a path of different pairs of it that the guard keeps, under given limits. -/
structure AttemptSound (types : Set TypeId) (limits : Limits) (a : Attempt) : Prop where
  left : a.lhs ∈ types
  right : a.rhs ∈ types
  limits : a.guard.limits = limits
  visiting : a.guard.visiting = a.path.map fun p => .of p.1 p.2
  depth : a.guard.depth = a.path.length
  distinct : TypePair.DistinctIn types a.guard.visiting

theorem AttemptSound.below {types : Set TypeId} {limits : Limits} {path : List (TypeId × TypeId)}
    {g g' : Guard TypePair} {l r l' r' : TypeId} (sound : AttemptSound types limits ⟨path, g, l, r⟩)
    (entered : (g.enter (.of l r)).1 = .entered) (same : (g.enter (.of l r)).2.SamePath g')
    (left : l' ∈ types) (right : r' ∈ types) : AttemptSound types limits ⟨(l, r) :: path, g', l', r'⟩ := by
  obtain ⟨new, -, sameLimits, visiting, depth⟩ := Guard.enter_entered entered
  refine ⟨left, right, (same.limits.trans sameLimits).trans sound.limits, ?_, ?_, ?_⟩
  · simpa [same.visiting, visiting] using sound.visiting
  · simpa [same.depth, depth] using sound.depth
  · simpa [same.visiting, visiting] using sound.distinct.cons sound.left sound.right new

/-- Depth refuses a pair only if it is not open and as many pairs are open as may be. -/
theorem AttemptSound.of_depthExceeded {types : Set TypeId} {limits : Limits} {a : Attempt}
    (sound : AttemptSound types limits a) (refused : a.entrance = .depthExceeded) :
    TypePair.of a.lhs a.rhs ∉ a.guard.visiting ∧ limits.maxDepth ≤ a.guard.visiting.length := by
  rcases a.guard.enter_cases (.of a.lhs a.rhs) with
    ⟨-, result⟩ | ⟨-, -, result⟩ | ⟨-, new, full, -⟩ | ⟨-, -, -, result⟩
  · simp [Attempt.entrance, result] at refused
  · simp [Attempt.entrance, result] at refused
  · have depth : a.guard.depth = a.guard.visiting.length := by simp [sound.depth, sound.visiting]
    rw [sound.limits, depth] at full
    exact ⟨new, full⟩
  · simp [Attempt.entrance, result] at refused

/-- What an attempt hands on to every question of the rule, if its pair is entered, holds of all attempts. -/
theorem attemptsWithin_preserve {holds : Attempt → Prop}
    (step : ∀ a, holds a → a.entrance = .entered → (env.rule a.lhs a.rhs).Within fun x y =>
      ∀ g', a.after.SamePath g' → holds ⟨(a.lhs, a.rhs) :: a.path, g', x, y⟩)
    {room : Nat} {path : List (TypeId × TypeId)} {g : Guard TypePair} {l r : TypeId} (enough : g.room ≤ room)
    (first : holds ⟨path, g, l, r⟩) : ∀ a ∈ env.attemptsWithin room path g l r, holds a := by
  induction room, g, l, r, enough using compareWithin_induction generalizing path with
  | away room g l r _ outside => cases room <;> simpa [attemptsWithin, outside] using first
  | entered room g l r _ entered left_over ih =>
    intro a member
    rcases List.mem_cons.mp member with rfl | later
    · exact first
    · simp only [entered, if_true] at later
      obtain ⟨g', x, y, same, handed, made⟩ :=
        Inquiry.of_mem_attempts (keepsPath_compareWithin left_over) (.refl _) (step _ first entered) later
      exact ih g' x y (by rwa [same.room]) (handed g' same) a made

theorem Closed.attemptSound {types : Set TypeId} (closed : env.Closed types) {limits : Limits} {room : Nat}
    {path : List (TypeId × TypeId)} {g : Guard TypePair} {l r : TypeId} (enough : g.room ≤ room)
    (sound : AttemptSound types limits ⟨path, g, l, r⟩) :
    ∀ a ∈ env.attemptsWithin room path g l r, AttemptSound types limits a := by
  refine attemptsWithin_preserve (fun a soundHere entered => ?_) enough sound
  refine (rule_within closed soundHere.left soundHere.right).mono fun x y inside g' same => ?_
  exact soundHere.below entered same inside.1 inside.2

theorem WellFormed.attemptSound {l r : TypeId} (wellFormed : env.WellFormed l r) {limits : Limits} :
    ∀ a ∈ env.attempts limits l r, AttemptSound (env.reachable l r) limits a :=
  wellFormed.closed.attemptSound (Nat.le_refl _)
    ⟨left_mem_reachable l r, right_mem_reachable l r, rfl, rfl, rfl, .nil⟩

/-- A comparison is shallow if fewer pairs are ever open than may be. -/
theorem WellFormed.shallow_of_length {l r : TypeId} (wellFormed : env.WellFormed l r) {limits : Limits}
    (few : ∀ a ∈ env.attempts limits l r, a.guard.visiting.length < limits.maxDepth) : env.Shallow limits l r := by
  intro a made refused
  obtain ⟨-, full⟩ := (wellFormed.attemptSound a made).of_depthExceeded refused
  exact absurd (few a made) (Nat.not_lt.mpr full)

end Environment

end Narrowing
