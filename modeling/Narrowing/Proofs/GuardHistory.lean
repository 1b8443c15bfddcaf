import Narrowing.Proofs.GuardedRun

/-!
Histories of a guard. Calls are noted down with what came of them, the last one
first, and every part of the state of a guard can be read off the notes since the
last reset: the keys that were entered and not left, how many there are, how often
an attempt was made, and whether one was refused (`Accounts`). One call keeps the
state in agreement with the notes (`Accounts.perform`), hence so does every history
(`accounts_history`).
-/

namespace Narrowing

universe u

namespace Guard

/-- What can be done with a guard. -/
inductive Call (κ : Type u) where
  | enter (key : κ)
  | leave (key : κ)
  | reset
deriving DecidableEq, Repr

/-- What came of a call. -/
inductive Note (κ : Type u) where
  | attempt (key : κ) (answer : Entrance)
  | left (key : κ)
  /-- A key was to be left that could not be. -/
  | mistake (key : κ) (error : GuardError)
  | reset
deriving DecidableEq, Repr

variable {κ : Type u}

namespace Note

def isReset : Note κ → Bool
  | .reset => true
  | _ => false

def isAttempt : Note κ → Bool
  | .attempt _ _ => true
  | _ => false

/-- An attempt was refused by a limit. -/
def isRefusal : Note κ → Bool
  | .attempt _ answer => answer.isRefusal
  | _ => false

/-! ### What the notes tell -/

/-- The notes since the last reset. -/
def recent (notes : List (Note κ)) : List (Note κ) := notes.takeWhile (!·.isReset)

/-- How many attempts there were since the last reset. -/
def attempts (notes : List (Note κ)) : Nat := (recent notes).countP isAttempt

/-- Some attempt since the last reset was refused. -/
def Refused (notes : List (Note κ)) : Prop := ∃ n ∈ recent notes, n.isRefusal = true

/-- Since the last reset a key was entered, and it has not been left after that. -/
def Inside (notes : List (Note κ)) (key : κ) : Prop :=
  ∃ later earlier, recent notes = later ++ .attempt key .entered :: earlier ∧ .left key ∉ later

section
variable {notes : List (Note κ)}

theorem recent_reset : recent (.reset :: notes) = [] := rfl

theorem recent_cons {n : Note κ} (plain : n.isReset = false) : recent (n :: notes) = n :: recent notes := by
  simp [recent, plain]

theorem attempts_cons {n : Note κ} (plain : n.isReset = false) :
    attempts (n :: notes) = attempts notes + if n.isAttempt then 1 else 0 := by
  rw [attempts, recent_cons plain, List.countP_cons, attempts]

theorem refused_cons {n : Note κ} (plain : n.isReset = false) :
    Refused (n :: notes) ↔ n.isRefusal = true ∨ Refused notes := by
  simp [Refused, recent_cons plain]

theorem not_refused_reset : ¬ Refused (.reset :: notes) := by simp [Refused, recent_reset]

theorem not_inside_reset (key : κ) : ¬ Inside (.reset :: notes) key := by simp [Inside, recent_reset]

/-- A key is inside after a note exactly if it has just been entered, or was inside and has not just been left. -/
theorem inside_cons {n : Note κ} (plain : n.isReset = false) (key : κ) :
    Inside (n :: notes) key ↔ n = .attempt key .entered ∨ n ≠ .left key ∧ Inside notes key := by
  rw [Inside, recent_cons plain]
  constructor
  · rintro ⟨_ | ⟨first, later⟩, earlier, split, stays⟩
    · exact .inl (List.cons.inj split).1
    · obtain ⟨rfl, rest⟩ := List.cons.inj split
      simp only [List.mem_cons, not_or] at stays
      exact .inr ⟨fun left => stays.1 left.symm, later, earlier, rest, stays.2⟩
  · rintro (rfl | ⟨other, later, earlier, split, stays⟩)
    · exact ⟨[], recent notes, rfl, List.not_mem_nil⟩
    · refine ⟨n :: later, earlier, by rw [split, List.cons_append], ?_⟩
      simp only [List.mem_cons, not_or]
      exact ⟨fun left => other left.symm, stays⟩

/-- A note that tells neither of an entrance nor of a leave leaves the same keys inside. -/
theorem inside_cons_of_other {n : Note κ} (plain : n.isReset = false) {key : κ} (outside : n ≠ .attempt key .entered)
    (stays : n ≠ .left key) : Inside (n :: notes) key ↔ Inside notes key := by
  simp [inside_cons plain, outside, stays]

end

end Note

open Note

/-! ### The state and the notes -/

/-- The state of a guard is what its notes tell. -/
structure Accounts (limits : Limits) (notes : List (Note κ)) (g : Guard κ) : Prop where
  under : g.limits = limits
  /-- The keys on the path are those that were entered and not yet left, each of them once. -/
  visiting : ∀ key, key ∈ g.visiting ↔ Inside notes key
  nodup : g.visiting.Nodup
  depth : g.depth = g.visiting.length
  shallow : g.depth ≤ limits.maxDepth
  iterations : g.iterations = min Limits.ceiling (attempts notes)
  exceeded : g.exceeded = true ↔ Refused notes

theorem accounts_fresh (limits : Limits) : Accounts limits [] (fresh limits : Guard κ) where
  under := rfl
  visiting := by simp [fresh, Inside, recent]
  nodup := List.nodup_nil
  depth := rfl
  shallow := Nat.zero_le _
  iterations := rfl
  exceeded := by simp [fresh, Refused, recent]

section
variable {limits : Limits} {notes : List (Note κ)} {g : Guard κ} (accounts : Accounts limits notes g)
include accounts

theorem Accounts.iterations_counted : g.counted.iterations = min Limits.ceiling (attempts notes + 1) := by
  show min (g.iterations + 1) Limits.ceiling = _
  rw [accounts.iterations]
  omega

/-- An attempt that does not enter is counted, and remembered if it is refused. -/
theorem Accounts.turnedAway {key : κ} {answer : Entrance} (outside : answer ≠ .entered) {exceeded : Bool}
    (remembers : exceeded = (answer.isRefusal || g.exceeded)) :
    Accounts limits (.attempt key answer :: notes) { g.counted with exceeded } where
  under := accounts.under
  visiting := fun k => by
    have other : Note.attempt key answer ≠ .attempt k .entered := fun same => outside (Note.attempt.inj same).2
    rw [inside_cons_of_other rfl other (by simp)]
    exact accounts.visiting k
  nodup := accounts.nodup
  depth := accounts.depth
  shallow := accounts.shallow
  iterations := by
    rw [attempts_cons rfl]
    exact accounts.iterations_counted
  exceeded := by
    rw [refused_cons rfl, ← accounts.exceeded, remembers, Bool.or_eq_true]
    rfl

theorem Accounts.entered {key : κ} (new : key ∉ g.visiting) (fits : g.depth < limits.maxDepth) :
    Accounts limits (.attempt key .entered :: notes)
      { g.counted with visiting := key :: g.visiting, depth := g.depth + 1 } where
  under := accounts.under
  visiting := fun k => by
    rw [inside_cons rfl, List.mem_cons, accounts.visiting k]
    simp [eq_comm]
  nodup := List.nodup_cons.mpr ⟨new, accounts.nodup⟩
  depth := congrArg Nat.succ accounts.depth
  shallow := fits
  iterations := by
    rw [attempts_cons rfl]
    exact accounts.iterations_counted
  exceeded := by
    rw [refused_cons rfl, ← accounts.exceeded]
    simp [Note.isRefusal, Entrance.isRefusal, Guard.counted]

theorem Accounts.mistaken (key : κ) (error : GuardError) : Accounts limits (.mistake key error :: notes) g where
  under := accounts.under
  visiting := fun k => by
    rw [inside_cons_of_other rfl (by simp) (by simp)]
    exact accounts.visiting k
  nodup := accounts.nodup
  depth := accounts.depth
  shallow := accounts.shallow
  iterations := by
    rw [attempts_cons rfl]
    exact accounts.iterations
  exceeded := by
    rw [refused_cons rfl, ← accounts.exceeded]
    simp [Note.isRefusal]

theorem Accounts.reset : Accounts limits (.reset :: notes) g.reset := by
  have start : Accounts limits [] g.reset := accounts.under ▸ accounts_fresh g.limits
  refine ⟨start.under, fun key => ?_, start.nodup, start.depth, start.shallow, start.iterations, ?_⟩
  · simp [not_inside_reset, Guard.reset, fresh]
  · simp [not_refused_reset, Guard.reset, fresh]

end

/-- Where an error makes the guard be given up, it is the only one. -/
theorem release_eq_error_iff (g : Guard κ) (unwinding : Bool) :
    (∃ error, g.release unwinding = .error error) ↔ unwinding = false ∧ g.visiting ≠ [] := by
  cases visiting : g.visiting <;> cases unwinding <;> simp [release, visiting]

/-! ### Calls -/

variable [DecidableEq κ]

/-- A call, what came of it, and the guard after it. A key that cannot be left changes nothing. -/
def perform (g : Guard κ) : Call κ → Note κ × Guard κ
  | .enter key => (.attempt key (g.enter key).1, (g.enter key).2)
  | .leave key =>
    match g.leave key with
    | .ok after => (.left key, after)
    | .error error => (.mistake key error, g)
  | .reset => (.reset, g.reset)

/-- Some calls, one after the other. -/
def performAll (start : List (Note κ) × Guard κ) (calls : List (Call κ)) : List (Note κ) × Guard κ :=
  calls.foldl (fun (notes, g) call => ((g.perform call).1 :: notes, (g.perform call).2)) start

/-- The notes on some calls to a new guard, the last one first, and the guard after them. -/
def history (limits : Limits) (calls : List (Call κ)) : List (Note κ) × Guard κ := performAll ([], fresh limits) calls

theorem history_append (limits : Limits) (calls more : List (Call κ)) :
    history limits (calls ++ more) = performAll (history limits calls) more :=
  List.foldl_append ..

theorem perform_leave {g : Guard κ} {key : κ} (inside : key ∈ g.visiting) :
    g.perform (.leave key) = (.left key, g.retract key) := by simp [perform, leave, isVisiting, inside]

theorem perform_mistake {g : Guard κ} {key : κ} (outside : key ∉ g.visiting) :
    g.perform (.leave key) = (.mistake key .notVisiting, g) := by simp [perform, leave, isVisiting, outside]

section
variable {limits : Limits} {notes : List (Note κ)} {g : Guard κ} (accounts : Accounts limits notes g)
include accounts

theorem Accounts.retracted {key : κ} (inside : key ∈ g.visiting) :
    Accounts limits (.left key :: notes) (g.retract key) where
  under := accounts.under
  visiting := fun k => by
    show k ∈ g.visiting.erase key ↔ _
    rw [accounts.nodup.mem_erase_iff, accounts.visiting k, inside_cons rfl]
    simp [eq_comm]
  nodup := accounts.nodup.erase key
  depth := by
    show g.depth - 1 = (g.visiting.erase key).length
    rw [accounts.depth, List.length_erase_of_mem inside]
  shallow := Nat.le_trans (Nat.sub_le ..) accounts.shallow
  iterations := by
    rw [attempts_cons rfl]
    exact accounts.iterations
  exceeded := by
    rw [refused_cons rfl, ← accounts.exceeded]
    simp [Note.isRefusal, retract]

theorem Accounts.enter (key : κ) : Accounts limits (.attempt key (g.enter key).1 :: notes) (g.enter key).2 := by
  rcases g.enter_cases key with ⟨-, result⟩ | ⟨-, -, result⟩ | ⟨-, -, -, result⟩ | ⟨-, new, fits, result⟩
  · rw [result]
    exact accounts.turnedAway (by simp) rfl
  · rw [result]
    exact accounts.turnedAway (by simp) rfl
  · rw [result]
    exact accounts.turnedAway (by simp) rfl
  · rw [result]
    exact accounts.entered new (accounts.under ▸ fits)

/-- After any call the state is what the notes tell. -/
theorem Accounts.perform (call : Call κ) : Accounts limits ((g.perform call).1 :: notes) (g.perform call).2 := by
  cases call with
  | enter key => exact accounts.enter key
  | leave key =>
    by_cases inside : key ∈ g.visiting
    · rw [perform_leave inside]
      exact accounts.retracted inside
    · rw [perform_mistake inside]
      exact accounts.mistaken key .notVisiting
  | reset => exact accounts.reset

theorem Accounts.performAll (calls : List (Call κ)) :
    Accounts limits (performAll (notes, g) calls).1 (Guard.performAll (notes, g) calls).2 := by
  induction calls generalizing notes g with
  | nil => exact accounts
  | cons call calls ih => exact ih (accounts.perform call)

/-- What an attempt comes to, by the notes so far: the number of attempts is looked at first, then the path, and the
    depth last. -/
theorem Accounts.enter_eq (key : κ) :
    (g.enter key).1 =
      if limits.maxIterations < Limits.ceiling ∧ limits.maxIterations ≤ attempts notes then .iterationsExceeded
      else if key ∈ g.visiting then .cycle
      else if g.depth = limits.maxDepth then .depthExceeded
      else .entered := by
  have count := accounts.iterations_counted
  have under := accounts.under
  have shallow := accounts.shallow
  rcases g.enter_cases key with
    ⟨many, result⟩ | ⟨few, old, result⟩ | ⟨few, new, deep, result⟩ | ⟨few, new, fits, result⟩
  · rw [under, count] at many
    have enough : limits.maxIterations < Limits.ceiling ∧ limits.maxIterations ≤ attempts notes := by omega
    rw [result, if_pos enough]
  all_goals
    rw [under, count] at few
    have more : ¬ (limits.maxIterations < Limits.ceiling ∧ limits.maxIterations ≤ attempts notes) := by omega
    rw [result, if_neg more]
  · rw [if_pos old]
  · rw [under] at deep
    rw [if_neg new, if_pos (Nat.le_antisymm shallow deep)]
  · rw [under] at fits
    rw [if_neg new, if_neg (Nat.ne_of_lt fits)]

/-- If the limit is the ceiling of the count, no attempt is refused for the number of attempts. -/
theorem Accounts.iterationsExceeded_not_mem (patient : limits.maxIterations = Limits.ceiling) {key : κ}
    (none : .attempt key .iterationsExceeded ∉ notes) (calls : List (Call κ)) :
    .attempt key .iterationsExceeded ∉ (Guard.performAll (notes, g) calls).1 := by
  induction calls generalizing notes g with
  | nil => exact none
  | cons call calls ih =>
    refine ih (accounts.perform call) ?_
    have now : (g.perform call).1 ≠ .attempt key .iterationsExceeded := by
      cases call with
      | enter other =>
        intro noted
        have patient : ¬ limits.maxIterations < Limits.ceiling := by omega
        have answer := accounts.enter_eq other
        rw [(Note.attempt.inj noted).2, if_neg (fun both => patient both.1)] at answer
        split_ifs at answer
      | leave other =>
        by_cases inside : other ∈ g.visiting
        · simp [perform_leave inside]
        · simp [perform_mistake inside]
      | reset => simp [Guard.perform]
    simp only [List.mem_cons, not_or]
    exact ⟨now.symm, none⟩

end

theorem accounts_history (limits : Limits) (calls : List (Call κ)) :
    Accounts limits (history limits calls).1 (history limits calls).2 :=
  (accounts_fresh limits).performAll calls

theorem isReset_perform (g : Guard κ) {call : Call κ} (plain : call ≠ .reset) : (g.perform call).1.isReset = false := by
  cases call with
  | enter key => rfl
  | leave key =>
    by_cases inside : key ∈ g.visiting
    · rw [perform_leave inside]
      rfl
    · rw [perform_mistake inside]
      rfl
  | reset => exact absurd rfl plain

/-- Without a reset the attempts only grow. -/
theorem attempts_le_performAll (notes : List (Note κ)) (g : Guard κ) {calls : List (Call κ)} (plain : .reset ∉ calls) :
    attempts notes ≤ attempts (performAll (notes, g) calls).1 := by
  induction calls generalizing notes g with
  | nil => exact Nat.le_refl _
  | cons call calls ih =>
    simp only [List.mem_cons, not_or] at plain
    calc attempts notes ≤ attempts ((g.perform call).1 :: notes) := by
          rw [attempts_cons (g.isReset_perform (Ne.symm plain.1))]
          exact Nat.le_add_right ..
      _ ≤ attempts (performAll (notes, g) (call :: calls)).1 := ih _ _ plain.2

/-- Whatever calls are made, the state of a guard is what the notes since the last reset tell. A key can be left exactly
    if it is on the path, and otherwise nothing changes. What an attempt comes to is decided by the number of attempts,
    the path and the depth, in this order, so a key on the path is not refused for depth. Once as many attempts were
    made as are allowed, every further one is refused up to the next reset, unless the limit is the ceiling of the
    count: then none ever is. Giving the guard up is an error exactly if keys are on the path and it is not an error, such
    as a key that cannot be left, that makes it be given up. -/
theorem history_accounted (limits : Limits) (calls : List (Call κ)) :
    let notes := (history limits calls).1
    let g := (history limits calls).2
    Accounts limits notes g ∧
    (∀ key, g.perform (.leave key) =
      if key ∈ g.visiting then (.left key, g.retract key) else (.mistake key .notVisiting, g)) ∧
    (∀ key, (g.enter key).1 =
      if limits.maxIterations < Limits.ceiling ∧ limits.maxIterations ≤ attempts notes then .iterationsExceeded
      else if key ∈ g.visiting then .cycle
      else if g.depth = limits.maxDepth then .depthExceeded
      else .entered) ∧
    (∀ key ∈ g.visiting, (g.enter key).1 ≠ .depthExceeded) ∧
    (limits.maxIterations < Limits.ceiling → limits.maxIterations ≤ attempts notes → ∀ more, .reset ∉ more →
      ∀ key, ((history limits (calls ++ more)).2.enter key).1 = .iterationsExceeded) ∧
    (limits.maxIterations = Limits.ceiling → ∀ key, .attempt key .iterationsExceeded ∉ notes) ∧
    ∀ unwinding, (∃ error, g.release unwinding = .error error) ↔ unwinding = false ∧ g.visiting ≠ [] := by
  intro notes g
  have accounts : Accounts limits notes g := accounts_history limits calls
  refine ⟨accounts, fun key => ?_, accounts.enter_eq, fun key inside => ?_, ?_, ?_, g.release_eq_error_iff⟩
  · by_cases inside : key ∈ g.visiting
    · rw [if_pos inside, perform_leave inside]
    · rw [if_neg inside, perform_mistake inside]
  · rw [accounts.enter_eq key, if_pos inside]
    split_ifs <;> simp
  · intro limited many more plain key
    have later : limits.maxIterations ≤ attempts (history limits (calls ++ more)).1 := by
      rw [history_append]
      exact Nat.le_trans many (attempts_le_performAll notes g plain)
    rw [(accounts_history limits (calls ++ more)).enter_eq key, if_pos ⟨limited, later⟩]
  · intro patient key
    exact (accounts_fresh limits).iterationsExceeded_not_mem patient List.not_mem_nil calls

/-- A guard two deep that allows five attempts. Between the third attempt, which is too deep, and the fourth, which
    meets a key again, a key is left that was not entered. -/
def fiveAttempts : List (Call Nat) := [.enter 1, .enter 2, .enter 3, .leave 3, .enter 1, .leave 2, .enter 4]

/-- After the five attempts all are refused, also that of a key on the path, until the guard is reset. -/
theorem fiveAttempts_accounted :
    (history ⟨2, 5⟩ fiveAttempts).2.visiting = [4, 1] ∧ Inside (history ⟨2, 5⟩ fiveAttempts).1 4 ∧
      ¬ Inside (history ⟨2, 5⟩ fiveAttempts).1 2 ∧ Refused (history ⟨2, 5⟩ fiveAttempts).1 ∧
      (∀ key, ((history ⟨2, 5⟩ (fiveAttempts ++ [.leave 1, .enter 2])).2.enter key).1 = .iterationsExceeded) ∧
      ((history ⟨2, 5⟩ (fiveAttempts ++ [.reset])).2.enter 2).1 = .entered ∧
      (∃ error, (history ⟨2, 5⟩ fiveAttempts).2.release = .error error) ∧
      ¬ ∃ error, (history ⟨2, 5⟩ fiveAttempts).2.release true = .error error := by
  obtain ⟨accounts, -, -, -, refuses, -, drops⟩ := history_accounted ⟨2, 5⟩ fiveAttempts
  have path : (history ⟨2, 5⟩ fiveAttempts).2.visiting = [4, 1] := by decide
  refine ⟨path, ?_, ?_, accounts.exceeded.mp (by decide), ?_, by decide, (drops false).mpr (by simp [path]), ?_⟩
  · exact (accounts.visiting 4).mp (by simp [path])
  · exact fun inside => absurd ((accounts.visiting 2).mpr inside) (by simp [path])
  · exact refuses (by decide) (by decide) [.leave 1, .enter 2] (by decide)
  · simp [drops true]

end Guard

end Narrowing
