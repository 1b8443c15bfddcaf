import Narrowing.Proofs.TraceAccount

/-!
Balanced comparisons. Between entering a pair and leaving it the rule compares other
pairs, and ends early in many ways; a pair that is turned away is not left at all. Yet a
comparison that has an answer leaves exactly what it entered, so the guard is on the
path it was on before (`balanced_compareFrom`), the last key entered can be left
(`exists_leave`), and after a query nothing is being visited (`release_compare`).
-/

namespace Narrowing

universe u

namespace Guard

variable {κ : Type u}

/-- A guard before and after a computation that left every key it entered. -/
structure Balanced (g g' : Guard κ) : Prop extends g.SamePath g' where
  /-- Attempts are added, and none is taken back. -/
  iterations : g.iterations ≤ g'.iterations
  /-- A refusal is not forgotten. -/
  exceeded : g.exceeded = true → g'.exceeded = true

theorem Balanced.release {limits : Limits} {g : Guard κ} (balanced : (fresh limits).Balanced g) :
    g.release = .ok () := by
  have nothing : g.visiting = [] := balanced.visiting
  simp [Guard.release, nothing]

variable [DecidableEq κ]

/-- A key that was entered can be left as long as the path is the same. -/
theorem leave_of_entered {g g' : Guard κ} {key : κ} (entered : (g.enter key).1 = .entered)
    (same : (g.enter key).2.SamePath g') : g'.leave key = .ok (g'.retract key) := by
  obtain ⟨-, -, -, visiting, -⟩ := enter_entered entered
  simp [leave, isVisiting, same.visiting, visiting]

end Guard

namespace Environment

variable {env : Environment}

/-- An inquiry that has an answer leaves all that its comparisons entered. -/
theorem balanced_run {g : Guard TypePair} (counted : g.iterations ≤ Limits.ceiling) {i : Inquiry} {s : Selector}
    (answered : (i.run (env.compareWithin g.room) g).answer = .ok s) :
    g.Balanced (i.run (env.compareWithin g.room) g).guard := by
  have steady : KeepsPath (env.compareWithin g.room) g := keepsPath_compareWithin (Nat.le_refl _)
  refine ⟨Inquiry.samePath_run steady (.refl g) answered, ?_, fun refused => ?_⟩
  · rw [iterations_run (iterations_compareWithin g.room []) counted]
    omega
  · rw [Inquiry.exceeded_run (exceeded_compareWithin g.room []), refused, Bool.true_or]

section
variable {g : Guard TypePair} {l r : TypeId} {s : Selector} (answered : (env.compareFrom g l r).answer = .ok s)
include answered

theorem balanced_compareFrom (counted : g.iterations ≤ Limits.ceiling) : g.Balanced (env.compareFrom g l r).guard := by
  unfold compareFrom at answered ⊢
  -- A comparison is run by the inquiry that asks for it and for nothing else.
  have asked : ((Inquiry.defer l r).run (env.compareWithin g.room) g).answer = .ok s := by
    simp [Inquiry.defer, Inquiry.run, answered]
  simpa [Inquiry.defer, Inquiry.run, answered] using balanced_run counted asked

/-- A pair that is entered is left at the end, and until then the rule has left all that it entered itself. -/
theorem exists_leave (entered : (g.enter (.of l r)).1 = .entered) :
    ∃ inner, (g.enter (.of l r)).2.Balanced inner ∧ inner.leave (.of l r) = .ok (env.compareFrom g l r).guard := by
  have run : env.compareFrom g l r =
      ((env.rule l r).run (env.compareWithin (g.enter (.of l r)).2.room) (g.enter (.of l r)).2).enclose l r := by
    rw [compareFrom, ← Guard.room_enter entered, compareWithin_entered entered]
  rw [run, answer_enclose] at answered
  have counted : (g.enter (.of l r)).2.iterations ≤ Limits.ceiling := by
    rw [Guard.iterations_enter]
    exact Nat.min_le_right ..
  have balanced := balanced_run counted answered
  refine ⟨_, balanced, ?_⟩
  rw [Guard.leave_of_entered entered balanced.toSamePath, run]
  simp only [Run.enclose, answered]

end

theorem release_compare {limits : Limits} {l r : TypeId} {s : Selector}
    (answered : env.limitedSelector limits l r = .ok s) : (env.compare limits l r).guard.release = .ok () :=
  (balanced_compareFrom (g := .fresh limits) answered (Nat.zero_le _)).release

/-- Whatever guard it starts from, if only its attempts can be counted, a comparison that has an answer is balanced: the
    path and the depth are as they were, attempts were only added, and no refusal was forgotten. The pair itself, if it
    was entered, was still being visited when it was left. So the guard of a query, checked or not, under any limits, can
    be given up at the end. -/
theorem comparison_balanced (env : Environment) :
    (∀ (g : Guard TypePair) (l r : TypeId) (s : Selector), g.iterations ≤ Limits.ceiling →
      (env.compareFrom g l r).answer = .ok s →
        g.Balanced (env.compareFrom g l r).guard ∧
        ((g.enter (.of l r)).1 = .entered → ∃ inner, (g.enter (.of l r)).2.Balanced inner ∧
          inner.leave (.of l r) = .ok (env.compareFrom g l r).guard)) ∧
    ∀ (limits : Limits) (l r : TypeId),
      (∀ s, env.limitedSelector limits l r = .ok s → (env.compare limits l r).guard.release = .ok ()) ∧
      ∀ c, env.checkedSelector limits l r = .ok c → (env.compare limits l r).guard.release = .ok () := by
  refine ⟨fun g l r s counted answered => ?_, fun limits l r => ⟨fun s answered => ?_, fun c checked => ?_⟩⟩
  · exact ⟨balanced_compareFrom answered counted, exists_leave answered⟩
  · exact release_compare answered
  · cases found : env.limitedSelector limits l r with
    | ok s => exact release_compare found
    | error fault =>
      unfold limitedSelector at found
      simp [checkedSelector, Run.checked, found, Except.map] at checked

/-- A guard that is comparing int with null, and may try six more pairs. -/
def sixMore : Guard TypePair := ((Guard.fresh ⟨6, 7⟩).enter (.of .int .null)).2

/-- Copies of a list are compared while another pair is in progress, until the attempts run out. -/
theorem copiedLists_balanced :
    (copiedLists.compareFrom sixMore ⟨100⟩ ⟨103⟩).answer = .ok (.record [.top, .union [.top, .bottom]]) ∧
      sixMore.Balanced (copiedLists.compareFrom sixMore ⟨100⟩ ⟨103⟩).guard ∧
      sixMore.visiting = [.of .int .null] ∧ sixMore.exceeded = false ∧
      (copiedLists.compareFrom sixMore ⟨100⟩ ⟨103⟩).guard.exceeded = true ∧
      (∃ inner : Guard TypePair,
        inner.leave (.of ⟨100⟩ ⟨103⟩) = .ok (copiedLists.compareFrom sixMore ⟨100⟩ ⟨103⟩).guard) ∧
      (copiedLists.compare ⟨5, 6⟩ ⟨100⟩ ⟨103⟩).guard.release = .ok () := by
  have answered : (copiedLists.compareFrom sixMore ⟨100⟩ ⟨103⟩).answer =
      .ok (.record [.top, .union [.top, .bottom]]) := by decide +kernel
  have checked : copiedLists.checkedSelector ⟨5, 6⟩ ⟨100⟩ ⟨103⟩ = .ok (.exceeded ⟨5, 6⟩) := by decide +kernel
  obtain ⟨compared, queried⟩ := comparison_balanced copiedLists
  obtain ⟨balanced, left⟩ := compared sixMore ⟨100⟩ ⟨103⟩ _ (by decide) answered
  obtain ⟨inner, -, leaves⟩ := left (by decide +kernel)
  exact ⟨answered, balanced, by decide, by decide, by decide +kernel, ⟨inner, leaves⟩,
    (queried ⟨5, 6⟩ ⟨100⟩ ⟨103⟩).2 _ checked⟩

end Environment

end Narrowing
