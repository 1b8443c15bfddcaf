import Narrowing.Proofs.Precision

/-!
More assumptions never hurt. A pair that is in progress counts as top, which cuts its
comparison off and may change what is asked afterwards: fields are compared that were
not reached before, and alternatives are left that were tried. The rule is monotone, so
nothing of this makes an answer smaller.
-/

namespace Narrowing

namespace Environment

variable {env : Environment}

/-- Comparing a pair while more pairs are in progress finds at least as large a selector, as long as the comparison
    with more of them has no less depth left, or runs out of none. The one with fewer may be limited in any way. -/
theorem compareFrom_mono {l r : TypeId} (wellFormed : env.WellFormed l r) {g g' : Guard TypePair}
    (unbounded : g'.limits = .unbounded) (more : g.visiting ⊆ g'.visiting)
    (deep : g.room ≤ g'.room ∨ (env.compareFrom g' l r).guard.exceeded = false) :
    ∃ s t, (env.compareFrom g l r).answer = .ok s ∧ (env.compareFrom g' l r).answer = .ok t ∧ s ≤ t := by
  have answered (h : Guard TypePair) : ∃ s, (env.compareFrom h l r).answer = .ok s :=
    wellFormed.closed.exists_answer h.room h (left_mem_reachable l r) (right_mem_reachable l r)
  obtain ⟨s, fewer⟩ := answered g
  obtain ⟨t, larger⟩ := answered g'
  -- With no limit met, the comparison with more pairs may be given as much depth as the other one has.
  obtain ⟨room, wider, outcome⟩ : ∃ room, g.room ≤ room ∧ env.outcome room g'.visiting l r = .ok t := by
    rcases deep with deeper | kept
    · have patient : Limits.ceiling ≤ g'.limits.maxIterations := by rw [unbounded]; exact Nat.le_refl _
      exact ⟨g'.room, deeper, by rw [← larger]; exact (answer_compareWithin g'.room g' patient rfl l r).symm⟩
    · refine ⟨max g.room g'.room, Nat.le_max_left .., ?_⟩
      rw [← answer_eq_outcome_of_deeper (Nat.le_max_right ..) kept, larger]
  exact ⟨s, t, fewer, larger, answer_le_outcome (Nat.le_refl _) wider more fewer outcome⟩

/-- A record with a flag or a byte as its key, and one with a byte; only the first allows its value to be null. -/
def keyedRecords : Environment :=
  .ofBodies [.union [.record false [("key", .type .bool), ("val", .union [.type .int, .type .null])],
      .record false [("key", .type .byte), ("val", .union [.type .int, .type .null])]],
    .record false [("key", .type .byte), ("val", .type .int)]]

theorem keyedRecords_wellFormed : keyedRecords.WellFormed ⟨103⟩ ⟨104⟩ :=
  .of_list [⟨103⟩, ⟨104⟩, ⟨100⟩, ⟨101⟩, ⟨102⟩, .bool, .byte, .int, .null] (by decide) (by decide) (by decide +kernel)

/-- A guard that is comparing flags with bytes. -/
def flagsAssumed : Guard TypePair := ((Guard.fresh .unbounded).enter (.of .bool .byte)).2

/-- Flags are no bytes, so the values of the first alternative are not compared. While flags are being compared with
    bytes they are, and the first alternative may pass as the second one does. -/
theorem keyedRecords_mono :
    (keyedRecords.compareFrom (.fresh .unbounded) ⟨103⟩ ⟨104⟩).answer =
        .ok (.union [.bottom, .record [.top, .union [.top, .bottom]]]) ∧
      (keyedRecords.compareFrom flagsAssumed ⟨103⟩ ⟨104⟩).answer =
        .ok (.union [.record [.top, .union [.top, .bottom]], .record [.top, .union [.top, .bottom]]]) ∧
      Selector.union [.bottom, .record [.top, .union [.top, .bottom]]] ≤
        .union [.record [.top, .union [.top, .bottom]], .record [.top, .union [.top, .bottom]]] := by
  have fewer : (keyedRecords.compareFrom (.fresh .unbounded) ⟨103⟩ ⟨104⟩).answer =
      .ok (.union [.bottom, .record [.top, .union [.top, .bottom]]]) := by decide +kernel
  have larger : (keyedRecords.compareFrom flagsAssumed ⟨103⟩ ⟨104⟩).answer =
      .ok (.union [.record [.top, .union [.top, .bottom]], .record [.top, .union [.top, .bottom]]]) := by decide +kernel
  obtain ⟨s, t, found, found', le⟩ := compareFrom_mono (g := .fresh .unbounded) (l := ⟨103⟩) (r := ⟨104⟩)
    keyedRecords_wellFormed (show flagsAssumed.limits = .unbounded by decide) (List.nil_subset _)
    (.inr (by decide +kernel))
  obtain rfl := Except.ok.inj (fewer.symm.trans found)
  obtain rfl := Except.ok.inj (larger.symm.trans found')
  exact ⟨fewer, larger, le⟩

end Environment

end Narrowing
