import Narrowing.Type.Basic

/-!
Unordered pairs of types, kept with the smaller number first.
-/

namespace Narrowing

/-- Two types without an order between them. -/
structure TypePair where
  low : TypeId
  high : TypeId
  ordered : low.val ≤ high.val
deriving DecidableEq, Repr

namespace TypePair

/-- The pair of two types. -/
def of (a b : TypeId) : TypePair :=
  if h : a.val ≤ b.val then ⟨a, b, h⟩ else ⟨b, a, Nat.le_of_not_le h⟩

theorem of_comm (a b : TypeId) : of a b = of b a := by
  obtain ⟨a⟩ := a
  obtain ⟨b⟩ := b
  simp only [of]
  split <;> split <;> simp_all <;> omega

theorem of_eq_of_iff {a b c d : TypeId} : of a b = of c d ↔ a = c ∧ b = d ∨ a = d ∧ b = c := by
  obtain ⟨a⟩ := a
  obtain ⟨b⟩ := b
  obtain ⟨c⟩ := c
  obtain ⟨d⟩ := d
  simp only [of]
  split <;> split <;> simp_all <;> omega

end TypePair

end Narrowing
