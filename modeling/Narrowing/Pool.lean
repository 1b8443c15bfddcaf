/-!
Pools of distinct values. A value is numbered by its place, from 0 in the order
of first entry, and keeps its number while the pool grows. Looking a number up
and entering a value are inverse to each other (`get?_intern`,
`intern_of_get?`), and no entry is ever lost (`get?_intern_of_get?`).
-/

namespace Narrowing

universe u

/-- Distinct values in the order of their first entry. -/
structure Pool (α : Type u) where
  items : Array α
  distinct : items.toList.Nodup

namespace Pool

variable {α : Type u}

/-- The pool without values. -/
def empty : Pool α := ⟨#[], by simp⟩

/-- The pool that holds one value, at number 0. -/
def singleton (a : α) : Pool α := ⟨#[a], by simp⟩

instance : Inhabited (Pool α) := ⟨empty⟩

/-- How many values the pool holds. -/
def size (p : Pool α) : Nat := p.items.size

/-- The value with a number. -/
def get? (p : Pool α) (i : Nat) : Option α := p.items[i]?

theorem get?_eq_some_iff {p : Pool α} {i : Nat} {a : α} :
    p.get? i = some a ↔ ∃ inside : i < p.items.size, p.items[i] = a := by
  simp [get?, Array.getElem?_eq_some_iff]

theorem lt_size_of_get? {p : Pool α} {i : Nat} {a : α} (found : p.get? i = some a) : i < p.size :=
  (get?_eq_some_iff.mp found).choose

/-- A value has one number. -/
theorem get?_inj {p : Pool α} {i j : Nat} {a : α} (hi : p.get? i = some a) (hj : p.get? j = some a) : i = j := by
  have inside : i < p.items.toList.length := by simpa [size] using lt_size_of_get? hi
  refine (List.getElem?_inj inside p.distinct).mp ?_
  simp only [get?] at hi hj
  simp [hi, hj]

variable [DecidableEq α]

/-- The number of a value, if the pool holds it. -/
def find? (p : Pool α) (a : α) : Option Nat := p.items.toList.findIdx? (· = a)

theorem get?_of_find? {p : Pool α} {a : α} {i : Nat} (found : p.find? a = some i) : p.get? i = some a := by
  obtain ⟨inside, same, _⟩ := List.findIdx?_eq_some_iff_getElem.mp found
  exact get?_eq_some_iff.mpr ⟨by simpa using inside, by simpa using same⟩

theorem find?_eq_none_iff {p : Pool α} {a : α} : p.find? a = none ↔ ∀ i, p.get? i ≠ some a := by
  constructor
  · intro absent i found
    obtain ⟨inside, same⟩ := get?_eq_some_iff.mp found
    have := List.findIdx?_eq_none_iff.mp absent a (by simp [← same])
    simp at this
  · intro absent
    cases found : p.find? a with
    | none => rfl
    | some i => exact absurd (get?_of_find? found) (absent i)

/-- A number belongs to a value exactly when the value is found at it. -/
theorem find?_eq_some_iff {p : Pool α} {a : α} {i : Nat} : p.find? a = some i ↔ p.get? i = some a := by
  refine ⟨get?_of_find?, fun held => ?_⟩
  cases found : p.find? a with
  | none => exact absurd held (find?_eq_none_iff.mp found i)
  | some j => rw [get?_inj (get?_of_find? found) held]

private theorem nodup_push {p : Pool α} {a : α} (absent : p.find? a = none) : (p.items.push a).toList.Nodup := by
  simp only [Array.toList_push, List.nodup_append, p.distinct, List.nodup_cons, List.not_mem_nil,
    not_false_eq_true, List.nodup_nil, and_self, true_and]
  intro b held c same
  rw [List.mem_singleton] at same
  subst same
  rintro rfl
  obtain ⟨i, inside, at_i⟩ := List.getElem_of_mem held
  exact find?_eq_none_iff.mp absent i (get?_eq_some_iff.mpr ⟨by simpa using inside, by simpa using at_i⟩)

/-- The number of a value, which is entered if it is new. -/
def intern (p : Pool α) (a : α) : Nat × Pool α :=
  match found : p.find? a with
  | some i => (i, p)
  | none => (p.size, ⟨p.items.push a, nodup_push found⟩)

theorem intern_of_get? {p : Pool α} {a : α} {i : Nat} (held : p.get? i = some a) : p.intern a = (i, p) := by
  unfold intern
  split
  case h_1 j found => rw [get?_inj (get?_of_find? found) held]
  case h_2 absent => exact absurd held (find?_eq_none_iff.mp absent i)

theorem get?_intern (p : Pool α) (a : α) : (p.intern a).2.get? (p.intern a).1 = some a := by
  unfold intern
  split
  case h_1 i found => exact get?_of_find? found
  case h_2 => simp [get?, size]

theorem get?_intern_of_get? {p : Pool α} {i : Nat} {b : α} (a : α) (held : p.get? i = some b) :
    (p.intern a).2.get? i = some b := by
  unfold intern
  split
  case h_1 => exact held
  case h_2 =>
    have inside := lt_size_of_get? held
    simp only [get?, size] at held inside ⊢
    rw [Array.getElem?_push_lt inside, ← held, Array.getElem?_eq_getElem inside]

/-- Entering a value brings no other value in. -/
theorem get?_intern_eq_some {p : Pool α} {i : Nat} {a b : α} (held : (p.intern a).2.get? i = some b) :
    p.get? i = some b ∨ b = a := by
  revert held
  unfold intern
  split
  case h_1 => exact .inl
  case h_2 =>
    intro held
    simp only [get?, Array.getElem?_push] at held ⊢
    split at held
    · exact .inr (Option.some.inj held).symm
    · exact .inl held

end Pool

end Narrowing
