import Narrowing.Type.Normal
import Mathlib.Logic.Relation

/-!
Types nested in unions and in intersections. The two join types in the same way: a joint
holds the types of its list, and what is nested in it over any number of joints of its
kind and is no such joint itself is a leaf of it (`Leaf`). Nothing is required of a joint;
its list may be missing, and it may be nested in itself.
-/

namespace Narrowing

/-- The two ways of joining types. -/
inductive Joint where
  | union
  | intersection
deriving DecidableEq, Repr

namespace Joint

/-- The list of a node that is joined in this way. -/
def part? : Joint → TypeNode → Option ListId
  | .union => TypeNode.alternatives?
  | .intersection => TypeNode.operands?

def node : Joint → ListId → TypeNode
  | .union => .union
  | .intersection => .intersection

/-- The members of a type that is joined in this way, as they are listed. -/
def members (j : Joint) (s : TypeStore) (t : TypeId) : List TypeId :=
  (((s.node? t).bind j.part?).bind s.list?).getD []

/-- One type is a member of another. -/
def Holds (j : Joint) (s : TypeStore) (t u : TypeId) : Prop := u ∈ j.members s t

/-- The types of a joint, over any number of joints within it. -/
def Nests (j : Joint) (s : TypeStore) : TypeId → TypeId → Prop := Relation.ReflTransGen (j.Holds s)

/-- A type nested in another that is not joined in this way itself. -/
def Leaf (j : Joint) (s : TypeStore) (t x : TypeId) : Prop := j.Nests s t x ∧ (s.node? x).bind j.part? = none

variable {j : Joint} {s : TypeStore}

theorem part?_eq_some_iff {n : TypeNode} {l : ListId} : j.part? n = some l ↔ n = j.node l := by
  cases j <;> cases n <;> simp [part?, node, TypeNode.alternatives?, TypeNode.operands?]

theorem bind_part?_eq_some_iff {t : TypeId} {l : ListId} :
    (s.node? t).bind j.part? = some l ↔ s.node? t = some (j.node l) := by
  simp [Option.bind_eq_some_iff, part?_eq_some_iff]

theorem bind_part?_eq_none_iff {t : TypeId} :
    (s.node? t).bind j.part? = none ↔ ∀ l, s.node? t ≠ some (j.node l) := by
  simp only [Option.eq_none_iff_forall_ne_some, ne_eq, bind_part?_eq_some_iff]

theorem holds_of_list {t u : TypeId} {l : ListId} {listed : List TypeId} (opened : (s.node? t).bind j.part? = some l)
    (found : s.list? l = some listed) (member : u ∈ listed) : j.Holds s t u := by
  simpa [Holds, members, opened, found] using member

theorem holds_iff {t u : TypeId} :
    j.Holds s t u ↔ ∃ l listed, s.node? t = some (j.node l) ∧ s.list? l = some listed ∧ u ∈ listed := by
  constructor
  · intro holds
    cases opened : (s.node? t).bind j.part? with
    | none => simp [Holds, members, opened] at holds
    | some l =>
      cases found : s.list? l with
      | none => simp [Holds, members, opened, found] at holds
      | some listed =>
        exact ⟨l, listed, bind_part?_eq_some_iff.mp opened, found, by simpa [Holds, members, opened, found] using holds⟩
  · rintro ⟨l, listed, known, found, member⟩
    exact holds_of_list (bind_part?_eq_some_iff.mpr known) found member

/-! ### Leaves -/

theorem leaf_of_plain {t x : TypeId} (plain : (s.node? t).bind j.part? = none) : j.Leaf s t x ↔ x = t := by
  constructor
  · rintro ⟨nested, -⟩
    rcases Relation.ReflTransGen.cases_head nested with rfl | ⟨u, holds, -⟩
    · rfl
    · obtain ⟨l, -, known, -⟩ := holds_iff.mp holds
      exact absurd known (bind_part?_eq_none_iff.mp plain l)
  · rintro rfl
    exact ⟨.refl, plain⟩

theorem leaf_of_list {t x : TypeId} {l : ListId} {listed : List TypeId} (opened : (s.node? t).bind j.part? = some l)
    (found : s.list? l = some listed) : j.Leaf s t x ↔ ∃ m ∈ listed, j.Leaf s m x := by
  constructor
  · rintro ⟨nested, plain⟩
    rcases Relation.ReflTransGen.cases_head nested with rfl | ⟨m, holds, rest⟩
    · simp [opened] at plain
    · exact ⟨m, by simpa [Holds, members, opened, found] using holds, rest, plain⟩
  · rintro ⟨m, listed, nested, plain⟩
    exact ⟨.head (holds_of_list opened found listed) nested, plain⟩

theorem not_leaf_of_absent {t x : TypeId} {l : ListId} (opened : (s.node? t).bind j.part? = some l)
    (missing : s.list? l = none) : ¬ j.Leaf s t x := by
  rintro ⟨nested, plain⟩
  rcases Relation.ReflTransGen.cases_head nested with rfl | ⟨m, holds, -⟩
  · simp [opened] at plain
  · simp [Holds, members, opened, missing] at holds

end Joint

end Narrowing
