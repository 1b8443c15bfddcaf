import Narrowing.Environment
import Narrowing.Type.Pair
import Narrowing.TypeExpr
import Mathlib.Data.Finset.Sym
import Mathlib.Data.Set.Card
import Mathlib.Logic.Relation

/-!
The graph of types behind a pair. A type refers to its parts, a declaration to
its body, and what is reached from two types is all that comparing them can look
at. It is finite even where declarations run in circles (`finite_reachable`), so
only so many unordered pairs can be on a path at once (`TypePair.DistinctIn.length_le`).
-/

namespace Narrowing

namespace Environment

/-- The types that a node refers to, a declaration opened; there are none behind a part that is missing. -/
def partsOf (env : Environment) : TypeNode → List TypeId
  | .primitive _ | .var _ | .unresolved _ => []
  | .array element | .reference element _ | .negation element => [element]
  | .record shape => ((env.types.record? shape).map fun s => s.fields.map Field.type).getD []
  | .callable shape => ((env.types.callable? shape).map fun s => s.params ++ s.returns).getD []
  | .union members | .intersection members => (env.types.list? members).getD []
  | .nominal d => (env.declarations.body? d).toList

/-- Whether a node can be compared: it is no unresolved mention, and the part it refers to is there. -/
def resolves (env : Environment) : TypeNode → Bool
  | .unresolved _ => false
  | .record shape => (env.types.record? shape).isSome
  | .callable shape => (env.types.callable? shape).isSome
  | .union members | .intersection members => (env.types.list? members).isSome
  | .nominal d => (env.declarations.body? d).isSome
  | _ => true

/-- The types that a type refers to. -/
def parts (env : Environment) (t : TypeId) : List TypeId := ((env.types.node? t).map env.partsOf).getD []

/-- Whether a type is known and can be compared. -/
def isResolved (env : Environment) (t : TypeId) : Bool := (env.types.node? t).any env.resolves

/-- The types that are reached from a type by going to a part again and again. -/
def Reaches (env : Environment) : TypeId → TypeId → Prop := Relation.ReflTransGen fun t u => u ∈ env.parts t

/-- The types that are reached from either of two. -/
def reachable (env : Environment) (lhs rhs : TypeId) : Set TypeId := {t | env.Reaches lhs t ∨ env.Reaches rhs t}

/-- Every type, list, shape and body that is reached from a pair is there, and none is an unresolved mention. -/
def WellFormed (env : Environment) (lhs rhs : TypeId) : Prop :=
  ∀ t ∈ env.reachable lhs rhs, env.isResolved t

/-- A set of resolved types that contains the parts of its members. -/
structure Closed (env : Environment) (types : Set TypeId) : Prop where
  resolved : ∀ t ∈ types, env.isResolved t
  parts : ∀ t ∈ types, ∀ u ∈ env.parts t, u ∈ types

/-- A node whose parts are there and belong to a set of types. -/
structure Rests (env : Environment) (types : Set TypeId) (n : TypeNode) : Prop where
  resolved : env.resolves n
  parts : ∀ u ∈ env.partsOf n, u ∈ types

variable {env : Environment} {types : Set TypeId}

theorem parts_of_node {t : TypeId} {n : TypeNode} (known : env.types.node? t = some n) :
    env.parts t = env.partsOf n := by simp [parts, known]

theorem isResolved_iff {t : TypeId} :
    env.isResolved t ↔ ∃ n, env.types.node? t = some n ∧ env.resolves n := by
  cases found : env.types.node? t <;> simp [isResolved, found]

theorem Closed.rests (closed : env.Closed types) {t : TypeId} (member : t ∈ types) :
    ∃ n, env.types.node? t = some n ∧ env.Rests types n := by
  obtain ⟨n, known, resolved⟩ := isResolved_iff.mp (closed.resolved t member)
  exact ⟨n, known, resolved, fun u part => closed.parts t member u (by rwa [parts_of_node known])⟩

theorem Rests.union {l : ListId} (rests : env.Rests types (.union l)) :
    ∃ members, env.types.list? l = some members ∧ ∀ t ∈ members, t ∈ types := by
  obtain ⟨members, found⟩ := Option.isSome_iff_exists.mp rests.resolved
  exact ⟨members, found, by simpa [partsOf, found] using rests.parts⟩

theorem Rests.intersection {l : ListId} (rests : env.Rests types (.intersection l)) :
    ∃ members, env.types.list? l = some members ∧ ∀ t ∈ members, t ∈ types := by
  obtain ⟨members, found⟩ := Option.isSome_iff_exists.mp rests.resolved
  exact ⟨members, found, by simpa [partsOf, found] using rests.parts⟩

theorem Rests.nominal {d : DeclId} (rests : env.Rests types (.nominal d)) :
    ∃ body, env.declarations.body? d = some body ∧ body ∈ types := by
  obtain ⟨body, found⟩ := Option.isSome_iff_exists.mp rests.resolved
  exact ⟨body, found, by simpa [partsOf, found] using rests.parts⟩

theorem Rests.record {r : RecordId} (rests : env.Rests types (.record r)) :
    ∃ shape, env.types.record? r = some shape ∧ ∀ f ∈ shape.fields, f.type ∈ types := by
  obtain ⟨shape, found⟩ := Option.isSome_iff_exists.mp rests.resolved
  exact ⟨shape, found, by simpa [partsOf, found] using rests.parts⟩

theorem Rests.callable {c : CallableId} (rests : env.Rests types (.callable c)) :
    ∃ shape, env.types.callable? c = some shape ∧ (∀ t ∈ shape.params, t ∈ types) ∧ ∀ t ∈ shape.returns, t ∈ types := by
  obtain ⟨shape, found⟩ := Option.isSome_iff_exists.mp rests.resolved
  have parts : ∀ t ∈ shape.params ++ shape.returns, t ∈ types := by simpa [partsOf, found] using rests.parts
  exact ⟨shape, found, fun t member => parts t (List.mem_append_left _ member),
    fun t member => parts t (List.mem_append_right _ member)⟩

theorem left_mem_reachable (lhs rhs : TypeId) : lhs ∈ env.reachable lhs rhs := .inl .refl

theorem right_mem_reachable (lhs rhs : TypeId) : rhs ∈ env.reachable lhs rhs := .inr .refl

theorem parts_mem_reachable {lhs rhs t u : TypeId} (member : t ∈ env.reachable lhs rhs) (part : u ∈ env.parts t) :
    u ∈ env.reachable lhs rhs :=
  member.imp (·.tail part) (·.tail part)

theorem WellFormed.closed {lhs rhs : TypeId} (wellFormed : env.WellFormed lhs rhs) :
    env.Closed (env.reachable lhs rhs) :=
  ⟨wellFormed, fun _ member _ part => parts_mem_reachable member part⟩

/-- A set that contains two types and the parts of its members contains all that is reached from the two. -/
theorem reachable_subset {lhs rhs : TypeId} (left : lhs ∈ types) (right : rhs ∈ types)
    (parts : ∀ t ∈ types, ∀ u ∈ env.parts t, u ∈ types) : env.reachable lhs rhs ⊆ types := by
  have along : ∀ {s t}, s ∈ types → env.Reaches s t → t ∈ types := by
    intro s t start path
    induction path with
    | refl => exact start
    | tail _ part ih => exact parts _ ih _ part
  rintro t (path | path)
  · exact along left path
  · exact along right path

theorem Closed.wellFormed (closed : env.Closed types) {lhs rhs : TypeId} (left : lhs ∈ types)
    (right : rhs ∈ types) : env.WellFormed lhs rhs :=
  fun t member => closed.resolved t (reachable_subset left right closed.parts member)

/-- What is reached from two types is in every list that contains them and the parts of its members. -/
theorem mem_of_reachable {lhs rhs : TypeId} (types : List TypeId) (left : lhs ∈ types) (right : rhs ∈ types)
    (parts : ∀ t ∈ types, ∀ u ∈ env.parts t, u ∈ types) : ∀ t ∈ env.reachable lhs rhs, t ∈ types := by
  have inside : env.reachable lhs rhs ⊆ {t | t ∈ types} := reachable_subset left right parts
  exact fun t member => inside member

/-- A closed graph from a list of its types, which can be checked type by type. -/
theorem Closed.of_list (types : List TypeId)
    (whole : ∀ t ∈ types, env.isResolved t ∧ ∀ u ∈ env.parts t, u ∈ types) : env.Closed {t | t ∈ types} :=
  ⟨fun t listed => (whole t listed).1, fun t listed => (whole t listed).2⟩

theorem WellFormed.of_list {lhs rhs : TypeId} (types : List TypeId) (left : lhs ∈ types) (right : rhs ∈ types)
    (whole : ∀ t ∈ types, env.isResolved t ∧ ∀ u ∈ env.parts t, u ∈ types) : env.WellFormed lhs rhs :=
  (Closed.of_list types whole).wellFormed left right

theorem ncard_reachable_le {lhs rhs : TypeId} (types : List TypeId) (left : lhs ∈ types) (right : rhs ∈ types)
    (parts : ∀ t ∈ types, ∀ u ∈ env.parts t, u ∈ types) : (env.reachable lhs rhs).ncard ≤ types.length := by
  classical
  have covered : env.reachable lhs rhs ⊆ (types.toFinset : Set TypeId) := fun t member =>
    List.mem_toFinset.mpr (mem_of_reachable types left right parts t member)
  calc (env.reachable lhs rhs).ncard ≤ (types.toFinset : Set TypeId).ncard :=
        Set.ncard_le_ncard covered types.toFinset.finite_toSet
    _ = types.toFinset.card := Set.ncard_coe_finset _
    _ ≤ types.length := types.toFinset_card_le

theorem Closed.finite (closed : env.Closed types) : types.Finite := by
  refine ((Set.finite_lt_nat env.types.size).image TypeId.mk).subset fun t member => ?_
  obtain ⟨n, known, -⟩ := closed.rests member
  exact ⟨t.val, TypeStore.val_lt_size known, rfl⟩

theorem WellFormed.finite_reachable {lhs rhs : TypeId} (wellFormed : env.WellFormed lhs rhs) :
    (env.reachable lhs rhs).Finite :=
  wellFormed.closed.finite

/-! ### Graphs from the bodies of declarations -/

/-- One more declaration, with a body that may mention it. -/
def declaring (env : Environment) (body : TypeExpr) : Environment :=
  match body.build.run env.types with
  | (.ok t, types) => ⟨types, (env.declarations.register { name := ⟨[]⟩, body := some t }).2⟩
  | (.error _, types) => { env with types }

/-- Declarations with the given bodies, numbered from 1. -/
def ofBodies (bodies : List TypeExpr) : Environment := bodies.foldl declaring empty

/-- Two declared records that are linked to each other. Only the second allows its value to be null. -/
def crossedRecords : Environment :=
  .ofBodies [.record false [("val", .type .int), ("next", .node (.nominal ⟨2⟩))],
    .record false [("val", .union [.type .int, .type .null]), ("next", .node (.nominal ⟨1⟩))]]

/-- All types of `crossedRecords`: the declarations, their bodies, and the types of their values. -/
def crossedTypes : List TypeId := [⟨103⟩, ⟨100⟩, ⟨101⟩, ⟨104⟩, ⟨102⟩, .int, .null]

theorem crossedTypes_closed :
    ∀ t ∈ crossedTypes, crossedRecords.isResolved t ∧ ∀ u ∈ crossedRecords.parts t, u ∈ crossedTypes := by
  decide +kernel

theorem crossedRecords_wellFormed : crossedRecords.WellFormed ⟨103⟩ ⟨100⟩ :=
  .of_list crossedTypes (by decide) (by decide) crossedTypes_closed

/-- Two declarations of the same list. -/
def copiedLists : Environment :=
  .ofBodies [.record false [("val", .type .int), ("next", .union [.node (.nominal ⟨1⟩), .type .null])],
    .record false [("val", .type .int), ("next", .union [.node (.nominal ⟨2⟩), .type .null])]]

theorem copiedLists_wellFormed : copiedLists.WellFormed ⟨100⟩ ⟨103⟩ :=
  .of_list [⟨100⟩, ⟨101⟩, ⟨102⟩, ⟨103⟩, ⟨104⟩, ⟨105⟩, .int, .null] (by decide) (by decide) (by decide +kernel)

end Environment

namespace TypePair

/-- Both types of a pair belong to a set. -/
def Inside (types : Set TypeId) (p : TypePair) : Prop := p.low ∈ types ∧ p.high ∈ types

theorem inside_of {types : Set TypeId} {a b : TypeId} (left : a ∈ types) (right : b ∈ types) :
    (of a b).Inside types := by
  unfold of
  split
  · exact ⟨left, right⟩
  · exact ⟨right, left⟩

private def toSym2 (p : TypePair) : Sym2 TypeId := s(p.low, p.high)

private theorem toSym2_injective : Function.Injective toSym2 := by
  rintro ⟨⟨a⟩, ⟨b⟩, ordered⟩ ⟨⟨c⟩, ⟨d⟩, ordered'⟩ same
  simp only [toSym2, Sym2.eq_iff, TypeId.mk.injEq] at same
  simp only [TypePair.mk.injEq, TypeId.mk.injEq]
  simp only at ordered ordered'
  omega

/-- Different pairs whose types belong to a set. -/
structure DistinctIn (types : Set TypeId) (pairs : List TypePair) : Prop where
  nodup : pairs.Nodup
  inside : ∀ p ∈ pairs, p.Inside types

theorem DistinctIn.nil {types : Set TypeId} : DistinctIn types [] := ⟨List.nodup_nil, by simp⟩

theorem DistinctIn.cons {types : Set TypeId} {pairs : List TypePair} (distinct : DistinctIn types pairs) {a b : TypeId}
    (left : a ∈ types) (right : b ∈ types) (new : of a b ∉ pairs) : DistinctIn types (of a b :: pairs) :=
  ⟨List.nodup_cons.mpr ⟨new, distinct.nodup⟩, List.forall_mem_cons.mpr ⟨inside_of left right, distinct.inside⟩⟩

/-- Among `n` types there are `n * (n + 1) / 2` unordered pairs. -/
theorem DistinctIn.length_le {types : Set TypeId} (finite : types.Finite) {pairs : List TypePair}
    (distinct : DistinctIn types pairs) : pairs.length ≤ types.ncard * (types.ncard + 1) / 2 := by
  classical
  have covered : (pairs.map toSym2).toFinset ⊆ finite.toFinset.sym2 := by
    intro z member
    obtain ⟨p, listed, rfl⟩ := List.mem_map.mp (List.mem_toFinset.mp member)
    simpa [toSym2, Finset.mk_mem_sym2_iff, Inside] using distinct.inside p listed
  calc pairs.length = (pairs.map toSym2).toFinset.card := by
        rw [List.toFinset_card_of_nodup (distinct.nodup.map toSym2_injective), List.length_map]
    _ ≤ finite.toFinset.sym2.card := Finset.card_le_card covered
    _ = types.ncard * (types.ncard + 1) / 2 := by
        rw [Finset.card_sym2, Nat.choose_two_right, Set.ncard_eq_toFinset_card _ finite,
          Nat.add_sub_cancel, Nat.mul_comm]

end TypePair

end Narrowing
