import Narrowing.Proofs.Growth
import Narrowing.Proofs.Justification
import Narrowing.Proofs.Nesting
import Narrowing.Proofs.Unfolding

/-!
Laws of justified pairs of tidy types. They are reflexive, void is below every
type, and the alternatives and bodies behind a type are below what the type is
below (`Justified.of_opens`). A target may be replaced by a declaration that leads
to it (`Justified.of_unfolds`), and mostly the other way round as well
(`Unfolds.justified_iff`). Growth of the store changes no justified pair of types
that were there before (`Extends.justified_iff`).
-/

namespace Narrowing

/-- A node that is neither a declaration nor a union, and no unresolved mention. -/
def TypeNode.IsShape (n : TypeNode) : Prop := (∀ d, n ≠ .nominal d) ∧ (∀ l, n ≠ .union l) ∧ ∀ name, n ≠ .unresolved name

namespace Environment

variable {env : Environment}

/-! ### The rule for each kind of node -/

section
variable {S : TypeId → TypeId → Prop} {l r : TypeId}

theorem follows_iff {n m : TypeNode} (left : env.types.node? l = some n) (right : env.types.node? r = some m) :
    env.Follows S l r ↔ env.NodesFollow S l r n m := by simp [Follows, left, right]

theorem follows_nominals {d e : DeclId} (left : env.types.node? l = some (.nominal d))
    (right : env.types.node? r = some (.nominal e)) :
    env.Follows S l r ↔ d = e ∨
      ∃ a, env.declarations.body? d = some a ∧ ∃ b, env.declarations.body? e = some b ∧ S a b := by
  rw [follows_iff left right, NodesFollow]

theorem follows_nominal_right {n : TypeNode} {e : DeclId} (left : env.types.node? l = some n)
    (concrete : ∀ d, n ≠ .nominal d) (resolved : ∀ name, n ≠ .unresolved name)
    (right : env.types.node? r = some (.nominal e)) :
    env.Follows S l r ↔ ∃ b, env.declarations.body? e = some b ∧ S l b := by
  rw [follows_iff left right]
  cases n <;> simp_all [NodesFollow]

theorem follows_union_left {u : ListId} {m : TypeNode} (left : env.types.node? l = some (.union u))
    (right : env.types.node? r = some m) (concrete : ∀ d, m ≠ .nominal d) (resolved : ∀ name, m ≠ .unresolved name) :
    env.Follows S l r ↔ ∃ alternatives, env.types.list? u = some alternatives ∧ alternatives ≠ [] ∧
      ∀ a ∈ alternatives, S a r := by
  rw [follows_iff left right]
  cases m <;> simp_all [NodesFollow]

theorem follows_union_right {n : TypeNode} {u : ListId} (left : env.types.node? l = some n)
    (plain : ∀ k, n ≠ .union k) (resolved : ∀ name, n ≠ .unresolved name)
    (right : env.types.node? r = some (.union u)) :
    env.Follows S l r ↔ ∃ alternatives, env.types.list? u = some alternatives ∧ ∃ b ∈ alternatives, S l b := by
  rw [follows_iff left right]
  cases n <;> simp_all [NodesFollow]

theorem follows_nominal_left {d : DeclId} {m : TypeNode} (left : env.types.node? l = some (.nominal d))
    (right : env.types.node? r = some m) (shape : m.IsShape) :
    env.Follows S l r ↔ ∃ a, env.declarations.body? d = some a ∧ S a r := by
  rw [follows_iff left right]
  obtain ⟨concrete, plain, resolved⟩ := shape
  cases m <;> simp_all [NodesFollow]

theorem follows_shapes {n m : TypeNode} (left : env.types.node? l = some n) (shapeLeft : n.IsShape)
    (right : env.types.node? r = some m) (shapeRight : m.IsShape) :
    env.Follows S l r ↔ env.ShapesFollow S n m := by
  rw [follows_iff left right]
  obtain ⟨concrete, plain, resolved⟩ := shapeLeft
  obtain ⟨concrete', plain', resolved'⟩ := shapeRight
  cases n <;> cases m <;> simp_all [NodesFollow]

end

/-- The kinds of node that a type of a closed graph can have. -/
theorem Closed.kinds {types : Set TypeId} (closed : env.Closed types) {t : TypeId} (member : t ∈ types) :
    (∃ d body, env.types.node? t = some (.nominal d) ∧ env.declarations.body? d = some body ∧ body ∈ types) ∨
    (∃ l members, env.types.node? t = some (.union l) ∧ env.types.list? l = some members ∧ ∀ m ∈ members, m ∈ types) ∨
    ∃ n, env.types.node? t = some n ∧ n.IsShape ∧ env.Rests types n := by
  obtain ⟨n, known, rests⟩ := closed.rests member
  cases n with
  | nominal d =>
    obtain ⟨body, found, inside⟩ := rests.nominal
    exact .inl ⟨d, body, known, found, inside⟩
  | union l =>
    obtain ⟨members, found, inside⟩ := rests.union
    exact .inr (.inl ⟨l, members, known, found, inside⟩)
  | unresolved name => exact absurd rests.resolved (by simp [resolves])
  | _ => exact .inr (.inr ⟨_, known, by simp [TypeNode.IsShape], rests⟩)

/-- The kinds of node that a tidy type can have. -/
theorem Tidy.kinds {t : TypeId} (tidy : env.Tidy t) :
    (∃ d body, env.types.node? t = some (.nominal d) ∧ env.declarations.body? d = some body ∧ env.Tidy body) ∨
    (∃ l members, env.types.node? t = some (.union l) ∧ env.types.list? l = some members ∧
      env.NormalMembers members ∧ ∀ m ∈ members, env.Tidy m) ∨
    ∃ n, env.types.node? t = some n ∧ n.IsShape := by
  rcases (closed_tidy env).kinds tidy with nominal | ⟨l, _, known, -⟩ | ⟨n, known, shape, -⟩
  · exact .inl nominal
  · obtain ⟨members, found, normal, tidyMembers⟩ := tidy.union known
    exact .inr (.inl ⟨l, members, known, found, normal, tidyMembers⟩)
  · exact .inr (.inr ⟨n, known, shape⟩)

theorem ne_unresolved {t : TypeId} (resolved : env.isResolved t) {n : TypeNode} (known : env.types.node? t = some n)
    (name : Name) : n ≠ .unresolved name := by
  rintro rfl
  simp [isResolved, known, resolves] at resolved

/-! ### Justified pairs, by the kinds of their nodes -/

section
variable {l r : TypeId}

theorem justified_nominals {d e : DeclId} {a b : TypeId} (left : env.types.node? l = some (.nominal d))
    (foundL : env.declarations.body? d = some a) (right : env.types.node? r = some (.nominal e))
    (foundR : env.declarations.body? e = some b) : env.Justified l r ↔ d = e ∨ env.Justified a b := by
  rw [justified_iff_follows, follows_nominals left right]
  simp [foundL, foundR]

theorem justified_nominal_right {e : DeclId} {b : TypeId} (resolved : env.isResolved l) (last : env.IsConcrete l)
    (right : env.types.node? r = some (.nominal e)) (found : env.declarations.body? e = some b) :
    env.Justified l r ↔ env.Justified l b := by
  obtain ⟨n, left, -⟩ := isResolved_iff.mp resolved
  rw [justified_iff_follows,
    follows_nominal_right left (fun d same => last d (same ▸ left)) (ne_unresolved resolved left) right]
  simp [found]

theorem justified_union_left {u : ListId} {members : List TypeId} (left : env.types.node? l = some (.union u))
    (found : env.types.list? u = some members) (filled : members ≠ []) (resolved : env.isResolved r)
    (last : env.IsConcrete r) : env.Justified l r ↔ ∀ m ∈ members, env.Justified m r := by
  obtain ⟨m, right, -⟩ := isResolved_iff.mp resolved
  rw [justified_iff_follows,
    follows_union_left left right (fun d same => last d (same ▸ right)) (ne_unresolved resolved right)]
  simp [found, filled]

theorem justified_union_right {u : ListId} {members : List TypeId} (resolved : env.isResolved l)
    (plain : ∀ k, env.types.node? l ≠ some (.union k)) (right : env.types.node? r = some (.union u))
    (found : env.types.list? u = some members) : env.Justified l r ↔ ∃ m ∈ members, env.Justified l m := by
  obtain ⟨n, left, -⟩ := isResolved_iff.mp resolved
  rw [justified_iff_follows,
    follows_union_right left (fun k same => plain k (same ▸ left)) (ne_unresolved resolved left) right]
  simp [found]

theorem justified_nominal_left {d : DeclId} {m : TypeNode} {a : TypeId} (left : env.types.node? l = some (.nominal d))
    (found : env.declarations.body? d = some a) (right : env.types.node? r = some m) (shape : m.IsShape) :
    env.Justified l r ↔ env.Justified a r := by
  rw [justified_iff_follows, follows_nominal_left left right shape]
  simp [found]

theorem justified_shapes {n m : TypeNode} (left : env.types.node? l = some n) (shapeL : n.IsShape)
    (right : env.types.node? r = some m) (shapeR : m.IsShape) :
    env.Justified l r ↔ env.ShapesFollow env.Justified n m := by
  rw [justified_iff_follows, follows_shapes left shapeL right shapeR]

end

/-! ### Growth of the store -/

section
variable {env' : Environment} (larger : env.Extends env')
include larger

private theorem Extends.compareShapes_eq {types : Set TypeId} {n m : TypeNode} (left : env.Rests types n)
    (right : env.Rests types m) : env'.compareShapes n m = env.compareShapes n m := by
  unfold compareShapes
  split
  case h_3 =>
    obtain ⟨ls, foundL, -⟩ := left.record
    obtain ⟨rs, foundR, -⟩ := right.record
    simp only [compareRecords, foundL, foundR, larger.types.record foundL, larger.types.record foundR]
  case h_5 =>
    obtain ⟨ls, foundL, -⟩ := left.callable
    obtain ⟨rs, foundR, -⟩ := right.callable
    simp only [compareCallables, foundL, foundR, larger.types.callable foundL, larger.types.callable foundR]
  case h_6 =>
    obtain ⟨ls, foundL, -⟩ := left.intersection
    obtain ⟨rs, foundR, -⟩ := right.intersection
    simp only [compareIntersections, members, foundL, foundR, larger.types.list foundL, larger.types.list foundR]
  all_goals rfl

variable {l r : TypeId} (tidyL : env.Tidy l) (tidyR : env.Tidy r)
include tidyL tidyR

/-- The rule for two tidy types stays the same while the store grows. -/
theorem Extends.rule_eq : env'.rule l r = env.rule l r := by
  obtain ⟨n, knownL, restsL⟩ := (closed_tidy env).rests tidyL
  obtain ⟨m, knownR, restsR⟩ := (closed_tidy env).rests tidyR
  simp only [rule, Inquiry.require, knownL, knownR, larger.types.node knownL, larger.types.node knownR]
  split
  case h_5 =>
    obtain ⟨alternatives, found, -⟩ := restsL.union
    simp only [members, found, larger.types.list found]
  case h_6 =>
    obtain ⟨alternatives, found, -⟩ := restsR.union
    simp only [members, found, larger.types.list found]
  case h_8 => exact larger.compareShapes_eq restsL restsR
  all_goals simp only [unfold, larger.body?_eq]

theorem Extends.follows_iff {S : TypeId → TypeId → Prop} : env'.Follows S l r ↔ env.Follows S l r := by
  rw [follows_iff_settle, follows_iff_settle, larger.rule_eq tidyL tidyR]

/-- A pair of tidy types is justified in a store exactly if it is in a larger one. -/
theorem Extends.justified_iff : env'.Justified l r ↔ env.Justified l r := by
  constructor
  · intro justified
    refine .coinduct (R := fun a b => env.Tidy a ∧ env.Tidy b ∧ env'.Justified a b) ?_ ⟨tidyL, tidyR, justified⟩
    rintro a b ⟨tidyA, tidyB, here⟩
    have follows := ((larger.follows_iff tidyA tidyB).mp here.follows).inside (closed_tidy env) tidyA tidyB
    exact follows.mono fun x y ⟨below, tidyX, tidyY⟩ => .inl ⟨tidyX, tidyY, below⟩
  · intro justified
    refine .coinduct (R := fun a b => env.Tidy a ∧ env.Tidy b ∧ env.Justified a b) ?_ ⟨tidyL, tidyR, justified⟩
    rintro a b ⟨tidyA, tidyB, here⟩
    refine (larger.follows_iff tidyA tidyB).mpr ((here.follows.inside (closed_tidy env) tidyA tidyB).mono ?_)
    exact fun x y ⟨below, tidyX, tidyY⟩ => .inl ⟨tidyX, tidyY, below⟩

end

/-! ### Reflexivity and void -/

theorem shapesFollow_refl {types : Set TypeId} {S : TypeId → TypeId → Prop} (same : ∀ t ∈ types, S t t) {n : TypeNode}
    (shape : n.IsShape) (rests : env.Rests types n) : env.ShapesFollow S n n := by
  cases n with
  | nominal d => exact absurd rfl (shape.1 d)
  | union l => exact absurd rfl (shape.2.1 l)
  | unresolved name => exact absurd rfl (shape.2.2 name)
  | primitive | var => simp [ShapesFollow]
  | array e | reference e => exact same e (rests.parts e (by simp [partsOf]))
  | negation e => exact ⟨same e (rests.parts e (by simp [partsOf])), same e (rests.parts e (by simp [partsOf]))⟩
  | record r =>
    obtain ⟨shape, found, fields⟩ := rests.record
    exact ⟨shape, found, shape, found, rfl, List.forall₂_same.mpr fun f member => ⟨rfl, same _ (fields f member)⟩⟩
  | callable c =>
    obtain ⟨shape, found, params, returns⟩ := rests.callable
    exact ⟨shape, found, shape, found, rfl, List.forall₂_same.mpr fun t member => same t (params t member),
      List.forall₂_same.mpr fun t member => same t (returns t member)⟩
  | intersection l =>
    obtain ⟨members, found, operands⟩ := rests.intersection
    exact ⟨members, found, members, found, List.forall₂_same.mpr fun t member => same t (operands t member)⟩

/-- Every union of a graph has alternatives. -/
def Filled (env : Environment) (types : Set TypeId) : Prop :=
  ∀ t ∈ types, ∀ l, env.types.node? t = some (.union l) → env.types.list? l ≠ some []

/-- That every union has alternatives can be checked type by type. -/
theorem Filled.of_list (types : List TypeId)
    (checked : ∀ t ∈ types, ((env.types.node? t).bind TypeNode.alternatives?).bind env.types.list? ≠ some []) :
    env.Filled {t | t ∈ types} := by
  intro t listed l known empty
  exact checked t listed (by simp [known, TypeNode.alternatives?, empty])

/-- The types of a union, over any number of unions within it. -/
def Nests (env : Environment) : TypeId → TypeId → Prop := Joint.union.Nests env.types

section
variable {types : Set TypeId} (closed : env.Closed types) {t u : TypeId} (member : t ∈ types)
include closed member

theorem Closed.alternative (alternative : Joint.union.Holds env.types t u) : u ∈ types := by
  obtain ⟨l, members, known, found, listed⟩ := Joint.holds_iff.mp alternative
  simp only [Joint.node] at known
  exact closed.parts t member u (by simpa [parts_of_node known, partsOf, found] using listed)

theorem Closed.nested (nested : env.Nests t u) : u ∈ types := by
  induction nested with
  | refl => exact member
  | tail _ alternative ih => exact closed.alternative ih alternative

variable (filled : env.Filled types)
include filled

/-- What is nested in a union is below it, however deep. -/
theorem Closed.justified_nested (nested : env.Nests t u) : env.Justified u t := by
  -- A union is compared alternative by alternative, so a type has to be related to every union around it.
  refine .coinduct (R := fun a b => b ∈ types ∧ env.Nests b a) ?_ ⟨member, nested⟩
  clear nested member
  rintro a b ⟨inside, nested⟩
  have search {n : TypeNode} (known : env.types.node? a = some n) (plain : ∀ k, n ≠ .union k)
      (resolved : ∀ name, n ≠ .unresolved name)
      (same : env.Follows (fun x y => (y ∈ types ∧ env.Nests y x) ∨ env.Justified x y) a a) :
      env.Follows (fun x y => (y ∈ types ∧ env.Nests y x) ∨ env.Justified x y) a b := by
    rcases Relation.ReflTransGen.cases_head nested with rfl | ⟨u, first, rest⟩
    · exact same
    · obtain ⟨l, members, knownB, found, listed⟩ := Joint.holds_iff.mp first
      exact (follows_union_right known plain resolved knownB).mpr
        ⟨members, found, u, listed, .inl ⟨closed.alternative inside first, rest⟩⟩
  have insideA := closed.nested inside nested
  rcases closed.kinds insideA with ⟨d, body, known, -⟩ | ⟨l, members, known, found, -⟩ | ⟨n, known, shape, rests⟩
  · exact search known (by simp) (by simp) ((follows_nominals known known).mpr (.inl rfl))
  · obtain ⟨k, knownB⟩ : ∃ k, env.types.node? b = some (.union k) := by
      rcases Relation.ReflTransGen.cases_head nested with rfl | ⟨u, first, -⟩
      · exact ⟨l, known⟩
      · obtain ⟨k, -, knownB, -⟩ := Joint.holds_iff.mp first
        exact ⟨k, knownB⟩
    have some_member : members ≠ [] := fun none => filled a insideA l known (none ▸ found)
    refine (follows_union_left known knownB (by simp) (by simp)).mpr ⟨members, found, some_member, fun m listed => ?_⟩
    exact .inl ⟨inside, nested.tail (Joint.holds_iff.mpr ⟨l, members, known, found, listed⟩)⟩
  · refine search known shape.2.1 shape.2.2 ((follows_shapes known shape known shape).mpr ?_)
    exact shapesFollow_refl (fun t part => .inl ⟨part, .refl⟩) shape rests

/-- A type is below itself, if no union on the way is empty. -/
theorem Closed.justified_refl : env.Justified t t := closed.justified_nested member filled .refl

end

theorem filled_tidy (env : Environment) : env.Filled {t | env.Tidy t} := by
  intro t tidy l known empty
  obtain ⟨members, found, normal, -⟩ := tidy.union known
  exact normal.ne_nil (Option.some.inj (found.symm.trans empty))

theorem Tidy.justified_refl {t : TypeId} (tidy : env.Tidy t) : env.Justified t t :=
  (closed_tidy env).justified_refl tidy (filled_tidy env)

section
variable {types : Set TypeId} (closed : env.Closed types) {a b : TypeId} (left : a ∈ types)
include closed left

/-- Below void are void itself, declarations of types below void, and unions of such types. -/
theorem Closed.kinds_of_void (empty : env.Justified a .void) :
    (∃ d body, env.types.node? a = some (.nominal d) ∧ env.declarations.body? d = some body ∧ body ∈ types ∧
      env.Justified body .void) ∨
    (∃ l members, env.types.node? a = some (.union l) ∧ env.types.list? l = some members ∧
      ∀ m ∈ members, m ∈ types ∧ env.Justified m .void) ∨
    a = .void := by
  have void := env.types.node?_primitive .void
  have shapeV : (TypeNode.primitive .void).IsShape := by simp [TypeNode.IsShape]
  rcases closed.kinds left with ⟨d, body, known, found, inside⟩ | ⟨l, members, known, found, inside⟩ |
    ⟨n, known, shape, -⟩
  · exact .inl ⟨d, body, known, found, inside, (justified_nominal_left known found void shapeV).mp empty⟩
  · obtain ⟨alternatives, found', -, all⟩ := (follows_union_left known void (by simp) (by simp)).mp empty.follows
    obtain rfl : members = alternatives := Option.some.inj (found.symm.trans found')
    exact .inr (.inl ⟨l, members, known, found, fun m member => ⟨inside m member, all m member⟩⟩)
  · have follows := (justified_shapes known shape void shapeV).mp empty
    have same : n = .primitive .void := by cases n <;> simp_all [ShapesFollow]
    exact .inr (.inr (TypeStore.node?_inj (same ▸ known) void))

/-- What is below void is below every type, if no union on the way is empty. -/
theorem Closed.justified_of_void (filled : env.Filled types) (right : b ∈ types) (empty : env.Justified a .void) :
    env.Justified a b := by
  refine .coinduct (R := fun a b => a ∈ types ∧ b ∈ types ∧ env.Justified a .void) ?_ ⟨left, right, empty⟩
  clear left right empty
  rintro a b ⟨left, right, empty⟩
  have void := env.types.node?_primitive .void
  have some_member {t : TypeId} {l : ListId} {members : List TypeId} (inside : t ∈ types)
      (known : env.types.node? t = some (.union l)) (found : env.types.list? l = some members) : members ≠ [] :=
    fun none => filled t inside l known (none ▸ found)
  rcases closed.kinds_of_void left empty with ⟨d, body, known, found, inside, below⟩ |
    ⟨l, members, known, found, below⟩ | rfl
  · rcases closed.kinds right with ⟨e, bodyB, knownB, foundB, insideB⟩ | ⟨k, alternatives, knownB, foundB, insideB⟩ |
      ⟨m, knownB, shapeB, -⟩
    · exact (follows_nominals known knownB).mpr (.inr ⟨body, found, bodyB, foundB, .inl ⟨inside, insideB, below⟩⟩)
    · obtain ⟨m, member⟩ := List.exists_mem_of_ne_nil alternatives (some_member right knownB foundB)
      exact (follows_union_right known (by simp) (by simp) knownB).mpr
        ⟨alternatives, foundB, m, member, .inl ⟨left, insideB m member, empty⟩⟩
    · exact (follows_nominal_left known knownB shapeB).mpr ⟨body, found, .inl ⟨inside, right, below⟩⟩
  · have each {m : TypeNode} (knownB : env.types.node? b = some m) (concrete : ∀ d, m ≠ .nominal d)
        (resolved : ∀ name, m ≠ .unresolved name) :=
      (follows_union_left (S := fun x y => (x ∈ types ∧ y ∈ types ∧ env.Justified x .void) ∨ env.Justified x y)
        known knownB concrete resolved).mpr ⟨members, found, some_member left known found,
          fun m member => .inl ⟨(below m member).1, right, (below m member).2⟩⟩
    rcases closed.kinds right with ⟨e, bodyB, knownB, foundB, insideB⟩ | ⟨k, _, knownB, -⟩ | ⟨m, knownB, shapeB, -⟩
    · exact (follows_nominal_right known (by simp) (by simp) knownB).mpr ⟨bodyB, foundB, .inl ⟨left, insideB, empty⟩⟩
    · exact each knownB (by simp) (by simp)
    · exact each knownB shapeB.1 shapeB.2.2
  · rcases closed.kinds right with ⟨e, bodyB, knownB, foundB, insideB⟩ | ⟨k, alternatives, knownB, foundB, insideB⟩ |
      ⟨m, knownB, shapeB, -⟩
    · exact (follows_nominal_right void (by simp) (by simp) knownB).mpr ⟨bodyB, foundB, .inl ⟨left, insideB, empty⟩⟩
    · obtain ⟨m, member⟩ := List.exists_mem_of_ne_nil alternatives (some_member right knownB foundB)
      exact (follows_union_right void (by simp) (by simp) knownB).mpr
        ⟨alternatives, foundB, m, member, .inl ⟨left, insideB m member, empty⟩⟩
    · refine (follows_shapes void (by simp [TypeNode.IsShape]) knownB shapeB).mpr ?_
      cases m <;> simp [ShapesFollow]

end

/-- Void is below every tidy type. -/
theorem Tidy.justified_void {t : TypeId} (tidy : env.Tidy t) : env.Justified .void t :=
  (closed_tidy env).justified_of_void (tidy_void env) (filled_tidy env) tidy (tidy_void env).justified_refl

/-! ### Alternatives and bodies -/

/-- One type is an alternative of another, or the body of a declaration. -/
inductive Opens (env : Environment) : TypeId → TypeId → Prop where
  | alternative {l : ListId} {members : List TypeId} {t u : TypeId} : env.types.node? t = some (.union l) →
      env.types.list? l = some members → u ∈ members → Opens env t u
  | body {d : DeclId} {t u : TypeId} : env.types.node? t = some (.nominal d) →
      env.declarations.body? d = some u → Opens env t u

theorem Opens.part {t u : TypeId} (opens : env.Opens t u) : u ∈ env.parts t := by
  cases opens with
  | alternative known found member => simpa [parts_of_node known, partsOf, found] using member
  | body known found => simp [parts_of_node known, partsOf, found]

theorem Opens.tidy {t u : TypeId} (opens : env.Opens t u) (tidy : env.Tidy t) : env.Tidy u := tidy.part opens.part

/-- The types behind one, over any number of alternatives and bodies. -/
def Behind (env : Environment) : TypeId → TypeId → Prop := Relation.ReflTransGen env.Opens

theorem Behind.reaches {t u : TypeId} (behind : env.Behind t u) : env.Reaches t u :=
  Relation.ReflTransGen.mono (fun _ _ opens => opens.part) _ _ behind

private theorem Behind.tidy {t u : TypeId} (behind : env.Behind t u) (tidy : env.Tidy t) : env.Tidy u :=
  fun v path => tidy v (behind.reaches.trans path)

/-- A type is behind one that is justified below a target. -/
private def BehindJustified (env : Environment) (a b : TypeId) : Prop :=
  ∃ t, env.Behind t a ∧ env.Tidy t ∧ env.Justified t b

/-- Behind a type below a declaration, everything but the type itself is behind one below the body. -/
private theorem behindJustified_body {t a b body : TypeId} {e : DeclId} (behind : env.Behind t a) (tidy : env.Tidy t)
    (tidyBody : env.Tidy body) (known : env.types.node? b = some (.nominal e))
    (found : env.declarations.body? e = some body) (justified : env.Justified t b) :
    a = t ∨ env.BehindJustified a body := by
  rcases Relation.ReflTransGen.cases_head behind with rfl | ⟨u, opens, rest⟩
  · exact .inl rfl
  refine .inr ?_
  cases opens with
  | alternative knownT _ _ =>
    obtain ⟨body', found', below⟩ := (follows_nominal_right knownT (by simp) (by simp) known).mp justified.follows
    obtain rfl : body = body' := Option.some.inj (found.symm.trans found')
    exact ⟨t, behind, tidy, below⟩
  | body knownT foundT =>
    have tidyU : env.Tidy u := (Opens.body knownT foundT).tidy tidy
    rcases (follows_nominals knownT known).mp justified.follows with rfl | ⟨u', foundU, body', found', below⟩
    · obtain rfl : u = body := Option.some.inj (foundT.symm.trans found)
      exact ⟨u, rest, tidyU, tidyBody.justified_refl⟩
    · obtain rfl : u = u' := Option.some.inj (foundT.symm.trans foundU)
      obtain rfl : body = body' := Option.some.inj (found.symm.trans found')
      exact ⟨u, rest, tidyU, below⟩

/-- Behind a type below a union, a type that is no union is behind one below an alternative. -/
private theorem behindJustified_alternative {t a b : TypeId} {l : ListId} {members : List TypeId}
    (behind : env.Behind t a) (tidy : env.Tidy t) (known : env.types.node? b = some (.union l))
    (found : env.types.list? l = some members) (plain : ∀ k, env.types.node? a ≠ some (.union k))
    (justified : env.Justified t b) : ∃ m ∈ members, env.BehindJustified a m := by
  have alternative : ∀ {t n}, env.types.node? t = some n → (∀ k, n ≠ .union k) → env.Tidy t → env.Justified t b →
      ∃ m ∈ members, env.Justified t m := by
    intro t n knownT plainT tidyT below
    obtain ⟨members', found', m, member, here⟩ :=
      (follows_union_right knownT plainT (ne_unresolved tidyT.resolved knownT) known).mp below.follows
    obtain rfl : members = members' := Option.some.inj (found.symm.trans found')
    exact ⟨m, member, here⟩
  induction behind using Relation.ReflTransGen.head_induction_on with
  | refl =>
    obtain ⟨n, knownA⟩ := tidy.known
    obtain ⟨m, member, here⟩ := alternative knownA (fun k same => plain k (same ▸ knownA)) tidy justified
    exact ⟨m, member, a, .refl, tidy, here⟩
  | @head t u opens rest ih =>
    have tidyU := opens.tidy tidy
    cases opens with
    | alternative knownT foundT memberT =>
      obtain ⟨alternatives, foundT', -, all⟩ := (follows_union_left knownT known (by simp) (by simp)).mp justified.follows
      rw [foundT] at foundT'
      obtain rfl := Option.some.inj foundT'
      exact ih tidyU (all u memberT)
    | body knownT foundT =>
      obtain ⟨m, member, here⟩ := alternative knownT (by simp) tidy justified
      exact ⟨m, member, t, .head (.body knownT foundT) rest, tidy, here⟩

/-- Behind a type below a shape, every type is below the shape. -/
theorem justified_of_behind_shape {t a b : TypeId} {m : TypeNode} (behind : env.Behind t a)
    (known : env.types.node? b = some m) (shape : m.IsShape) (justified : env.Justified t b) : env.Justified a b := by
  induction behind with
  | refl => exact justified
  | tail _ opens ih =>
    cases opens with
    | alternative knownT found member =>
      obtain ⟨alternatives, found', -, all⟩ := (follows_union_left knownT known shape.1 shape.2.2).mp ih.follows
      rw [found] at found'
      obtain rfl := Option.some.inj found'
      exact all _ member
    | body knownT found =>
      obtain ⟨body, found', here⟩ := (follows_nominal_left knownT known shape).mp ih.follows
      rw [found] at found'
      obtain rfl := Option.some.inj found'
      exact here

/-- What is behind a type is below everything that the type is below. -/
private theorem Behind.justified {t a b : TypeId} (behind : env.Behind t a) (tidy : env.Tidy t) (tidyB : env.Tidy b)
    (justified : env.Justified t b) : env.Justified a b := by
  refine .coinduct (R := fun a b => env.Tidy b ∧ env.BehindJustified a b) ?_ ⟨tidyB, t, behind, tidy, justified⟩
  clear behind tidy tidyB justified
  rintro a b ⟨tidyB, t, behind, tidy, justified⟩
  have tidyA := behind.tidy tidy
  have alternatives : ∀ {n k}, env.types.node? b = some n → (∀ d, n ≠ .nominal d) →
      env.types.node? a = some (.union k) →
        env.Follows (fun x y => (env.Tidy y ∧ env.BehindJustified x y) ∨ env.Justified x y) a b := by
    intro n k knownB concrete knownA
    obtain ⟨members, found, normal, -⟩ := tidyA.union knownA
    refine (follows_union_left knownA knownB concrete (ne_unresolved tidyB.resolved knownB)).mpr ⟨members, found, normal.ne_nil, ?_⟩
    exact fun m member => .inl ⟨tidyB, t, behind.tail (.alternative knownA found member), tidy, justified⟩
  rcases tidyB.kinds with ⟨e, body, known, found, tidyBody⟩ | ⟨l, members, known, found, -, tidyMembers⟩ | ⟨m, known, shape⟩
  · rcases behindJustified_body behind tidy tidyBody known found justified with rfl | ⟨t', behind', tidy', justified'⟩
    · exact justified.follows.mono fun x y => .inr
    · rcases tidyA.kinds with ⟨d, bodyA, knownA, foundA, -⟩ | ⟨k, _, knownA, -⟩ | ⟨n, knownA, shapeA⟩
      · refine (follows_nominals knownA known).mpr (.inr ⟨bodyA, foundA, body, found, .inl ⟨tidyBody, t', ?_⟩⟩)
        exact ⟨behind'.tail (.body knownA foundA), tidy', justified'⟩
      · exact (follows_nominal_right knownA (by simp) (by simp) known).mpr
          ⟨body, found, .inl ⟨tidyBody, t', behind', tidy', justified'⟩⟩
      · exact (follows_nominal_right knownA shapeA.1 shapeA.2.2 known).mpr
          ⟨body, found, .inl ⟨tidyBody, t', behind', tidy', justified'⟩⟩
  · by_cases union : ∃ k, env.types.node? a = some (.union k)
    · obtain ⟨k, knownA⟩ := union
      exact alternatives known (by simp) knownA
    · have plainA : ∀ k, env.types.node? a ≠ some (.union k) := fun k knownA => union ⟨k, knownA⟩
      obtain ⟨m, member, below⟩ := behindJustified_alternative behind tidy known found plainA justified
      obtain ⟨n, knownA⟩ := tidyA.known
      refine (follows_union_right knownA (fun k same => plainA k (same ▸ knownA)) (ne_unresolved tidyA.resolved knownA)
        known).mpr ⟨members, found, m, member, .inl ⟨tidyMembers m member, below⟩⟩
  · rcases tidyA.kinds with ⟨d, bodyA, knownA, foundA, -⟩ | ⟨k, _, knownA, -⟩ | ⟨n, knownA, shapeA⟩
    · refine (follows_nominal_left knownA known shape).mpr ⟨bodyA, foundA, .inl ⟨tidyB, t, ?_⟩⟩
      exact ⟨behind.tail (.body knownA foundA), tidy, justified⟩
    · exact alternatives known shape.1 knownA
    · exact (justified_of_behind_shape behind known shape justified).follows.mono fun x y => .inr

theorem Justified.of_opens {t a b : TypeId} (justified : env.Justified t b) (opens : env.Opens t a)
    (tidy : env.Tidy t) (tidyB : env.Tidy b) : env.Justified a b :=
  Behind.justified (.single opens) tidy tidyB justified

/-- What is below the body of a declaration is below the declaration. -/
theorem Justified.of_body {a b body : TypeId} {e : DeclId} (justified : env.Justified a body) (tidy : env.Tidy a)
    (tidyBody : env.Tidy body) (known : env.types.node? b = some (.nominal e))
    (found : env.declarations.body? e = some body) : env.Justified a b := by
  rcases tidy.kinds with ⟨d, bodyA, knownA, foundA, -⟩ | ⟨k, _, knownA, -⟩ | ⟨n, knownA, shapeA⟩
  · refine (justified_nominals knownA foundA known found).mpr (.inr ?_)
    exact justified.of_opens (.body knownA foundA) tidy tidyBody
  · exact (justified_nominal_right tidy.resolved (isConcrete_of_node? knownA (by simp)) known found).mpr justified
  · exact (justified_nominal_right tidy.resolved (isConcrete_of_node? knownA shapeA.1) known found).mpr justified

/-- What is below an alternative is below its union. -/
theorem Justified.of_alternative {a m b : TypeId} {l : ListId} {members : List TypeId} (justified : env.Justified a m)
    (tidy : env.Tidy a) (tidyB : env.Tidy b) (known : env.types.node? b = some (.union l))
    (found : env.types.list? l = some members) (member : m ∈ members) : env.Justified a b := by
  by_cases union : ∃ k, env.types.node? a = some (.union k)
  · obtain ⟨k, knownA⟩ := union
    obtain ⟨alternatives, foundA, normalA, tidyA⟩ := tidy.union knownA
    have tidyM : env.Tidy m := (Opens.alternative known found member).tidy tidyB
    refine .of_follows ((follows_union_left knownA known (by simp) (by simp)).mpr
      ⟨alternatives, foundA, normalA.ne_nil, fun u memberA => ?_⟩)
    refine (justified_union_right (tidyA u memberA).resolved (normalA.plain u memberA) known found).mpr ⟨m, member, ?_⟩
    exact justified.of_opens (.alternative knownA foundA memberA) tidy tidyM
  · exact (justified_union_right tidy.resolved (not_exists.mp union) known found).mpr ⟨m, member, justified⟩

/-- What is below a type is below every declaration that leads to it. -/
theorem Justified.of_unfolds {ds : List DeclId} {a b u : TypeId} (justified : env.Justified a u) (tidy : env.Tidy a)
    (tidyB : env.Tidy b) (chain : env.Unfolds ds b u) : env.Justified a b := by
  induction chain with
  | here => exact justified
  | @link d ds t body u known found _ ih =>
    have tidyBody : env.Tidy body := (Opens.body known found).tidy tidyB
    exact (ih justified tidyBody).of_body tidy tidyBody known found

/-- A type is below a declaration exactly if it is below the type that the declaration leads to. This fails where a
    declaration of a union meets a union: their names are looked up together if both have one, and otherwise the
    declaration has to be below one of the alternatives. -/
theorem Unfolds.justified_iff {ds : List DeclId} {a b y : TypeId} (chain : env.Unfolds ds b y) (tidyA : env.Tidy a)
    (tidyB : env.Tidy b) (free : env.IsConcrete a ∨ ∃ m, env.types.node? y = some m ∧ m.IsShape) :
    env.Justified a b ↔ env.Justified a y := by
  refine ⟨fun justified => ?_, fun justified => justified.of_unfolds tidyA tidyB chain⟩
  induction chain generalizing a with
  | here => exact justified
  | @link e ds b body y known found _ ih =>
    have tidyBody : env.Tidy body := (Opens.body known found).tidy tidyB
    have through : env.IsConcrete a → env.Justified a y := by
      intro concrete
      exact ih tidyA tidyBody free ((justified_nominal_right tidyA.resolved concrete known found).mp justified)
    rcases free with concrete | ⟨m, knownY, shape⟩
    · exact through concrete
    rcases tidyA.kinds with ⟨d, bodyA, knownA, foundA, tidyBodyA⟩ | ⟨l, _, knownA, -⟩ | ⟨n, knownA, shapeA⟩
    · rw [justified_nominal_left knownA foundA knownY shape]
      rcases (justified_nominals knownA foundA known found).mp justified with rfl | below
      · obtain rfl : bodyA = body := Option.some.inj (foundA.symm.trans found)
        exact ih tidyBody tidyBody (.inr ⟨m, knownY, shape⟩) tidyBody.justified_refl
      · exact ih tidyBodyA tidyBody (.inr ⟨m, knownY, shape⟩) below
    · exact through (isConcrete_of_node? knownA (by simp))
    · exact through (isConcrete_of_node? knownA shapeA.1)

/-! ### Members of unions -/

section
variable {y : TypeId} (tidyY : env.Tidy y) (last : env.IsConcrete y)
include tidyY last

theorem justified_union_iff {t : TypeId} {l : ListId} {members : List TypeId} (tidy : env.Tidy t)
    (known : env.types.node? t = some (.union l)) (found : env.types.list? l = some members) :
    env.Justified t y ↔ ∀ m ∈ members, env.Justified m y := by
  obtain ⟨members', found', normal, -⟩ := tidy.union known
  obtain rfl : members = members' := Option.some.inj (found.symm.trans found')
  exact justified_union_left known found normal.ne_nil tidyY.resolved last

/-- Types are below a target exactly if all members of their union are. -/
theorem justified_unionMembers_iff {types : List TypeId} (tidy : ∀ t ∈ types, env.Tidy t) :
    (∀ m ∈ Build.unionMembers types env.types, env.Justified m y) ↔ ∀ t ∈ types, env.Justified t y := by
  have leaves : ∀ t ∈ types, (env.Justified t y ↔ ∀ m ∈ env.types.leaves TypeNode.alternatives? t, env.Justified m y) := by
    intro t listed
    by_cases union : ∃ l, env.types.node? t = some (.union l)
    · obtain ⟨l, known⟩ := union
      obtain ⟨members, found, normal, -⟩ := (tidy t listed).union known
      rw [leaves_of_union known found normal, justified_union_iff tidyY last (tidy t listed) known found]
    · rw [leaves_of_other fun k known => union ⟨k, known⟩]
      simp
  constructor
  · intro all t listed
    refine (leaves t listed).mpr fun m leaf => ?_
    by_cases void : m = .void
    · rw [void]
      exact tidyY.justified_void
    · exact all m (Build.mem_unionMembers.mpr ⟨void, t, listed, leaf⟩)
  · intro all m member
    obtain ⟨-, t, listed, leaf⟩ := Build.mem_unionMembers.mp member
    exact (leaves t listed).mp (all t listed) m leaf

end

end Environment

end Narrowing
