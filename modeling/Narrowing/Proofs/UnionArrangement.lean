import Narrowing.Proofs.Grounded
import Narrowing.Proofs.Transparency
import Narrowing.Proofs.Void

/-!
A union compares by its leaves, the types nested in it that are no unions. On the
left each leaf has to be below the target (`Closed.justified_iff_leaves`), on the
right one leaf has to be above the source (`Closed.justified_iff_exists_leaf`), and
void leaves make no difference on either side. So neither order, repetition nor
nesting of the alternatives shows in an answer.
-/

namespace Narrowing

namespace Environment

variable {env : Environment} {types : Set TypeId}

/-- A type nested in another that is no union itself. -/
def Leaf (env : Environment) : TypeId → TypeId → Prop := Joint.union.Leaf env.types

theorem leaf_of_plain {t x : TypeId} (plain : ∀ l, env.types.node? t ≠ some (.union l)) : env.Leaf t x ↔ x = t :=
  Joint.leaf_of_plain (Joint.bind_part?_eq_none_iff.mpr plain)

theorem leaf_of_union {t x : TypeId} {l : ListId} {members : List TypeId} (known : env.types.node? t = some (.union l))
    (found : env.types.list? l = some members) : env.Leaf t x ↔ ∃ m ∈ members, env.Leaf m x :=
  Joint.leaf_of_list (Joint.bind_part?_eq_some_iff.mpr known) found

section
variable (closed : env.Closed types) (filled : env.Filled types)
include closed filled

/-- The members of a union. -/
theorem Closed.union_members {t : TypeId} {l : ListId} (member : t ∈ types)
    (known : env.types.node? t = some (.union l)) :
    ∃ members, env.types.list? l = some members ∧ members ≠ [] ∧ ∀ m ∈ members, m ∈ types ∧ m ∈ env.parts t := by
  obtain ⟨n, known', rests⟩ := closed.rests member
  obtain rfl : n = .union l := Option.some.inj (known'.symm.trans known)
  obtain ⟨members, found, inside⟩ := rests.union
  refine ⟨members, found, fun none => filled t member l known (none ▸ found), fun m listed => ⟨inside m listed, ?_⟩⟩
  simpa [parts_of_node known, partsOf, found] using listed

/-- On the left of anything but a declaration, a type stands for its leaves, void apart. -/
theorem Closed.justified_iff_leaves {a t : TypeId} (grounded : env.Grounded a) (left : a ∈ types) (right : t ∈ types)
    (concrete : env.IsConcrete t) : env.Justified a t ↔ ∀ x, x ≠ .void → env.Leaf a x → env.Justified x t := by
  induction grounded with
  | @intro a _ _ ih =>
    by_cases union : ∃ l, env.types.node? a = some (.union l)
    · obtain ⟨l, known⟩ := union
      obtain ⟨members, found, some_member, inside⟩ := closed.union_members filled left known
      rw [justified_union_left known found some_member (closed.resolved t right) concrete]
      have each : ∀ m ∈ members, (env.Justified m t ↔ ∀ x, x ≠ .void → env.Leaf m x → env.Justified x t) :=
        fun m listed => ih m (inside m listed).2 (inside m listed).1
      constructor
      · intro all x solid leaf
        obtain ⟨m, listed, within⟩ := (leaf_of_union known found).mp leaf
        exact (each m listed).mp (all m listed) x solid within
      · intro all m listed
        exact (each m listed).mpr fun x solid within =>
          all x solid ((leaf_of_union known found).mpr ⟨m, listed, within⟩)
    · simp only [leaf_of_plain (not_exists.mp union)]
      constructor
      · rintro justified _ - rfl
        exact justified
      · intro all
        by_cases void : a = .void
        · exact void ▸ closed.justified_void filled right
        · exact all a void rfl

/-- To the right of anything but a union, a type stands for one of its leaves. -/
theorem Closed.justified_iff_exists_leaf {t a : TypeId} (grounded : env.Grounded a) (left : t ∈ types)
    (right : a ∈ types) (plain : ∀ l, env.types.node? t ≠ some (.union l)) :
    env.Justified t a ↔ ∃ x, env.Leaf a x ∧ env.Justified t x := by
  induction grounded with
  | @intro a _ _ ih =>
    by_cases union : ∃ l, env.types.node? a = some (.union l)
    · obtain ⟨l, known⟩ := union
      obtain ⟨members, found, -, inside⟩ := closed.union_members filled right known
      rw [justified_union_right (closed.resolved t left) plain known found]
      have each : ∀ m ∈ members, (env.Justified t m ↔ ∃ x, env.Leaf m x ∧ env.Justified t x) :=
        fun m listed => ih m (inside m listed).2 (inside m listed).1
      constructor
      · rintro ⟨m, listed, below⟩
        obtain ⟨x, within, belowX⟩ := (each m listed).mp below
        exact ⟨x, (leaf_of_union known found).mpr ⟨m, listed, within⟩, belowX⟩
      · rintro ⟨x, leaf, below⟩
        obtain ⟨m, listed, within⟩ := (leaf_of_union known found).mp leaf
        exact ⟨m, listed, (each m listed).mpr ⟨x, within, below⟩⟩
    · simp [leaf_of_plain (not_exists.mp union)]

variable {u u' t : TypeId} {l l' : ListId} (memberU : u ∈ types) (memberU' : u' ∈ types) (memberT : t ∈ types)
  (known : env.types.node? u = some (.union l)) (known' : env.types.node? u' = some (.union l'))
  (same : ∀ x, x ≠ .void → (env.Leaf u x ↔ env.Leaf u' x)) (acyclic : env.Acyclic types)
include memberU memberU' memberT known known' same acyclic

theorem Closed.justified_left_congr : env.Justified u t ↔ env.Justified u' t := by
  -- Declarations on the right are opened first, until the target is concrete.
  induction closed.grounded acyclic memberT with
  | @intro t _ _ ih =>
    by_cases nominal : ∃ d, env.types.node? t = some (.nominal d)
    · obtain ⟨d, knownT⟩ := nominal
      obtain ⟨n, knownN, rests⟩ := closed.rests memberT
      obtain rfl : n = .nominal d := Option.some.inj (knownN.symm.trans knownT)
      obtain ⟨body, found, inside⟩ := rests.nominal
      rw [justified_nominal_right (closed.resolved u memberU) (isConcrete_of_node? known (by simp)) knownT found,
        justified_nominal_right (closed.resolved u' memberU') (isConcrete_of_node? known' (by simp)) knownT found]
      exact ih body (by simp [parts_of_node knownT, partsOf, found]) inside
    · have concrete : env.IsConcrete t := not_exists.mp nominal
      rw [closed.justified_iff_leaves filled (closed.grounded acyclic memberU) memberU memberT concrete,
        closed.justified_iff_leaves filled (closed.grounded acyclic memberU') memberU' memberT concrete]
      exact forall₂_congr fun x solid => by rw [same x solid]

theorem Closed.justified_right_of_leaves (justified : env.Justified t u) : env.Justified t u' := by
  -- Unions on the left are split first, until the source is a leaf.
  induction closed.grounded acyclic memberT with
  | @intro t _ _ ih =>
    by_cases union : ∃ k, env.types.node? t = some (.union k)
    · obtain ⟨k, knownT⟩ := union
      obtain ⟨members, found, some_member, inside⟩ := closed.union_members filled memberT knownT
      have each := (justified_union_left knownT found some_member (closed.resolved u memberU)
        (isConcrete_of_node? known (by simp))).mp justified
      refine (justified_union_left knownT found some_member (closed.resolved u' memberU')
        (isConcrete_of_node? known' (by simp))).mpr fun m listed => ?_
      exact ih m (inside m listed).2 (inside m listed).1 (each m listed)
    · have plain := not_exists.mp union
      obtain ⟨x, leaf, below⟩ :=
        (closed.justified_iff_exists_leaf filled (closed.grounded acyclic memberU) memberT memberU plain).mp justified
      by_cases void : x = .void
      · exact closed.justified_of_void memberT filled memberU' (void ▸ below)
      · exact (closed.justified_iff_exists_leaf filled (closed.grounded acyclic memberU') memberT memberU' plain).mpr
          ⟨x, (same x void).mp leaf, below⟩

end

/-- In a graph without circles and without empty unions, two unions with the same leaves, void apart, are below the
    same types and above the same types. -/
theorem isSubtype_rearranged (closed : env.Closed types) (filled : env.Filled types) (acyclic : env.Acyclic types)
    {u u' t : TypeId} {l l' : ListId} (memberU : u ∈ types) (memberU' : u' ∈ types) (memberT : t ∈ types)
    (known : env.types.node? u = some (.union l)) (known' : env.types.node? u' = some (.union l'))
    (same : ∀ x, x ≠ .void → (env.Leaf u x ↔ env.Leaf u' x))
    (shallow : ∀ p ∈ [(u, t), (u', t), (t, u), (t, u')], env.Shallow .unbounded p.1 p.2) :
    ∃ below above, env.isSubtype u t = .ok below ∧ env.isSubtype u' t = .ok below ∧
      env.isSubtype t u = .ok above ∧ env.isSubtype t u' = .ok above := by
  have decides {a b : TypeId} (left : a ∈ types) (right : b ∈ types)
      (shallow : env.Shallow .unbounded a b) : env.isSubtype a b = .ok true ↔ env.Justified a b :=
    (closed.wellFormed left right).isSubtype_iff
      ((closed.grounded acyclic left).assumesSoundly (closed.grounded acyclic right)) shallow
  have belowSame : env.isSubtype u t = env.isSubtype u' t := by
    refine isSubtype_congr (closed.wellFormed memberU memberT) (closed.wellFormed memberU' memberT) ?_
    rw [decides memberU memberT (shallow (u, t) (by simp)), decides memberU' memberT (shallow (u', t) (by simp))]
    exact closed.justified_left_congr filled memberU memberU' memberT known known' same acyclic
  have aboveSame : env.isSubtype t u = env.isSubtype t u' := by
    refine isSubtype_congr (closed.wellFormed memberT memberU) (closed.wellFormed memberT memberU') ?_
    rw [decides memberT memberU (shallow (t, u) (by simp)), decides memberT memberU' (shallow (t, u') (by simp))]
    constructor
    · exact closed.justified_right_of_leaves filled memberU memberU' memberT known known' same acyclic
    · exact closed.justified_right_of_leaves filled memberU' memberU memberT known' known
        (fun x solid => (same x solid).symm) acyclic
  obtain ⟨below, answerBelow⟩ := (closed.wellFormed memberU memberT).exists_isSubtype
  obtain ⟨above, answerAbove⟩ := (closed.wellFormed memberT memberU).exists_isSubtype
  exact ⟨below, above, answerBelow, belowSame ▸ answerBelow, answerAbove, aboveSame ▸ answerAbove⟩

/-- A union of void, a union of int and null, and null; the union of null and int; and a name for the union of the
    two with bool. -/
def nestedNumbers : Environment :=
  .ofBodies [.intersection [.type .int, .type .null],
    .intersection [.type .void, .node (.union ⟨1⟩), .type .null], .node (.union ⟨2⟩), .union [.type .null, .type .int],
    .union [.type .int, .type .null, .type .bool], .node (.nominal ⟨5⟩)]

def nestedTypes : List TypeId := [⟨101⟩, ⟨103⟩, ⟨104⟩, ⟨105⟩, ⟨106⟩, .void, .int, .null, .bool]

/-- Both unions are below the name, and the name is below neither. -/
theorem nestedNumbers_rearranged :
    nestedNumbers.types.list? ⟨2⟩ = some [.void, ⟨101⟩, .null] ∧
      (∀ x, x ≠ .void → (nestedNumbers.Leaf ⟨103⟩ x ↔ nestedNumbers.Leaf ⟨104⟩ x)) ∧
      nestedNumbers.isSubtype ⟨103⟩ ⟨106⟩ = .ok true ∧ nestedNumbers.isSubtype ⟨104⟩ ⟨106⟩ = .ok true ∧
      nestedNumbers.isSubtype ⟨106⟩ ⟨103⟩ = .ok false ∧ nestedNumbers.isSubtype ⟨106⟩ ⟨104⟩ = .ok false := by
  have outer : nestedNumbers.types.list? ⟨2⟩ = some [.void, ⟨101⟩, .null] := by decide +kernel
  have raw : nestedNumbers.types.node? ⟨103⟩ = some (.union ⟨2⟩) := by decide +kernel
  have normal : nestedNumbers.types.node? ⟨104⟩ = some (.union ⟨3⟩) := by decide +kernel
  have leaves : ∀ x, x ≠ .void → (nestedNumbers.Leaf ⟨103⟩ x ↔ nestedNumbers.Leaf ⟨104⟩ x) := by
    have inner : nestedNumbers.types.list? ⟨1⟩ = some [.int, .null] := by decide +kernel
    have flat : nestedNumbers.types.list? ⟨3⟩ = some [.null, .int] := by decide +kernel
    intro x solid
    have primitive (k : Primitive) : nestedNumbers.Leaf k.id x ↔ x = k.id :=
      leaf_of_plain (by simp [TypeStore.node?_primitive])
    have void : nestedNumbers.Leaf .void x ↔ x = .void := primitive .void
    have int : nestedNumbers.Leaf .int x ↔ x = .int := primitive .int
    have null : nestedNumbers.Leaf .null x ↔ x = .null := primitive .null
    have within : nestedNumbers.Leaf ⟨101⟩ x ↔ x = .int ∨ x = .null := by
      rw [leaf_of_union (by decide +kernel) inner]
      simp [int, null]
    rw [leaf_of_union raw outer, leaf_of_union normal flat]
    simp only [List.mem_cons, List.not_mem_nil, or_false, exists_eq_or_imp, exists_eq_left, void, int, null, within]
    tauto
  have closed : nestedNumbers.Closed {t | t ∈ nestedTypes} := .of_list _ (by decide +kernel)
  have acyclic : nestedNumbers.Acyclic {t | t ∈ nestedTypes} :=
    closed.acyclic_of_list [⟨105⟩, .int, .null, .bool] (by decide +kernel) (by decide +kernel) (by decide +kernel)
  obtain ⟨below, above, first, second, third, fourth⟩ :=
    isSubtype_rearranged closed (.of_list _ (by decide +kernel)) acyclic (t := ⟨106⟩) (by decide) (by decide) (by decide)
      raw normal leaves (by decide +kernel)
  have subtype : nestedNumbers.isSubtype ⟨103⟩ ⟨106⟩ = .ok true := by decide +kernel
  have not_subtype : nestedNumbers.isSubtype ⟨106⟩ ⟨103⟩ = .ok false := by decide +kernel
  exact ⟨outer, leaves, subtype, second.trans (first.symm.trans subtype), not_subtype,
    fourth.trans (third.symm.trans not_subtype)⟩

end Environment

end Narrowing
