import Narrowing.Proofs.NormalForm

/-!
Groupings of unions and intersections. A group of operands stands for their distinct
leaves, in the store it is built in and in later ones (`Groups.builds`), so it does
not matter how operands are grouped: calls that join the same operands in the same
order return the same type (`exists_build_grouped`). Two things stand in the way. A
list that an operand names but that is missing may be entered by one of the calls;
and an intersection of operands without leaves is the type any, which is not left
out.
-/

namespace Narrowing

/-- A step that has a result hands it on. -/
theorem Construct.bind_of_ok {α β : Type} {first : Construct α} {next : α → Construct β} {s s' : TypeStore} {a : α}
    (done : first s = (.ok a, s')) : (first >>= next) s = next a s' := by
  change ExceptT.bindCont next (first s).1 (first s).2 = _
  rw [done]
  rfl

namespace TypeExpr

variable {s s' s'' : TypeStore}

theorem build_type (t : TypeId) (s : TypeStore) : (TypeExpr.type t).build s = (.ok t, s) := by
  rw [build]
  rfl

theorem buildAll_nil (s : TypeStore) : buildAll [] s = (.ok [], s) := by
  rw [buildAll]
  rfl

theorem buildAll_cons {e : TypeExpr} {rest : List TypeExpr} {t : TypeId} {types : List TypeId}
    (first : e.build s = (.ok t, s')) (later : buildAll rest s' = (.ok types, s'')) :
    buildAll (e :: rest) s = (.ok (t :: types), s'') := by
  rw [buildAll, Construct.bind_of_ok first, Construct.bind_of_ok later]
  rfl

end TypeExpr

namespace TypeStore

theorem Extends.size_le {s s' : TypeStore} (larger : s.Extends s') : s.nodes.size ≤ s'.nodes.size := by
  by_contra fewer
  have inside : s'.nodes.size < s.nodes.size := Nat.not_le.mp fewer
  obtain ⟨n, held⟩ : ∃ n, s.nodes.get? s'.nodes.size = some n := ⟨_, Pool.get?_eq_some_iff.mpr ⟨inside, rfl⟩⟩
  have known : s.node? ⟨TypeId.first + s'.nodes.size⟩ = some n := node?_eq_some_iff.mpr (.inr ⟨_, rfl, held⟩)
  exact absurd (val_lt_size (larger.node known)) (Nat.lt_irrefl _)

end TypeStore

namespace Joint

/-- The call that joins what some expressions describe. -/
def expr : Joint → List TypeExpr → TypeExpr
  | .union => .union
  | .intersection => .intersection

theorem build_expr (j : Joint) {parts : List TypeExpr} {types : List TypeId} {s s' : TypeStore}
    (built : TypeExpr.buildAll parts s = (.ok types, s')) :
    (j.expr parts).build s = (.ok (j.build types s').1, (j.build types s').2) := by
  cases j with
  | union =>
    rw [expr, TypeExpr.build, Construct.bind_of_ok built]
    rfl
  | intersection =>
    rw [expr, TypeExpr.build, Construct.bind_of_ok built]
    rfl

/-! ### Operands in growing stores -/

/-- All that is nested in a type is the same in another store, and what is missing is still missing. -/
def Unchanged (j : Joint) (s s' : TypeStore) (t : TypeId) : Prop :=
  ∀ u, j.Nests s t u → s'.node? u = s.node? u ∧ ∀ l, (s.node? u).bind j.part? = some l → s'.list? l = s.list? l

section
variable {j : Joint} {s s' last : TypeStore} {t : TypeId}

/-- In a larger store nothing changes if nothing is missing, which can be checked type by type. -/
theorem Unchanged.of_list (types : List TypeId)
    (checked : ∀ t ∈ types, (s.node? t).isSome ∧ (∀ l ∈ (s.node? t).bind j.part?, (s.list? l).isSome) ∧
      ∀ u ∈ j.members s t, u ∈ types) (larger : s.Extends s') (listed : t ∈ types) : j.Unchanged s s' t := by
  intro u nests
  have inside : u ∈ types := by
    induction nests with
    | refl => exact listed
    | tail _ holds ih => exact (checked _ ih).2.2 _ holds
  obtain ⟨known, opens, -⟩ := checked u inside
  obtain ⟨n, known⟩ := Option.isSome_iff_exists.mp known
  refine ⟨by rw [larger.node known, known], fun l opened => ?_⟩
  obtain ⟨members, found⟩ := Option.isSome_iff_exists.mp (opens l opened)
  rw [larger.list found, found]

/-- What is missing at the end was missing all the time. -/
theorem Unchanged.between (unchanged : j.Unchanged s last t) (larger : s.Extends s') (more : s'.Extends last) :
    j.Unchanged s s' t := by
  intro u nests
  obtain ⟨sameNode, sameList⟩ := unchanged u nests
  constructor
  · cases known : s'.node? u with
    | none => cases here : s.node? u with
      | none => rfl
      | some n => simp [larger.node here] at known
    | some n => rw [← sameNode, more.node known]
  · intro l opened
    cases found : s'.list? l with
    | none => cases here : s.list? l with
      | none => rfl
      | some members => simp [larger.list here] at found
    | some members => rw [← sameList l opened, more.list found]

theorem Unchanged.leavesWithin_eq (unchanged : j.Unchanged s s' t) (depth : Nat) :
    s'.leavesWithin j.part? depth t = s.leavesWithin j.part? depth t := by
  induction depth generalizing t with
  | zero => rfl
  | succ depth ih =>
    obtain ⟨sameNode, sameList⟩ := unchanged t .refl
    simp only [TypeStore.leavesWithin, sameNode]
    cases opened : (s.node? t).bind j.part? with
    | none => rfl
    | some l =>
      simp only [sameList l opened]
      cases found : s.list? l with
      | none => rfl
      | some members =>
        refine List.flatMap_congr fun m listed => ih fun u nests => unchanged u (.head ?_ nests)
        exact holds_of_list opened found listed

/-- A type keeps its leaves while the store grows, unless something that it nests is entered. -/
theorem Unchanged.leaves_eq (unchanged : j.Unchanged s s' t) (acyclic : j.Acyclic s t) (larger : s.Extends s') :
    s'.leaves j.part? t = s.leaves j.part? t := by
  rw [TypeStore.leaves, unchanged.leavesWithin_eq]
  have deep : (j.joints s t).ncard ≤ s'.nodes.size + 1 := by
    have few := j.ncard_joints_le s t
    have grown := larger.size_le
    omega
  exact (acyclic.leavesOf_leavesWithin deep).unique acyclic.leavesOf

end

/-- Types stand for members if the members are their distinct leaves, from one store to another. -/
def Stands (j : Joint) (s last : TypeStore) (types members : List TypeId) : Prop :=
  ∀ s' : TypeStore, s.Extends s' → s'.Extends last → j.distinct (types.flatMap (s'.leaves j.part?)) = members

section
variable {j : Joint} {s s' last : TypeStore}

theorem Stands.of_extends {types members : List TypeId} (stands : j.Stands s last types members)
    (larger : s.Extends s') : j.Stands s' last types members :=
  fun s'' larger' => stands s'' (larger.trans larger')

theorem Stands.cons {t : TypeId} {types first second : List TypeId} (head : j.Stands s last [t] (j.distinct first))
    (tail : j.Stands s last types (j.distinct second)) :
    j.Stands s last (t :: types) (j.distinct (first ++ second)) := by
  intro s' larger more
  have headHere := head s' larger more
  rw [List.flatMap_singleton] at headHere
  rw [List.flatMap_cons, distinct_append, distinct_append, headHere, tail s' larger more]

/-- The joint of distinct leaves has these leaves, except that an intersection of none is a leaf itself. -/
theorem IsJoin.distinct_leaves {t : TypeId} {members : List TypeId} (join : j.IsJoin s t members)
    (plain : ∀ m ∈ members, (s.node? m).bind j.part? = none) (closed : j.distinct members = members)
    (filled : j = .intersection → members ≠ []) : j.distinct (s.leaves j.part? t) = members := by
  rcases members with _ | ⟨m, _ | ⟨n, rest⟩⟩
  · cases j with
    | union =>
      have void : s.leaves (part? .union) .void = [.void] := TypeStore.leaves_of_plain (by rfl)
      rw [show t = .void from join, void]
      decide
    | intersection => exact absurd rfl (filled rfl)
  · rw [show t = m from join, TypeStore.leaves_of_plain (plain m List.mem_cons_self), closed]
  · obtain ⟨l, known, found⟩ := join
    have opened : (s.node? t).bind j.part? = some l := by
      simpa [known] using part?_eq_some_iff.mpr rfl
    rw [TypeStore.leaves_of_list opened found plain, closed]

end

/-! ### Groups -/

/-- Expressions that are operands or join groups of operands, with the operands in order. Each group of an
    intersection has a leaf. -/
inductive Groups (j : Joint) (s : TypeStore) : TypeExpr → List TypeId → Prop where
  | operand (t : TypeId) : Groups j s (.type t) [t]
  | group {parts : List (TypeExpr × List TypeId)} : (∀ p ∈ parts, Groups j s p.1 p.2) →
      (j = .intersection → ¬ j.LeavesOf s (parts.flatMap Prod.snd) []) →
        Groups j s (j.expr (parts.map Prod.fst)) (parts.flatMap Prod.snd)

/-- A union of two operands is a group. -/
theorem Groups.union_pair (s : TypeStore) (t u : TypeId) : Groups .union s (.union [.type t, .type u]) [t, u] := by
  have each : ∀ p ∈ [(TypeExpr.type t, [t]), (TypeExpr.type u, [u])], Groups .union s p.1 p.2 := by
    simp [Groups.operand]
  exact .group each nofun

section
variable {j : Joint} {s last : TypeStore}

/-- An expression can be built in every later store, and up to the last store what it is built to stands for the
    leaves of its operands. -/
def Builds (j : Joint) (s last : TypeStore) (e : TypeExpr) (operands : List TypeId) : Prop :=
  ∀ s', s.Extends s' → ∃ t s'', e.build s' = (.ok t, s'') ∧ s'.Extends s'' ∧
    j.Stands s'' last [t] (j.distinct (operands.flatMap (s.leaves j.part?)))

section
variable {parts : List (TypeExpr × List TypeId)} (each : ∀ p ∈ parts, j.Builds s last p.1 p.2) {s' : TypeStore}
  (larger : s.Extends s')
include each larger

theorem buildAll_of_builds :
    ∃ types s'', TypeExpr.buildAll (parts.map Prod.fst) s' = (.ok types, s'') ∧ s'.Extends s'' ∧
      j.Stands s'' last types (j.distinct ((parts.flatMap Prod.snd).flatMap (s.leaves j.part?))) := by
  induction parts generalizing s' with
  | nil => exact ⟨[], s', TypeExpr.buildAll_nil s', .refl s', fun _ _ _ => rfl⟩
  | cons p rest ih =>
    obtain ⟨here, later⟩ := List.forall_mem_cons.mp each
    obtain ⟨t, between, first, grows, stands⟩ := here s' larger
    obtain ⟨types, final, built, growsRest, standsRest⟩ := ih later (larger.trans grows)
    refine ⟨t :: types, final, TypeExpr.buildAll_cons first built, grows.trans growsRest, ?_⟩
    rw [List.flatMap_cons, List.flatMap_append]
    exact (stands.of_extends growsRest).cons standsRest

/-- A call returns the joint of the distinct leaves of its operands, however they are grouped. -/
theorem isJoin_of_builds :
    ∃ t s'', (j.expr (parts.map Prod.fst)).build s' = (.ok t, s'') ∧ s'.Extends s'' ∧ (s''.Extends last →
      j.IsJoin s'' t (j.distinct ((parts.flatMap Prod.snd).flatMap (s.leaves j.part?)))) := by
  obtain ⟨types, between, built, grows, stands⟩ := buildAll_of_builds each larger
  have entered := (j.growing_build types between).toExtends
  refine ⟨_, _, j.build_expr built, grows.trans entered, fun more => ?_⟩
  rw [← stands between (.refl between) (entered.trans more)]
  exact j.isJoin_build between types

end

theorem leavesOf_operands {operands : List TypeId} (acyclic : ∀ t ∈ operands, j.Acyclic s t) :
    j.LeavesOf s operands (operands.flatMap (s.leaves j.part?)) :=
  leavesOf_flatMap fun t listed => (acyclic t listed).leavesOf

theorem Groups.builds {e : TypeExpr} {operands : List TypeId} (groups : j.Groups s e operands)
    (acyclic : ∀ t ∈ operands, j.Acyclic s t) (unchanged : ∀ t ∈ operands, j.Unchanged s last t) :
    j.Builds s last e operands := by
  induction groups with
  | operand t =>
    intro s' larger
    refine ⟨t, s', TypeExpr.build_type t s', .refl s', fun later larger' more => ?_⟩
    have still := (unchanged t List.mem_cons_self).between (larger.trans larger') more
    rw [List.flatMap_singleton, List.flatMap_singleton,
      still.leaves_eq (acyclic t List.mem_cons_self) (larger.trans larger')]
  | @group parts _ filled ih =>
    intro s' larger
    have given := leavesOf_operands acyclic
    have each : ∀ p ∈ parts, j.Builds s last p.1 p.2 := fun p listed =>
      ih p listed (List.forall_mem_flatMap.mp acyclic p listed) (List.forall_mem_flatMap.mp unchanged p listed)
    obtain ⟨t, s'', built, grows, join⟩ := isJoin_of_builds each larger
    refine ⟨t, s'', built, grows, fun later larger' more => ?_⟩
    have whole := (larger.trans grows).trans larger'
    rw [List.flatMap_singleton]
    refine ((join (larger'.trans more)).of_extends larger').distinct_leaves ?_ (distinct_distinct j _) ?_
    · intro m member
      obtain ⟨x, listed, nests, plain⟩ := given.mem_iff.mp (mem_distinct.mp member).1
      rw [((unchanged x listed).between whole more m nests).1, plain]
    · rintro rfl none
      have no_leaf : (parts.flatMap Prod.snd).flatMap (s.leaves (part? .intersection)) = [] := by
        refine List.eq_nil_iff_forall_not_mem.mpr fun m leaf => ?_
        have kept : m ∈ distinct .intersection _ := mem_distinct.mpr ⟨leaf, rfl⟩
        simp [none] at kept
      rw [no_leaf] at given
      exact filled rfl given

theorem builds_of_groups {parts : List (TypeExpr × List TypeId)} (groups : ∀ p ∈ parts, j.Groups s p.1 p.2)
    (acyclic : ∀ t ∈ parts.flatMap Prod.snd, j.Acyclic s t)
    (unchanged : ∀ t ∈ parts.flatMap Prod.snd, j.Unchanged s last t) : ∀ p ∈ parts, j.Builds s last p.1 p.2 :=
  fun p listed => (groups p listed).builds (List.forall_mem_flatMap.mp acyclic p listed)
    (List.forall_mem_flatMap.mp unchanged p listed)

end

/-- Calls that join the same operands return the same type, in the same store or a later one, however the operands are
    grouped, unless something that they nest has been entered in between. -/
theorem exists_build_grouped {j : Joint} {s : TypeStore} {parts parts' : List (TypeExpr × List TypeId)}
    (groups : ∀ p ∈ parts, j.Groups s p.1 p.2) (groups' : ∀ p ∈ parts', j.Groups s p.1 p.2)
    (same : parts'.flatMap Prod.snd = parts.flatMap Prod.snd)
    (acyclic : ∀ t ∈ parts.flatMap Prod.snd, j.Acyclic s t) :
    ∃ t s', (j.expr (parts.map Prod.fst)).build s = (.ok t, s') ∧ s.Extends s' ∧ ∀ later, s'.Extends later →
      ∃ t' final, (j.expr (parts'.map Prod.fst)).build later = (.ok t', final) ∧ later.Extends final ∧
        ((∀ x ∈ parts.flatMap Prod.snd, j.Unchanged s final x) → t' = t) := by
  have start : ∀ t, j.Unchanged s s t := fun _ _ _ => ⟨rfl, fun _ _ => rfl⟩
  have acyclic' : ∀ t ∈ parts'.flatMap Prod.snd, j.Acyclic s t := same ▸ acyclic
  obtain ⟨t, s', built, grows, -⟩ := isJoin_of_builds (builds_of_groups groups acyclic fun t _ => start t) (.refl s)
  refine ⟨t, s', built, grows, fun later larger => ?_⟩
  obtain ⟨t', final, built', grows', -⟩ :=
    isJoin_of_builds (builds_of_groups groups' acyclic' fun t _ => start t) (grows.trans larger)
  refine ⟨t', final, built', grows', fun unchanged => ?_⟩
  -- The same calls again, now with the final store as the last one.
  obtain ⟨u, between, again, -, join⟩ := isJoin_of_builds (builds_of_groups groups acyclic unchanged) (.refl s)
  obtain ⟨u', final', again', -, join'⟩ :=
    isJoin_of_builds (builds_of_groups groups' acyclic' (same ▸ unchanged)) (grows.trans larger)
  obtain ⟨types, rfl⟩ := Prod.mk.inj (built.symm.trans again)
  obtain ⟨types', rfl⟩ := Prod.mk.inj (built'.symm.trans again')
  obtain rfl := Except.ok.inj types
  obtain rfl := Except.ok.inj types'
  have later_join := (join (larger.trans grows')).of_extends (larger.trans grows')
  rw [← same] at later_join
  exact (join' (.refl final)).unique later_join

/-- What unions and intersections are built to. If no joint is nested in itself, the result is the joint of the leaves
    that are kept, each at its first occurrence. However operands are grouped into calls, the result is the same type,
    in the same store or a later one, if what the operands nest is unchanged and each group of an intersection has a
    leaf. Joining a type with itself, or with void in a union, adds nothing, and a type in normal form is returned as
    it is. -/
theorem build_normalForm (j : Joint) (s : TypeStore) :
    (∀ types : List TypeId, (∀ t ∈ types, j.Acyclic s t) →
      s.Keeps (j.build types s).2 ∧ ∃ leaves members, j.LeavesOf s types leaves ∧ j.Kept leaves members ∧
        (∀ m ∈ members, (s.node? m).bind j.part? = none) ∧
        j.IsJoin (j.build types s).2 (j.build types s).1 members) ∧
    (∀ parts parts' : List (TypeExpr × List TypeId),
      (∀ p ∈ parts, j.Groups s p.1 p.2) → (∀ p ∈ parts', j.Groups s p.1 p.2) →
      parts'.flatMap Prod.snd = parts.flatMap Prod.snd → (∀ t ∈ parts.flatMap Prod.snd, j.Acyclic s t) →
      ∃ t s', (j.expr (parts.map Prod.fst)).build s = (.ok t, s') ∧ s.Extends s' ∧ ∀ later, s'.Extends later →
        ∃ t' final, (j.expr (parts'.map Prod.fst)).build later = (.ok t', final) ∧ later.Extends final ∧
          ((∀ x ∈ parts.flatMap Prod.snd, j.Unchanged s final x) → t' = t)) ∧
    ∀ t, j.build [t, t] s = j.build [t] s ∧ Build.union [t, .void] s = Build.union [t] s ∧
      Build.union [.void, t] s = Build.union [t] s ∧ (j.Normalised s t → j.build [t] s = (t, s)) := by
  refine ⟨fun types acyclic => ⟨j.growing_build types s, ?_⟩, fun parts parts' groups groups' same acyclic => ?_,
    fun t => ?_⟩
  · have leaves := leavesOf_operands acyclic
    refine ⟨_, _, leaves, j.kept_distinct _, fun m member => ?_, j.isJoin_build s types⟩
    obtain ⟨t, -, leaf⟩ := leaves.mem_iff.mp (mem_distinct.mp member).1
    exact leaf.2
  · exact exists_build_grouped groups groups' same acyclic
  · obtain ⟨right, left⟩ := union_void s t
    exact ⟨j.build_pair_self s t, right, left, Normalised.build_singleton⟩

/-- A union that lists void and another union. -/
def nestedUnions : TypeStore :=
  (TypeExpr.buildAll [.intersection [.type .int, .type .null],
    .intersection [.type .void, .node (.union ⟨1⟩), .type .null], .node (.union ⟨2⟩)] .empty).2

def nestedUnionTypes : List TypeId := [⟨103⟩, .bool, .int, .void, ⟨101⟩, .null]

/-- The nested union is opened whichever of its neighbours it is grouped with, also if the second call comes later. -/
theorem nestedUnions_normalForm :
    (∀ t ∈ nestedUnionTypes, Acyclic .union nestedUnions t) ∧
      (∃ members, Kept .union [.void, .int, .null, .null, .bool, .int] members ∧
        IsJoin .union (Build.union [⟨103⟩, .bool, .int] nestedUnions).2 ⟨104⟩ members) ∧
      ∃ s', (TypeExpr.union [.union [.type ⟨103⟩, .type .bool], .type .int]).build nestedUnions = (.ok ⟨104⟩, s') ∧
        ∀ later, s'.Extends later → ∃ final,
          (TypeExpr.union [.type ⟨103⟩, .union [.type .bool, .type .int]]).build later = (.ok ⟨104⟩, final) := by
  have acyclic : ∀ t ∈ nestedUnionTypes, Acyclic .union nestedUnions t := .of_list nestedUnionTypes (by decide +kernel)
  have operands : ∀ t ∈ [⟨103⟩, .bool, .int], Acyclic .union nestedUnions t :=
    fun t listed => acyclic t (by revert t; decide)
  obtain ⟨normal, grouped, -⟩ := build_normalForm .union nestedUnions
  refine ⟨acyclic, ?_, ?_⟩
  · obtain ⟨-, leaves, members, opened, kept, -, join⟩ := normal [⟨103⟩, .bool, .int] operands
    have found : [⟨103⟩, .bool, .int].flatMap (nestedUnions.leaves (part? .union)) =
        [.void, .int, .null, .null, .bool, .int] := by decide +kernel
    obtain rfl := opened.unique (found ▸ leavesOf_operands operands)
    have first : (Build.union [⟨103⟩, .bool, .int] nestedUnions).1 = ⟨104⟩ := by decide +kernel
    exact ⟨members, kept, first ▸ join⟩
  · obtain ⟨t, s', built, grows, later⟩ := grouped
      [(.union [.type ⟨103⟩, .type .bool], [⟨103⟩, .bool]), (.type .int, [.int])]
      [(.type ⟨103⟩, [⟨103⟩]), (.union [.type .bool, .type .int], [.bool, .int])]
      (by simp [Groups.operand, Groups.union_pair]) (by simp [Groups.operand, Groups.union_pair]) rfl operands
    have first : ((TypeExpr.union [.union [.type ⟨103⟩, .type .bool], .type .int]).build nestedUnions).1 =
        .ok ⟨104⟩ := by decide +kernel
    obtain rfl : t = ⟨104⟩ := Except.ok.inj ((congrArg Prod.fst built).symm.trans first)
    refine ⟨s', built, fun s'' larger => ?_⟩
    obtain ⟨t', final, built', grows', same⟩ := later s'' larger
    have all := (grows.trans larger).trans grows'
    obtain rfl := same fun t listed => .of_list nestedUnionTypes (by decide +kernel) all (by revert t; decide)
    exact ⟨final, built'⟩

/-- An intersection that lists nothing has no leaf, so a group of it alone is the type any, and any is not left out. A
    list that a union names may be entered by the first of two calls, and then only the second one opens the union. -/
theorem groupings_differ :
    (TypeExpr.buildAll [.intersection [.intersection [.node (.intersection ⟨0⟩)], .type .int],
      .intersection [.node (.intersection ⟨0⟩), .type .int]] .empty).1 = .ok [⟨101⟩, .int] ∧
    (TypeExpr.buildAll [.union [.union [.node (.union ⟨1⟩), .type .int], .union [.type .null, .type .bool]],
      .union [.node (.union ⟨1⟩), .type .int, .type .null, .type .bool]] .empty).1 = .ok [⟨101⟩, ⟨102⟩] := by
  decide +kernel

end Joint

end Narrowing
