import Narrowing.Proofs.Nesting
import Narrowing.Proofs.Tree

/-!
Unions and intersections in normal form. The leaves of some types are what is left
when nested joints are opened, in order (`LeavesOf`). Where no joint is nested in
itself the constructors find exactly these leaves, and the type they return is the
joint of the distinct ones, each at its first occurrence (`isJoin_build`).
-/

namespace Narrowing

namespace Joint

/-- What no types are joined to. -/
def unit : Joint → TypeId
  | .union => .void
  | .intersection => .any

/-- Whether a type becomes a member when it is joined with others; a union leaves void out. -/
def keeps : Joint → TypeId → Bool
  | .union, t => t ≠ .void
  | .intersection, _ => true

def build : Joint → List TypeId → Build TypeId
  | .union => Build.union
  | .intersection => Build.intersection

/-! ### Distinct leaves -/

/-- The members that some leaves are joined to, each at its first occurrence. -/
def distinct (j : Joint) (leaves : List TypeId) : List TypeId := leaves.eraseDups.filter j.keeps

theorem distinct_concat (j : Joint) (leaves : List TypeId) (t : TypeId) :
    j.distinct (leaves ++ [t]) =
      if t ∈ leaves ∨ j.keeps t = false then j.distinct leaves else j.distinct leaves ++ [t] := by
  rw [distinct, List.eraseDups_append, List.filter_append]
  by_cases old : t ∈ leaves <;> by_cases kept : j.keeps t <;>
    simp [List.removeAll, List.eraseDups_cons, old, kept, distinct]

theorem mem_distinct {j : Joint} {leaves : List TypeId} {t : TypeId} :
    t ∈ j.distinct leaves ↔ t ∈ leaves ∧ j.keeps t = true := by simp [distinct]

/-- Of later leaves those are added that have not been met. -/
theorem distinct_append (j : Joint) (first second : List TypeId) :
    j.distinct (first ++ second) = j.distinct first ++ (j.distinct second).filter (· ∉ j.distinct first) := by
  induction second using List.reverseRecOn with
  | nil => simp [distinct]
  | append_singleton second t ih =>
    rw [← List.append_assoc, distinct_concat, distinct_concat, ih]
    by_cases met : t ∈ first <;> by_cases old : t ∈ second <;> by_cases kept : j.keeps t <;>
      simp [met, old, kept, mem_distinct]

theorem distinct_eq_self {j : Joint} {members : List TypeId} (nodup : members.Nodup)
    (kept : ∀ m ∈ members, j.keeps m = true) : j.distinct members = members := by
  rw [distinct, eraseDups_of_nodup nodup]
  exact List.filter_eq_self.mpr kept

theorem distinct_distinct (j : Joint) (leaves : List TypeId) : j.distinct (j.distinct leaves) = j.distinct leaves :=
  distinct_eq_self ((nodup_eraseDups leaves).filter _) fun _ member => (mem_distinct.mp member).2

/-- The members of a list are those of its leaves that are kept, in the order of their first occurrences. -/
structure Kept (j : Joint) (leaves members : List TypeId) : Prop where
  mem_iff : ∀ t, t ∈ members ↔ t ∈ leaves ∧ j.keeps t = true
  ordered : members.Pairwise fun t u => leaves.idxOf t < leaves.idxOf u

theorem kept_distinct (j : Joint) (leaves : List TypeId) : j.Kept leaves (j.distinct leaves) := by
  refine ⟨fun t => mem_distinct, ?_⟩
  induction leaves using List.reverseRecOn with
  | nil => simp [distinct]
  | append_singleton leaves a ih =>
    have before : (j.distinct leaves).Pairwise fun t u => (leaves ++ [a]).idxOf t < (leaves ++ [a]).idxOf u := by
      refine ih.imp_of_mem fun {t u} memberT memberU less => ?_
      rwa [List.idxOf_append_of_mem (mem_distinct.mp memberT).1, List.idxOf_append_of_mem (mem_distinct.mp memberU).1]
    rw [distinct_concat]
    split
    case isTrue => exact before
    case isFalse new =>
      have absent : a ∉ leaves := fun old => new (.inl old)
      refine List.pairwise_append.mpr ⟨before, List.pairwise_singleton _ _, fun t member u same => ?_⟩
      obtain rfl := List.mem_singleton.mp same
      rw [List.idxOf_append_of_mem (mem_distinct.mp member).1, List.idxOf_append_of_notMem absent]
      exact Nat.lt_add_right _ (List.idxOf_lt_length_of_mem (mem_distinct.mp member).1)

theorem build_run (j : Joint) (types : List TypeId) (s : TypeStore) :
    j.build types s =
      match j.distinct (types.flatMap (s.leaves j.part?)) with
      | [] => (j.unit, s)
      | [t] => (t, s)
      | members => Build.intern (j.node (Build.list members s).1) (Build.list members s).2 := by
  cases j with
  | union => exact Build.union_run types s
  | intersection =>
    have all (leaves : List TypeId) : distinct .intersection leaves = leaves.eraseDups := by simp [distinct, keeps]
    have run : ∀ next : List TypeId → Build TypeId, (Build.flattened TypeNode.operands? types >>= next) s =
        next (types.flatMap (s.leaves TypeNode.operands?)).eraseDups s := fun next => rfl
    rw [build, Build.intersection, run, all, part?]
    rcases (types.flatMap (s.leaves TypeNode.operands?)).eraseDups with _ | ⟨t, _ | ⟨u, rest⟩⟩ <;> rfl

/-! ### Leaves -/

/-- No type that is nested in one is nested in itself. -/
def Acyclic (j : Joint) (s : TypeStore) (t : TypeId) : Prop :=
  ∀ u, j.Nests s t u → ¬ Relation.TransGen (j.Holds s) u u

/-- The leaves of some types, in order. A joint whose list is not there has none. -/
inductive LeavesOf (j : Joint) (s : TypeStore) : List TypeId → List TypeId → Prop where
  | nil : LeavesOf j s [] []
  | leaf {t : TypeId} {rest leaves : List TypeId} : (s.node? t).bind j.part? = none → LeavesOf j s rest leaves →
      LeavesOf j s (t :: rest) (t :: leaves)
  | absent {t : TypeId} {l : ListId} {rest leaves : List TypeId} : (s.node? t).bind j.part? = some l →
      s.list? l = none → LeavesOf j s rest leaves → LeavesOf j s (t :: rest) leaves
  | nested {t : TypeId} {l : ListId} {members inner rest leaves : List TypeId} : (s.node? t).bind j.part? = some l →
      s.list? l = some members → LeavesOf j s members inner → LeavesOf j s rest leaves →
        LeavesOf j s (t :: rest) (inner ++ leaves)

section
variable {j : Joint} {s : TypeStore}

/-- That types are not nested in themselves can be checked type by type, where members have smaller numbers. -/
theorem Acyclic.of_list (types : List TypeId)
    (checked : ∀ t ∈ types, ∀ u ∈ j.members s t, u ∈ types ∧ u.val < t.val) : ∀ t ∈ types, j.Acyclic s t := by
  intro t listed u nests
  have inside : u ∈ types := by
    induction nests with
    | refl => exact listed
    | tail _ holds ih => exact (checked _ ih _ holds).1
  have falls : ∀ v, Relation.TransGen (j.Holds s) u v → v ∈ types ∧ v.val < u.val := by
    intro v path
    induction path with
    | single holds => exact checked u inside _ holds
    | tail _ holds ih =>
      obtain ⟨here, below⟩ := checked _ ih.1 _ holds
      exact ⟨here, below.trans ih.2⟩
  exact fun circle => Nat.lt_irrefl _ (falls u circle).2

theorem LeavesOf.unique {types first second : List TypeId} (one : j.LeavesOf s types first)
    (other : j.LeavesOf s types second) : first = second := by
  induction one generalizing second with
  | nil =>
    cases other
    rfl
  | leaf plain _ ih =>
    cases other with
    | leaf _ rest => rw [ih rest]
    | absent opened | nested opened => simp [plain] at opened
  | absent opened missing _ ih =>
    cases other with
    | leaf plain => simp [opened] at plain
    | absent _ _ rest => exact ih rest
    | nested opened' found =>
      rw [opened] at opened'
      cases opened'
      simp [missing] at found
  | nested opened found _ _ ihInner ihRest =>
    cases other with
    | leaf plain => simp [opened] at plain
    | absent opened' missing =>
      rw [opened] at opened'
      cases opened'
      simp [found] at missing
    | nested opened' found' inner rest =>
      rw [opened] at opened'
      cases opened'
      rw [found] at found'
      cases found'
      rw [ihInner inner, ihRest rest]

/-- The leaves of some types are the leaves of each of them. -/
theorem LeavesOf.mem_iff {types leaves : List TypeId} (given : j.LeavesOf s types leaves) {x : TypeId} :
    x ∈ leaves ↔ ∃ t ∈ types, j.Leaf s t x := by
  induction given with
  | nil => simp
  | leaf plain _ ih => simp [ih, leaf_of_plain plain]
  | absent opened missing _ ih => simp [ih, not_leaf_of_absent opened missing]
  | nested opened found _ _ ihInner ihRest => simp [ihInner, ihRest, leaf_of_list opened found]

/-- The joints nested in a type. -/
def joints (j : Joint) (s : TypeStore) (t : TypeId) : Set TypeId :=
  {u | j.Nests s t u ∧ ((s.node? u).bind j.part?).isSome}

theorem joints_subset (j : Joint) (s : TypeStore) (t : TypeId) :
    j.joints s t ⊆ Set.image (fun i => ⟨TypeId.first + i⟩) (Finset.range s.nodes.size : Set Nat) := by
  rintro u ⟨-, opened⟩
  obtain ⟨l, opened⟩ := Option.isSome_iff_exists.mp opened
  obtain ⟨n, known, joined⟩ := Option.bind_eq_some_iff.mp opened
  rcases TypeStore.node?_eq_some_iff.mp known with ⟨k, -, rfl⟩ | ⟨i, rfl, held⟩
  · cases j <;> simp [part?, TypeNode.alternatives?, TypeNode.operands?] at joined
  · exact ⟨i, by simpa using Pool.lt_size_of_get? held, rfl⟩

theorem ncard_joints_le (j : Joint) (s : TypeStore) (t : TypeId) : (j.joints s t).ncard ≤ s.nodes.size := by
  calc (j.joints s t).ncard ≤ (Set.image (fun i => TypeId.mk (TypeId.first + i)) (Finset.range s.nodes.size)).ncard :=
        Set.ncard_le_ncard (j.joints_subset s t) (Set.toFinite _)
    _ ≤ (Finset.range s.nodes.size : Set Nat).ncard := Set.ncard_image_le (Set.toFinite _)
    _ = s.nodes.size := by rw [Set.ncard_coe_finset, Finset.card_range]

theorem finite_joints (j : Joint) (s : TypeStore) (t : TypeId) : (j.joints s t).Finite :=
  (Set.toFinite _).subset (j.joints_subset s t)

theorem Acyclic.of_holds {t u : TypeId} (acyclic : j.Acyclic s t) (holds : j.Holds s t u) : j.Acyclic s u :=
  fun v nests => acyclic v (.head holds nests)

/-- Fewer joints are nested in a member, if the joint is not nested in itself. -/
theorem Acyclic.ncard_joints_lt {t u : TypeId} (acyclic : j.Acyclic s t) (holds : j.Holds s t u) :
    (j.joints s u).ncard < (j.joints s t).ncard := by
  refine Set.ncard_lt_ncard ⟨fun v below => ⟨.head holds below.1, below.2⟩, fun back => ?_⟩ (j.finite_joints s t)
  have opened : ((s.node? t).bind j.part?).isSome := by
    by_contra plain
    rw [Option.not_isSome_iff_eq_none] at plain
    simp [Holds, members, plain] at holds
  obtain ⟨nests, -⟩ := back ⟨.refl, opened⟩
  exact acyclic t .refl (.head' holds nests)

theorem LeavesOf.cons {t : TypeId} {rest first leaves : List TypeId} (head : j.LeavesOf s [t] first)
    (tail : j.LeavesOf s rest leaves) : j.LeavesOf s (t :: rest) (first ++ leaves) := by
  cases head with
  | leaf plain none =>
    cases none
    exact .leaf plain tail
  | absent opened missing none =>
    cases none
    exact .absent opened missing tail
  | nested opened found inner none =>
    cases none
    simpa using LeavesOf.nested opened found inner tail

theorem leavesOf_flatMap {leaves : TypeId → List TypeId} {types : List TypeId}
    (each : ∀ t ∈ types, j.LeavesOf s [t] (leaves t)) : j.LeavesOf s types (types.flatMap leaves) := by
  induction types with
  | nil => exact .nil
  | cons t rest ih =>
    obtain ⟨head, tail⟩ := List.forall_mem_cons.mp each
    exact head.cons (ih tail)

/-- Opening joints as deep as they are nested finds all leaves. -/
theorem Acyclic.leavesOf_leavesWithin {t : TypeId} (acyclic : j.Acyclic s t) {depth : Nat}
    (deep : (j.joints s t).ncard ≤ depth) : j.LeavesOf s [t] (s.leavesWithin j.part? depth t) := by
  induction depth generalizing t with
  | zero =>
    have plain : (s.node? t).bind j.part? = none := by
      by_contra opened
      have counted : t ∈ j.joints s t := ⟨.refl, by simpa [Option.isSome_iff_ne_none] using opened⟩
      rw [(Set.ncard_eq_zero (j.finite_joints s t)).mp (Nat.le_zero.mp deep)] at counted
      exact counted
    exact .leaf plain .nil
  | succ depth ih =>
    cases opened : (s.node? t).bind j.part? with
    | none =>
      rw [TypeStore.leavesWithin_of_plain opened]
      exact .leaf opened .nil
    | some l =>
      cases found : s.list? l with
      | none => simpa [TypeStore.leavesWithin, opened, found] using LeavesOf.absent opened found .nil
      | some members =>
        have inner : j.LeavesOf s members (members.flatMap (s.leavesWithin j.part? depth)) := by
          refine leavesOf_flatMap fun m listed => ?_
          have holds : j.Holds s t m := holds_of_list opened found listed
          have fewer := acyclic.ncard_joints_lt holds
          exact ih (acyclic.of_holds holds) (by omega)
        simpa [TypeStore.leavesWithin, opened, found] using LeavesOf.nested opened found inner .nil

theorem Acyclic.leavesOf {t : TypeId} (acyclic : j.Acyclic s t) : j.LeavesOf s [t] (s.leaves j.part? t) :=
  acyclic.leavesOf_leavesWithin (Nat.le_succ_of_le (j.ncard_joints_le s t))

/-! ### The joint of members -/

/-- The type that members are joined to: one of its own, or the member if there is one, or the unit if there is none. -/
def IsJoin (j : Joint) (s : TypeStore) (t : TypeId) : List TypeId → Prop
  | [] => t = j.unit
  | [m] => t = m
  | m :: n :: rest => ∃ l, s.node? t = some (j.node l) ∧ s.list? l = some (m :: n :: rest)

theorem IsJoin.unique {t u : TypeId} {members : List TypeId} (first : j.IsJoin s t members)
    (second : j.IsJoin s u members) : t = u := by
  rcases members with _ | ⟨m, _ | ⟨n, rest⟩⟩
  · exact first.trans second.symm
  · exact first.trans second.symm
  · obtain ⟨l, known, found⟩ := first
    obtain ⟨k, known', found'⟩ := second
    obtain rfl := TypeStore.list?_inj found found'
    exact TypeStore.node?_inj known known'

theorem IsJoin.of_extends {s' : TypeStore} (larger : s.Extends s') {t : TypeId} {members : List TypeId}
    (join : j.IsJoin s t members) : j.IsJoin s' t members := by
  rcases members with _ | ⟨m, _ | ⟨n, rest⟩⟩
  · exact join
  · exact join
  · obtain ⟨l, known, found⟩ := join
    exact ⟨l, larger.node known, larger.list found⟩

end

section
variable (j : Joint) (s : TypeStore)

theorem growing_build (types : List TypeId) : (j.build types).Growing := by
  cases j with
  | union => exact Build.growing_union types
  | intersection => exact Build.growing_intersection types

/-- The constructor returns the joint of the distinct leaves that it finds. -/
theorem isJoin_build (types : List TypeId) :
    j.IsJoin (j.build types s).2 (j.build types s).1 (j.distinct (types.flatMap (s.leaves j.part?))) := by
  rw [build_run]
  rcases j.distinct (types.flatMap (s.leaves j.part?)) with _ | ⟨m, _ | ⟨n, rest⟩⟩
  · rfl
  · rfl
  · have found := Build.list?_list (m :: n :: rest) s
    exact ⟨_, Build.node?_intern _ _, (Build.extends_intern _ _).list found⟩

theorem build_congr {types types' : List TypeId}
    (same : j.distinct (types.flatMap (s.leaves j.part?)) = j.distinct (types'.flatMap (s.leaves j.part?))) :
    j.build types s = j.build types' s := by rw [build_run, build_run, same]

theorem build_pair_self (t : TypeId) : j.build [t, t] s = j.build [t] s := by
  refine j.build_congr s ?_
  have again : (j.distinct (s.leaves j.part? t)).filter (· ∉ j.distinct (s.leaves j.part? t)) = [] := by simp
  simp only [List.flatMap_cons, List.flatMap_nil, List.append_nil, distinct_append, again]

end

theorem union_void (s : TypeStore) (t : TypeId) :
    Build.union [t, .void] s = Build.union [t] s ∧ Build.union [.void, t] s = Build.union [t] s := by
  have void : s.leaves (part? .union) .void = [.void] := TypeStore.leaves_of_plain (by rfl)
  have none : distinct .union [.void] = [] := by decide
  constructor
  · refine build_congr .union s ?_
    simp only [List.flatMap_cons, List.flatMap_nil, List.append_nil, void, distinct_append, none, List.filter_nil]
  · refine build_congr .union s ?_
    simp only [List.flatMap_cons, List.flatMap_nil, List.append_nil, void, distinct_append, none, List.nil_append]
    simp

/-- A type that the constructor would return: it is not joined in this way, or it has several distinct members, all
    of them leaves that are kept. -/
def Normalised (j : Joint) (s : TypeStore) (t : TypeId) : Prop :=
  ∀ l, (s.node? t).bind j.part? = some l → ∃ members, s.list? l = some members ∧ 2 ≤ members.length ∧ members.Nodup ∧
    ∀ m ∈ members, j.keeps m = true ∧ (s.node? m).bind j.part? = none

theorem Normalised.build_singleton {j : Joint} {s : TypeStore} {t : TypeId} (normal : j.Normalised s t) :
    j.build [t] s = (t, s) := by
  rw [build_run, List.flatMap_singleton]
  cases opened : (s.node? t).bind j.part? with
  | none =>
    rw [TypeStore.leaves_of_plain opened]
    by_cases kept : j.keeps t
    · simp [distinct, List.eraseDups_cons, kept]
    · have none : j.unit = t := by
        cases j with
        | union =>
          have void : t = .void := by simpa [keeps] using kept
          exact void.symm
        | intersection => simp [keeps] at kept
      simp [distinct, List.eraseDups_cons, kept, none]
  | some l =>
    obtain ⟨members, found, several, nodup, plain⟩ := normal l opened
    rw [TypeStore.leaves_of_list opened found fun m listed => (plain m listed).2,
      distinct_eq_self nodup fun m listed => (plain m listed).1]
    have entry : Build.list members s = (l, s) := by rw [Build.list, Pool.intern_of_get? found]
    obtain ⟨n, known, joined⟩ := Option.bind_eq_some_iff.mp opened
    obtain rfl := part?_eq_some_iff.mp joined
    rcases members with _ | ⟨m, _ | ⟨n, rest⟩⟩
    · simp at several
    · simp at several
    · simp only [entry]
      exact Build.intern_of_node? known

end Joint

end Narrowing
