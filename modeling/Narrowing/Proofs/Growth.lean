import Narrowing.Proofs.Graph
import Narrowing.Type.Normal

/-!
Stores that grow. Building a type keeps every part that was there
(`TypeStore.Extends`), so a graph that was tidy stays so: all that is reached is
there, and its unions are in normal form (`Tidy.of_extends`). What the constructors
build from tidy types is tidy again.
-/

namespace Narrowing

theorem nodup_eraseDups {α : Type} [DecidableEq α] (items : List α) : items.eraseDups.Nodup := by
  induction count : items.length using Nat.strong_induction_on generalizing items with
  | _ n ih =>
    cases items with
    | nil => simp
    | cons a rest =>
      have shorter : (rest.filter fun b => !b == a).length < n := by
        rw [← count, List.length_cons]
        exact Nat.lt_succ_of_le (List.length_filter_le _ rest)
      rw [List.eraseDups_cons, List.nodup_cons]
      exact ⟨by simp [List.mem_eraseDups], ih _ shorter _ rfl⟩

theorem eraseDups_of_nodup {types : List TypeId} (distinct : types.Nodup) : types.eraseDups = types := by
  induction types with
  | nil => rfl
  | cons t rest ih =>
    obtain ⟨new, distinctRest⟩ := List.nodup_cons.mp distinct
    have others : (rest.filter fun u => !u == t) = rest := by
      refine List.filter_eq_self.mpr fun u member => ?_
      simpa using fun same : u = t => new (same ▸ member)
    rw [List.eraseDups_cons, others, ih distinctRest]

namespace TypeStore

/-- A node belongs to one type. -/
theorem node?_inj {s : TypeStore} {t u : TypeId} {n : TypeNode} (ht : s.node? t = some n) (hu : s.node? u = some n) :
    t = u :=
  congrArg Prod.fst ((Build.intern_of_node? ht).symm.trans (Build.intern_of_node? hu))

section
variable {s : TypeStore} {part? : TypeNode → Option ListId} {t : TypeId}

theorem leavesWithin_of_plain (plain : (s.node? t).bind part? = none) (depth : Nat) :
    s.leavesWithin part? depth t = [t] := by
  cases depth with
  | zero => rfl
  | succ depth => simp only [leavesWithin, plain]

theorem leaves_of_plain (plain : (s.node? t).bind part? = none) : s.leaves part? t = [t] :=
  leavesWithin_of_plain plain _

/-- A list of members that are not opened is the list of leaves. -/
theorem leaves_of_list {l : ListId} {members : List TypeId} (opened : (s.node? t).bind part? = some l)
    (found : s.list? l = some members) (plain : ∀ m ∈ members, (s.node? m).bind part? = none) :
    s.leaves part? t = members := by
  simp only [leaves, leavesWithin, opened, found, Option.getD_some]
  rw [List.flatMap_congr fun m member => leavesWithin_of_plain (plain m member) _, List.flatMap_singleton']

end

/-- Every part of one store has the same number in another. -/
structure Extends (s s' : TypeStore) : Prop where
  node : ∀ {t n}, s.node? t = some n → s'.node? t = some n
  list : ∀ {l types}, s.list? l = some types → s'.list? l = some types
  record : ∀ {r shape}, s.record? r = some shape → s'.record? r = some shape
  callable : ∀ {c shape}, s.callable? c = some shape → s'.callable? c = some shape

theorem Extends.refl (s : TypeStore) : s.Extends s := ⟨id, id, id, id⟩

theorem Extends.trans {s s' s'' : TypeStore} (first : s.Extends s') (second : s'.Extends s'') : s.Extends s'' :=
  ⟨second.node ∘ first.node, second.list ∘ first.list, second.record ∘ first.record,
    second.callable ∘ first.callable⟩

end TypeStore

namespace Build

theorem extends_intern (n : TypeNode) (s : TypeStore) : s.Extends (intern n s).2 := by
  refine ⟨node?_intern_of_node? n, ?_, ?_, ?_⟩ <;>
  · intro _ _ found
    unfold intern
    split <;> exact found

theorem extends_list (types : List TypeId) (s : TypeStore) : s.Extends (list types s).2 :=
  ⟨id, Pool.get?_intern_of_get? types, id, id⟩

theorem list?_list (types : List TypeId) (s : TypeStore) : (list types s).2.list? (list types s).1 = some types :=
  Pool.get?_intern s.lists types

/-- A record is entered with its shape. -/
theorem record_spec (shape : RecordShape) (s : TypeStore) :
    s.Extends (record shape s).2 ∧
      ∃ r, (record shape s).2.node? (record shape s).1 = some (.record r) ∧
        (record shape s).2.record? r = some shape := by
  let entered : TypeStore := { s with records := (s.records.intern shape).2 }
  let r : RecordId := ⟨(s.records.intern shape).1⟩
  have first : s.Extends entered := ⟨id, id, Pool.get?_intern_of_get? shape, id⟩
  have held : entered.record? r = some shape := Pool.get?_intern s.records shape
  have second := extends_intern (.record r) entered
  exact ⟨first.trans second, r, node?_intern (.record r) entered, second.record held⟩

/-- The members of a union of the given types: nested ones opened, without repetition and without void. -/
def unionMembers (types : List TypeId) (s : TypeStore) : List TypeId :=
  (types.flatMap (s.leaves TypeNode.alternatives?)).eraseDups.filter (· ≠ .void)

theorem mem_unionMembers {types : List TypeId} {s : TypeStore} {m : TypeId} :
    m ∈ unionMembers types s ↔ m ≠ .void ∧ ∃ t ∈ types, m ∈ s.leaves TypeNode.alternatives? t := by
  simp only [unionMembers, List.mem_filter, List.mem_eraseDups, List.mem_flatMap, decide_eq_true_eq]
  exact and_comm

theorem nodup_unionMembers (types : List TypeId) (s : TypeStore) : (unionMembers types s).Nodup :=
  (nodup_eraseDups _).filter _

theorem union_run (types : List TypeId) (s : TypeStore) :
    union types s =
      match unionMembers types s with
      | [] => (.void, s)
      | [t] => (t, s)
      | members => intern (.union (list members s).1) (list members s).2 := by
  show (match unionMembers types s with
    | [] => pure TypeId.void
    | [t] => pure t
    | members => do intern (.union (← list members)) : Build TypeId) s = _
  rcases unionMembers types s with _ | ⟨t, _ | ⟨u, rest⟩⟩ <;> rfl

/-- A union of the given types is void, their only member, or the union of several members. -/
theorem union_spec (types : List TypeId) (s : TypeStore) :
    s.Extends (union types s).2 ∧
      (unionMembers types s = [] ∧ (union types s).1 = .void ∨ unionMembers types s = [(union types s).1] ∨
        2 ≤ (unionMembers types s).length ∧ ∃ l, (union types s).2.node? (union types s).1 = some (.union l) ∧
          (union types s).2.list? l = some (unionMembers types s)) := by
  rw [union_run]
  rcases unionMembers types s with _ | ⟨t, _ | ⟨u, rest⟩⟩
  · exact ⟨.refl s, .inl ⟨rfl, rfl⟩⟩
  · exact ⟨.refl s, .inr (.inl rfl)⟩
  · have second := extends_intern (.union (list (t :: u :: rest) s).1) (list (t :: u :: rest) s).2
    exact ⟨(extends_list _ s).trans second,
      .inr (.inr ⟨by simp, _, node?_intern _ _, second.list (list?_list _ s)⟩)⟩

end Build

namespace Environment

/-- What the members of a union in normal form are like. -/
structure NormalMembers (env : Environment) (members : List TypeId) : Prop where
  several : 2 ≤ members.length
  nodup : members.Nodup
  inhabited : TypeId.void ∉ members
  plain : ∀ m ∈ members, ∀ k, env.types.node? m ≠ some (.union k)

theorem NormalMembers.ne_nil {env : Environment} {members : List TypeId} (normal : env.NormalMembers members) :
    members ≠ [] := by
  rintro rfl
  exact absurd normal.several (by simp)

/-- Whether a type is no union, or one in normal form. -/
def isNormal (env : Environment) (t : TypeId) : Bool :=
  match (env.types.node? t).bind TypeNode.alternatives? with
  | some l =>
    let members := (env.types.list? l).getD []
    2 ≤ members.length ∧ members.Nodup ∧ TypeId.void ∉ members ∧
      ∀ m ∈ members, ((env.types.node? m).bind TypeNode.alternatives?).isNone
  | none => true

/-- Everything that is reached from a type is there and in normal form. -/
def Tidy (env : Environment) (t : TypeId) : Prop := ∀ u, env.Reaches t u → env.isResolved u ∧ env.isNormal u

/-- One environment keeps all the parts of another, with the same declarations. -/
structure Extends (env env' : Environment) : Prop where
  types : env.types.Extends env'.types
  declarations : env'.declarations = env.declarations

section
variable {env : Environment} {t : TypeId}

theorem Tidy.resolved (tidy : env.Tidy t) : env.isResolved t := (tidy t .refl).1

theorem Tidy.part (tidy : env.Tidy t) {u : TypeId} (part : u ∈ env.parts t) : env.Tidy u :=
  fun v path => tidy v (.head part path)

theorem tidy_of_parts (resolved : env.isResolved t) (normal : env.isNormal t) (parts : ∀ u ∈ env.parts t, env.Tidy u) :
    env.Tidy t := by
  intro v path
  rcases Relation.ReflTransGen.cases_head path with rfl | ⟨u, part, rest⟩
  · exact ⟨resolved, normal⟩
  · exact parts u part v rest

theorem alternatives?_isNone_iff {m : TypeId} :
    ((env.types.node? m).bind TypeNode.alternatives?).isNone ↔ ∀ k, env.types.node? m ≠ some (.union k) := by
  cases env.types.node? m with
  | none => simp
  | some n => cases n <;> simp [TypeNode.alternatives?]

theorem isNormal_union_iff {l : ListId} {members : List TypeId} (known : env.types.node? t = some (.union l))
    (found : env.types.list? l = some members) : env.isNormal t ↔ env.NormalMembers members := by
  simp only [isNormal, known, Option.bind_some, TypeNode.alternatives?, found, Option.getD_some, decide_eq_true_eq]
  constructor
  · rintro ⟨several, nodup, inhabited, plain⟩
    exact ⟨several, nodup, inhabited, fun m member => alternatives?_isNone_iff.mp (plain m member)⟩
  · intro normal
    exact ⟨normal.several, normal.nodup, normal.inhabited,
      fun m member => alternatives?_isNone_iff.mpr (normal.plain m member)⟩

theorem isNormal_of_other {n : TypeNode} (known : env.types.node? t = some n) (other : ∀ l, n ≠ .union l) :
    env.isNormal t := by
  cases n with
  | union l => exact absurd rfl (other l)
  | _ => simp [isNormal, known, TypeNode.alternatives?]

/-- A type is tidy if its node can be compared, it is in normal form, and its parts are tidy. -/
theorem tidy_of_node {n : TypeNode} (known : env.types.node? t = some n) (resolved : env.resolves n)
    (normal : env.isNormal t) (parts : ∀ u ∈ env.partsOf n, env.Tidy u) : env.Tidy t := by
  refine tidy_of_parts (isResolved_iff.mpr ⟨n, known, resolved⟩) normal ?_
  rwa [parts_of_node known]

theorem tidy_void (env : Environment) : env.Tidy .void := by
  have known : env.types.node? .void = some (.primitive .void) := env.types.node?_primitive .void
  exact tidy_of_node known rfl (isNormal_of_other known (by simp)) (by simp [partsOf])

theorem tidy_array {e : TypeId} (known : env.types.node? t = some (.array e)) (element : env.Tidy e) : env.Tidy t :=
  tidy_of_node known rfl (isNormal_of_other known (by simp)) (by simpa [partsOf] using element)

theorem tidy_record {r : RecordId} {shape : RecordShape} (known : env.types.node? t = some (.record r))
    (found : env.types.record? r = some shape) (fields : ∀ f ∈ shape.fields, env.Tidy f.type) : env.Tidy t :=
  tidy_of_node known (by simp [resolves, found]) (isNormal_of_other known (by simp)) (by simpa [partsOf, found] using fields)

theorem tidy_union {l : ListId} {members : List TypeId} (known : env.types.node? t = some (.union l))
    (found : env.types.list? l = some members) (normal : env.NormalMembers members)
    (tidy : ∀ m ∈ members, env.Tidy m) : env.Tidy t :=
  tidy_of_node known (by simp [resolves, found]) ((isNormal_union_iff known found).mpr normal)
    (by simpa [partsOf, found] using tidy)

theorem closed_tidy (env : Environment) : env.Closed {t | env.Tidy t} :=
  ⟨fun t tidy => (tidy t .refl).1, fun _ tidy _ part => tidy.part part⟩

theorem Closed.tidy {types : Set TypeId} (closed : env.Closed types) (normal : ∀ u ∈ types, env.isNormal u)
    (member : t ∈ types) : env.Tidy t := by
  intro u path
  have inside : u ∈ types := reachable_subset member member closed.parts (.inl path)
  exact ⟨closed.resolved u inside, normal u inside⟩

theorem Tidy.known (tidy : env.Tidy t) : ∃ n, env.types.node? t = some n := by
  obtain ⟨n, known, -⟩ := (closed_tidy env).rests tidy
  exact ⟨n, known⟩

theorem Tidy.rests (tidy : env.Tidy t) {n : TypeNode} (known : env.types.node? t = some n) :
    env.Rests {t | env.Tidy t} n := by
  obtain ⟨n', known', rests⟩ := (closed_tidy env).rests tidy
  rw [known] at known'
  obtain rfl : n = n' := by simpa using known'
  exact rests

/-- A tidy union is in normal form, and its members are tidy. -/
theorem Tidy.union (tidy : env.Tidy t) {l : ListId} (known : env.types.node? t = some (.union l)) :
    ∃ members, env.types.list? l = some members ∧ env.NormalMembers members ∧ ∀ m ∈ members, env.Tidy m := by
  obtain ⟨members, found, tidyMembers⟩ := (tidy.rests known).union
  exact ⟨members, found, (isNormal_union_iff known found).mp (tidy t .refl).2, tidyMembers⟩

theorem alternatives?_eq_none (plain : ∀ k, env.types.node? t ≠ some (.union k)) :
    (env.types.node? t).bind TypeNode.alternatives? = none :=
  Option.isNone_iff_eq_none.mp (alternatives?_isNone_iff.mpr plain)

theorem leaves_of_other (plain : ∀ k, env.types.node? t ≠ some (.union k)) :
    env.types.leaves TypeNode.alternatives? t = [t] := TypeStore.leaves_of_plain (alternatives?_eq_none plain)

theorem leaves_of_union {l : ListId} {members : List TypeId} (known : env.types.node? t = some (.union l))
    (found : env.types.list? l = some members) (normal : env.NormalMembers members) :
    env.types.leaves TypeNode.alternatives? t = members := by
  refine TypeStore.leaves_of_list (by simp [known, TypeNode.alternatives?]) found fun m member => ?_
  exact alternatives?_eq_none (normal.plain m member)

/-- What is below a tidy type is tidy, and no union. -/
theorem Tidy.of_mem_leaves (tidy : env.Tidy t) {m : TypeId} (member : m ∈ env.types.leaves TypeNode.alternatives? t) :
    env.Tidy m ∧ ∀ k, env.types.node? m ≠ some (.union k) := by
  by_cases union : ∃ l, env.types.node? t = some (.union l)
  · obtain ⟨l, known⟩ := union
    obtain ⟨members, found, normal, tidyMembers⟩ := tidy.union known
    rw [leaves_of_union known found normal] at member
    exact ⟨tidyMembers m member, normal.plain m member⟩
  · have plain : ∀ k, env.types.node? t ≠ some (.union k) := fun k known => union ⟨k, known⟩
    rw [leaves_of_other plain, List.mem_singleton] at member
    subst member
    exact ⟨tidy, plain⟩

theorem tidy_unionMembers {types : List TypeId} (tidy : ∀ t ∈ types, env.Tidy t) :
    ∀ m ∈ Build.unionMembers types env.types, env.Tidy m ∧ ∀ k, env.types.node? m ≠ some (.union k) := by
  intro m member
  obtain ⟨-, t, listed, leaf⟩ := Build.mem_unionMembers.mp member
  exact (tidy t listed).of_mem_leaves leaf

/-- Several members that a union of tidy types has are in normal form. -/
theorem normalMembers_unionMembers {types : List TypeId} (tidy : ∀ t ∈ types, env.Tidy t)
    (several : 2 ≤ (Build.unionMembers types env.types).length) : env.NormalMembers (Build.unionMembers types env.types) :=
  ⟨several, Build.nodup_unionMembers types env.types, fun void => (Build.mem_unionMembers.mp void).1 rfl,
    fun m member => (tidy_unionMembers tidy m member).2⟩

/-- The union of one tidy type is the type itself. -/
theorem Tidy.union_singleton (tidy : env.Tidy t) : Build.union [t] env.types = (t, env.types) := by
  rw [Build.union_run]
  by_cases union : ∃ l, env.types.node? t = some (.union l)
  · obtain ⟨l, known⟩ := union
    obtain ⟨members, found, normal, -⟩ := tidy.union known
    have same : Build.unionMembers [t] env.types = members := by
      rw [Build.unionMembers, List.flatMap_singleton, leaves_of_union known found normal,
        eraseDups_of_nodup normal.nodup]
      refine List.filter_eq_self.mpr fun m member => ?_
      simpa using fun void : m = .void => normal.inhabited (void ▸ member)
    have entry : Build.list members env.types = (l, env.types) := by
      rw [Build.list, Pool.intern_of_get? found]
    have several := normal.several
    rw [same]
    rcases members with _ | ⟨m, _ | ⟨n, rest⟩⟩
    · simp at several
    · simp at several
    · simp only [entry]
      exact Build.intern_of_node? known
  · have plain : ∀ k, env.types.node? t ≠ some (.union k) := fun k known => union ⟨k, known⟩
    have same : Build.unionMembers [t] env.types = [t].filter (· ≠ .void) := by
      rw [Build.unionMembers, List.flatMap_singleton, leaves_of_other plain]
      rfl
    rw [same]
    by_cases void : t = .void
    · simp [void]
    · simp [void]

end

section
variable {env env' : Environment} (larger : env.Extends env')
include larger

theorem Extends.node?_eq {t : TypeId} (tidy : env.Tidy t) : env'.types.node? t = env.types.node? t := by
  obtain ⟨n, known⟩ := tidy.known
  rw [known, larger.types.node known]

theorem Extends.body?_eq (d : DeclId) : env'.declarations.body? d = env.declarations.body? d := by
  rw [larger.declarations]

theorem Extends.resolves {n : TypeNode} (resolved : env.resolves n) : env'.resolves n := by
  cases n with
  | record r =>
    obtain ⟨shape, found⟩ := Option.isSome_iff_exists.mp resolved
    simp [Environment.resolves, larger.types.record found]
  | callable c =>
    obtain ⟨shape, found⟩ := Option.isSome_iff_exists.mp resolved
    simp [Environment.resolves, larger.types.callable found]
  | union l | intersection l =>
    obtain ⟨members, found⟩ := Option.isSome_iff_exists.mp resolved
    simp [Environment.resolves, larger.types.list found]
  | nominal d => simpa [Environment.resolves, larger.body?_eq] using resolved
  | _ => exact resolved

theorem Extends.partsOf_eq {n : TypeNode} (resolved : env.resolves n) : env'.partsOf n = env.partsOf n := by
  cases n with
  | record r =>
    obtain ⟨shape, found⟩ := Option.isSome_iff_exists.mp resolved
    simp [partsOf, found, larger.types.record found]
  | callable c =>
    obtain ⟨shape, found⟩ := Option.isSome_iff_exists.mp resolved
    simp [partsOf, found, larger.types.callable found]
  | union l | intersection l =>
    obtain ⟨members, found⟩ := Option.isSome_iff_exists.mp resolved
    simp [partsOf, found, larger.types.list found]
  | nominal d => simp [partsOf, larger.body?_eq]
  | _ => rfl

theorem Extends.parts_eq {t : TypeId} (resolved : env.isResolved t) : env'.parts t = env.parts t := by
  obtain ⟨n, known, resolves⟩ := isResolved_iff.mp resolved
  rw [parts_of_node known, parts_of_node (larger.types.node known), larger.partsOf_eq resolves]

theorem NormalMembers.of_extends {members : List TypeId} (normal : env.NormalMembers members)
    (resolved : ∀ m ∈ members, env.isResolved m) : env'.NormalMembers members := by
  refine ⟨normal.several, normal.nodup, normal.inhabited, fun m member k same => ?_⟩
  obtain ⟨n, known, -⟩ := isResolved_iff.mp (resolved m member)
  rw [larger.types.node known] at same
  exact normal.plain m member k (known.trans same)

theorem Tidy.of_extends {t : TypeId} (tidy : env.Tidy t) : env'.Tidy t := by
  have back : ∀ u, env'.Reaches t u → env.Reaches t u := by
    intro u path
    induction path with
    | refl => exact .refl
    | tail _ part ih =>
      rw [larger.parts_eq (tidy _ ih).1] at part
      exact ih.tail part
  intro u path
  have tidyHere : env.Tidy u := fun v rest => tidy v ((back u path).trans rest)
  obtain ⟨n, known, resolves⟩ := isResolved_iff.mp (tidyHere u .refl).1
  refine ⟨isResolved_iff.mpr ⟨n, larger.types.node known, larger.resolves resolves⟩, ?_⟩
  by_cases union : ∃ l, n = .union l
  · obtain ⟨l, rfl⟩ := union
    obtain ⟨members, found, normal, tidyMembers⟩ := tidyHere.union known
    exact (isNormal_union_iff (larger.types.node known) (larger.types.list found)).mpr
      (normal.of_extends larger fun m member => (tidyMembers m member m .refl).1)
  · exact isNormal_of_other (larger.types.node known) fun l same => union ⟨l, same⟩

end

end Environment

end Narrowing
