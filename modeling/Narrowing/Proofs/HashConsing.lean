import Narrowing.Proofs.Tree

/-!
Types built by constructors. A type that only constructors have made, from types made
in that way, is drawn as the tree that they describe (`Built.depicts`), where unions
and intersections are in normal form. So two such types are the same exactly if they
are the same tree, whatever else has been done with the store.
-/

namespace Narrowing

namespace Tree

def primitive (k : Primitive) : Tree := .node (.primitive k) []

/-- What a tree contributes to a union or an intersection: its parts if it is one itself. In normal form the parts
    are not, so nothing more is opened. -/
def opened (joint : Layer) : Tree → List Tree
  | .node layer parts => if layer = joint then parts else [.node layer parts]

/-- The members of a union or an intersection of trees, each at its first occurrence. -/
def flattened (joint : Layer) (trees : List Tree) : List Tree := (trees.flatMap (opened joint)).eraseDups

/-- Several members joined; a single one stands for itself. -/
def joined (joint : Layer) (none : Tree) : List Tree → Tree
  | [] => none
  | [x] => x
  | members => .node joint members

/-- The union of trees in normal form. -/
def unionOf (trees : List Tree) : Tree :=
  joined .union (primitive .void) ((flattened .union trees).filter (· ≠ primitive .void))

/-- The intersection of trees in normal form. -/
def intersectionOf (trees : List Tree) : Tree :=
  joined .intersection (primitive .any) (flattened .intersection trees)

/-- What the members of a union or an intersection in normal form are like. -/
structure NormalParts (joint : Layer) (parts : List Tree) : Prop where
  several : 2 ≤ parts.length
  nodup : parts.Nodup
  apart : ∀ x ∈ parts, x.layer ≠ joint
  inhabited : joint = .union → primitive .void ∉ parts

/-- Every union and intersection in a tree is in normal form. -/
inductive Normal : Tree → Prop where
  | node {layer : Layer} {parts : List Tree} : (∀ x ∈ parts, Normal x) →
      (layer = .union ∨ layer = .intersection → NormalParts layer parts) → Normal (.node layer parts)

/-- A layer over normal parts is normal if it is neither a union nor an intersection. -/
theorem normal_of_other {layer : Layer} (other : ¬ (layer = .union ∨ layer = .intersection)) {parts : List Tree}
    (normal : ∀ x ∈ parts, x.Normal) : (node layer parts).Normal :=
  .node normal fun joint => absurd joint other

theorem normal_primitive (k : Primitive) : (primitive k).Normal := normal_of_other (by simp) (by simp)

section
variable {joint : Layer} (joins : joint = .union ∨ joint = .intersection)
include joins

theorem normal_opened {x : Tree} (normal : x.Normal) : ∀ y ∈ x.opened joint, y.Normal ∧ y.layer ≠ joint := by
  obtain ⟨layer, parts⟩ := x
  intro y member
  rw [opened] at member
  split at member
  case isTrue same =>
    subst same
    cases normal with
    | node each parts => exact ⟨each y member, (parts joins).apart y member⟩
  case isFalse other =>
    rw [List.mem_singleton] at member
    subst member
    exact ⟨normal, other⟩

theorem normal_flattened {trees : List Tree} (normal : ∀ x ∈ trees, x.Normal) :
    ∀ y ∈ flattened joint trees, y.Normal ∧ y.layer ≠ joint := by
  intro y member
  simp only [flattened, List.mem_eraseDups, List.mem_flatMap] at member
  obtain ⟨x, listed, below⟩ := member
  exact normal_opened joins (normal x listed) y below

end

theorem normal_joined {joint : Layer} {none : Tree} (base : none.Normal) {members : List Tree} (nodup : members.Nodup)
    (normal : ∀ y ∈ members, y.Normal ∧ y.layer ≠ joint) (inhabited : joint = .union → primitive .void ∉ members) :
    (joined joint none members).Normal := by
  rcases members with _ | ⟨x, _ | ⟨y, rest⟩⟩
  · exact base
  · exact (normal x (by simp)).1
  · refine .node (fun z member => (normal z member).1) fun _ => ?_
    exact ⟨by simp, nodup, fun z member => (normal z member).2, inhabited⟩

section
variable {trees : List Tree} (normal : ∀ x ∈ trees, x.Normal)
include normal

theorem normal_unionOf : (unionOf trees).Normal := by
  refine normal_joined (normal_primitive .void) ((nodup_eraseDups _).filter _) ?_ ?_
  · exact fun y member => normal_flattened (.inl rfl) normal y (List.mem_of_mem_filter member)
  · simp

theorem normal_intersectionOf : (intersectionOf trees).Normal :=
  normal_joined (normal_primitive .any) (nodup_eraseDups _) (normal_flattened (.inr rfl) normal) (by simp)

end

end Tree

private theorem forall₂_eraseDups {α β : Type} [DecidableEq α] [DecidableEq β] {R : α → β → Prop}
    (unique : Relator.BiUnique R) {as : List α} {bs : List β} (all : List.Forall₂ R as bs) :
    List.Forall₂ R as.eraseDups bs.eraseDups := by
  induction count : as.length using Nat.strong_induction_on generalizing as bs with
  | _ n ih =>
    cases all with
    | nil => simp
    | @cons a b as bs first rest =>
      rw [List.eraseDups_cons, List.eraseDups_cons]
      have others : List.Forall₂ R (as.filter fun x => !x == a) (bs.filter fun y => !y == b) := by
        refine List.rel_filter (fun x y related => ?_) rest
        have same : x = a ↔ y = b :=
          ⟨fun eq => unique.2 related (eq ▸ first), fun eq => unique.1 related (eq ▸ first)⟩
        simp [same]
      have shorter : (as.filter fun x => !x == a).length < n := by
        have := List.length_filter_le (fun x => !x == a) as
        rw [← count, List.length_cons]
        omega
      exact .cons first (ih _ shorter others rfl)

namespace TypeStore

/-- The nodes that are opened are those of a layer whose parts are listed. -/
def Joins (part? : TypeNode → Option ListId) (joint : Layer) : Prop :=
  ∀ (s : TypeStore) (n : TypeNode) (layer : Layer) (types : List TypeId), s.Shows n layer types →
    (layer = joint → ∃ l, part? n = some l ∧ s.list? l = some types) ∧ (layer ≠ joint → part? n = none)

theorem joins_alternatives : Joins TypeNode.alternatives? .union := by
  intro s n layer types shows
  cases shows with
  | union found => exact ⟨fun _ => ⟨_, rfl, found⟩, fun other => absurd rfl other⟩
  | _ => simp [TypeNode.alternatives?]

theorem joins_operands : Joins TypeNode.operands? .intersection := by
  intro s n layer types shows
  cases shows with
  | intersection found => exact ⟨fun _ => ⟨_, rfl, found⟩, fun other => absurd rfl other⟩
  | _ => simp [TypeNode.operands?]

section
variable {s : TypeStore} {part? : TypeNode → Option ListId} {joint : Layer} (joins : Joins part? joint)
include joins

theorem Depicts.leavesWithin_eq {t : TypeId} {x : Tree} (depicts : s.Depicts t x) (apart : x.layer ≠ joint)
    (depth : Nat) : s.leavesWithin part? depth t = [t] := by
  obtain ⟨layer, parts⟩ := x
  obtain ⟨n, types, known, shows, -⟩ := depicts_node_iff.mp depicts
  have closed := (joins s n layer types shows).2 apart
  cases depth with
  | zero => rfl
  | succ depth => simp [leavesWithin, known, closed]

theorem flatMap_leavesWithin {types : List TypeId} {trees : List Tree} (depicts : List.Forall₂ s.Depicts types trees)
    (apart : ∀ x ∈ trees, x.layer ≠ joint) (depth : Nat) : types.flatMap (s.leavesWithin part? depth) = types := by
  induction depicts with
  | nil => rfl
  | cons here _ ih =>
    obtain ⟨first, others⟩ := List.forall_mem_cons.mp apart
    rw [List.flatMap_cons, here.leavesWithin_eq joins first, ih others, List.singleton_append]

/-- Opening a type opens its tree. -/
theorem forall₂_leaves (listed : joint = .union ∨ joint = .intersection) {t : TypeId} {x : Tree}
    (depicts : s.Depicts t x) (normal : x.Normal) : List.Forall₂ s.Depicts (s.leaves part? t) (x.opened joint) := by
  obtain ⟨layer, parts⟩ := x
  obtain ⟨n, types, known, shows, below⟩ := depicts_node_iff.mp depicts
  rw [Tree.opened]
  split
  case isTrue same =>
    subst same
    obtain ⟨l, opened, found⟩ := (joins s n layer types shows).1 rfl
    cases normal with
    | node each members =>
      have parts_eq := flatMap_leavesWithin joins below (members listed).apart s.nodes.size
      simpa [leaves, leavesWithin, known, opened, found, parts_eq] using below
  case isFalse other =>
    rw [leaves, depicts.leavesWithin_eq joins other]
    exact .cons depicts .nil

theorem forall₂_flattened (listed : joint = .union ∨ joint = .intersection) {types : List TypeId} {trees : List Tree}
    (depicts : List.Forall₂ (fun t x => s.Depicts t x ∧ x.Normal) types trees) :
    List.Forall₂ s.Depicts (types.flatMap (s.leaves part?)).eraseDups (Tree.flattened joint trees) := by
  refine forall₂_eraseDups (depicts_biUnique s) (List.rel_flatMap depicts ?_)
  exact fun t x both => forall₂_leaves joins listed both.1 both.2

end

end TypeStore

namespace Build

open TypeStore

variable {s : TypeStore}

/-- A node that is entered is drawn as the layer it shows. -/
theorem depicts_intern {n : TypeNode} {layer : Layer} {types : List TypeId} {trees : List Tree}
    (shows : s.Shows n layer types) (parts : List.Forall₂ s.Depicts types trees) :
    (intern n s).2.Depicts (intern n s).1 (.node layer trees) := by
  have keeps := growing_intern n s
  refine depicts_node_iff.mpr ⟨n, types, node?_intern n s, shows.of_keeps keeps, ?_⟩
  exact parts.imp fun _ _ depicts => depicts.of_keeps keeps

theorem depicts_primitive (s : TypeStore) (k : Primitive) : s.Depicts k.id (.primitive k) :=
  depicts_node_iff.mpr ⟨.primitive k, [], s.node?_primitive k, .primitive k, .nil⟩

theorem depicts_record {shape : RecordShape} {names : List String} {trees : List Tree}
    (named : s.Spells (shape.fields.map Field.name) names)
    (parts : List.Forall₂ s.Depicts (shape.fields.map Field.type) trees) :
    (record shape s).2.Depicts (record shape s).1 (.node (.record shape.isOpen names) trees) := by
  let entered : TypeStore := { s with records := (s.records.intern shape).2 }
  have keeps : s.Keeps entered := ⟨⟨id, id, Pool.get?_intern_of_get? shape, id⟩, id, id⟩
  have held : entered.record? ⟨(s.records.intern shape).1⟩ = some shape := Pool.get?_intern s.records shape
  exact depicts_intern (.record held (named.of_keeps keeps)) (parts.imp fun _ _ depicts => depicts.of_keeps keeps)

theorem depicts_callable {shape : CallableShape} {captured lifetimeParams : List String} {trees : List Tree}
    (capturing : s.Spells shape.captured captured) (binding : s.Spells shape.lifetimeParams lifetimeParams)
    (parts : List.Forall₂ s.Depicts (shape.params ++ shape.returns) trees) :
    (callable shape s).2.Depicts (callable shape s).1
      (.node (.callable shape.kind shape.params.length captured lifetimeParams) trees) := by
  let entered : TypeStore := { s with callables := (s.callables.intern shape).2 }
  have keeps : s.Keeps entered := ⟨⟨id, id, id, Pool.get?_intern_of_get? shape⟩, id, id⟩
  have held : entered.callable? ⟨(s.callables.intern shape).1⟩ = some shape := Pool.get?_intern s.callables shape
  exact depicts_intern (.callable held (capturing.of_keeps keeps) (binding.of_keeps keeps))
    (parts.imp fun _ _ depicts => depicts.of_keeps keeps)

/-- Members that are listed under a new node are drawn under its layer. -/
theorem depicts_listed {join : ListId → TypeNode} {joint : Layer}
    (shows : ∀ {s : TypeStore} {l types}, s.list? l = some types → s.Shows (join l) joint types)
    {members : List TypeId} {trees : List Tree} (parts : List.Forall₂ s.Depicts members trees) :
    (intern (join (list members s).1) (list members s).2).2.Depicts
      (intern (join (list members s).1) (list members s).2).1 (.node joint trees) :=
  depicts_intern (shows (list?_list members s))
    (parts.imp fun _ _ depicts => depicts.of_keeps (growing_list members s))

theorem depicts_union {types : List TypeId} {trees : List Tree}
    (parts : List.Forall₂ (fun t x => s.Depicts t x ∧ x.Normal) types trees) :
    (union types s).2.Depicts (union types s).1 (Tree.unionOf trees) := by
  have members : List.Forall₂ s.Depicts (unionMembers types s)
      ((Tree.flattened .union trees).filter (· ≠ .primitive .void)) := by
    refine List.rel_filter (fun t x depicts => ?_) (forall₂_flattened joins_alternatives (.inl rfl) parts)
    have same : t = TypeId.void ↔ x = .primitive .void := depicts.eq_iff (depicts_primitive s .void)
    simp [same]
  rw [union_run, Tree.unionOf]
  generalize unionMembers types s = ms,
    (Tree.flattened .union trees).filter (· ≠ .primitive .void) = xs at members ⊢
  cases members with
  | nil => exact depicts_primitive s .void
  | cons first rest =>
    cases rest with
    | nil => exact first
    | cons second rest => exact depicts_listed .union (.cons first (.cons second rest))

theorem depicts_intersection {types : List TypeId} {trees : List Tree}
    (parts : List.Forall₂ (fun t x => s.Depicts t x ∧ x.Normal) types trees) :
    (intersection types s).2.Depicts (intersection types s).1 (Tree.intersectionOf trees) := by
  have members := forall₂_flattened joins_operands (.inr rfl) parts
  have run : ∀ next : List TypeId → Build TypeId, (flattened TypeNode.operands? types >>= next) s =
      next (types.flatMap (s.leaves TypeNode.operands?)).eraseDups s := fun next => rfl
  rw [intersection, run, Tree.intersectionOf]
  generalize (types.flatMap (s.leaves TypeNode.operands?)).eraseDups = ms,
    Tree.flattened .intersection trees = xs at members ⊢
  cases members with
  | nil => exact depicts_primitive s .any
  | cons first rest =>
    cases rest with
    | nil => exact first
    | cons second rest => exact depicts_listed .intersection (.cons first (.cons second rest))

end Build

namespace TypeStore

/-- A type has been made by constructors only, along a tree: it is given or the result of an operation on types that
    have been made in that way. The operations that come after, constructors or not, do not matter. -/
inductive Built : TypeStore → TypeId → Tree → Prop where
  | later {s : TypeStore} {t : TypeId} {x : Tree} (op : Operation) : Built s t x → Built (op.run s) t x
  | primitive (s : TypeStore) (k : Primitive) : Built s k.id (.primitive k)
  | array {s : TypeStore} {t : TypeId} {x : Tree} : Built s t x →
      Built ((Operation.array t).run s) (Build.array t s).1 (.node .array [x])
  | record {s : TypeStore} {t : TypeId} {isOpen : Bool} {fields : List Field} {names : List String}
      {parts : List (TypeId × Tree)} : (Build.recordOfFields isOpen fields s).1 = .ok t →
      s.Spells (fields.map Field.name) names → fields.map Field.type = parts.map Prod.fst →
      (∀ p ∈ parts, Built s p.1 p.2) →
        Built ((Operation.record isOpen fields).run s) t (.node (.record isOpen names) (parts.map Prod.snd))
  | static {s : TypeStore} {t : TypeId} {x : Tree} : Built s t x →
      Built ((Operation.reference t none).run s) (Build.reference t none s).1 (.node (.reference none) [x])
  | reference {s : TypeStore} {t : TypeId} {x : Tree} {n : Name} {lifetime : String} : s.names.text? n = some lifetime →
      Built s t x →
        Built ((Operation.reference t (some n)).run s) (Build.reference t (some n) s).1
          (.node (.reference (some lifetime)) [x])
  | callable {s : TypeStore} {shape : CallableShape} {captured lifetimeParams : List String}
      {parts : List (TypeId × Tree)} : s.Spells shape.captured captured →
      s.Spells shape.lifetimeParams lifetimeParams → shape.params ++ shape.returns = parts.map Prod.fst →
      (∀ p ∈ parts, Built s p.1 p.2) →
        Built ((Operation.callable shape).run s) (Build.callable shape s).1
          (.node (.callable shape.kind shape.params.length captured lifetimeParams) (parts.map Prod.snd))
  | union {s : TypeStore} {parts : List (TypeId × Tree)} : (∀ p ∈ parts, Built s p.1 p.2) →
      Built ((Operation.union (parts.map Prod.fst)).run s) (Build.union (parts.map Prod.fst) s).1
        (.unionOf (parts.map Prod.snd))
  | intersection {s : TypeStore} {parts : List (TypeId × Tree)} : (∀ p ∈ parts, Built s p.1 p.2) →
      Built ((Operation.intersection (parts.map Prod.fst)).run s) (Build.intersection (parts.map Prod.fst) s).1
        (.intersectionOf (parts.map Prod.snd))
  | negation {s : TypeStore} {t : TypeId} {x : Tree} : Built s t x →
      Built ((Operation.negation t).run s) (Build.negation t s).1 (.node .negation [x])
  | nominal (s : TypeStore) (d : DeclId) :
      Built ((Operation.nominal d).run s) (Build.nominal d s).1 (.node (.nominal d) [])
  | freshVariable (s : TypeStore) (text : String) :
      Built ((Operation.freshVariable text).run s) (Build.variableNamed text s).1 (.node (.var ⟨s.binders.size⟩) [])
  | unresolved (s : TypeStore) (text : String) :
      Built ((Operation.unresolved text).run s) (Build.unresolved text s).1 (.node (.unresolved text) [])

/-- Fields that make a record are the fields of its shape. -/
theorem recordOfFields_ok {s : TypeStore} {isOpen : Bool} {fields : List Field} {t : TypeId}
    (made : (Build.recordOfFields isOpen fields s).1 = .ok t) :
    ∃ shape : RecordShape, shape.isOpen = isOpen ∧ shape.fields = fields ∧ (Build.record shape s).1 = t ∧
      (Operation.record isOpen fields).run s = (Build.record shape s).2 := by
  rw [Operation.run]
  by_cases distinct : (fields.map Field.name).Nodup
  · rw [Build.recordOfFields, RecordShape.ofFields?, dif_pos distinct] at made ⊢
    exact ⟨⟨isOpen, fields, distinct⟩, rfl, rfl, Except.ok.inj made, rfl⟩
  · rw [Build.recordOfFields, RecordShape.ofFields?, dif_neg distinct] at made
    cases made

private theorem forall₂_parts {R : TypeId → Tree → Prop} {parts : List (TypeId × Tree)}
    (each : ∀ p ∈ parts, R p.1 p.2) : List.Forall₂ R (parts.map Prod.fst) (parts.map Prod.snd) := by
  rw [List.forall₂_map_left_iff, List.forall₂_map_right_iff, List.forall₂_same]
  exact each

/-- A type that is built along a tree is drawn as that tree, which is in normal form. -/
theorem Built.depicts {s : TypeStore} {t : TypeId} {x : Tree} (built : s.Built t x) : s.Depicts t x ∧ x.Normal := by
  induction built with
  | later op _ ih => exact ⟨ih.1.of_keeps (keeps_run _ op), ih.2⟩
  | primitive s k => exact ⟨Build.depicts_primitive s k, Tree.normal_primitive k⟩
  | array _ ih =>
    exact ⟨Build.depicts_intern (.array _) (.cons ih.1 .nil), Tree.normal_of_other (by simp) (by simpa using ih.2)⟩
  | record made named listed _ ih =>
    obtain ⟨shape, rfl, rfl, rfl, run⟩ := recordOfFields_ok made
    have parts := forall₂_parts fun p member => (ih p member).1
    rw [← listed] at parts
    rw [run]
    refine ⟨Build.depicts_record named parts, Tree.normal_of_other (by simp) ?_⟩
    exact List.forall_mem_map.mpr fun p member => (ih p member).2
  | static _ ih =>
    exact ⟨Build.depicts_intern (.static _) (.cons ih.1 .nil), Tree.normal_of_other (by simp) (by simpa using ih.2)⟩
  | reference named _ ih =>
    exact ⟨Build.depicts_intern (.reference _ named) (.cons ih.1 .nil), Tree.normal_of_other (by simp) (by simpa using ih.2)⟩
  | callable capturing binding listed _ ih =>
    have parts := forall₂_parts fun p member => (ih p member).1
    rw [← listed] at parts
    refine ⟨Build.depicts_callable capturing binding parts, Tree.normal_of_other (by simp) ?_⟩
    exact List.forall_mem_map.mpr fun p member => (ih p member).2
  | union _ ih =>
    refine ⟨Build.depicts_union (forall₂_parts ih), Tree.normal_unionOf ?_⟩
    exact List.forall_mem_map.mpr fun p member => (ih p member).2
  | intersection _ ih =>
    refine ⟨Build.depicts_intersection (forall₂_parts ih), Tree.normal_intersectionOf ?_⟩
    exact List.forall_mem_map.mpr fun p member => (ih p member).2
  | negation _ ih =>
    exact ⟨Build.depicts_intern (.negation _) (.cons ih.1 .nil), Tree.normal_of_other (by simp) (by simpa using ih.2)⟩
  | nominal s d => exact ⟨Build.depicts_intern (.nominal d) .nil, Tree.normal_of_other (by simp) (by simp)⟩
  | freshVariable s text => exact ⟨Build.depicts_intern (.var _) .nil, Tree.normal_of_other (by simp) (by simp)⟩
  | unresolved s text =>
    have named : (Build.name text s).2.names.text? (Build.name text s).1 = some text := s.names.text?_intern text
    exact ⟨Build.depicts_intern (.unresolved named) .nil, Tree.normal_of_other (by simp) (by simp)⟩

theorem after_concat (s : TypeStore) (history : List Operation) (op : Operation) :
    s.after (history ++ [op]) = op.run (s.after history) := by
  simp [after]

theorem Built.after {s : TypeStore} {history : List Operation} {t : TypeId} {x : Tree}
    (built : (s.after history).Built t x) (more : List Operation) : (s.after (history ++ more)).Built t x := by
  induction more generalizing history with
  | nil => rwa [List.append_nil]
  | cons op more ih =>
    have next := built.later op
    rw [← after_concat] at next
    have rest := ih next
    rwa [List.append_assoc, List.singleton_append] at rest

end TypeStore

end Narrowing
