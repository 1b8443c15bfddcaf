import Narrowing.Proofs.Groupings
import Narrowing.Proofs.RefinementRun
import Narrowing.Type.Printer

/-!
The structural order of types. A type stands above the types of its parts, and a
declaration above none. Where operations use only primitives and what earlier ones
returned, every part of a node is there before the node, so a type has a greater
number than those below it (`Layered`), whatever is declared. Each constructor keeps
this, also where it finds a list or a shape that is there already, and so does
refinement, which builds new types from components of old ones (`layered_refine`).
So nothing below a type leads back to it: writing and flattening end within the depth
that they are given (`Layered.exists_text`, `Layered.acyclic`).
-/

namespace Narrowing

namespace TypeStore

/-- The types directly below a node, a declaration not opened; none if the part that it refers to is missing. -/
def components? (s : TypeStore) : TypeNode → Option (List TypeId)
  | .primitive _ | .nominal _ | .var _ | .unresolved _ => some []
  | .array element | .reference element _ | .negation element => some [element]
  | .record shape => (s.record? shape).map fun shape => shape.fields.map Field.type
  | .callable shape => (s.callable? shape).map fun shape => shape.params ++ shape.returns
  | .union members | .intersection members => s.list? members

/-- One type stands directly below another. -/
def Below (s : TypeStore) (u t : TypeId) : Prop :=
  ∃ n components, s.node? t = some n ∧ s.components? n = some components ∧ u ∈ components

/-- A type is given or has been built. -/
def Knows (s : TypeStore) (t : TypeId) : Prop := (s.node? t).isSome

/-- The components of every type are there, and have smaller numbers. -/
def Layered (s : TypeStore) : Prop :=
  ∀ t n, s.node? t = some n →
    ∃ components, s.components? n = some components ∧ ∀ u ∈ components, s.Knows u ∧ u.val < t.val

variable {s s' : TypeStore}

theorem knows_primitive (s : TypeStore) {t : TypeId} (given : t.primitive?.isSome) : s.Knows t := by
  obtain ⟨k, found⟩ := Option.isSome_iff_exists.mp given
  rw [Knows, Primitive.eq_id_of_primitive? found, s.node?_primitive]
  rfl

theorem knows_iff {t : TypeId} : s.Knows t ↔ t.primitive?.isSome ∨ TypeId.first ≤ t.val ∧ t.val < s.size := by
  constructor
  · intro known
    obtain ⟨n, known⟩ := Option.isSome_iff_exists.mp known
    have small := val_lt_size known
    rcases node?_eq_some_iff.mp known with ⟨k, rfl, -⟩ | ⟨i, rfl, -⟩
    · exact .inl (by simp)
    · exact .inr ⟨Nat.le_add_right .., small⟩
  · rintro (given | ⟨far, small⟩)
    · exact s.knows_primitive given
    · obtain ⟨i, total⟩ := Nat.exists_eq_add_of_le far
      have inside : i < s.nodes.items.size := by
        simp only [size, Pool.size] at small
        omega
      have held : s.nodes.get? i = some s.nodes.items[i] := Pool.get?_eq_some_iff.mpr ⟨inside, rfl⟩
      have same : t = ⟨TypeId.first + i⟩ := congrArg TypeId.mk total
      exact Option.isSome_iff_exists.mpr ⟨_, node?_eq_some_iff.mpr (.inr ⟨i, same, held⟩)⟩

theorem Knows.of_extends (larger : s.Extends s') {t : TypeId} (known : s.Knows t) : s'.Knows t := by
  obtain ⟨n, known⟩ := Option.isSome_iff_exists.mp known
  exact Option.isSome_iff_exists.mpr ⟨n, larger.node known⟩

theorem components?_of_extends (larger : s.Extends s') {n : TypeNode} {components : List TypeId}
    (found : s.components? n = some components) : s'.components? n = some components := by
  cases n with
  | record r =>
    obtain ⟨shape, held, rfl⟩ := Option.map_eq_some_iff.mp found
    simp [components?, larger.record held]
  | callable c =>
    obtain ⟨shape, held, rfl⟩ := Option.map_eq_some_iff.mp found
    simp [components?, larger.callable held]
  | union l | intersection l => exact larger.list found
  | _ => exact found

/-! ### Layered stores -/

theorem layered_empty : TypeStore.empty.Layered := by
  intro t n known
  rcases node?_eq_some_iff.mp known with ⟨k, rfl, rfl⟩ | ⟨i, -, held⟩
  · exact ⟨[], rfl, by simp⟩
  · simp [empty, Pool.get?, Pool.empty] at held

theorem Layered.components (layered : s.Layered) {t : TypeId} {n : TypeNode} {components : List TypeId}
    (known : s.node? t = some n) (found : s.components? n = some components) :
    ∀ u ∈ components, s.Knows u ∧ u.val < t.val := by
  obtain ⟨components', found', each⟩ := layered t n known
  obtain rfl := Option.some.inj (found.symm.trans found')
  exact each

theorem Layered.wellFounded (layered : s.Layered) : WellFounded s.Below := by
  refine Subrelation.wf ?_ (InvImage.wf TypeId.val Nat.lt_wfRel.wf)
  rintro u t ⟨n, components, known, found, member⟩
  exact (layered.components known found u member).2

/-- What is built stays over its components in every larger store. -/
theorem Layered.components_of_extends (layered : s.Layered) (larger : s.Extends s') {t : TypeId} {n : TypeNode}
    (known : s.node? t = some n) :
    ∃ components, s'.components? n = some components ∧ ∀ u ∈ components, s'.Knows u ∧ u.val < t.val := by
  obtain ⟨components, found, each⟩ := layered t n known
  refine ⟨components, components?_of_extends larger found, fun u member => ?_⟩
  obtain ⟨there, small⟩ := each u member
  exact ⟨there.of_extends larger, small⟩

/-- Lists and shapes may be added, since none is missing. -/
theorem Layered.of_extends (layered : s.Layered) (larger : s.Extends s') (same : ∀ t, s'.node? t = s.node? t) :
    s'.Layered := by
  intro t n known
  rw [same] at known
  exact layered.components_of_extends larger known

end TypeStore

namespace Build

open TypeStore

variable {s : TypeStore}

/-- A type is new after a node is entered only if the node is its own, and then it has a greater number than all
    others. -/
theorem node?_of_intern {n m : TypeNode} {t : TypeId} (known : (intern n s).2.node? t = some m) :
    s.node? t = some m ∨ m = n ∧ ∀ u, s.Knows u → u.val < t.val := by
  by_cases old : s.Knows t
  · obtain ⟨m', before⟩ := Option.isSome_iff_exists.mp old
    obtain rfl := Option.some.inj (known.symm.trans (node?_intern_of_node? n before))
    exact .inl before
  · have kept : (intern n s).2.Knows t := Option.isSome_iff_exists.mpr ⟨m, known⟩
    refine .inr ⟨?_, fun u knownU => ?_⟩
    · unfold intern at known
      split at known
      case h_1 => exact absurd (Option.isSome_iff_exists.mpr ⟨m, known⟩) old
      case h_2 =>
        rcases node?_eq_some_iff.mp known with ⟨k, rfl, -⟩ | ⟨i, rfl, held⟩
        · exact absurd (s.knows_primitive (by simp)) old
        · rcases Pool.get?_intern_eq_some held with held | same
          · exact absurd (Option.isSome_iff_exists.mpr ⟨m, node?_eq_some_iff.mpr (.inr ⟨i, rfl, held⟩)⟩) old
          · exact same
    · obtain ⟨k, knownU⟩ := Option.isSome_iff_exists.mp knownU
      have small := val_lt_size knownU
      rw [knows_iff, not_or] at old
      rcases knows_iff.mp kept with given | ⟨far, -⟩
      · exact absurd given old.1
      · omega

/-- A construction that keeps a store layered and returns a type that is there. -/
def Yields (b : Build TypeId) (s : TypeStore) : Prop := (b s).2.Layered ∧ (b s).2.Knows (b s).1

theorem Yields.of_run {b first : Build TypeId} {s' : TypeStore} (yields : first.Yields s') (run : b s = first s') :
    b.Yields s := by
  rw [Yields, run]
  exact yields

section
variable (layered : s.Layered)
include layered

theorem yields_intern {n : TypeNode} {components : List TypeId} (found : s.components? n = some components)
    (known : ∀ u ∈ components, s.Knows u) : (intern n).Yields s := by
  have larger := extends_intern n s
  refine ⟨fun t m knownT => ?_, Option.isSome_iff_exists.mpr ⟨n, node?_intern n s⟩⟩
  rcases node?_of_intern knownT with before | ⟨rfl, newest⟩
  · exact layered.components_of_extends larger before
  · refine ⟨components, components?_of_extends larger found, fun u member => ?_⟩
    exact ⟨(known u member).of_extends larger, newest u (known u member)⟩

theorem yields_name (text : String) : (name text s).2.Layered :=
  layered.of_extends (growing_name text s).toExtends fun _ => rfl

theorem yields_record {shape : RecordShape} (known : ∀ f ∈ shape.fields, s.Knows f.type) : (record shape).Yields s := by
  let entered : TypeStore := { s with records := (s.records.intern shape).2 }
  have larger : s.Extends entered := ⟨id, id, Pool.get?_intern_of_get? shape, id⟩
  have held : entered.record? ⟨(s.records.intern shape).1⟩ = some shape := Pool.get?_intern s.records shape
  have found : entered.components? (.record ⟨(s.records.intern shape).1⟩) = some (shape.fields.map Field.type) := by
    rw [components?, held, Option.map_some]
  have types : ∀ t ∈ shape.fields.map Field.type, entered.Knows t :=
    List.forall_mem_map.mpr fun f member => (known f member).of_extends larger
  exact (yields_intern (layered.of_extends larger fun _ => rfl) found types).of_run rfl

theorem yields_callable {shape : CallableShape} (known : ∀ t ∈ shape.params ++ shape.returns, s.Knows t) :
    (callable shape).Yields s := by
  let entered : TypeStore := { s with callables := (s.callables.intern shape).2 }
  have larger : s.Extends entered := ⟨id, id, id, Pool.get?_intern_of_get? shape⟩
  have held : entered.callable? ⟨(s.callables.intern shape).1⟩ = some shape := Pool.get?_intern s.callables shape
  have found : entered.components? (.callable ⟨(s.callables.intern shape).1⟩) =
      some (shape.params ++ shape.returns) := by
    rw [components?, held, Option.map_some]
  have types : ∀ t ∈ shape.params ++ shape.returns, entered.Knows t :=
    fun t member => (known t member).of_extends larger
  exact (yields_intern (layered.of_extends larger fun _ => rfl) found types).of_run rfl

theorem yields_variableNamed (text : String) : (variableNamed text).Yields s := by
  let named := (name text s).2
  let entered : TypeStore := { named with binders := named.binders.push (name text s).1 }
  have larger : named.Extends entered := ⟨id, id, id, id⟩
  have found : entered.components? (.var ⟨named.binders.size⟩) = some [] := rfl
  exact (yields_intern ((yields_name layered text).of_extends larger fun _ => rfl) found (by simp)).of_run rfl

theorem yields_unresolved (text : String) : (unresolved text).Yields s := by
  have found : (name text s).2.components? (.unresolved (name text s).1) = some [] := rfl
  exact (yields_intern (yields_name layered text) found (by simp)).of_run rfl

/-- The leaves of a type are there if it is. -/
theorem knows_leavesWithin (j : Joint) {t : TypeId} (known : s.Knows t) (depth : Nat) :
    ∀ m ∈ s.leavesWithin j.part? depth t, s.Knows m := by
  induction depth generalizing t with
  | zero => simpa [leavesWithin] using known
  | succ depth ih =>
    rw [leavesWithin]
    cases opened : (s.node? t).bind j.part? with
    | none => simpa using known
    | some l =>
      obtain ⟨n, node, joined⟩ := Option.bind_eq_some_iff.mp opened
      obtain ⟨members, found, each⟩ := layered t n node
      have listed : s.list? l = some members := by
        obtain rfl := Joint.part?_eq_some_iff.mp joined
        cases j <;> exact found
      simp only [listed, Option.getD_some, List.mem_flatMap]
      rintro m ⟨member, inside, leaf⟩
      exact ih (each member inside).1 m leaf

theorem yields_build (j : Joint) {types : List TypeId} (known : ∀ t ∈ types, s.Knows t) : (j.build types).Yields s := by
  have members : ∀ m ∈ j.distinct (types.flatMap (s.leaves j.part?)), s.Knows m := by
    intro m member
    obtain ⟨t, listed, leaf⟩ := List.mem_flatMap.mp (Joint.mem_distinct.mp member).1
    exact knows_leavesWithin layered j (known t listed) _ m leaf
  rw [Yields, Joint.build_run]
  generalize j.distinct (types.flatMap (s.leaves j.part?)) = found at members ⊢
  rcases found with _ | ⟨m, _ | ⟨n, rest⟩⟩
  · exact ⟨layered, s.knows_primitive (by cases j <;> rfl)⟩
  · exact ⟨layered, members m List.mem_cons_self⟩
  · have larger := extends_list (m :: n :: rest) s
    have found : (list (m :: n :: rest) s).2.components? (j.node (list (m :: n :: rest) s).1) =
        some (m :: n :: rest) := by
      cases j <;> exact list?_list (m :: n :: rest) s
    refine yields_intern (layered.of_extends larger fun _ => rfl) found fun u member => ?_
    exact (members u member).of_extends larger

end

end Build

/-! ### Refinement -/

section
variable {s : TypeStore} (layered : s.Layered) {ds : Declarations} {source : TypeId}
include layered

theorem TypeStore.Layered.knows_element {element : TypeId} (shown : s.elementOf? ds source = some element) :
    s.Knows element := by
  unfold TypeStore.elementOf? at shown
  split at shown
  case h_1 e node =>
    obtain rfl := Option.some.inj shown
    exact (layered.components node rfl e (by simp)).1
  case h_2 => simp at shown

theorem TypeStore.Layered.knows_fields {shape : RecordShape} (shown : s.recordOf? ds source = some shape) :
    ∀ f ∈ shape.fields, s.Knows f.type := by
  unfold TypeStore.recordOf? at shown
  split at shown
  case h_1 r node =>
    have found : s.components? (.record r) = some (shape.fields.map Field.type) := by
      rw [TypeStore.components?, shown, Option.map_some]
    exact fun f member => (layered.components node found f.type (List.mem_map_of_mem member)).1
  case h_2 => simp at shown

theorem TypeStore.Layered.knows_alternatives {alternatives : List TypeId}
    (shown : s.alternativesOf? ds source = some alternatives) : ∀ t ∈ alternatives, s.Knows t := by
  unfold TypeStore.alternativesOf? at shown
  split at shown
  case h_1 l node => exact fun t member => (layered.components node shown t member).1
  case h_2 => simp at shown

end

theorem RecordShape.mem_withTypes {shape : RecordShape} {types : List TypeId} {f : Field}
    (member : f ∈ (shape.withTypes types).fields) : f.type ∈ types ∨ f.type ∈ shape.fields.map Field.type := by
  obtain ⟨i, inside, rfl⟩ := List.getElem_of_mem member
  have insideF : i < shape.fields.length := by simpa [withTypes] using inside
  by_cases given : i < types.length
  · exact .inl (by simp [withTypes, given])
  · exact .inr (by simpa [withTypes, given] using ⟨_, List.getElem_mem insideF, rfl⟩)

mutual

/-- Refinement keeps a store layered, whatever is declared, and what it returns is there. -/
theorem layered_refine (ds : Declarations) :
    ∀ (selector : Selector) {s : TypeStore} {source : TypeId}, s.Layered → s.Knows source →
      (refine ds source selector s).2.Layered ∧
        (refine ds source selector s).2.Knows (refine ds source selector s).1.type
  | .top, s, source, layered, known => by
    rw [refine]
    exact ⟨layered, known⟩
  | .bottom, s, source, layered, known => by
    rw [refine]
    exact ⟨layered, s.knows_primitive rfl⟩
  | .array item, s, source, layered, known => by
    cases shown : s.elementOf? ds source with
    | none =>
      rw [refine_array_misfit shown]
      exact ⟨layered, known⟩
    | some element =>
      obtain ⟨after, refined⟩ := layered_refine ds item layered (layered.knows_element shown)
      rw [refine_array shown]
      exact Build.yields_intern after rfl (by simpa using refined)
  | .record items, s, source, layered, known => by
    by_cases fits : ∃ shape, s.recordOf? ds source = some shape ∧ shape.fields.length = items.length
    · obtain ⟨shape, shown, count⟩ := fits
      have fields := layered.knows_fields shown
      obtain ⟨after, refined⟩ := layered_refineAll ds items layered (List.forall_mem_map.mpr fields)
      have grows := (growing_refineAll ds (shape.fields.map Field.type) items s).toExtends
      rw [refine_record shown count]
      refine Build.yields_record after fun f member => ?_
      rcases RecordShape.mem_withTypes member with new | old
      · obtain ⟨r, made, same⟩ := List.mem_map.mp new
        exact same ▸ refined r made
      · obtain ⟨g, listed, same⟩ := List.mem_map.mp old
        exact same ▸ (fields g listed).of_extends grows
    · rw [refine_record_misfit fits]
      exact ⟨layered, known⟩
  | .union items, s, source, layered, known => by
    by_cases fits : ∃ alternatives, s.alternativesOf? ds source = some alternatives ∧ alternatives.length = items.length
    · obtain ⟨alternatives, shown, count⟩ := fits
      obtain ⟨after, refined⟩ := layered_refineKept ds items layered (layered.knows_alternatives shown)
      rw [refine_union shown count]
      exact Build.yields_build after .union (List.forall_mem_map.mpr refined)
    · rw [refine_union_misfit fits]
      exact ⟨layered, known⟩

theorem layered_refineAll (ds : Declarations) :
    ∀ (items : List Selector) {s : TypeStore} {sources : List TypeId}, s.Layered → (∀ t ∈ sources, s.Knows t) →
      (refineAll ds sources items s).2.Layered ∧
        ∀ r ∈ (refineAll ds sources items s).1, (refineAll ds sources items s).2.Knows r.type
  | [], s, sources, layered, _ => by
    rw [refineAll_nil]
    exact ⟨layered, by simp⟩
  | item :: items, s, [], layered, _ => by
    rw [refineAll]
    · exact ⟨layered, nofun⟩
    · simp
  | item :: items, s, source :: sources, layered, known => by
    obtain ⟨here, rest⟩ := List.forall_mem_cons.mp known
    obtain ⟨after, refined⟩ := layered_refine ds item layered here
    have grows := (growing_refine ds source item s).toExtends
    obtain ⟨last, others⟩ := layered_refineAll ds items after fun t member => (rest t member).of_extends grows
    rw [refineAll_cons]
    refine ⟨last, List.forall_mem_cons.mpr ⟨?_, others⟩⟩
    exact refined.of_extends (growing_refineAll ds sources items _).toExtends

theorem layered_refineKept (ds : Declarations) :
    ∀ (items : List Selector) {s : TypeStore} {sources : List TypeId}, s.Layered → (∀ t ∈ sources, s.Knows t) →
      (refineKept ds sources items s).2.Layered ∧
        ∀ r ∈ (refineKept ds sources items s).1, (refineKept ds sources items s).2.Knows r.type
  | [], s, sources, layered, _ => by
    rw [refineKept_nil]
    exact ⟨layered, by simp⟩
  | item :: items, s, [], layered, _ => by
    rw [refineKept]
    · exact ⟨layered, nofun⟩
    · simp
  | item :: items, s, source :: sources, layered, known => by
    obtain ⟨here, rest⟩ := List.forall_mem_cons.mp known
    rw [refineKept_cons]
    by_cases dropped : item.isBottom
    · rw [if_pos dropped]
      exact layered_refineKept ds items layered rest
    · obtain ⟨after, refined⟩ := layered_refine ds item layered here
      have grows := (growing_refine ds source item s).toExtends
      obtain ⟨last, others⟩ := layered_refineKept ds items after fun t member => (rest t member).of_extends grows
      rw [if_neg dropped]
      refine ⟨last, List.forall_mem_cons.mpr ⟨?_, others⟩⟩
      exact refined.of_extends (growing_refineKept ds sources items _).toExtends

end

/-! ### Writing and flattening -/

/-- If every item has one result for all large depths, so has the list of them. -/
private theorem exists_mapM {α β : Type} {f : Nat → α → Option β} {least : Nat} {items : List α}
    (each : ∀ a ∈ items, ∃ b, ∀ depth, least ≤ depth → f depth a = some b) :
    ∃ bs, ∀ depth, least ≤ depth → items.mapM (f depth) = some bs := by
  induction items with
  | nil => exact ⟨[], fun _ _ => rfl⟩
  | cons a items ih =>
    obtain ⟨here, rest⟩ := List.forall_mem_cons.mp each
    obtain ⟨b, first⟩ := here
    obtain ⟨bs, others⟩ := ih rest
    exact ⟨b :: bs, fun depth deep => by simp [first depth deep, others depth deep]⟩

namespace TypeStore

/-- How many types a type can stand above. -/
def level (t : TypeId) : Nat := t.val + 1 - TypeId.first

variable {s : TypeStore} (layered : s.Layered)
include layered

theorem Layered.level_lt {t u : TypeId} {n : TypeNode} {components : List TypeId} (known : s.node? t = some n)
    (found : s.components? n = some components) (member : u ∈ components) : level u < level t := by
  have less := (layered.components known found u member).2
  rcases node?_eq_some_iff.mp known with ⟨k, -, rfl⟩ | ⟨i, rfl, -⟩
  · obtain rfl := Option.some.inj found
    simp at member
  · simp only [level] at less ⊢
    omega

/-- A type that is there has one text for all depths above its level. -/
theorem Layered.exists_text_of_known (label? : DeclId → Option String) {t : TypeId} (known : s.Knows t)
    (context : Binding) :
    ∃ text, ∀ depth, level t < depth → s.printWithin label? depth context t = some text := by
  induction below : level t using Nat.strong_induction_on generalizing t context with
  | _ level ih =>
    subst below
    obtain ⟨n, node⟩ := Option.isSome_iff_exists.mp known
    obtain ⟨components, found, each⟩ := layered t n node
    have parts (context : Binding) : ∀ u ∈ components, ∃ text, ∀ depth, TypeStore.level t ≤ depth →
        s.printWithin label? depth context u = some text := by
      intro u member
      have less := layered.level_lt node found member
      obtain ⟨text, printed⟩ := ih _ less (each u member).1 context rfl
      exact ⟨text, fun depth deep => printed depth (Nat.lt_of_lt_of_le less deep)⟩
    suffices settled :
        ∃ text, ∀ depth, TypeStore.level t ≤ depth → some text = s.printWithin label? (depth + 1) context t by
      obtain ⟨text, printed⟩ := settled
      refine ⟨text, fun depth deep => ?_⟩
      obtain ⟨before, rfl⟩ := Nat.exists_eq_add_one.mpr (Nat.zero_lt_of_lt deep)
      exact (printed before (Nat.le_of_lt_succ deep)).symm
    simp only [printWithin, node]
    cases n with
    | primitive | nominal | var | unresolved => exact ⟨_, fun _ _ => rfl⟩
    | array e =>
      obtain rfl := Option.some.inj found
      obtain ⟨text, printed⟩ := parts .postfixed e List.mem_cons_self
      dsimp only
      exact ⟨_, fun depth deep => by rw [printed depth deep]; rfl⟩
    | negation e | reference e =>
      obtain rfl := Option.some.inj found
      obtain ⟨text, printed⟩ := parts .prefixed e List.mem_cons_self
      dsimp only
      exact ⟨_, fun depth deep => by rw [printed depth deep]; rfl⟩
    | union l =>
      obtain ⟨texts, printed⟩ := exists_mapM (parts .intersection)
      simp only [show s.list? l = some components from found]
      exact ⟨_, fun depth deep => by rw [printed depth deep]; rfl⟩
    | intersection l =>
      obtain ⟨texts, printed⟩ := exists_mapM (parts .prefixed)
      simp only [show s.list? l = some components from found]
      exact ⟨_, fun depth deep => by rw [printed depth deep]; rfl⟩
    | callable c =>
      obtain ⟨shape, held, rfl⟩ := Option.map_eq_some_iff.mp found
      obtain ⟨params, inputs⟩ := exists_mapM fun u member => parts .union u (List.mem_append_left _ member)
      obtain ⟨returns, outputs⟩ := exists_mapM fun u member => parts .union u (List.mem_append_right _ member)
      simp only [held]
      exact ⟨_, fun depth deep => by rw [inputs depth deep, outputs depth deep]; rfl⟩
    | record r =>
      obtain ⟨shape, held, rfl⟩ := Option.map_eq_some_iff.mp found
      have field : ∀ f ∈ shape.fields, ∃ text, ∀ depth, TypeStore.level t ≤ depth →
          (do return (← s.printWithin label? depth .union f.type) ++ ' ' :: s.nameText f.name) = some text := by
        intro f member
        obtain ⟨text, printed⟩ := parts .union f.type (List.mem_map_of_mem member)
        exact ⟨text ++ ' ' :: s.nameText f.name, fun depth deep => by rw [printed depth deep]; rfl⟩
      obtain ⟨texts, printed⟩ := exists_mapM field
      simp only [held]
      exact ⟨_, fun depth deep => by rw [printed depth deep]; rfl⟩

/-- Every type has one text for all depths above the number of nodes. -/
theorem Layered.exists_text (label? : DeclId → Option String) (t : TypeId) (context : Binding) :
    ∃ text, ∀ depth, s.nodes.size < depth → s.printWithin label? depth context t = some text := by
  by_cases known : s.Knows t
  · obtain ⟨text, printed⟩ := layered.exists_text_of_known label? known context
    refine ⟨text, fun depth deep => printed depth (Nat.lt_of_le_of_lt ?_ deep)⟩
    obtain ⟨n, node⟩ := Option.isSome_iff_exists.mp known
    have small := val_lt_size node
    simp only [size, level] at small ⊢
    omega
  · have unknown : s.node? t = none := by simpa [Knows] using known
    refine ⟨missingText "unknown" t.val, fun depth deep => ?_⟩
    obtain ⟨before, rfl⟩ := Nat.exists_eq_add_one.mpr (Nat.zero_lt_of_lt deep)
    simp only [printWithin, unknown]

/-- No joint is nested in itself. -/
theorem Layered.acyclic (j : Joint) (t : TypeId) : j.Acyclic s t := by
  have falls {t u : TypeId} (holds : j.Holds s t u) : u.val < t.val := by
    obtain ⟨l, listed, node, found, member⟩ := Joint.holds_iff.mp holds
    obtain ⟨members, found', each⟩ := layered t _ node
    have same : s.list? l = some members := by cases j <;> exact found'
    obtain rfl := Option.some.inj (found.symm.trans same)
    exact (each u member).2
  intro u _ circle
  have smaller : ∀ v, Relation.TransGen (j.Holds s) u v → v.val < u.val := by
    intro v path
    induction path with
    | single holds => exact falls holds
    | tail _ holds ih => exact Nat.lt_trans (falls holds) ih
  exact Nat.lt_irrefl _ (smaller u circle)

end TypeStore

/-! ### Histories -/

namespace Operation

/-- The types that an operation is given. -/
def operands : Operation → List TypeId
  | .name _ | .intern _ | .nominal _ | .freshVariable _ | .unresolved _ => []
  | .array t | .reference t _ | .negation t | .refine _ t _ => [t]
  | .record _ fields => fields.map Field.type
  | .callable shape => shape.params ++ shape.returns
  | .union types | .intersection types => types

/-- The type that an operation returns. -/
def returns : Operation → TypeStore → Option TypeId
  | .name _, _ => none
  | .intern node, s => some (Build.intern node s).1
  | .array element, s => some (Build.array element s).1
  | .record isOpen fields, s => (Build.recordOfFields isOpen fields s).1.toOption
  | .reference element lifetime, s => some (Build.reference element lifetime s).1
  | .callable shape, s => some (Build.callable shape s).1
  | .union types, s => some (Build.union types s).1
  | .intersection types, s => some (Build.intersection types s).1
  | .negation operand, s => some (Build.negation operand s).1
  | .nominal decl, s => some (Build.nominal decl s).1
  | .freshVariable text, s => some (Build.variableNamed text s).1
  | .unresolved text, s => some (Build.unresolved text s).1
  | .refine ds source selector, s => some (Narrowing.refine ds source selector s).1.type

/-- A node is taken as it is. -/
def isRaw : Operation → Bool
  | .intern _ => true
  | _ => false

/-- An operation takes no node as it is, and is given only primitives and types that were returned. -/
def DrawsOn (returned : List TypeId) (op : Operation) : Prop :=
  op.isRaw = false ∧ ∀ t ∈ op.operands, t.primitive?.isSome ∨ t ∈ returned

instance (returned : List TypeId) (op : Operation) : Decidable (op.DrawsOn returned) :=
  inferInstanceAs (Decidable (_ ∧ _))

end Operation

namespace TypeStore

/-- Every operation of a history is given only primitives and what those before it have returned. -/
def Draws (s : TypeStore) (returned : List TypeId) : List Operation → Prop
  | [] => True
  | op :: history => op.DrawsOn returned ∧ (op.run s).Draws ((op.returns s).toList ++ returned) history

instance decidableDraws (s : TypeStore) (returned : List TypeId) :
    (history : List Operation) → Decidable (s.Draws returned history)
  | [] => inferInstanceAs (Decidable True)
  | op :: history =>
    have := decidableDraws (op.run s) ((op.returns s).toList ++ returned) history
    inferInstanceAs (Decidable (_ ∧ _))

/-- An operation on types that are there keeps a store layered, and what it returns is there. -/
theorem Layered.run {s : TypeStore} (layered : s.Layered) {op : Operation} (built : op.isRaw = false)
    (known : ∀ t ∈ op.operands, s.Knows t) : (op.run s).Layered ∧ ∀ t ∈ op.returns s, (op.run s).Knows t := by
  have yields {b : Build TypeId} (yields : b.Yields s) : (b s).2.Layered ∧ ∀ t ∈ some (b s).1, (b s).2.Knows t :=
    ⟨yields.1, fun t same => Option.some.inj same ▸ yields.2⟩
  cases op with
  | name text => exact ⟨Build.yields_name layered text, by simp [Operation.returns]⟩
  | intern node => simp [Operation.isRaw] at built
  | array e | reference e | negation e => exact yields (Build.yields_intern layered rfl known)
  | record isOpen fields =>
    rw [Operation.run, Operation.returns, Build.recordOfFields]
    cases shape? : RecordShape.ofFields? isOpen fields with
    | none =>
      refine ⟨layered, fun t result => ?_⟩
      have nothing : none = some t := result
      simp at nothing
    | some shape =>
      have same : shape.fields = fields := by
        unfold RecordShape.ofFields? at shape?
        split at shape?
        · obtain rfl := Option.some.inj shape?
          rfl
        · simp at shape?
      obtain ⟨after, built⟩ := Build.yields_record layered (same ▸ List.forall_mem_map.mp known)
      exact ⟨after, fun t result => Option.some.inj result ▸ built⟩
  | callable shape => exact yields (Build.yields_callable layered known)
  | union types => exact yields (Build.yields_build layered .union known)
  | intersection types => exact yields (Build.yields_build layered .intersection known)
  | nominal d => exact yields (Build.yields_intern layered rfl known)
  | freshVariable text => exact yields (Build.yields_variableNamed layered text)
  | unresolved text => exact yields (Build.yields_unresolved layered text)
  | refine ds source selector =>
    obtain ⟨after, refined⟩ := layered_refine ds selector layered (known source (by simp [Operation.operands]))
    exact ⟨after, fun t same => Option.some.inj same ▸ refined⟩

theorem Layered.after {s : TypeStore} (layered : s.Layered) {returned : List TypeId} (known : ∀ t ∈ returned, s.Knows t)
    {history : List Operation} (draws : s.Draws returned history) : (s.after history).Layered := by
  induction history generalizing s returned with
  | nil => exact layered
  | cons op history ih =>
    obtain ⟨⟨built, given⟩, rest⟩ := draws
    have operands : ∀ t ∈ op.operands, s.Knows t := fun t member => (given t member).elim s.knows_primitive (known t)
    obtain ⟨after, result⟩ := layered.run built operands
    refine ih after (fun t member => ?_) rest
    rcases List.mem_append.mp member with new | old
    · exact result t (Option.mem_toList.mp new)
    · exact (known t old).of_extends (s.keeps_run op).toExtends

/-- After every history of constructions and refinements that draws only on primitives and on earlier results,
    whatever is declared: going down from a type ends, every type has a text, which more depth does not change, and
    the types given to a union or to an intersection are opened down to the last of their leaves, no deeper than
    there are nodes. -/
theorem below_wellFounded {history : List Operation} (draws : empty.Draws [] history) :
    let s := empty.after history
    WellFounded s.Below ∧
    (∀ label? t, ∃ text, s.print label? t = some text ∧
      ∀ depth, s.nodes.size < depth → s.printWithin label? depth .union t = some text) ∧
    ∀ (j : Joint) types, ∃ leaves, j.LeavesOf s types leaves ∧
      (∀ depth, s.nodes.size ≤ depth → types.flatMap (s.leavesWithin j.part? depth) = leaves) ∧
      j.IsJoin (j.build types s).2 (j.build types s).1 (j.distinct leaves) := by
  intro s
  have layered : s.Layered := layered_empty.after (by simp) draws
  refine ⟨layered.wellFounded, fun label? t => ?_, fun j types => ?_⟩
  · obtain ⟨text, printed⟩ := layered.exists_text label? t .union
    exact ⟨text, printed _ (Nat.lt_succ_self _), printed⟩
  · have opened (depth : Nat) (deep : s.nodes.size ≤ depth) :
        j.LeavesOf s types (types.flatMap (s.leavesWithin j.part? depth)) := by
      refine Joint.leavesOf_flatMap fun t _ => ?_
      exact (layered.acyclic j t).leavesOf_leavesWithin ((j.ncard_joints_le s t).trans deep)
    have all := Joint.leavesOf_operands fun t (_ : t ∈ types) => layered.acyclic j t
    exact ⟨_, all, fun depth deep => (opened depth deep).unique all, j.isJoin_build s types⟩

/-- A declared list: a number, and null or again the list. -/
def numberList : Declarations := ⟨#[⟨⟨[]⟩, some ⟨102⟩, []⟩]⟩

/-- The list is built from its own declaration, and refined through it to the list of two numbers. -/
def numberListHistory : List Operation :=
  [.nominal ⟨1⟩, .union [.null, ⟨100⟩], .record false [⟨⟨Name.first + 22⟩, .int⟩, ⟨⟨Name.first + 24⟩, ⟨101⟩⟩],
    .refine numberList ⟨100⟩ (.record [.top, .union [.bottom, .record [.top, .union [.top, .bottom]]]]),
    .array ⟨104⟩, .union [⟨101⟩, ⟨104⟩]]

theorem numberListHistory_wellFounded :
    empty.Draws [] numberListHistory ∧ WellFounded (empty.after numberListHistory).Below ∧
      (empty.after numberListHistory).print (fun _ => some "List") ⟨106⟩ =
        some "null|List|\x7bint val, \x7bint val, null next\x7d next\x7d".toList :=
  ⟨by decide +kernel, (below_wellFounded (by decide +kernel)).1, by decide +kernel⟩

end TypeStore

end Narrowing
