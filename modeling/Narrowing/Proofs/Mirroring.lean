import Narrowing.Proofs.Histories
import Narrowing.Proofs.Interning
import Narrowing.Proofs.Renumbering

/-!
The store in its tables and the plain store. They number types and names in different
orders; up to a renumbering they hold the same (`InStep`). Every entry keeps it so, hence
every call (`Follows.step`) and every history in which nothing fills up (`Follows.run`).
A node can mention a type that is not there yet, so that the renumbering has to foretell
the types that a history makes, in their order (`born`). It can: what is made by a history
of a new store does not depend on the plain store (`exists_follows`).
-/

namespace Narrowing

/-! ### Calls to the plain store -/

def Build.parts : Parts Build where
  name := name
  binder n := modifyGet fun s => (⟨s.binders.size⟩, { s with binders := s.binders.push n })
  list := list
  record shape := modifyGet fun s => (⟨(s.records.intern shape).1⟩, { s with records := (s.records.intern shape).2 })
  callable shape :=
    modifyGet fun s => (⟨(s.callables.intern shape).1⟩, { s with callables := (s.callables.intern shape).2 })
  flattened := flattened

/-- Entering a node leaves the other tables as they are. -/
theorem Build.intern_leaves (node : TypeNode) (s : TypeStore) :
    (intern node s).2.lists = s.lists ∧ (intern node s).2.records = s.records ∧
      (intern node s).2.callables = s.callables ∧ (intern node s).2.binders = s.binders ∧
      (intern node s).2.names = s.names := by
  unfold intern
  split <;> exact ⟨rfl, rfl, rfl, rfl, rfl⟩

/-- A node that is not there is given the next number. -/
theorem Build.intern_of_absent {node : TypeNode} {s : TypeStore} (other : node.primitive? = none)
    (absent : ∀ u, s.node? u ≠ some node) :
    (intern node s).1 = ⟨s.size⟩ ∧ (∀ u, (intern node s).2.node? u = if u = ⟨s.size⟩ then some node else s.node? u) ∧
      (intern node s).2.size = s.size + 1 := by
  have new (i : Nat) : s.nodes.get? i ≠ some node :=
    fun held => absent _ (TypeStore.node?_eq_some_iff.mpr (.inr ⟨i, rfl, held⟩))
  obtain ⟨place, items⟩ := Pool.intern_of_absent new
  obtain ⟨number, stored⟩ : (intern node s).1 = ⟨s.size⟩ ∧ (intern node s).2.nodes.items = s.nodes.items.push node := by
    unfold intern
    split
    case h_1 same => cases other.symm.trans same
    case h_2 => exact ⟨congrArg (fun i => TypeId.mk (TypeId.first + i)) place, items⟩
  refine ⟨number, fun u => ?_, ?_⟩
  · by_cases here : u = ⟨s.size⟩
    · rw [if_pos here, here, ← number, node?_intern]
    · rw [if_neg here]
      apply Option.ext
      intro n
      rw [TypeStore.node?_eq_some_iff, TypeStore.node?_eq_some_iff]
      refine or_congr_right (exists_congr fun i => and_congr_right fun same => ?_)
      have other : i ≠ s.nodes.items.size := by
        rintro rfl
        exact here same
      rw [Pool.get?, stored, Array.getElem?_push, if_neg other]
      rfl
  · rw [TypeStore.size, Pool.size, stored, Array.size_push]
    rfl

namespace Interner

namespace Call

/-- The operation on the plain store that a call asks for. -/
def operation : Call → Operation
  | .name text => .name text
  | .intern node => .intern node
  | .array element => .array element
  | .record isOpen fields => .record isOpen fields
  | .reference element lifetime => .reference element lifetime
  | .callable shape => .callable shape
  | .union types => .union types
  | .intersection types => .intersection types
  | .negation operand => .negation operand
  | .nominal decl => .nominal decl
  | .freshVariable text => .freshVariable text
  | .unresolved text => .unresolved text

/-- The call to the plain store, with its answer. -/
def build : Call → Build Answer
  | .name text => .name <$> Build.name text
  | .intern node => .type <$> Build.intern node
  | .array element => .type <$> Build.array element
  | .record isOpen fields =>
    match RecordShape.ofFields? isOpen fields with
    | some shape => .type <$> Build.record shape
    | none => return .refused
  | .reference element lifetime => .type <$> Build.reference element lifetime
  | .callable shape => .type <$> Build.callable shape
  | .union types => .type <$> Build.union types
  | .intersection types => .type <$> Build.intersection types
  | .negation operand => .type <$> Build.negation operand
  | .nominal decl => .type <$> Build.nominal decl
  | .freshVariable text => .type <$> Build.variableNamed text
  | .unresolved text => .type <$> Build.unresolved text

theorem operation_run (c : Call) (s : TypeStore) : c.operation.run s = (c.build s).2 := by
  cases c with
  | record isOpen fields =>
    simp only [operation, Operation.run, build, Build.recordOfFields]
    cases RecordShape.ofFields? isOpen fields <;> rfl
  | _ => rfl

theorem build_eq (c : Call) : c.build = c.prepare Build.parts >>= finish Build.intern := by
  cases c with
  | record isOpen fields =>
    simp only [build, prepare]
    cases RecordShape.ofFields? isOpen fields <;> simp [finish, Build.parts, Build.record]
  | union types =>
    simp only [build, prepare, Build.union, map_bind, bind_assoc]
    congr 1
    funext flat
    generalize flat.filter (· ≠ .void) = members
    rcases members with _ | ⟨t, _ | ⟨u, rest⟩⟩ <;> simp [join, finish, Build.parts]
  | intersection types =>
    simp only [build, prepare, Build.intersection, map_bind, bind_assoc]
    congr 1
    funext members
    rcases members with _ | ⟨t, _ | ⟨u, rest⟩⟩ <;> simp [join, finish, Build.parts]
  | _ =>
    simp [build, prepare, finish, Build.parts, Build.array, Build.reference, Build.callable, Build.negation,
      Build.nominal, Build.variableNamed, Build.unresolved]

end Call

end Interner

namespace Renumbering

open Interner (Call Answer)

variable (r : Renumbering)

def call : Call → Call
  | .name text => .name text
  | .intern node => .intern (r.node node)
  | .array element => .array (r.type element)
  | .record isOpen fields => .record isOpen (fields.map r.field)
  | .reference element lifetime => .reference (r.type element) (lifetime.map r.name)
  | .callable shape => .callable (r.callable shape)
  | .union types => .union (types.map r.type)
  | .intersection types => .intersection (types.map r.type)
  | .negation operand => .negation (r.type operand)
  | .nominal decl => .nominal decl
  | .freshVariable text => .freshVariable text
  | .unresolved text => .unresolved text

def answer : Answer → Answer
  | .name name => .name (r.name name)
  | .type type => .type (r.type type)
  | .refused => .refused

theorem ofFields?_map (isOpen : Bool) (fields : List Field) :
    RecordShape.ofFields? isOpen (fields.map r.field) = (RecordShape.ofFields? isOpen fields).map r.record := by
  unfold RecordShape.ofFields?
  have same : ((fields.map r.field).map Field.name).Nodup ↔ (fields.map Field.name).Nodup := by
    rw [names_map_field, List.nodup_map_iff r.name_injective]
  by_cases distinct : (fields.map Field.name).Nodup
  · rw [dif_pos distinct, dif_pos (same.mpr distinct)]
    rfl
  · rw [dif_neg distinct, dif_neg (same.not.mpr distinct)]
    rfl

end Renumbering

namespace Interner

variable {h : Hashing} {r : Renumbering} {x x' : Interner} {s s' : TypeStore}

/-! ### Stores in step -/

/-- Every text has its name in both tables, up to the renumbering. -/
def Spelled (r : Renumbering) (t : AtomTable) (names : NameTable) : Prop :=
  ∀ n text, t.spelling? n = some text → names.text? (r.name n) = some text

/-- Two stores hold the same, up to the renumbering of types and names. -/
structure InStep (h : Hashing) (r : Renumbering) (x : Interner) (s : TypeStore) : Prop where
  sound : x.Sound h
  size : s.size = x.size
  node : ∀ t, s.node? (r.type t) = (x.node? t).map r.node
  -- The renumbering need not reach every number, but it reaches those that are known.
  onto : ∀ {u n}, s.node? u = some n → ∃ t, r.type t = u
  lists : x.lists.Mirrors (List.map r.type) s.lists
  nil : x.list? ⟨0⟩ = some []
  records : x.records.Mirrors r.record s.records
  callables : x.callables.Mirrors r.callable s.callables
  binders : s.binders = x.binders.map r.name
  names : x.names.Represents h.text s.names
  spelled : Spelled r x.names s.names

/-- Two computations have results that correspond under `f`, and leave the stores in step. Among types they enter
    nothing, and among names the given texts. -/
def Matched {α β : Type} (h : Hashing) (r : Renumbering) (x : Interner) (s : TypeStore) (texts : List String)
    (f : α → β) (m : Entering α) (b : Build β) : Prop :=
  ∃ a x', m x = .ok (a, x') ∧ (b s).1 = f a ∧ InStep h r x' (b s).2 ∧ x'.types = x.types ∧
    x'.names = (x.names.internAll h.text texts).2 ∧ (b s).2.names = (s.names.internAll texts).2

theorem Matched.map {α β γ δ : Type} {texts : List String} {f : α → β} {m : Entering α} {b : Build β}
    (matched : Matched h r x s texts f m b) {g : α → γ} {g' : β → δ} {f' : γ → δ} (square : ∀ a, g' (f a) = f' (g a)) :
    Matched h r x s texts f' (g <$> m) (g' <$> b) := by
  obtain ⟨a, x', result, same, rest⟩ := matched
  refine ⟨g a, x', ?_, (congrArg g' same).trans (square a), rest⟩
  rw [map_eq_pure_bind]
  exact Entering.bind_eq_ok.mpr ⟨a, x', result, rfl⟩

section
variable (inStep : InStep h r x s)
include inStep

theorem InStep.matched_pure {α β : Type} {f : α → β} {a : α} {b : β} (same : b = f a) :
    Matched h r x s [] f (pure a) (pure b) :=
  ⟨a, x, rfl, same, inStep, rfl, rfl, rfl⟩

theorem InStep.list?_eq (l : ListId) : s.list? l = (x.list? l).map (List.map r.type) := inStep.lists.get?_eq l.val

theorem InStep.matched_list (room : x.lists.items.size < 0x100000000) (types : List TypeId) :
    Matched h r x s [] id (Entering.list types) (Build.list (types.map r.type)) := by
  unfold Matched Entering.list
  by_cases empty : types = []
  · subst empty
    have held : s.lists.get? 0 = some [] := by
      have found := inStep.list?_eq ⟨0⟩
      rwa [inStep.nil] at found
    have entry := Pool.intern_of_get? held
    refine ⟨⟨0⟩, x, if_pos rfl, ?_, ?_, rfl, rfl, rfl⟩ <;> simp only [Build.list, List.map_nil, entry]
    · rfl
    · exact inStep
  · obtain ⟨i, l', entered, number, mirrors⟩ := inStep.lists.enter r.type_injective.list_map room types
    have kept := (Ledger.enter_grows entered).1
    refine ⟨⟨i.toNat⟩, { x with lists := l' }, ?_, congrArg ListId.mk number, ?_, rfl, rfl, rfl⟩
    · rw [if_neg empty, entered]
      rfl
    · exact { inStep with sound := inStep.sound.of_types rfl, lists := mirrors, nil := kept 0 [] inStep.nil }

theorem InStep.matched_record (room : x.records.items.size < 0x100000000) (shape : RecordShape) :
    Matched h r x s [] id (Entering.recordShape shape) (Build.parts.record (r.record shape)) := by
  obtain ⟨i, l', entered, number, mirrors⟩ := inStep.records.enter Renumbering.record_injective room shape
  refine ⟨⟨i.toNat⟩, { x with records := l' }, ?_, congrArg RecordId.mk number, ?_, rfl, rfl, rfl⟩
  · rw [Entering.recordShape, entered]
    rfl
  · exact { inStep with sound := inStep.sound.of_types rfl, records := mirrors }

theorem InStep.matched_callable (room : x.callables.items.size < 0x100000000) (shape : CallableShape) :
    Matched h r x s [] id (Entering.callableShape shape) (Build.parts.callable (r.callable shape)) := by
  obtain ⟨i, l', entered, number, mirrors⟩ := inStep.callables.enter Renumbering.callable_injective room shape
  refine ⟨⟨i.toNat⟩, { x with callables := l' }, ?_, congrArg CallableId.mk number, ?_, rfl, rfl, rfl⟩
  · rw [Entering.callableShape, entered]
    rfl
  · exact { inStep with sound := inStep.sound.of_types rfl, callables := mirrors }

theorem InStep.matched_binder (room : x.binders.size < 0x100000000) (name : Name) :
    Matched h r x s [] id (Entering.binder name) (Build.parts.binder (r.name name)) := by
  refine ⟨_, _, rfl, ?_, ?_, rfl, rfl, rfl⟩
  · show (⟨s.binders.size⟩ : VarId) = ⟨x.binders.size.toUInt32.toNat⟩
    rw [inStep.binders, Array.size_map]
    exact congrArg VarId.mk (Nat.mod_eq_of_lt room).symm
  · refine { inStep with sound := inStep.sound.of_types rfl, binders := ?_ }
    show s.binders.push (r.name name) = (x.binders.push name).map r.name
    rw [Array.map_push, inStep.binders]

/-- A text is named in step if there is a place for it, and the renumbering foretells its name. -/
theorem InStep.matched_name {text : String} (room : x.names.HasRoom h.text text)
    (foretold : Spelled r (x.names.internAll h.text [text]).2 (s.names.internAll [text]).2) :
    Matched h r x s [text] r.name (Entering.name h text) (Build.name text) := by
  refine ⟨_, _, Entering.name_run text x, ?_, ?_, rfl, rfl, rfl⟩
  · have entered : (x.names.intern h.text text).2.spelling? ⟨(x.names.intern h.text text).1.toNat⟩ = some text :=
      AtomTable.spelling?_eq_some_iff.mpr ⟨_, rfl, inStep.names.sound.text?_intern room⟩
    exact NameTable.text?_inj (s.names.text?_intern text) (foretold _ text entered)
  · exact { inStep with sound := inStep.sound.of_types rfl, names := inStep.names.intern room, spelled := foretold }

theorem InStep.bind_part {part? : TypeNode → Option ListId} (same : ∀ n, part? (r.node n) = part? n) (t : TypeId) :
    (s.node? (r.type t)).bind part? = (x.node? t).bind part? := by
  rw [inStep.node]
  cases x.node? t with
  | none => rfl
  | some n => exact same n

end

/-! ### Flattening -/

/-- Adding types one after the other leaves each at its first occurrence. -/
theorem foldl_addNew (flat types : List TypeId) :
    types.foldl addNew flat = flat ++ (types.filter (· ∉ flat)).eraseDups := by
  induction types generalizing flat with
  | nil => simp
  | cons t types ih =>
    rw [List.foldl_cons, ih, addNew]
    by_cases old : t ∈ flat
    · rw [if_pos old, List.filter_cons_of_neg (by simpa using old)]
    · have others : types.filter (· ∉ flat ++ [t]) = (types.filter (· ∉ flat)).filter fun u => !u == t := by
        rw [List.filter_filter]
        refine List.filter_congr fun u _ => Bool.eq_iff_iff.mpr ?_
        simp [and_comm]
      rw [if_neg old, List.filter_cons_of_pos (by simpa using old), List.eraseDups_cons, others, List.append_assoc,
        List.singleton_append]

/-- Members that are added in the order of their renumbered types, type by type, are so for several types. -/
theorem map_foldl {add : List TypeId → TypeId → List TypeId} {leaves : TypeId → List TypeId}
    (each : ∀ flat t, (add flat t).map r.type = (leaves (r.type t)).foldl addNew (flat.map r.type))
    (flat types : List TypeId) :
    (types.foldl add flat).map r.type = ((types.map r.type).flatMap leaves).foldl addNew (flat.map r.type) := by
  induction types generalizing flat with
  | nil => rfl
  | cons t types ih => rw [List.foldl_cons, List.map_cons, List.flatMap_cons, List.foldl_append, ← each, ih]

section
variable (inStep : InStep h r x s) {part? : TypeNode → Option ListId} (same : ∀ n, part? (r.node n) = part? n)
include inStep same

theorem InStep.map_flattenInto (depth : Nat) (flat : List TypeId) (t : TypeId) :
    (x.flattenInto part? depth flat t).map r.type =
      (s.leavesWithin part? depth (r.type t)).foldl addNew (flat.map r.type) := by
  have added (flat : List TypeId) (t : TypeId) : (addNew flat t).map r.type = addNew (flat.map r.type) (r.type t) := by
    simp only [addNew, List.mem_map_of_injective r.type_injective]
    split <;> simp
  induction depth generalizing flat t with
  | zero => exact added flat t
  | succ depth ih =>
    rw [flattenInto, TypeStore.leavesWithin, inStep.bind_part same]
    cases (x.node? t).bind part? with
    | none => exact added flat t
    | some l =>
      have members : (s.list? l).getD [] = ((x.list? l).getD []).map r.type := by
        rw [inStep.list?_eq]
        cases x.list? l <;> rfl
      simp only [members]
      exact map_foldl ih flat _

theorem InStep.flattened_eq (types : List TypeId) :
    ((types.map r.type).flatMap (s.leaves part?)).eraseDups = (x.flattened part? types).map r.type := by
  have depth : s.nodes.size = x.types.size := Nat.add_left_cancel inStep.size
  have flat := map_foldl (inStep.map_flattenInto same (x.types.size + 1)) [] types
  rw [List.map_nil, foldl_addNew] at flat
  rw [flattened, flat, show s.leaves part? = s.leavesWithin part? (x.types.size + 1) by rw [← depth]; rfl]
  simp

end

/-! ### Calls in step -/

/-- The texts that a call hands in. -/
def Call.texts : Call → List String
  | .name text | .freshVariable text | .unresolved text => [text]
  | _ => []

section
variable (inStep : InStep h r x s) (room : x.HasRoom)
include inStep room

theorem InStep.matched_join {none : TypeId} (fixed : r.type none = none) {node : ListId → TypeNode}
    (same : ∀ l, r.node (node l) = node l) (members : List TypeId) :
    Matched h r x s [] (Sum.map r.answer r.node) (Call.join (Entering.parts h) none node members)
      (Call.join Build.parts none node (members.map r.type)) := by
  rcases members with _ | ⟨t, _ | ⟨u, rest⟩⟩
  · exact inStep.matched_pure (congrArg (Sum.inl ∘ Answer.type) fixed.symm)
  · exact inStep.matched_pure rfl
  · exact (inStep.matched_list room.lists (t :: u :: rest)).map fun l => congrArg Sum.inr (same l).symm

/-- What a call enters below the nodes is entered in step. -/
theorem InStep.matched_prepare (c : Call)
    (foretold : Spelled r (x.names.internAll h.text c.texts).2 (s.names.internAll c.texts).2) :
    Matched h r x s c.texts (Sum.map r.answer r.node) (c.prepare (Entering.parts h))
      ((r.call c).prepare Build.parts) := by
  have place (text : String) : x.names.HasRoom h.text text := .inr (room.names _)
  have void : r.type .void = .void := r.type_primitive .void
  cases c with
  | name text => exact (inStep.matched_name (place text) foretold).map fun n => rfl
  | unresolved text => exact (inStep.matched_name (place text) foretold).map fun n => rfl
  | record isOpen fields =>
    simp only [Renumbering.call, Call.prepare, r.ofFields?_map]
    cases RecordShape.ofFields? isOpen fields with
    | none => exact inStep.matched_pure rfl
    | some shape => exact (inStep.matched_record room.records shape).map fun shape => rfl
  | callable shape => exact (inStep.matched_callable room.callables shape).map fun shape => rfl
  | union types =>
    have opened (n : TypeNode) : (r.node n).alternatives? = n.alternatives? := by cases n <;> rfl
    have inhabited (t : TypeId) : r.type t ≠ .void ↔ t ≠ .void :=
      not_congr ⟨fun same => r.type_injective (same.trans void.symm), fun same => same ▸ void⟩
    have members : ((types.map r.type).flatMap (s.leaves TypeNode.alternatives?)).eraseDups.filter (· ≠ .void) =
        ((x.flattened TypeNode.alternatives? types).filter (· ≠ .void)).map r.type := by
      rw [inStep.flattened_eq opened, List.filter_map]
      simp only [Function.comp_def, inhabited]
    have joined := inStep.matched_join room void (fun l => rfl : ∀ l, r.node (.union l) = .union l)
      ((x.flattened TypeNode.alternatives? types).filter (· ≠ .void))
    rw [← members] at joined
    exact joined
  | intersection types =>
    have opened (n : TypeNode) : (r.node n).operands? = n.operands? := by cases n <;> rfl
    have joined := inStep.matched_join room (r.type_primitive .any)
      (fun l => rfl : ∀ l, r.node (.intersection l) = .intersection l) (x.flattened TypeNode.operands? types)
    rw [← inStep.flattened_eq opened] at joined
    exact joined
  | freshVariable text =>
    obtain ⟨n, x1, named, same, inStep1, types1, names1, texts1⟩ := inStep.matched_name (place text) foretold
    have binders : x1.binders = x.binders := by
      rw [Entering.name_run, Except.ok.injEq, Prod.mk.injEq] at named
      rw [← named.2]
    obtain ⟨v, x2, bound, same2, inStep2, types2, names2, texts2⟩ :=
      inStep1.matched_binder (binders ▸ room.binders) n
    rw [← same] at same2 inStep2 texts2
    refine ⟨.inr (.var v), x2, ?_, congrArg (Sum.inr ∘ TypeNode.var) same2, inStep2, types2.trans types1,
      names2.trans names1, texts2.trans texts1⟩
    exact Entering.bind_eq_ok.mpr ⟨n, x1, named, Entering.bind_eq_ok.mpr ⟨v, x2, bound, rfl⟩⟩
  | intern | array | reference | negation | nominal => exact inStep.matched_pure rfl

end

theorem node?_of_types (same : x'.types = x.types) (t : TypeId) : x'.node? t = x.node? t := by
  unfold node?
  rw [same]

/-- A node is entered in step if there is a number for it, and the renumbering foretells the type that is new. -/
theorem InStep.intern (inStep : InStep h r x s)
    (room : ∀ j, TypeId.first + (64 * (x.types j).items.size + j.val) < 0x100000000) (node : TypeNode)
    (foretold : ∀ t x', Entering.intern h node x = .ok (t, x') → x.node? t = none → x'.node? t = some node →
      r.type t = ⟨x.size⟩) :
    ∃ t x', Entering.intern h node x = .ok (t, x') ∧ (Build.intern (r.node node) s).1 = r.type t ∧
      InStep h r x' (Build.intern (r.node node) s).2 ∧ x'.names = x.names ∧
      (x' = x ∨ x.node? t = none ∧ x'.node? t = some node ∧ x'.size = x.size + 1) := by
  rcases inStep.sound.intern_cases room node with
    ⟨t, known, entered⟩ | ⟨t, types, entered, other, new, free, sound, nodes, size⟩
  · have mirrored : s.node? (r.type t) = some (r.node node) := by rw [inStep.node, known, Option.map_some]
    refine ⟨t, x, entered, ?_, ?_, rfl, .inl rfl⟩ <;> rw [Build.intern_of_node? mirrored]
    exact inStep
  · have known : node? { x with types } t = some node := by rw [nodes, if_pos rfl]
    have number : r.type t = ⟨s.size⟩ := by rw [foretold t _ entered free known, inStep.size]
    have absent (u : TypeId) : s.node? u ≠ some (r.node node) := by
      intro known
      obtain ⟨t', rfl⟩ := inStep.onto known
      rw [inStep.node] at known
      obtain ⟨m, held, same⟩ := Option.map_eq_some_iff.mp known
      exact new t' (Renumbering.node_injective same ▸ held)
    obtain ⟨place, nodes', size'⟩ := Build.intern_of_absent (Renumbering.primitive?_node node ▸ other) absent
    refine ⟨t, { x with types }, entered, place.trans number.symm, ?_, rfl, .inr ⟨free, known, ?_⟩⟩
    · obtain ⟨lists, records, callables, binders, names⟩ := Build.intern_leaves (r.node node) s
      exact {
        sound
        size := by
          show _ = TypeId.first + types.size
          rw [size', inStep.size, size]
          rfl
        node := fun u => by
          rw [nodes, nodes', ← number]
          by_cases here : u = t
          · rw [if_pos here, if_pos (congrArg r.type here), Option.map_some]
          · rw [if_neg here, if_neg (r.type_injective.ne here), inStep.node]
        onto := fun {u m} known => by
          rw [nodes'] at known
          split at known
          case isTrue here => exact ⟨t, number.trans here.symm⟩
          case isFalse => exact inStep.onto known
        lists := lists ▸ inStep.lists
        nil := inStep.nil
        records := records ▸ inStep.records
        callables := callables ▸ inStep.callables
        binders := binders ▸ inStep.binders
        names := names ▸ inStep.names
        spelled := names ▸ inStep.spelled }
    · show TypeId.first + types.size = TypeId.first + x.types.size + 1
      rw [size, Nat.add_assoc]

/-! ### Histories in step -/

/-- The type that an answer gives for the first time. -/
def made (x x' : Interner) : Answer → List TypeId
  | .type t => if x.node? t = none ∧ x'.node? t ≠ none then [t] else []
  | _ => []

/-- The types that a history makes, in order. -/
def born (h : Hashing) : Interner → List Call → List TypeId
  | _, [] => []
  | x, c :: calls =>
    match c.run h x with
    | .ok (answer, x') => made x x' answer ++ born h x' calls
    | .error _ => []

theorem born_cons {c : Call} {answer : Answer} (run : c.run h x = .ok (answer, x')) (calls : List Call) :
    born h x (c :: calls) = made x x' answer ++ born h x' calls := by rw [born, run]

theorem made_of_types (same : x'.types = x.types) (answer : Answer) : made x x' answer = [] := by
  cases answer with
  | type t =>
    refine if_neg ?_
    rintro ⟨free, known⟩
    exact known ((node?_of_types same t).trans free)
  | name | refused => rfl

/-- Two stores are in step, nothing fills up in the calls that come, and the renumbering foretells the types and names
    that these make. -/
structure Follows (h : Hashing) (r : Renumbering) (x : Interner) (s : TypeStore) (calls : List Call) : Prop where
  inStep : InStep h r x s
  roomy : Roomy h x calls
  types : ∀ (i : Nat) t, (born h x calls)[i]? = some t → r.type t = ⟨x.size + i⟩
  names : Spelled r (x.names.internAll h.text (calls.flatMap Call.texts)).2
    (s.names.internAll (calls.flatMap Call.texts)).2

theorem Spelled.of_internAll {hash : String → UInt64} {t : AtomTable} {names : NameTable}
    (represents : t.Represents hash names) {texts : List String}
    (spelled : Spelled r (t.internAll hash texts).2 (names.internAll texts).2) : Spelled r t names := by
  intro n text known
  obtain ⟨atom, rfl, found⟩ := AtomTable.spelling?_eq_some_iff.mp known
  obtain ⟨m, named⟩ := (represents.same text).mp ⟨atom, found⟩
  have kept := AtomTable.text?_internAll_of_text? hash texts found
  have later : (names.internAll texts).2.text? (r.name ⟨atom.toNat⟩) = some text :=
    spelled _ text (AtomTable.spelling?_eq_some_iff.mpr ⟨atom, rfl, kept⟩)
  rwa [NameTable.text?_inj later (NameTable.text?_internAll_of_text? texts named)]

section
variable {c : Call} {calls : List Call} (follows : Follows h r x s (c :: calls))
include follows

/-- What is foretold of a history is foretold of its rest. -/
theorem Follows.next {answer : Answer} (run : c.run h x = .ok (answer, x')) (inStep : InStep h r x' s')
    (size : x'.size = x.size + (made x x' answer).length) (names : x'.names = (x.names.internAll h.text c.texts).2)
    (texts : s'.names = (s.names.internAll c.texts).2) : Follows h r x' s' calls := by
  refine ⟨inStep, follows.roomy.2 answer x' run, fun i t listed => ?_, ?_⟩
  · have later : (born h x (c :: calls))[(made x x' answer).length + i]? = some t := by
      rw [born_cons run, List.getElem?_append_right (Nat.le_add_right ..), Nat.add_sub_cancel_left, listed]
    rw [follows.types _ t later, size, Nat.add_assoc]
  · have foretold := follows.names
    rwa [List.flatMap_cons, AtomTable.internAll_append, NameTable.internAll_append, ← names, ← texts] at foretold

/-- The name that the next call makes is foretold. -/
theorem Follows.spelled_next : Spelled r (x.names.internAll h.text c.texts).2 (s.names.internAll c.texts).2 := by
  have represents : (x.names.internAll h.text c.texts).2.Represents h.text (s.names.internAll c.texts).2 := by
    have place (text : String) : x.names.HasRoom h.text text := .inr (follows.roomy.1.names _)
    cases c with
    | name text | freshVariable text | unresolved text => exact follows.inStep.names.intern (place text)
    | _ => exact follows.inStep.names
  have names := follows.names
  rw [List.flatMap_cons, AtomTable.internAll_append, NameTable.internAll_append] at names
  exact names.of_internAll represents

/-- A call is answered in step. -/
theorem Follows.step : ∃ answer x', c.run h x = .ok (answer, x') ∧ ((r.call c).build s).1 = r.answer answer ∧
    Follows h r x' ((r.call c).build s).2 calls := by
  obtain ⟨room, -⟩ := follows.roomy
  obtain ⟨prepared, x1, ready, same, inStep1, types1, names1, texts1⟩ :=
    follows.inStep.matched_prepare room c follows.spelled_next
  have size1 : x1.size = x.size := congrArg (TypeId.first + Lanes.size ·) types1
  have run {answer : Answer} {x' : Interner}
      (finished : Call.finish (Entering.intern h) prepared x1 = .ok (answer, x')) : c.run h x = .ok (answer, x') := by
    rw [Call.run_eq]
    exact Entering.bind_eq_ok.mpr ⟨_, _, ready, finished⟩
  have build : (r.call c).build s =
      Call.finish Build.intern (Sum.map r.answer r.node prepared) ((r.call c).prepare Build.parts s).2 := by
    rw [Call.build_eq, ← same]
    rfl
  rw [build]
  cases prepared with
  | inl answer =>
    refine ⟨answer, x1, run rfl, rfl, follows.next (run rfl) inStep1 ?_ names1 texts1⟩
    rw [made_of_types types1, size1]
    rfl
  | inr node =>
    -- Nothing was entered among the types so far, so the next number is still the one that was foretold.
    have entering {t : TypeId} {x' : Interner} (entered : Entering.intern h node x1 = .ok (t, x')) :
        c.run h x = .ok (.type t, x') := by
      refine run ?_
      rw [Call.finish, map_eq_pure_bind]
      exact Entering.bind_eq_ok.mpr ⟨t, x', entered, rfl⟩
    have first {t : TypeId} {x' : Interner} (free : x1.node? t = none) (known : x'.node? t = some node) :
        made x x' (.type t) = [t] := by
      rw [node?_of_types types1] at free
      exact if_pos ⟨free, by simp [known]⟩
    obtain ⟨t, x2, entered, number, inStep2, names2, change⟩ := inStep1.intern (types1 ▸ room.types) node
      fun t x' entered free known => by
        rw [size1, ← Nat.add_zero x.size]
        refine follows.types 0 t ?_
        rw [born_cons (entering entered), first free known]
        rfl
    obtain ⟨-, -, -, -, texts2⟩ := Build.intern_leaves (r.node node) ((r.call c).prepare Build.parts s).2
    refine ⟨.type t, x2, entering entered, congrArg Answer.type number,
      follows.next (entering entered) inStep2 ?_ (names2.trans names1) (texts2.trans texts1)⟩
    rcases change with rfl | ⟨free, known, size2⟩
    · rw [made_of_types types1, size1]
      rfl
    · rw [first free known, size2, size1]
      rfl

end

/-- Some calls to the plain store, one after the other. -/
def buildAll (calls : List Call) : Build (List Answer) := calls.mapM Call.build

theorem after_operations (s : TypeStore) (calls : List Call) :
    s.after (calls.map Call.operation) = (buildAll calls s).2 := by
  induction calls generalizing s with
  | nil => rfl
  | cons c calls ih =>
    rw [buildAll, List.mapM_cons]
    show (c.operation.run s).after (calls.map Call.operation) = (buildAll calls (c.build s).2).2
    rw [ih, Call.operation_run]

/-- Along a history the stores stay in step, and all answers correspond. -/
theorem Follows.run {calls more : List Call} (follows : Follows h r x s (calls ++ more)) :
    ∃ answers x', performAll h calls x = .ok (answers, x') ∧ (buildAll (calls.map r.call) s).1 = answers.map r.answer ∧
      Follows h r x' (buildAll (calls.map r.call) s).2 more := by
  induction calls generalizing x s with
  | nil => exact ⟨[], x, rfl, rfl, follows⟩
  | cons c calls ih =>
    obtain ⟨answer, x1, run, same, next⟩ := follows.step
    obtain ⟨answers, x2, rest, sames, later⟩ := ih next
    refine ⟨answer :: answers, x2, ?_, ?_, ?_⟩
    · rw [performAll_cons]
      exact Entering.bind_eq_ok.mpr ⟨answer, x1, run, Entering.bind_eq_ok.mpr ⟨answers, x2, rest, rfl⟩⟩
    · rw [buildAll, List.map_cons, List.mapM_cons]
      exact congr (congrArg List.cons same) sames
    · rw [buildAll, List.map_cons, List.mapM_cons]
      exact later

/-! ### Foretelling -/

theorem mem_made {answer : Answer} {t : TypeId} (member : t ∈ made x x' answer) :
    x.node? t = none ∧ x'.node? t ≠ none := by
  unfold made at member
  split at member
  · split at member
    · rw [List.mem_singleton] at member
      rwa [member]
    · cases member
  · cases member

/-- A type that is made was not there, and it is not reserved. -/
theorem mem_born {calls : List Call} {t : TypeId} (member : t ∈ born h x calls) :
    x.node? t = none ∧ TypeId.first ≤ t.val := by
  induction calls generalizing x with
  | nil => cases member
  | cons c calls ih =>
    rw [born] at member
    split at member
    case h_1 answer x' run =>
      rcases List.mem_append.mp member with now | later
      · obtain ⟨free, known⟩ := mem_made now
        refine ⟨free, ?_⟩
        obtain ⟨n, held⟩ := Option.ne_none_iff_exists'.mp known
        rcases node?_eq_some_iff.mp held with ⟨k, rfl, -⟩ | ⟨w, rfl, fits, -⟩
        · rw [node?_primitive] at free
          cases free
        · rw [val_typeOf, Nat.mod_eq_of_lt fits]
          exact Nat.le_add_right ..
      · obtain ⟨free, far⟩ := ih later
        refine ⟨?_, far⟩
        cases known : x.node? t with
        | none => rfl
        | some n => cases free.symm.trans ((c.grows x answer x' run).1.node known)
    case h_2 => cases member

theorem nodup_born (h : Hashing) (x : Interner) (calls : List Call) : (born h x calls).Nodup := by
  induction calls generalizing x with
  | nil => exact .nil
  | cons c calls ih =>
    rw [born]
    split
    case h_1 answer x' run =>
      refine List.Nodup.append ?_ (ih x') fun t now later => (mem_made now).2 (mem_born later).1
      unfold made
      split
      · split <;> simp
      · exact .nil
    case h_2 => exact .nil

theorem represents_new (h : Hashing) : (new h).names.Represents h.text TypeStore.empty.names := by
  have fits : AtomTable.Fits h.text ([] ++ NameTable.frequent) := AtomTable.fits_of_length (by decide)
  have names : TypeStore.empty.names = NameTable.empty.internFrequent := rfl
  have atoms : (new h).names = AtomTable.empty.internFrequent h.text := by simp only [new]
  rw [atoms, names, AtomTable.internFrequent, NameTable.internFrequent]
  exact (AtomTable.represents_empty.internAll NameTable.accounts_empty fits).1

theorem size_new (h : Hashing) : (new h).size = TypeId.first := by
  rw [size, Lanes.size]
  simp [new, Ledger.empty]

/-- A new store is in step with an empty one under every renumbering that spells its names. -/
theorem inStep_new (spelled : Spelled r (new h).names TypeStore.empty.names) : InStep h r (new h) .empty := by
  have primitive {t : TypeId} {n : TypeNode} (known : TypeStore.empty.node? t = some n) :
      ∃ k : Primitive, t = k.id := by
    rcases TypeStore.node?_eq_some_iff.mp known with ⟨k, same, -⟩ | ⟨i, -, held⟩
    · exact ⟨k, same⟩
    · simp [TypeStore.empty, Pool.empty, Pool.get?] at held
  exact {
    sound := sound_new h
    size := (size_new h).symm
    node := fun t => by
      cases known : (new h).node? t with
      | some n =>
        rcases node?_eq_some_iff.mp known with ⟨k, rfl, rfl⟩ | ⟨w, -, -, held⟩
        · rw [r.type_primitive, TypeStore.node?_primitive]
          rfl
        · cases held
      | none =>
        cases known' : TypeStore.empty.node? (r.type t) with
        | none => rfl
        | some n =>
          obtain ⟨k, same⟩ := primitive known'
          obtain rfl := r.type_injective (same.trans (r.type_primitive k).symm)
          rw [node?_primitive] at known
          cases known
    onto := fun {u n} known => by
      obtain ⟨k, rfl⟩ := primitive known
      exact ⟨k.id, r.type_primitive k⟩
    lists :=
      ⟨Ledger.sound_empty.append rfl rfl, by simp [TypeStore.empty, new, Pool.singleton, Ledger.append, Ledger.empty]⟩
    nil := rfl
    records := ⟨Ledger.sound_empty, by simp [TypeStore.empty, new, Pool.empty, Ledger.empty]⟩
    callables := ⟨Ledger.sound_empty, by simp [TypeStore.empty, new, Pool.empty, Ledger.empty]⟩
    binders := by simp [TypeStore.empty, new]
    names := represents_new h
    spelled }

/-- For every history in which nothing fills up there is a renumbering that foretells all of it. -/
theorem exists_follows {calls : List Call} (roomy : Roomy h (new h) calls) :
    ∃ r, Follows h r (new h) .empty calls := by
  have represents := represents_new h
  have sound := represents.sound.internAll (calls.flatMap Call.texts)
  obtain ⟨r, counted, named⟩ := exists_renumbering (nodup_born h (new h) calls) (fun t member => (mem_born member).2)
    sound.spelling?_inj fun {n s} known => by
      obtain ⟨atom, -, found⟩ := AtomTable.spelling?_eq_some_iff.mp known
      exact represents.known_internAll (calls.flatMap Call.texts) found
  have names : Spelled r ((new h).names.internAll h.text (calls.flatMap Call.texts)).2
      (TypeStore.empty.names.internAll (calls.flatMap Call.texts)).2 := fun n text => named
  exact ⟨r, inStep_new (names.of_internAll represents), roomy, fun i t listed => size_new h ▸ counted i t listed, names⟩

end Interner

end Narrowing
