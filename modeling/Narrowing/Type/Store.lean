import Narrowing.Type.Basic

/-!
The store of types. A type and its node determine each other (`node?_intern`,
`intern_of_node?`), and a type keeps its node (`node?_intern_of_node?`). A node
may refer to a list, shape or variable that is not there yet; the reference is
followed when it is needed.
-/

namespace Narrowing

/-- Every name, node and shared part entered so far. The primitives are known without an entry. -/
structure TypeStore where
  names : NameTable
  nodes : Pool TypeNode
  lists : Pool (List TypeId)
  records : Pool RecordShape
  callables : Pool CallableShape
  binders : Array Name
  built : ∀ i k, nodes.get? i ≠ some (.primitive k)

/-- A computation that may enter types into the store. -/
abbrev Build := StateM TypeStore

namespace TypeStore

/-- The store before anything is built: frequent names are known, and the empty list has number 0. -/
def empty : TypeStore where
  names := NameTable.empty.internFrequent
  nodes := .empty
  lists := .singleton []
  records := .empty
  callables := .empty
  binders := #[]
  built := by simp [Pool.get?, Pool.empty]

instance : Inhabited TypeStore := ⟨empty⟩

/-- How many type numbers are taken, the reserved ones included. -/
def size (s : TypeStore) : Nat := TypeId.first + s.nodes.size

/-- No type has been built. -/
def isEmpty (s : TypeStore) : Bool := s.size ≤ TypeId.first

/-- The node of a known type. -/
def node? (s : TypeStore) (t : TypeId) : Option TypeNode :=
  match t.primitive? with
  | some k => some (.primitive k)
  | none => if t.val < TypeId.first then none else s.nodes.get? (t.val - TypeId.first)

theorem node?_primitive (s : TypeStore) (k : Primitive) : s.node? k.id = some (.primitive k) := by simp [node?]

private theorem node?_built (s : TypeStore) (i : Nat) : s.node? ⟨TypeId.first + i⟩ = s.nodes.get? i := by
  cases found : TypeId.primitive? ⟨TypeId.first + i⟩ with
  | some k =>
    have small := k.id_lt_first
    rw [← Primitive.eq_id_of_primitive? found] at small
    simp only at small
    omega
  | none =>
    have outside : ¬ TypeId.first + i < TypeId.first := by omega
    simp [node?, found, outside]

/-- The types of nodes are primitives or have been built. -/
theorem node?_eq_some_iff {s : TypeStore} {t : TypeId} {n : TypeNode} :
    s.node? t = some n ↔
      (∃ k, t = k.id ∧ n = .primitive k) ∨ ∃ i, t = ⟨TypeId.first + i⟩ ∧ s.nodes.get? i = some n := by
  constructor
  · intro known
    unfold node? at known
    split at known
    case h_1 k found =>
      exact .inl ⟨k, Primitive.eq_id_of_primitive? found, (Option.some.inj known).symm⟩
    case h_2 =>
      split at known
      · exact absurd known (by simp)
      · rename_i far
        refine .inr ⟨t.val - TypeId.first, ?_, known⟩
        obtain ⟨val⟩ := t
        simp only [Nat.not_lt] at far
        simp [Nat.add_sub_cancel' far]
  · rintro (⟨k, rfl, rfl⟩ | ⟨i, rfl, known⟩)
    · exact s.node?_primitive k
    · rw [node?_built, known]

/-- The numbers of known types lie below the size of the store. -/
theorem val_lt_size {s : TypeStore} {t : TypeId} {n : TypeNode} (known : s.node? t = some n) : t.val < s.size := by
  rcases node?_eq_some_iff.mp known with ⟨k, rfl, -⟩ | ⟨i, rfl, held⟩
  · exact Nat.lt_of_lt_of_le k.id_lt_first (Nat.le_add_right ..)
  · exact Nat.add_lt_add_left (Pool.lt_size_of_get? held) _

def list? (s : TypeStore) (l : ListId) : Option (List TypeId) := s.lists.get? l.val

def record? (s : TypeStore) (r : RecordId) : Option RecordShape := s.records.get? r.val

def callable? (s : TypeStore) (c : CallableId) : Option CallableShape := s.callables.get? c.val

/-- The name that a template variable was made with. -/
def binder? (s : TypeStore) (v : VarId) : Option Name := s.binders[v.val]?

end TypeStore

namespace Build

/-- The name of a text. -/
def name (text : String) : Build Name := fun s =>
  let (n, names) := s.names.intern text
  (n, { s with names })

/-- The names of several texts. -/
def names (texts : List String) : Build (List Name) := texts.mapM name

/-- The type of a node, taken as it is. -/
def intern (node : TypeNode) : Build TypeId := fun s =>
  match built : node.primitive? with
  | some k => (k.id, s)
  | none =>
    let entry := s.nodes.intern node
    (⟨TypeId.first + entry.1⟩, { s with
      nodes := entry.2
      built := fun i k held => (Pool.get?_intern_eq_some held).elim (s.built i k)
        (fun same => by simp [← same, TypeNode.primitive?] at built) })

theorem node?_intern (node : TypeNode) (s : TypeStore) : (intern node s).2.node? (intern node s).1 = some node := by
  unfold intern
  split
  case h_1 k same => rw [TypeNode.eq_primitive_of_primitive? same, TypeStore.node?_primitive]
  case h_2 => exact TypeStore.node?_eq_some_iff.mpr (.inr ⟨_, rfl, Pool.get?_intern _ _⟩)

theorem intern_of_node? {s : TypeStore} {t : TypeId} {node : TypeNode} (known : s.node? t = some node) :
    intern node s = (t, s) := by
  rcases TypeStore.node?_eq_some_iff.mp known with ⟨k, rfl, rfl⟩ | ⟨i, rfl, held⟩
  · rfl
  · have entry := Pool.intern_of_get? held
    unfold intern
    split
    case h_1 k same => exact absurd (TypeNode.eq_primitive_of_primitive? same ▸ held) (s.built i k)
    case h_2 => simp only [entry]

theorem node?_intern_of_node? {s : TypeStore} {t : TypeId} {node : TypeNode} (other : TypeNode)
    (known : s.node? t = some node) : (intern other s).2.node? t = some node := by
  unfold intern
  split
  case h_1 => exact known
  case h_2 =>
    refine TypeStore.node?_eq_some_iff.mpr ((TypeStore.node?_eq_some_iff.mp known).imp_right ?_)
    rintro ⟨i, same, held⟩
    exact ⟨i, same, Pool.get?_intern_of_get? other held⟩

/-- The number of a list of types. -/
def list (types : List TypeId) : Build ListId := fun s =>
  let (i, lists) := s.lists.intern types
  (⟨i⟩, { s with lists })

def array (element : TypeId) : Build TypeId := intern (.array element)

def record (shape : RecordShape) : Build TypeId := do
  let shape ← modifyGet fun s =>
    let (i, records) := s.records.intern shape
    (⟨i⟩, { s with records })
  intern (.record shape)

/-- A reference; without a lifetime it is static. -/
def reference (element : TypeId) (lifetime : Option Name) : Build TypeId :=
  intern (.reference element lifetime)

def callable (shape : CallableShape) : Build TypeId := do
  let shape ← modifyGet fun s =>
    let (i, callables) := s.callables.intern shape
    (⟨i⟩, { s with callables })
  intern (.callable shape)

def negation (operand : TypeId) : Build TypeId := intern (.negation operand)

def nominal (decl : DeclId) : Build TypeId := intern (.nominal decl)

/-- A template variable of its own, whatever other variables share its name. -/
def variableNamed (text : String) : Build TypeId := do
  let n ← name text
  let v ← modifyGet fun s => (⟨s.binders.size⟩, { s with binders := s.binders.push n })
  intern (.var v)

/-- A mention of a type that nothing defines. -/
def unresolved (text : String) : Build TypeId := do intern (.unresolved (← name text))

end Build

end Narrowing
