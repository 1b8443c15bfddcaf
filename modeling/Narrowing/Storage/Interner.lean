import Narrowing.Storage.Atoms
import Narrowing.Type.Normal

/-!
The store of types as it is kept. Nodes are in lanes, and the number of a type that is
built is made from the word for its place; names are atoms, and lists and shapes are
numbered by their places in ledgers of their own. Numbers are words of 32 bits. The
check on a lane is made before the reserved numbers are added, so that the last places
of a lane have no number: the sum goes round and gives a reserved one
(`typeOf_lt_first_iff`).
-/

namespace Narrowing

/-- The text of a name whose number is an atom. -/
def AtomTable.spelling? (t : AtomTable) (n : Name) : Option String :=
  if n.val < 0x100000000 then t.text? n.val.toUInt32 else none

/-- The hashes that assign texts and nodes to their lanes. -/
structure Hashing where
  text : String → UInt64
  node : TypeNode → UInt64

/-- Every name, node and shared part entered so far, in the tables that hold them. -/
structure Interner where
  types : Lanes TypeNode UInt32
  names : AtomTable
  lists : Ledger (List TypeId) UInt32
  records : Ledger RecordShape UInt32
  callables : Ledger CallableShape UInt32
  binders : Array Name

/-- What is said of a lane without a place for a new node. -/
def LaneFull.message (refusal : LaneFull) : String := "type interner shard " ++ toString refusal.lane.val ++ " is full"

/-- A computation that may enter types, and that stops where a lane is full. -/
abbrev Entering := StateT Interner (Except LaneFull)

namespace Interner

/-- The store before anything is built: frequent names are known, and the empty list has number 0. -/
def new (h : Hashing) : Interner where
  types := fun _ => .empty
  names := AtomTable.empty.internFrequent h.text
  lists := Ledger.empty.append [] 0
  records := .empty
  callables := .empty
  binders := #[]

/-- How many type numbers are taken, the reserved ones included. -/
def size (x : Interner) : Nat := TypeId.first + x.types.size

/-- The type for a word. The sum is a word again. -/
def typeOf (w : UInt32) : TypeId := ⟨(TypeId.first.toUInt32 + w).toNat⟩

/-- The word of a type that is not reserved. -/
def word? (t : TypeId) : Option UInt32 :=
  if TypeId.first ≤ t.val ∧ t.val < 0x100000000 then some (t.val - TypeId.first).toUInt32 else none

theorem val_typeOf (w : UInt32) : (typeOf w).val = (TypeId.first + w.toNat) % 0x100000000 := UInt32.toNat_add ..

/-- A word has no type of its own if the reserved numbers do not fit below it. -/
theorem typeOf_lt_first_iff (w : UInt32) : (typeOf w).val < TypeId.first ↔ 0x100000000 ≤ TypeId.first + w.toNat := by
  have bounded := w.toNat_lt
  rw [val_typeOf]
  simp only [TypeId.first]
  omega

theorem word?_eq_some_iff {t : TypeId} {w : UInt32} :
    word? t = some w ↔ t = typeOf w ∧ TypeId.first + w.toNat < 0x100000000 := by
  have bounded := w.toNat_lt
  obtain ⟨val⟩ := t
  simp only [word?, typeOf, TypeId.mk.injEq]
  rw [show (TypeId.first.toUInt32 + w).toNat = _ from val_typeOf w]
  constructor
  · intro named
    split at named
    case isTrue inside =>
      have exact : w.toNat = val - TypeId.first := by
        rw [← Option.some.inj named]
        exact Nat.mod_eq_of_lt (by omega)
      rw [exact]
      omega
    case isFalse => cases named
  · rintro ⟨same, fits⟩
    rw [Nat.mod_eq_of_lt fits] at same
    rw [if_pos ⟨by omega, by omega⟩, same, Nat.add_sub_cancel_left, Nat.toUInt32_eq, UInt32.ofNat_toNat]

/-- The node of a known type. -/
def node? (x : Interner) (t : TypeId) : Option TypeNode :=
  match t.primitive? with
  | some k => some (.primitive k)
  | none => (word? t).bind x.types.get?

def list? (x : Interner) (l : ListId) : Option (List TypeId) := x.lists.items[l.val]?

def record? (x : Interner) (r : RecordId) : Option RecordShape := x.records.items[r.val]?

def callable? (x : Interner) (c : CallableId) : Option CallableShape := x.callables.items[c.val]?

/-- The name that a template variable was made with. -/
def binder? (x : Interner) (v : VarId) : Option Name := x.binders[v.val]?

/-- The text of a known name. -/
def text? (x : Interner) (n : Name) : Option String := x.names.spelling? n

/-- A list with one type more, unless it is there. -/
def addNew (flat : List TypeId) (t : TypeId) : List TypeId := if t ∈ flat then flat else flat ++ [t]

/-- Add the members below `t` to `flat`, each unless it is there. The nodes that `part?` gives a list for are opened.
    Below `depth` opened nodes nothing more is opened. -/
def flattenInto (x : Interner) (part? : TypeNode → Option ListId) : (depth : Nat) → List TypeId → TypeId → List TypeId
  | 0, flat, t => addNew flat t
  | depth + 1, flat, t =>
    match (x.node? t).bind part? with
    | some l => ((x.list? l).getD []).foldl (x.flattenInto part? depth) flat
    | none => addNew flat t

/-- The members of `types`, nested ones opened, each at its first occurrence. -/
def flattened (x : Interner) (part? : TypeNode → Option ListId) (types : List TypeId) : List TypeId :=
  types.foldl (x.flattenInto part? (x.types.size + 1)) []

end Interner

namespace Entering

/-- The members of `types`, nested ones opened, each at its first occurrence. -/
def flattened (part? : TypeNode → Option ListId) (types : List TypeId) : Entering (List TypeId) := do
  return (← get).flattened part? types

/-- The number of a list of types. -/
def list (types : List TypeId) : Entering ListId := fun x =>
  if types = [] then .ok (⟨0⟩, x)
  else do
    let (i, lists) ← x.lists.enter .ok types
    return (⟨i.toNat⟩, { x with lists })

/-- The number of a record shape. -/
def recordShape (shape : RecordShape) : Entering RecordId := fun x => do
  let (i, records) ← x.records.enter .ok shape
  return (⟨i.toNat⟩, { x with records })

/-- The number of a callable shape. -/
def callableShape (shape : CallableShape) : Entering CallableId := fun x => do
  let (i, callables) ← x.callables.enter .ok shape
  return (⟨i.toNat⟩, { x with callables })

/-- A new template variable. -/
def binder (name : Name) : Entering VarId := fun x =>
  .ok (⟨x.binders.size.toUInt32.toNat⟩, { x with binders := x.binders.push name })

section
variable (h : Hashing)

/-- The name of a text. -/
def name (text : String) : Entering Name := fun x =>
  let (atom, names) := x.names.intern h.text text
  .ok (⟨atom.toNat⟩, { x with names })

/-- The type of a node, taken as it is. -/
def intern (node : TypeNode) : Entering TypeId := fun x =>
  match node.primitive? with
  | some k => .ok (k.id, x)
  | none => do
    let lane := Lanes.assigned (h.node node)
    let (place, types) ← x.types.enter (fun place _ => place) lane node
    return (Interner.typeOf (Lanes.pack place lane), { x with types })

def array (element : TypeId) : Entering TypeId := intern h (.array element)

def record (shape : RecordShape) : Entering TypeId := do intern h (.record (← recordShape shape))

/-- A reference; without a lifetime it is static. -/
def reference (element : TypeId) (lifetime : Option Name) : Entering TypeId := intern h (.reference element lifetime)

def callable (shape : CallableShape) : Entering TypeId := do intern h (.callable (← callableShape shape))

/-- The union of the given types. -/
def union (types : List TypeId) : Entering TypeId := do
  match (← flattened TypeNode.alternatives? types).filter (· ≠ .void) with
  | [] => return .void
  | [t] => return t
  | members => intern h (.union (← list members))

/-- The intersection of the given types. -/
def intersection (types : List TypeId) : Entering TypeId := do
  match ← flattened TypeNode.operands? types with
  | [] => return .any
  | [t] => return t
  | members => intern h (.intersection (← list members))

def negation (operand : TypeId) : Entering TypeId := intern h (.negation operand)

def nominal (decl : DeclId) : Entering TypeId := intern h (.nominal decl)

/-- A template variable of its own, whatever other variables share its name. -/
def variableNamed (text : String) : Entering TypeId := do intern h (.var (← binder (← name h text)))

/-- A mention of a type that nothing defines. -/
def unresolved (text : String) : Entering TypeId := do intern h (.unresolved (← name h text))

end

end Entering

end Narrowing
