import Narrowing.Name

/-!
The parts of a type graph. A type is a number; the node behind it shows one
layer and refers to its components by their numbers. Lists of types and the
shapes of records and callables are shared parts with numbers of their own, so a
node can be compared without walking its components.
-/

namespace Narrowing

/-- The types that are given, not built. -/
inductive Primitive where
  | void
  | null
  | bool
  | byte
  | int
  | any
deriving DecidableEq, Repr, Inhabited

/-- The number of a type. -/
structure TypeId where
  val : Nat
deriving DecidableEq, Repr, Inhabited

/-- The number of a list of types. -/
structure ListId where
  val : Nat
deriving DecidableEq, Repr, Inhabited

/-- The number of a record shape. -/
structure RecordId where
  val : Nat
deriving DecidableEq, Repr, Inhabited

/-- The number of a callable shape. -/
structure CallableId where
  val : Nat
deriving DecidableEq, Repr, Inhabited

/-- The number of a template variable. -/
structure VarId where
  val : Nat
deriving DecidableEq, Repr, Inhabited

/-- The number of a declaration. -/
structure DeclId where
  val : Nat
deriving DecidableEq, Repr, Inhabited

namespace TypeId

/-- The least number of a type that is built; smaller numbers are reserved. -/
def first : Nat := 100

def void : TypeId := ⟨1⟩
def null : TypeId := ⟨2⟩
def bool : TypeId := ⟨3⟩
def byte : TypeId := ⟨4⟩
def int : TypeId := ⟨5⟩
def any : TypeId := ⟨6⟩

/-- The primitive with a number. -/
def primitive? : TypeId → Option Primitive
  | ⟨1⟩ => some .void
  | ⟨2⟩ => some .null
  | ⟨3⟩ => some .bool
  | ⟨4⟩ => some .byte
  | ⟨5⟩ => some .int
  | ⟨6⟩ => some .any
  | _ => none

end TypeId

namespace Primitive

/-- The fixed number of a primitive. -/
def id : Primitive → TypeId
  | .void => .void
  | .null => .null
  | .bool => .bool
  | .byte => .byte
  | .int => .int
  | .any => .any

def keyword : Primitive → String
  | .void => "void"
  | .null => "null"
  | .bool => "bool"
  | .byte => "byte"
  | .int => "int"
  | .any => "any"

@[simp] theorem primitive?_id (k : Primitive) : k.id.primitive? = some k := by cases k <;> rfl

theorem eq_id_of_primitive? {t : TypeId} {k : Primitive} (same : t.primitive? = some k) : t = k.id := by
  unfold TypeId.primitive? at same
  split at same <;> simp_all <;> subst same <;> rfl

theorem id_lt_first (k : Primitive) : k.id.val < TypeId.first := by cases k <;> decide

end Primitive

/-- A field of a record. -/
structure Field where
  name : Name
  type : TypeId
deriving DecidableEq, Repr, Inhabited

/-- The fields of a record, in order and with different names. An open record may have more. -/
structure RecordShape where
  isOpen : Bool
  fields : List Field
  distinct : (fields.map Field.name).Nodup
deriving DecidableEq, Repr

namespace RecordShape

/-- The shape with the given fields, unless two of them have one name. -/
def ofFields? (isOpen : Bool) (fields : List Field) : Option RecordShape :=
  if distinct : (fields.map Field.name).Nodup then some ⟨isOpen, fields, distinct⟩ else none

end RecordShape

inductive CallableKind where
  | function
  | method
  | property
deriving DecidableEq, Repr, Inhabited

def CallableKind.keyword : CallableKind → String
  | .function => "function"
  | .method => "method"
  | .property => "property"

/-- The signature of a callable. -/
structure CallableShape where
  kind : CallableKind
  params : List TypeId
  returns : List TypeId
  captured : List Name := []
  lifetimeParams : List Name := []
deriving DecidableEq, Repr, Inhabited

/-- One layer of a type. -/
inductive TypeNode where
  | primitive (kind : Primitive)
  | array (element : TypeId)
  | record (shape : RecordId)
  | reference (element : TypeId) (lifetime : Option Name)
  | callable (shape : CallableId)
  | union (members : ListId)
  | intersection (members : ListId)
  | negation (operand : TypeId)
  | nominal (decl : DeclId)
  | var (binder : VarId)
  | unresolved (name : Name)
deriving DecidableEq, Repr, Inhabited

namespace TypeNode

/-- The primitive that a node is. -/
def primitive? : TypeNode → Option Primitive
  | .primitive k => some k
  | _ => none

theorem eq_primitive_of_primitive? {n : TypeNode} {k : Primitive} (same : n.primitive? = some k) :
    n = .primitive k := by
  cases n <;> simp_all [primitive?]

end TypeNode

end Narrowing
