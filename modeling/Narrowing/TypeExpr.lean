import Narrowing.Type.Normal

/-!
Type expressions: descriptions of types that are built from left to right,
innermost first. A name counts as mentioned even if the construction around it
fails.
-/

namespace Narrowing

/-- One layer to put around a type. -/
inductive Wrapper where
  | array
  | negation
  /-- A static reference. -/
  | reference
  /-- A closed record with the field `x`. -/
  | record
  /-- A function with one parameter and no result. -/
  | function
  /-- An array of the type or null. -/
  | nullable
  /-- An array of the intersection with any. -/
  | intersected
deriving DecidableEq, Repr, Inhabited

/-- A description of a type. -/
inductive TypeExpr where
  /-- A type that is at hand, known or not. -/
  | type (id : TypeId)
  /-- A node taken as it is. -/
  | node (node : TypeNode)
  | array (element : TypeExpr)
  | record (isOpen : Bool) (fields : List (String × TypeExpr))
  | reference (element : TypeExpr) (lifetime : Option String)
  | callable (kind : CallableKind) (params returns : List TypeExpr) (captured lifetimeParams : List String)
  | union (members : List TypeExpr)
  | intersection (members : List TypeExpr)
  | negation (operand : TypeExpr)
  | var (name : String)
  | unresolved (name : String)
  /-- A type under several layers of one kind. -/
  | nest (wrapper : Wrapper) (layers : Nat) (inner : TypeExpr)

/-- Why a description has no type. -/
inductive ConstructionError where
  /-- Two fields of a record have one name. -/
  | repeatedField
deriving DecidableEq, Repr

def ConstructionError.message : ConstructionError → String
  | .repeatedField => "record field names must be unique"

/-- A construction that may fail; what it entered before stays entered. -/
abbrev Construct := ExceptT ConstructionError Build

namespace Build

/-- A record with the given fields. -/
def recordOfFields (isOpen : Bool) (fields : List Field) : Construct TypeId :=
  match RecordShape.ofFields? isOpen fields with
  | some shape => ExceptT.lift (record shape)
  | none => throw .repeatedField

/-- Put one layer around a type. -/
def wrap (t : TypeId) : Wrapper → Build TypeId
  | .array => array t
  | .negation => negation t
  | .reference => reference t none
  | .record => do record ⟨false, [⟨← name "x", t⟩], by simp⟩
  | .function => callable { kind := .function, params := [t], returns := [] }
  | .nullable => do array (← union [t, .null])
  | .intersected => do array (← intersection [t, .any])

/-- Put several layers of one kind around a type. -/
def nest (wrapper : Wrapper) (t : TypeId) : (layers : Nat) → Build TypeId
  | 0 => return t
  | layers + 1 => do nest wrapper (← wrap t wrapper) layers

end Build

namespace TypeExpr

mutual

/-- Build the type that an expression describes. -/
def build : TypeExpr → Construct TypeId
  | .type id => return id
  | .node n => Build.intern n
  | .array element => do Build.array (← element.build)
  | .record isOpen fields => do Build.recordOfFields isOpen (← buildFields fields)
  | .reference element lifetime => do
    let element ← element.build
    let lifetime ← (lifetime.mapM Build.name : Build (Option Name))
    Build.reference element lifetime
  | .callable kind params returns captured lifetimeParams => do
    let params ← buildAll params
    let returns ← buildAll returns
    let captured ← Build.names captured
    let lifetimeParams ← Build.names lifetimeParams
    Build.callable { kind, params, returns, captured, lifetimeParams }
  | .union members => do Build.union (← buildAll members)
  | .intersection members => do Build.intersection (← buildAll members)
  | .negation operand => do Build.negation (← operand.build)
  | .var name => Build.variableNamed name
  | .unresolved name => Build.unresolved name
  | .nest wrapper layers inner => do Build.nest wrapper (← inner.build) layers

def buildAll : List TypeExpr → Construct (List TypeId)
  | [] => return []
  | e :: rest => do
    let t ← e.build
    return t :: (← buildAll rest)

/-- Build the fields of a record; a name is entered before the type beside it. -/
def buildFields : List (String × TypeExpr) → Construct (List Field)
  | [] => return []
  | (name, e) :: rest => do
    let name ← Build.name name
    let type ← e.build
    return ⟨name, type⟩ :: (← buildFields rest)

end

end TypeExpr

end Narrowing
