import Narrowing.Type.Basic

/-!
Declarations give types their names. A declaration may be made before its body
is known, so that the body can refer to it. Numbers count from 1 and are never
used again; 0 is no declaration.
-/

namespace Narrowing

/-- The path of a declared name, outermost module first. -/
structure QualifiedName where
  path : List Name
deriving DecidableEq, Repr, Inhabited

namespace QualifiedName

/-- The last segment, blank for an empty path. -/
def last (q : QualifiedName) : Name := q.path.getLastD .blank

/-- The segments joined by `::`. -/
def display (q : QualifiedName) (names : NameTable) : String :=
  "::".intercalate (q.path.map names.text)

end QualifiedName

/-- A declared name, its type once it is defined, and the texts of its where clauses. -/
structure Declaration where
  name : QualifiedName
  body : Option TypeId := none
  invariants : List Name := []
deriving DecidableEq, Repr, Inhabited

/-- Whether a number may belong to a declaration. -/
def DeclId.isValid (d : DeclId) : Bool := 1 ≤ d.val

/-- The declarations made so far, in order. -/
structure Declarations where
  entries : Array Declaration := #[]
deriving Inhabited

namespace Declarations

def empty : Declarations := ⟨#[]⟩

def size (ds : Declarations) : Nat := ds.entries.size

def isEmpty (ds : Declarations) : Bool := ds.size = 0

def get? (ds : Declarations) (d : DeclId) : Option Declaration :=
  if d.isValid then ds.entries[d.val - 1]? else none

def contains (ds : Declarations) (d : DeclId) : Bool := (ds.get? d).isSome

/-- The type that a declaration stands for. -/
def body? (ds : Declarations) (d : DeclId) : Option TypeId := (ds.get? d).bind Declaration.body

def name? (ds : Declarations) (d : DeclId) : Option QualifiedName := (ds.get? d).map Declaration.name

def invariants? (ds : Declarations) (d : DeclId) : Option (List Name) :=
  (ds.get? d).map Declaration.invariants

/-- A new declaration. -/
def register (ds : Declarations) (entry : Declaration) : DeclId × Declarations :=
  (⟨ds.size + 1⟩, ⟨ds.entries.push entry⟩)

/-- A new declaration without a body. -/
def declare (ds : Declarations) (name : QualifiedName) : DeclId × Declarations := ds.register { name }

/-- The declarations with one of them changed; an unknown number changes nothing. -/
def update (ds : Declarations) (d : DeclId) (change : Declaration → Declaration) : Declarations :=
  if d.isValid then ⟨ds.entries.modify (d.val - 1) change⟩ else ds

/-- Give a declaration its body, in place of any earlier one. -/
def define (ds : Declarations) (d : DeclId) (body : TypeId) : Declarations :=
  ds.update d fun entry => { entry with body := some body }

/-- Add a where clause to a declaration. -/
def addInvariant (ds : Declarations) (d : DeclId) (clause : Name) : Declarations :=
  ds.update d fun entry => { entry with invariants := entry.invariants ++ [clause] }

end Declarations

end Narrowing
