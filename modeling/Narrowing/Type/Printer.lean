import Narrowing.Type.Store

/-!
The written form of a type: `int[]`, `{int x, ...}`, `&l:int`,
`function(int)->(bool)`, `int|null`, `!null`, `a::b::Name`. A nominal type is
written by its name and never unfolded, so recursive declarations have finite
texts; only a type that contains itself without a declaration between has none.
-/

namespace Narrowing

/-- How tightly a written type binds, loosest first. -/
inductive Binding where
  | union
  | intersection
  | prefixed
  | postfixed
deriving DecidableEq, Repr, Inhabited

namespace Binding

def rank : Binding → Nat
  | .union => 0
  | .intersection => 1
  | .prefixed => 2
  | .postfixed => 3

/-- A text in parentheses if it binds looser than its surroundings need. -/
def enclose (context own : Binding) (text : List Char) : List Char :=
  if own.rank < context.rank then '(' :: text ++ [')'] else text

end Binding

/-- The stand-in for a part that is not there. -/
def missingText (kind : String) (number : Nat) : List Char :=
  '<' :: kind.toList ++ ' ' :: '#' :: Nat.toDigits 10 number ++ ['>']

namespace TypeStore

/-- The characters of a name. -/
def nameText (s : TypeStore) (n : Name) : List Char := (s.names.text n).toList

/-- Names between a pair of brackets, or nothing if there are none. -/
def bracketedNames (s : TypeStore) (before after : Char) : List Name → List Char
  | [] => []
  | names => before :: [','].intercalate (names.map s.nameText) ++ [after]

/-- A callable's text up to its parameters. Only methods show lifetimes. -/
def callableHead (s : TypeStore) (shape : CallableShape) : List Char :=
  shape.kind.keyword.toList ++
    if shape.kind = .method then
      s.bracketedNames '<' '>' shape.lifetimeParams ++ s.bracketedNames '[' ']' shape.captured
    else []

/-- The text of `t` where a type of strength `context` is needed. Declarations are written by `label?`.
    There is none if the nodes below `t` go deeper than `depth`. -/
def printWithin (s : TypeStore) (label? : DeclId → Option String) :
    (depth : Nat) → (context : Binding) → TypeId → Option (List Char)
  | 0, _, _ => none
  | depth + 1, context, t =>
    match s.node? t with
    | none => some (missingText "unknown" t.val)
    | some (.primitive k) => some k.keyword.toList
    | some (.array element) => do
      return (← s.printWithin label? depth .postfixed element) ++ ['[', ']']
    | some (.record id) =>
      match s.record? id with
      | none => some (missingText "unknown record" id.val)
      | some shape => do
        let fields ← shape.fields.mapM fun f => do
          return (← s.printWithin label? depth .union f.type) ++ ' ' :: s.nameText f.name
        let parts := fields ++ if shape.isOpen then [['.', '.', '.']] else []
        return '\x7b' :: [',', ' '].intercalate parts ++ ['\x7d']
    | some (.reference element lifetime) => do
      let lifetime := lifetime.elim [] fun n => s.nameText n ++ [':']
      return Binding.enclose context .prefixed
        ('&' :: lifetime ++ (← s.printWithin label? depth .prefixed element))
    | some (.callable id) =>
      match s.callable? id with
      | none => some (missingText "unknown callable" id.val)
      | some shape => do
        let params ← shape.params.mapM (s.printWithin label? depth .union)
        let returns ← shape.returns.mapM (s.printWithin label? depth .union)
        return Binding.enclose context .prefixed
          (s.callableHead shape ++ '(' :: [','].intercalate params ++ [')', '-', '>', '('] ++
            [','].intercalate returns ++ [')'])
    | some (.union id) =>
      match s.list? id with
      | none => some (missingText "unknown union" id.val)
      | some members => do
        let members ← members.mapM (s.printWithin label? depth .intersection)
        return Binding.enclose context .union (['|'].intercalate members)
    | some (.intersection id) =>
      match s.list? id with
      | none => some (missingText "unknown intersection" id.val)
      | some members => do
        let members ← members.mapM (s.printWithin label? depth .prefixed)
        return Binding.enclose context .intersection (['&'].intercalate members)
    | some (.negation operand) => do
      return Binding.enclose context .prefixed ('!' :: (← s.printWithin label? depth .prefixed operand))
    | some (.nominal d) => some ((label? d).elim (missingText "decl" d.val) String.toList)
    | some (.var v) => some ((s.binder? v).elim (missingText "var" v.val) s.nameText)
    | some (.unresolved n) => some ('?' :: s.nameText n)

/-- The text of a type. A chain of different nodes is never too deep. -/
def print (s : TypeStore) (label? : DeclId → Option String) (t : TypeId) : Option (List Char) :=
  s.printWithin label? (s.nodes.size + 1) .union t

end TypeStore

end Narrowing
