import Narrowing.Type.Store

/-!
Unions and intersections in normal form: nested ones are opened, repeated
members are dropped, and a union has no member void. What would have fewer than
two members is replaced by its member, or by void (any) if there is none.
-/

namespace Narrowing

namespace TypeStore

/-- The members below `t` in order. The nodes that `part?` gives a list for are opened, and a list that is
    not there has no members. Below `depth` opened nodes nothing more is opened. -/
def leavesWithin (s : TypeStore) (part? : TypeNode → Option ListId) : (depth : Nat) → TypeId → List TypeId
  | 0, t => [t]
  | depth + 1, t =>
    match (s.node? t).bind part? with
    | some l => ((s.list? l).getD []).flatMap (s.leavesWithin part? depth)
    | none => [t]

/-- The members below `t` in order. No chain of different nodes is longer than the depth given here. -/
def leaves (s : TypeStore) (part? : TypeNode → Option ListId) (t : TypeId) : List TypeId :=
  s.leavesWithin part? (s.nodes.size + 1) t

end TypeStore

namespace TypeNode

/-- The alternatives of a union. -/
def alternatives? : TypeNode → Option ListId
  | .union l => some l
  | _ => none

/-- The operands of an intersection. -/
def operands? : TypeNode → Option ListId
  | .intersection l => some l
  | _ => none

end TypeNode

namespace Build

/-- The members of `types`, nested ones opened, each at its first occurrence. -/
def flattened (part? : TypeNode → Option ListId) (types : List TypeId) : Build (List TypeId) := do
  return (types.flatMap ((← get).leaves part?)).eraseDups

/-- The union of the given types. There is none if a union among them is nested in itself, as one can be that was taken
    as it is: opening it has no end. Here it is opened as often as there are types, and what then comes out stands for
    no answer. -/
def union (types : List TypeId) : Build TypeId := do
  match (← flattened TypeNode.alternatives? types).filter (· ≠ .void) with
  | [] => return .void
  | [t] => return t
  | members => intern (.union (← list members))

/-- The intersection of the given types. As with unions, there is none if an intersection among them is nested in
    itself, and what then comes out stands for no answer. -/
def intersection (types : List TypeId) : Build TypeId := do
  match ← flattened TypeNode.operands? types with
  | [] => return .any
  | [t] => return t
  | members => intern (.intersection (← list members))

end Build

end Narrowing
