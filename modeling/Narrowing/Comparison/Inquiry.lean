import Narrowing.Trace

/-!
Inquiries: computations of a selector that may ask for the selectors of other
pairs of types and go on by the answers. Who answers is left open, so the same
inquiry serves a guarded run, an unguarded one, and an oracle.
-/

namespace Narrowing

/-- What makes a graph of types impossible to compare. -/
inductive Fault where
  /-- A type is unknown, or a mention that nothing resolves. -/
  | unexpected (type : TypeId)
  /-- A declaration without a body. -/
  | undefined (decl : DeclId)
  | missingRecord (shape : RecordId)
  | missingCallable (shape : CallableId)
  | missingList (list : ListId)
deriving DecidableEq, Repr

/-- A computation that ends with a selector or a fault, and before that may make remarks and ask. -/
inductive Inquiry where
  | done (answer : Selector)
  | fail (fault : Fault)
  | note (event : Event) (next : Inquiry)
  | ask (lhs rhs : TypeId) (next : Selector → Inquiry)

namespace Inquiry

/-- Go on with a part of the graph, which must be there. -/
def require {α : Type} (part? : Option α) (fault : Fault) (next : α → Inquiry) : Inquiry :=
  match part? with
  | some a => next a
  | none => .fail fault

/-- The answer for another pair is the answer. -/
def defer (lhs rhs : TypeId) : Inquiry := .ask lhs rhs .done

/-- Top if every pair is top; the first that is not ends the inquiry. -/
def every : List (TypeId × TypeId) → Inquiry
  | [] => .done .top
  | (l, r) :: rest => .ask l r fun s => if s.isTop then every rest else .done .bottom

/-- Top if some alternative takes all of `lhs`; the first that does ends the inquiry. -/
def oneOf (lhs : TypeId) : (alternatives : List TypeId) → Inquiry
  | [] => .done .bottom
  | r :: rest => .ask lhs r fun s =>
    if s.isTop then .note (.accepted lhs r) (.done .top) else oneOf lhs rest

/-- The union of the selectors of all alternatives against `rhs`, after those in `found`. -/
def each (rhs : TypeId) (found : List Selector) : (alternatives : List TypeId) → Inquiry
  | [] => .done (.unionOf found)
  | l :: rest => .ask l rhs fun s => each rhs (found ++ [s]) rest

/-- The record of the selectors of all fields, after those in `found`. Fields that differ in name or have
    no value in common end the inquiry. -/
def fieldwise (found : List Selector) : List (Field × Field) → Inquiry
  | [] => .done (.recordOf found)
  | (l, r) :: rest =>
    if l.name = r.name then
      .ask l.type r.type fun s => if s.isBottom then .done .bottom else fieldwise (found ++ [s]) rest
    else .done .bottom

end Inquiry

end Narrowing
