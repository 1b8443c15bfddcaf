import Narrowing.Comparison.Inquiry
import Narrowing.Environment

/-!
The rules of comparison: how the selector of a pair of types follows from the
selectors of other pairs. Types of one family compare by their components. Of
types of different families names and unions are resolved, the right-hand name
before all else, and what remains has no value in common unless the left one is
void.
-/

namespace Narrowing

/-- The families of types that compare by their components. Each primitive is a family of its own. -/
inductive Family where
  | primitive (kind : Primitive)
  | array
  | record
  | reference
  | callable
  | union
  | intersection
  | negation
  | nominal
  | var
deriving DecidableEq, Repr

/-- The family of a node. A mention that nothing resolves has none. -/
def TypeNode.family? : TypeNode → Option Family
  | .primitive k => some (.primitive k)
  | .array _ => some .array
  | .record _ => some .record
  | .reference _ _ => some .reference
  | .callable _ => some .callable
  | .union _ => some .union
  | .intersection _ => some .intersection
  | .negation _ => some .negation
  | .nominal _ => some .nominal
  | .var _ => some .var
  | .unresolved _ => none

namespace Environment

/-- Go on with the body of a declaration. -/
def unfold (env : Environment) (d : DeclId) (next : TypeId → Inquiry) : Inquiry :=
  .require (env.declarations.body? d) (.undefined d) fun body => .note (.unfolded d body) (next body)

/-- Go on with the types of a list. -/
def members (env : Environment) (l : ListId) (next : List TypeId → Inquiry) : Inquiry :=
  .require (env.types.list? l) (.missingList l) next

/-- Records of the same openness and number of fields compare field by field. -/
def compareRecords (env : Environment) (l r : RecordId) : Inquiry :=
  .require (env.types.record? l) (.missingRecord l) fun ls =>
  .require (env.types.record? r) (.missingRecord r) fun rs =>
  if ls.isOpen = rs.isOpen ∧ ls.fields.length = rs.fields.length then
    .fieldwise [] (ls.fields.zip rs.fields)
  else .done .bottom

/-- Callables of the same kind and arity match if all their components do. No test at run time can see a
    signature, so there is nothing between top and bottom. -/
def compareCallables (env : Environment) (l r : CallableId) : Inquiry :=
  .require (env.types.callable? l) (.missingCallable l) fun ls =>
  .require (env.types.callable? r) (.missingCallable r) fun rs =>
  if ls.kind = rs.kind ∧ ls.params.length = rs.params.length ∧ ls.returns.length = rs.returns.length then
    .every (ls.params.zip rs.params ++ ls.returns.zip rs.returns)
  else .done .bottom

/-- Intersections compare operand by operand. -/
def compareIntersections (env : Environment) (l r : ListId) : Inquiry :=
  env.members l fun ls => env.members r fun rs =>
  if ls.length = rs.length then .every (ls.zip rs) else .done .bottom

/-- Two declarations. The same one matches without its body. -/
def compareNominals (env : Environment) (d e : DeclId) : Inquiry :=
  if d = e then .done .top
  else env.unfold d fun left => env.unfold e fun right => .defer left right

/-- The rule for two nodes of one family, where `rhs` is the type of the second. Equal families leave no pair without
    a rule (`exists_alike`), though nothing here says so. -/
def alike? (env : Environment) (rhs : TypeId) : (l r : TypeNode) → Option Inquiry
  | .primitive _, .primitive _ => some (.done .top)
  | .array l, .array r => some (.ask l r fun s => .done (.arrayOf s))
  | .record l, .record r => some (env.compareRecords l r)
  | .reference l _, .reference r _ => some (.every [(l, r)])
  | .callable l, .callable r => some (env.compareCallables l r)
  | .var l, .var r => some (.done (.ofBool (l = r)))
  | .nominal d, .nominal e => some (env.compareNominals d e)
  | .union ls, _ => some (env.members ls (.each rhs []))
  | .intersection l, .intersection r => some (env.compareIntersections l r)
  | .negation l, .negation r => some (.every [(l, r), (r, l)])
  | _, _ => none

/-- The rule for two types whose nodes are of different families. Void is below everything. -/
def unlike (env : Environment) (lhs rhs : TypeId) : (l r : TypeNode) → Inquiry
  | _, .nominal e => env.unfold e fun right => .defer lhs right
  | _, .union rs => env.members rs (.oneOf lhs)
  | .union ls, _ => env.members ls (.each rhs [])
  | .nominal d, _ => env.unfold d fun left => .defer left rhs
  | _, _ => .done (.ofBool (lhs = .void))

/-- The rule for a pair of types, chosen by their families. A pair that no rule is for is a fault of the left type. -/
def dispatch (env : Environment) (lhs rhs : TypeId) : Inquiry :=
  .require (env.types.node? lhs) (.unexpected lhs) fun l =>
  .require (env.types.node? rhs) (.unexpected rhs) fun r =>
  .require l.family? (.unexpected lhs) fun left =>
  .require r.family? (.unexpected rhs) fun right =>
  if left = right then .require (env.alike? rhs l r) (.unexpected lhs) id
  else env.unlike lhs rhs l r

end Environment

end Narrowing
