import Narrowing.Comparison.Rule

/-!
The rule of comparison by the two nodes alone. Which rule a pair goes to is decided by
families and, for void, by number; said by nodes, one case analysis is enough
(`dispatch_eq_rule`). Nodes of one family always have a rule (`exists_alike`), so the
fault that stands for a pair without one never arises.
-/

namespace Narrowing

namespace TypeStore

/-- A primitive has no number but its own. -/
theorem node?_eq_primitive_iff {s : TypeStore} {t : TypeId} {k : Primitive} :
    s.node? t = some (.primitive k) ↔ t = k.id := by
  constructor
  · intro known
    rcases node?_eq_some_iff.mp known with ⟨k', rfl, same⟩ | ⟨i, -, held⟩
    · rw [TypeNode.primitive.inj same]
    · exact absurd held (s.built i k)
  · rintro rfl
    exact s.node?_primitive k

end TypeStore

namespace Environment

variable {env : Environment}

/-- The rule for two nodes that are neither nominal nor unions. Void is below everything. -/
def compareShapes (env : Environment) : (lhs rhs : TypeNode) → Inquiry
  | .primitive l, .primitive r => .done (.ofBool (l = r ∨ l = .void))
  | .array l, .array r => .ask l r fun s => .done (.arrayOf s)
  | .record l, .record r => env.compareRecords l r
  | .reference l _, .reference r _ => .every [(l, r)]
  | .callable l, .callable r => env.compareCallables l r
  | .intersection l, .intersection r => env.compareIntersections l r
  | .negation l, .negation r => .every [(l, r), (r, l)]
  | .var l, .var r => .done (.ofBool (l = r))
  | .primitive .void, _ => .done .top
  | _, _ => .done .bottom

/-- The rule for a pair of types. -/
def rule (env : Environment) (lhs rhs : TypeId) : Inquiry :=
  .require (env.types.node? lhs) (.unexpected lhs) fun l =>
  .require (env.types.node? rhs) (.unexpected rhs) fun r =>
  match l, r with
  | .unresolved _, _ => .fail (.unexpected lhs)
  | _, .unresolved _ => .fail (.unexpected rhs)
  | .nominal d, .nominal e =>
    if d = e then .done .top
    else env.unfold d fun left => env.unfold e fun right => .defer left right
  | _, .nominal e => env.unfold e fun right => .defer lhs right
  | .union ls, _ => env.members ls fun alternatives => .each rhs [] alternatives
  | _, .union rs => env.members rs fun alternatives => .oneOf lhs alternatives
  | .nominal d, _ => env.unfold d fun left => .defer left rhs
  | l, r => env.compareShapes l r

/-- Nodes of one family have a rule. -/
theorem exists_alike (env : Environment) (rhs : TypeId) {l r : TypeNode} {family : Family}
    (left : l.family? = some family) (right : r.family? = some family) : ∃ i, env.alike? rhs l r = some i := by
  have same := left.trans right.symm
  cases l with
  | unresolved => simp [TypeNode.family?] at left
  | union => simp [alike?]
  | _ =>
    -- One node on the right is left.
    cases r <;> simp [TypeNode.family?] at same
    simp [alike?]

/-- Which rule a pair goes to can be read off its nodes. -/
theorem dispatch_eq_rule (env : Environment) (lhs rhs : TypeId) : env.dispatch lhs rhs = env.rule lhs rhs := by
  rw [dispatch, rule]
  cases knownL : env.types.node? lhs with
  | none => rfl
  | some l =>
    cases knownR : env.types.node? rhs with
    | none => rfl
    | some r =>
      simp only [Inquiry.require]
      cases l with
      | primitive k =>
        -- Only here can the left type be void.
        obtain rfl := TypeStore.node?_eq_primitive_iff.mp knownL
        cases r with
        | primitive k' => cases k <;> cases k' <;> rfl
        | _ => cases k <;> rfl
      | _ =>
        have inhabited : lhs ≠ .void := by
          rintro rfl
          have void := env.types.node?_primitive .void
          exact absurd (void.symm.trans knownL) (by simp)
        cases r <;> simp [TypeNode.family?, alike?, unlike, compareShapes, compareNominals, inhabited, Selector.ofBool]

end Environment

end Narrowing
