import Narrowing.Comparison.Run

/-!
Queries: the comparisons that are asked from outside. A query answers with a
selector, or says which part of the graph is malformed; a checked one also says
when it could not keep to its limits.
-/

namespace Narrowing

/-- The answer to a query that reports its limits. -/
inductive Checked where
  | selector (selector : Selector)
  /-- Some pair was refused, whether or not the selector depends on it. -/
  | exceeded (limits : Limits)
deriving DecidableEq, Repr

/-- The report of a query that could not keep to its limits. -/
def Limits.exceededMessage (limits : Limits) : String :=
  "selector construction exceeded its limits (depth " ++ toString limits.maxDepth ++ ", iterations " ++
    toString limits.maxIterations ++ ")"

/-- The answer of a run, with a refusal reported. -/
def Run.checked (run : Run) : Except Fault Checked :=
  run.answer.map fun s => if run.guard.exceeded then .exceeded run.guard.limits else .selector s

namespace Environment

/-- The selector of one type against another, under limits that are not reported. -/
def limitedSelector (env : Environment) (limits : Limits) (lhs rhs : TypeId) : Except Fault Selector :=
  (env.compare limits lhs rhs).answer

/-- The selector of one type against another. -/
def selector (env : Environment) (lhs rhs : TypeId) : Except Fault Selector :=
  env.limitedSelector .unbounded lhs rhs

/-- The selector of one type against another, unless a limit is met on the way. -/
def checkedSelector (env : Environment) (limits : Limits) (lhs rhs : TypeId) : Except Fault Checked :=
  (env.compare limits lhs rhs).checked

/-- Whether every value of one type is a value of another, without a test. -/
def isSubtype (env : Environment) (lhs rhs : TypeId) : Except Fault Bool :=
  (env.selector lhs rhs).map Selector.isTop

/-- The text of a part that makes a graph malformed. The link to a declaration without a body is entered, so
    that it can be shown. -/
def showFault (env : Environment) (naming : Naming) : Fault → String × Environment
  | .unexpected t => ((env.text? naming t).getD "", env)
  | .undefined d =>
    let (t, env) := env.build (Build.nominal d)
    ((env.text? naming t).getD "", env)
  | .missingRecord r => (String.ofList (missingText "unknown record shape" r.val), env)
  | .missingCallable c => (String.ofList (missingText "unknown callable shape" c.val), env)
  | .missingList l => (String.ofList (missingText "unknown type list" l.val), env)

/-- The outcome of a query as it is reported, and the environment after the report. -/
def report {α : Type} (env : Environment) (naming : Naming) : Except Fault α → Except String α × Environment
  | .ok a => (.ok a, env)
  | .error fault =>
    let (text, env) := env.showFault naming fault
    (.error ("unexpected type encountered: " ++ text), env)

end Environment

end Narrowing
