import Narrowing.Lifetime
import Narrowing.Proofs.GuardedRun

/-!
Queries only read. A comparison that fails names a part that the graph does lack,
and the type that refers to it (`blames_of_compareWithin`). So the link that the
report of a declaration without a body enters is there already, and no query, with
an answer or without, leaves a trace in the environment (`report_of_blames`). Queries
that follow each other are answered as if each were the only one.
-/

namespace Narrowing

namespace Inquiry

/-- Whatever the answers, a fault that ends the inquiry is one of those allowed. -/
def FailsWith (allowed : Fault → Prop) : Inquiry → Prop
  | .done _ => True
  | .fail fault => allowed fault
  | .note _ next => next.FailsWith allowed
  | .ask _ _ next => ∀ s, (next s).FailsWith allowed

section
variable {allowed : Fault → Prop}

theorem failsWith_require {α : Type} {part? : Option α} {fault : Fault} {next : α → Inquiry}
    (absent : part? = none → allowed fault) (present : ∀ a, part? = some a → (next a).FailsWith allowed) :
    (require part? fault next).FailsWith allowed := by
  cases part? with
  | none => exact absent rfl
  | some a => exact present a rfl

theorem failsWith_every (pairs : List (TypeId × TypeId)) : (every pairs).FailsWith allowed := by
  induction pairs with
  | nil => trivial
  | cons p rest ih =>
    intro s
    by_cases top : s.isTop <;> simp [top, ih, FailsWith]

theorem failsWith_oneOf (lhs : TypeId) (alternatives : List TypeId) : (oneOf lhs alternatives).FailsWith allowed := by
  induction alternatives with
  | nil => trivial
  | cons r rest ih =>
    intro s
    by_cases top : s.isTop <;> simp [top, ih, FailsWith]

theorem failsWith_each (rhs : TypeId) (found : List Selector) (alternatives : List TypeId) :
    (each rhs found alternatives).FailsWith allowed := by
  induction alternatives generalizing found with
  | nil => trivial
  | cons l rest ih => exact fun s => ih (found ++ [s])

theorem failsWith_fieldwise (found : List Selector) (fields : List (Field × Field)) :
    (fieldwise found fields).FailsWith allowed := by
  induction fields generalizing found with
  | nil => trivial
  | cons p rest ih =>
    obtain ⟨l, r⟩ := p
    by_cases named : l.name = r.name
    · simp only [fieldwise, named, if_true]
      intro s
      by_cases bottom : s.isBottom <;> simp [bottom, ih, FailsWith]
    · simp [fieldwise, named, FailsWith]

/-- A run fails with a fault of its inquiry or of a comparison that it asks for. -/
theorem FailsWith.of_run {compare : Guard TypePair → TypeId → TypeId → Run}
    (compared : ∀ g l r fault, (compare g l r).answer = .error fault → allowed fault) {i : Inquiry}
    (fails : i.FailsWith allowed) {g : Guard TypePair} {fault : Fault}
    (failed : (i.run compare g).answer = .error fault) : allowed fault := by
  induction i generalizing g with
  | done => simp [run] at failed
  | fail own =>
    obtain rfl := Except.error.inj failed
    exact fails
  | note event next ih => exact ih fails failed
  | ask l r next ih =>
    simp only [run] at failed
    cases found : (compare g l r).answer with
    | error first =>
      simp only [found, Except.error.injEq] at failed
      exact failed ▸ compared g l r first found
    | ok s =>
      simp only [found] at failed
      exact ih s (fails s) failed

end

end Inquiry

namespace Environment

/-- A fault that is in the graph: the part that it names is missing, and some type refers to it. -/
def Blames (env : Environment) : Fault → Prop
  | .unexpected t => env.types.node? t = none ∨ ∃ n, env.types.node? t = some (.unresolved n)
  | .undefined d => env.declarations.body? d = none ∧ ∃ t, env.types.node? t = some (.nominal d)
  | .missingRecord r => env.types.record? r = none ∧ ∃ t, env.types.node? t = some (.record r)
  | .missingCallable c => env.types.callable? c = none ∧ ∃ t, env.types.node? t = some (.callable c)
  | .missingList l => env.types.list? l = none ∧
      ∃ t, env.types.node? t = some (.union l) ∨ env.types.node? t = some (.intersection l)

variable {env : Environment}

private theorem compareShapes_blames {lhs rhs : TypeId} {l r : TypeNode} (knownL : env.types.node? lhs = some l)
    (knownR : env.types.node? rhs = some r) : (env.compareShapes l r).FailsWith env.Blames := by
  unfold compareShapes
  split
  case h_1 | h_8 | h_9 | h_10 => trivial
  case h_2 => exact fun _ => trivial
  case h_3 =>
    refine Inquiry.failsWith_require (fun absent => ⟨absent, lhs, knownL⟩) fun ls _ => ?_
    refine Inquiry.failsWith_require (fun absent => ⟨absent, rhs, knownR⟩) fun rs _ => ?_
    split
    · exact Inquiry.failsWith_fieldwise _ _
    · trivial
  case h_4 | h_7 => exact Inquiry.failsWith_every _
  case h_5 =>
    refine Inquiry.failsWith_require (fun absent => ⟨absent, lhs, knownL⟩) fun ls _ => ?_
    refine Inquiry.failsWith_require (fun absent => ⟨absent, rhs, knownR⟩) fun rs _ => ?_
    split
    · exact Inquiry.failsWith_every _
    · trivial
  case h_6 =>
    refine Inquiry.failsWith_require (fun absent => ⟨absent, lhs, .inr knownL⟩) fun ls _ => ?_
    refine Inquiry.failsWith_require (fun absent => ⟨absent, rhs, .inr knownR⟩) fun rs _ => ?_
    split
    · exact Inquiry.failsWith_every _
    · trivial

/-- The rule fails only with faults that are in the graph. -/
theorem rule_blames (lhs rhs : TypeId) : (env.rule lhs rhs).FailsWith env.Blames := by
  refine Inquiry.failsWith_require .inl fun l knownL => Inquiry.failsWith_require .inl fun r knownR => ?_
  split
  case h_1 n => exact .inr ⟨n, knownL⟩
  case h_2 n _ => exact .inr ⟨n, knownR⟩
  case h_3 d e =>
    split
    · trivial
    · refine Inquiry.failsWith_require (fun absent => ⟨absent, lhs, knownL⟩) fun left _ => ?_
      exact Inquiry.failsWith_require (fun absent => ⟨absent, rhs, knownR⟩) fun right _ _ => trivial
  case h_4 e _ _ => exact Inquiry.failsWith_require (fun absent => ⟨absent, rhs, knownR⟩) fun right _ _ => trivial
  case h_5 =>
    exact Inquiry.failsWith_require (fun absent => ⟨absent, lhs, .inl knownL⟩) fun ls _ => Inquiry.failsWith_each _ _ ls
  case h_6 =>
    exact Inquiry.failsWith_require (fun absent => ⟨absent, rhs, .inl knownR⟩) fun rs _ => Inquiry.failsWith_oneOf _ rs
  case h_7 => exact Inquiry.failsWith_require (fun absent => ⟨absent, lhs, knownL⟩) fun left _ _ => trivial
  case h_8 => exact compareShapes_blames knownL knownR

/-- A comparison fails only with a fault that is in the graph, whatever the guard. -/
theorem blames_of_compareWithin {room : Nat} {g : Guard TypePair} {l r : TypeId} {fault : Fault}
    (failed : (env.compareWithin room g l r).answer = .error fault) : env.Blames fault := by
  induction room generalizing g l r fault with
  | zero => simp [compareWithin, answer_turnedAway] at failed
  | succ room ih =>
    by_cases entered : (g.enter (.of l r)).1 = .entered
    · rw [compareWithin_entered entered, answer_enclose] at failed
      exact (rule_blames l r).of_run (fun g a b fault => ih) failed
    · rw [compareWithin_turnedAway entered, answer_turnedAway] at failed
      simp at failed

/-- To report a fault that is in the graph changes nothing: the only type that a report enters is known. -/
theorem report_of_blames {α : Type} (naming : Naming) {outcome : Except Fault α}
    (blamed : ∀ fault, outcome = .error fault → env.Blames fault) : (env.report naming outcome).2 = env := by
  cases outcome with
  | ok => rfl
  | error fault =>
    cases fault with
    | undefined d =>
      obtain ⟨-, t, known⟩ := blamed _ rfl
      simp [report, showFault, build, Build.nominal, StateT.run, Build.intern_of_node? known]
    | _ => rfl

/-- The link that a report enters need not be known if the fault is not in the graph. -/
example : (empty.report .anonymous (.error (.undefined ⟨1⟩) : Except Fault Selector)).2.types.size = empty.types.size + 1 := by
  decide

/-! ### Sequences of queries -/

/-- What can be asked about two types. -/
inductive Question where
  | selector
  | limitedSelector (limits : Limits)
  | checkedSelector (limits : Limits)
  | isSubtype

inductive Reply where
  | selector (selector : Selector)
  | checked (checked : Checked)
  | subtype (holds : Bool)

/-- A query as it is made from outside, with how its report writes declarations. -/
structure Query where
  question : Question
  lhs : TypeId
  rhs : TypeId
  /-- What is known about lifetimes, which no rule looks at. -/
  lifetimes : Lifetimes
  naming : Naming

def reply (env : Environment) (q : Query) : Except Fault Reply :=
  match q.question with
  | .selector => (env.selector q.lhs q.rhs).map .selector
  | .limitedSelector limits => (env.limitedSelector limits q.lhs q.rhs).map .selector
  | .checkedSelector limits => (env.checkedSelector limits q.lhs q.rhs).map .checked
  | .isSubtype => (env.isSubtype q.lhs q.rhs).map .subtype

/-- Make a query: its reply or the report of its fault, and the environment after it. -/
def ask (env : Environment) (q : Query) : Except String Reply × Environment := env.report q.naming (env.reply q)

/-- Make queries one after another, each in the environment that the one before it leaves. -/
def askAll (env : Environment) : List Query → List (Except String Reply) × Environment
  | [] => ([], env)
  | q :: rest => ((env.ask q).1 :: ((env.ask q).2.askAll rest).1, ((env.ask q).2.askAll rest).2)

/-- Every reply is made from the answer of one comparison. -/
theorem exists_reply_eq (env : Environment) (q : Query) :
    ∃ limits make, env.reply q = (env.compare limits q.lhs q.rhs).answer.map make := by
  have again {α β : Type} (answer : Except Fault Selector) (f : Selector → α) (g : α → β) :
      (answer.map f).map g = answer.map (g ∘ f) := by
    cases answer <;> rfl
  unfold reply
  split
  · exact ⟨.unbounded, _, rfl⟩
  · exact ⟨_, _, rfl⟩
  · exact ⟨_, _, again _ _ _⟩
  · exact ⟨.unbounded, _, again _ _ _⟩

/-- Making a query changes nothing, whether or not it has an answer. -/
theorem ask_unchanged (env : Environment) (q : Query) : (env.ask q).2 = env := by
  obtain ⟨limits, make, same⟩ := env.exists_reply_eq q
  refine report_of_blames q.naming fun fault failed => ?_
  rw [same] at failed
  cases answered : (env.compare limits q.lhs q.rhs).answer with
  | ok s => simp [answered, Except.map] at failed
  | error first =>
    obtain rfl : first = fault := by simpa [answered, Except.map] using failed
    exact blames_of_compareWithin answered

/-- Queries leave the environment exactly as it is, and in every sequence of them, whichever have answers, each is
    replied to as if it were made alone. -/
theorem queries_read_only (env : Environment) :
    (∀ q, (env.ask q).2 = env) ∧ ∀ queries, env.askAll queries = (queries.map fun q => (env.ask q).1, env) := by
  refine ⟨env.ask_unchanged, fun queries => ?_⟩
  induction queries with
  | nil => rfl
  | cons q rest ih => simp only [askAll, env.ask_unchanged, ih, List.map_cons]

end Environment

end Narrowing
