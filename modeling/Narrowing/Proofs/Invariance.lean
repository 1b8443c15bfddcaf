import Narrowing.Proofs.Histories
import Narrowing.Proofs.LargerLimits
import Narrowing.Proofs.Renaming

/-!
Answers depend on the structure of a graph alone. Where a renaming carries a graph
over, a comparison and the comparison of the renamed types go on in step: the guard
of the second is the guard of the first with every pair renamed, so the same
attempts are cycles and the same are refused (`Carries.compareWithin_renamed`).
An environment that has grown carries each of its graphs over as it was, so answers
survive every change that adds to it (`Environment.keeps_after`).
-/

namespace Narrowing

namespace TypePair

/-- The pair of the renamed types. -/
def map (rename : TypeId → TypeId) (p : TypePair) : TypePair := of (rename p.low) (rename p.high)

theorem map_of (rename : TypeId → TypeId) (a b : TypeId) : (of a b).map rename = of (rename a) (rename b) := by
  unfold map
  by_cases ordered : a.val ≤ b.val
  · simp [of, ordered]
  · rw [of_comm a b]
    have reversed : b.val ≤ a.val := Nat.le_of_not_le ordered
    simp only [of, reversed]
    exact of_comm _ _

/-- Only the pair counts, not which of its types has the smaller number. -/
theorem map_injOn {rename : TypeId → TypeId} {types : Set TypeId} (apart : Set.InjOn rename types) :
    Set.InjOn (map rename) {p | p.Inside types} := by
  rintro ⟨⟨a⟩, ⟨b⟩, ordered⟩ ⟨insideA, insideB⟩ ⟨⟨c⟩, ⟨d⟩, ordered'⟩ ⟨insideC, insideD⟩ same
  rcases of_eq_of_iff.mp same with ⟨first, second⟩ | ⟨first, second⟩
  · have low := apart insideA insideC first
    have high := apart insideB insideD second
    simp_all
  · have low := TypeId.mk.inj (apart insideA insideD first)
    have high := TypeId.mk.inj (apart insideB insideC second)
    simp only [TypePair.mk.injEq, TypeId.mk.injEq]
    simp only at ordered ordered' low high
    omega

end TypePair

namespace Guard

variable {κ κ' : Type} [DecidableEq κ] [DecidableEq κ']

omit [DecidableEq κ] [DecidableEq κ'] in
/-- The guard with every key on its path renamed. -/
def map (rename : κ → κ') (g : Guard κ) : Guard κ' :=
  ⟨g.limits, g.visiting.map rename, g.depth, g.iterations, g.exceeded⟩

/-- A key that is not merged with one on the path is answered as before. -/
theorem enter_map {rename : κ → κ'} {g : Guard κ} {key : κ} (apart : ∀ k ∈ g.visiting, rename k = rename key → k = key) :
    (g.map rename).enter (rename key) = ((g.enter key).1, (g.enter key).2.map rename) := by
  have visited : rename key ∈ g.visiting.map rename ↔ key ∈ g.visiting := by
    rw [List.mem_map]
    constructor
    · rintro ⟨k, member, same⟩
      exact apart k member same ▸ member
    · exact fun member => ⟨key, member, rfl⟩
  unfold enter isVisiting map
  simp only [visited]
  split_ifs <;> simp

theorem retract_map {rename : κ → κ'} {g : Guard κ} {key : κ} {rest : List κ} (last : g.visiting = key :: rest) :
    (g.map rename).retract (rename key) = (g.retract key).map rename := by
  simp [retract, map, last]

end Guard

/-- If a run has an answer, another has the same, and the guard of the other is the renamed one. -/
def Run.InStep (rename : TypeId → TypeId) (run run' : Run) : Prop :=
  ∀ s, run.answer = .ok s → run'.answer = .ok s ∧ run'.guard = run.guard.map (TypePair.map rename)

/-- Leaving the last pair on the path keeps runs in step. -/
theorem Run.InStep.enclose {rename : TypeId → TypeId} {run run' : Run} (inStep : run.InStep rename run') {l r : TypeId}
    (last : ∀ s, run.answer = .ok s → ∃ rest, run.guard.visiting = .of l r :: rest) :
    (run.enclose l r).InStep rename (run'.enclose (rename l) (rename r)) := by
  intro s answered
  rw [Environment.answer_enclose] at answered
  obtain ⟨same, guard⟩ := inStep s answered
  obtain ⟨rest, visiting⟩ := last s answered
  simp only [Run.enclose, answered, same, guard]
  rw [← TypePair.map_of, Guard.retract_map visiting]
  exact ⟨trivial, rfl⟩

/-- Parallel inquiries run in step if the comparisons that they ask for do. -/
theorem Inquiry.Parallel.run {rename : TypeId → TypeId} {types : Set TypeId}
    {compare compare' : Guard TypePair → TypeId → TypeId → Run} {start : Guard TypePair}
    (steady : KeepsPath compare start)
    (compared : ∀ g, start.SamePath g → ∀ l r, l ∈ types → r ∈ types →
      (compare g l r).InStep rename (compare' (g.map (TypePair.map rename)) (rename l) (rename r)))
    {g : Guard TypePair} (path : start.SamePath g) {i i' : Inquiry} (parallel : i.Parallel rename types i') :
    (i.run compare g).InStep rename (i'.run compare' (g.map (TypePair.map rename))) := by
  induction parallel generalizing g with
  | done => exact fun s answered => ⟨answered, rfl⟩
  | fail =>
    intro s answered
    simp [Inquiry.run] at answered
  | note _ ih => exact ih path
  | @ask l r next next' left right _ ih =>
    intro s answered
    simp only [Inquiry.run] at answered ⊢
    cases found : (compare g l r).answer with
    | error fault => simp [found] at answered
    | ok t =>
      obtain ⟨same, guard⟩ := compared g path l r left right t found
      simp only [found] at answered ⊢
      rw [same, guard]
      exact ih t (path.trans (steady g path l r t found)) s answered

namespace Environment

variable {env env' : Environment} {names : Name → Name → Prop} {f : Renaming} {types : Set TypeId}

/-- A graph is carried over if each row of a table is, of a type, its node and the node of the renamed type. -/
theorem Carries.of_table {l r : TypeId} (table : List (TypeId × TypeNode × TypeNode)) (left : l ∈ table.map Prod.fst)
    (right : r ∈ table.map Prod.fst) (parts : ∀ t ∈ table.map Prod.fst, ∀ u ∈ env.parts t, u ∈ table.map Prod.fst)
    (apart : (table.map fun row => f.type row.1).Nodup)
    (known : ∀ row ∈ table, env.types.node? row.1 = some row.2.1 ∧ env'.types.node? (f.type row.1) = some row.2.2)
    (nodes : ∀ row ∈ table, env.Corresponds env' names f row.2.1 row.2.2) :
    env.Carries env' names f (env.reachable l r) := by
  have listed := mem_of_reachable (table.map Prod.fst) left right parts
  simp only [List.mem_map] at listed
  constructor
  · intro t member u member' same
    obtain ⟨row, inTable, rfl⟩ := listed t member
    obtain ⟨row', inTable', rfl⟩ := listed u member'
    rw [List.inj_on_of_nodup_map apart inTable inTable' same]
  · intro t member n found
    obtain ⟨row, inTable, rfl⟩ := listed t member
    obtain ⟨known, known'⟩ := known row inTable
    obtain rfl : row.2.1 = n := Option.some.inj (known.symm.trans found)
    exact ⟨row.2.2, known', nodes row inTable⟩

section
variable (unique : Relator.BiUnique names) (carries : env.Carries env' names f types)
  (inner : ∀ t ∈ types, ∀ u ∈ env.parts t, u ∈ types) {l r : TypeId} (left : l ∈ types) (right : r ∈ types)
include unique carries inner left right

omit unique inner in
/-- A renamed pair is a cycle, refused or entered as the pair itself is. -/
theorem Carries.enter_renamed {g : Guard TypePair} (inside : ∀ p ∈ g.visiting, p.Inside types) :
    (g.map (TypePair.map f.type)).enter (.of (f.type l) (f.type r)) =
      ((g.enter (.of l r)).1, (g.enter (.of l r)).2.map (TypePair.map f.type)) := by
  rw [← TypePair.map_of]
  refine Guard.enter_map fun p old same => ?_
  exact TypePair.map_injOn carries.apart (inside p old) (TypePair.inside_of left right) same

omit unique inner in
theorem Carries.turnedAway_renamed {room : Nat} {g : Guard TypePair} (inside : ∀ p ∈ g.visiting, p.Inside types)
    (outside : (g.enter (.of l r)).1 ≠ .entered) :
    (env.compareWithin room g l r).InStep f.type
      (env'.compareWithin room (g.map (TypePair.map f.type)) (f.type l) (f.type r)) := by
  have attempt := carries.enter_renamed left right inside
  rw [compareWithin_turnedAway outside, compareWithin_turnedAway (by rwa [attempt]), attempt]
  intro s answered
  rw [answer_turnedAway] at answered ⊢
  rw [guard_turnedAway, guard_turnedAway]
  exact ⟨answered, rfl⟩

/-- Comparing renamed types goes in step with comparing the types themselves. -/
theorem Carries.compareWithin_renamed {room : Nat} {g : Guard TypePair} (enough : g.room ≤ room)
    (inside : ∀ p ∈ g.visiting, p.Inside types) :
    (env.compareWithin room g l r).InStep f.type
      (env'.compareWithin room (g.map (TypePair.map f.type)) (f.type l) (f.type r)) := by
  induction room, g, l, r, enough using compareWithin_induction with
  | away room g l r _ outside => exact carries.turnedAway_renamed left right inside outside
  | entered room g l r _ entered left_over ih =>
    have attempt := carries.enter_renamed left right inside
    obtain ⟨-, -, -, visiting, -⟩ := Guard.enter_entered entered
    rw [compareWithin_entered entered, compareWithin_entered (by rwa [attempt]), attempt]
    have steady : KeepsPath (env.compareWithin room) (g.enter (.of l r)).2 := keepsPath_compareWithin left_over
    have answers : ∀ g', (g.enter (.of l r)).2.SamePath g' → ∀ a b, a ∈ types → b ∈ types →
        (env.compareWithin room g' a b).InStep f.type
          (env'.compareWithin room (g'.map (TypePair.map f.type)) (f.type a) (f.type b)) := by
      intro g' same a b insideA insideB
      refine ih g' a b (by rwa [same.room]) insideA insideB ?_
      -- The pairs in progress stay inside the graph, so the renaming merges none of them with the next.
      rw [same.visiting, visiting]
      exact List.forall_mem_cons.mpr ⟨TypePair.inside_of left right, inside⟩
    have rules := (carries.rule_parallel unique inner left right).run steady answers (.refl _)
    refine rules.enclose fun s answered => ?_
    exact ⟨g.visiting, (Inquiry.samePath_run steady (.refl _) answered).visiting.trans visiting⟩

theorem Carries.compare_renamed (limits : Limits) :
    (env.compare limits l r).InStep f.type (env'.compare limits (f.type l) (f.type r)) :=
  carries.compareWithin_renamed unique inner left right (Nat.le_refl _) (by simp [Guard.fresh])

/-- An answer is the answer for the renamed types. -/
theorem Carries.limitedSelector_renamed {limits : Limits} {s : Selector}
    (answered : env.limitedSelector limits l r = .ok s) :
    env'.limitedSelector limits (f.type l) (f.type r) = .ok s :=
  (carries.compare_renamed unique inner left right limits s answered).1

/-- A checked answer is the checked answer for the renamed types, a report of the limits included. -/
theorem Carries.checkedSelector_renamed {limits : Limits} {c : Checked}
    (answered : env.checkedSelector limits l r = .ok c) :
    env'.checkedSelector limits (f.type l) (f.type r) = .ok c := by
  unfold checkedSelector Run.checked at answered ⊢
  cases found : (env.compare limits l r).answer with
  | error fault => simp [found, Except.map] at answered
  | ok s =>
    obtain ⟨same, guard⟩ := carries.compare_renamed unique inner left right limits s found
    rw [same, guard]
    rw [found] at answered
    exact answered

end

end Environment

/-! ### Environments that grow -/

namespace Declarations

variable {ds : Declarations} {e : DeclId} {body : TypeId}

theorem body?_register_of_body? (entry : Declaration) (found : ds.body? e = some body) :
    (ds.register entry).2.body? e = some body := by
  obtain ⟨old, held, rest⟩ := Option.bind_eq_some_iff.mp found
  refine Option.bind_eq_some_iff.mpr ⟨old, ?_, rest⟩
  unfold get? at held ⊢
  split at held
  · obtain ⟨inside, -⟩ := Array.getElem?_eq_some_iff.mp held
    rwa [if_pos ‹_›, register, Array.getElem?_push_lt inside, ← Array.getElem?_eq_getElem inside]
  · simp at held

theorem get?_update (ds : Declarations) (d e : DeclId) (change : Declaration → Declaration) :
    (ds.update d change).get? e = if d = e then (ds.get? e).map change else ds.get? e := by
  obtain ⟨⟨d⟩, ⟨e⟩⟩ := d, e
  unfold update get? DeclId.isValid
  by_cases valid' : 1 ≤ e
  · by_cases valid : 1 ≤ d
    · have same : d - 1 = e - 1 ↔ d = e := by omega
      simp [valid, valid', Array.getElem?_modify, same]
    · have other : d ≠ e := by omega
      simp [valid, other]
  · simp [valid']

theorem body?_addInvariant (ds : Declarations) (d e : DeclId) (clause : Name) :
    (ds.addInvariant d clause).body? e = ds.body? e := by
  rw [body?, addInvariant, get?_update, body?]
  split
  · cases ds.get? e <;> rfl
  · rfl

theorem body?_define_of_ne {d : DeclId} (other : d ≠ e) (new : TypeId) :
    (ds.define d new).body? e = ds.body? e := by
  rw [body?, define, get?_update, if_neg other, body?]

end Declarations

/-- What adds to an environment. -/
inductive Change where
  /-- Something is done with the types. -/
  | types (op : Operation)
  /-- A name is declared, with a body or without. -/
  | declare (entry : Declaration)
  /-- A declaration is given a body, if it has none. -/
  | define (d : DeclId) (body : TypeId)
  /-- A where clause is added to a declaration. -/
  | restrict (d : DeclId) (clause : Name)

/-- The environment after a change. -/
def Change.run (env : Environment) : Change → Environment
  | .types op => { env with types := op.run env.types }
  | .declare entry => { env with declarations := (env.declarations.register entry).2 }
  | .define d body =>
    if env.declarations.body? d = none then { env with declarations := env.declarations.define d body } else env
  | .restrict d clause => { env with declarations := env.declarations.addInvariant d clause }

namespace Environment

/-- Everything that is found in one environment is found in another: parts of types and bodies of declarations. -/
structure Keeps (env env' : Environment) : Prop where
  types : env.types.Extends env'.types
  body : ∀ {d t}, env.declarations.body? d = some t → env'.declarations.body? d = some t

theorem Keeps.refl (env : Environment) : env.Keeps env := ⟨.refl _, id⟩

theorem Keeps.trans {env env' env'' : Environment} (first : env.Keeps env') (second : env'.Keeps env'') :
    env.Keeps env'' :=
  ⟨first.types.trans second.types, second.body ∘ first.body⟩

theorem keeps_run (env : Environment) (change : Change) : env.Keeps (change.run env) := by
  cases change with
  | types op => exact ⟨(env.types.keeps_run op).toExtends, id⟩
  | declare entry => exact ⟨.refl _, Declarations.body?_register_of_body? entry⟩
  | define d body =>
    rw [Change.run]
    split
    next missing =>
      refine ⟨.refl _, fun {e t} found => ?_⟩
      have other : d ≠ e := by
        rintro rfl
        simp [missing] at found
      exact (Declarations.body?_define_of_ne other body).trans found
    next => exact .refl env
  | restrict d clause => exact ⟨.refl _, fun found => (Declarations.body?_addInvariant ..).trans found⟩

/-- The environment after a history of changes. -/
def after (env : Environment) (changes : List Change) : Environment := changes.foldl Change.run env

theorem keeps_after (env : Environment) (changes : List Change) : env.Keeps (env.after changes) := by
  induction changes generalizing env with
  | nil => exact .refl env
  | cons change changes ih => exact (env.keeps_run change).trans (ih (change.run env))

/-- What is kept corresponds to itself. -/
theorem Keeps.corresponds {env env' : Environment} (keeps : env.Keeps env') (n : TypeNode) :
    env.Corresponds env' Eq .same n n := by
  have itself : ∀ members : List TypeId, members.map Renaming.same.type = members := List.map_id
  cases n with
  | primitive k => exact .primitive k
  | array e => exact .array e
  | record r =>
    refine .record fun shape found => ⟨shape, keeps.types.record found, rfl, ?_⟩
    exact List.forall₂_same.mpr fun x _ => ⟨rfl, rfl⟩
  | reference e lifetime => exact .reference e lifetime lifetime
  | callable c =>
    refine .callable fun shape found => ⟨shape, keeps.types.callable found, rfl, ?_, ?_⟩
    · exact (itself _).symm
    · exact (itself _).symm
  | union m => exact .union fun members found => by rw [itself]; exact keeps.types.list found
  | intersection m => exact .intersection fun members found => by rw [itself]; exact keeps.types.list found
  | negation e => exact .negation e
  | nominal d => exact .nominal fun body found => keeps.body found
  | var v => exact .var v
  | unresolved name => exact .unresolved name name

theorem Keeps.carries {env env' : Environment} (keeps : env.Keeps env') (types : Set TypeId) :
    env.Carries env' Eq .same types :=
  ⟨Function.injective_id.injOn, fun _ _ n known => ⟨n, keeps.types.node known, keeps.corresponds n⟩⟩

theorem exists_checkedSelector {env : Environment} {l r : TypeId} {limits : Limits} {s : Selector}
    (answered : env.limitedSelector limits l r = .ok s) : ∃ c, env.checkedSelector limits l r = .ok c := by
  unfold limitedSelector at answered
  rw [checkedSelector, Run.checked, answered]
  exact ⟨_, rfl⟩

/-- Answers depend on structure alone. Where a renaming carries a well-formed graph over to another environment, with
    the same texts for the names of fields, the renamed types have the same answers: without limits, with any limits,
    and in what is reported of the limits. And whatever is added to an environment, every answer stays as it was. -/
theorem answers_depend_on_structure (env : Environment) (l r : TypeId) :
    (∀ (env' : Environment) (f : Renaming), env.WellFormed l r →
      env.Carries env' (env.types.names.SameText env'.types.names) f (env.reachable l r) →
      (∃ s, env.selector l r = .ok s ∧ env'.selector (f.type l) (f.type r) = .ok s) ∧
        ∀ limits,
          (∃ s, env.limitedSelector limits l r = .ok s ∧ env'.limitedSelector limits (f.type l) (f.type r) = .ok s) ∧
            ∃ c, env.checkedSelector limits l r = .ok c ∧
              env'.checkedSelector limits (f.type l) (f.type r) = .ok c) ∧
      ∀ changes : List Change,
        (∀ s, env.selector l r = .ok s → (env.after changes).selector l r = .ok s) ∧
          ∀ limits,
            (∀ s, env.limitedSelector limits l r = .ok s → (env.after changes).limitedSelector limits l r = .ok s) ∧
              ∀ c, env.checkedSelector limits l r = .ok c → (env.after changes).checkedSelector limits l r = .ok c := by
  have inner : ∀ t ∈ env.reachable l r, ∀ u ∈ env.parts t, u ∈ env.reachable l r :=
    fun t member u part => parts_mem_reachable member part
  have left := env.left_mem_reachable l r
  have right := env.right_mem_reachable l r
  constructor
  · intro env' f wellFormed carries
    have unique := NameTable.sameText_biUnique env.types.names env'.types.names
    have limited : ∀ limits, ∃ s, env.limitedSelector limits l r = .ok s ∧
        env'.limitedSelector limits (f.type l) (f.type r) = .ok s := by
      intro limits
      obtain ⟨s, answered⟩ := wellFormed.exists_limitedSelector limits
      exact ⟨s, answered, carries.limitedSelector_renamed unique inner left right answered⟩
    refine ⟨limited .unbounded, fun limits => ⟨limited limits, ?_⟩⟩
    obtain ⟨s, answered, -⟩ := limited limits
    obtain ⟨c, checked⟩ := exists_checkedSelector answered
    exact ⟨c, checked, carries.checkedSelector_renamed unique inner left right checked⟩
  · intro changes
    have unique : Relator.BiUnique (Eq : Name → Name → Prop) :=
      ⟨fun _ _ _ first second => first.trans second.symm, fun _ _ _ first second => first.symm.trans second⟩
    have carries := (env.keeps_after changes).carries (env.reachable l r)
    have limited : ∀ limits s, env.limitedSelector limits l r = .ok s →
        (env.after changes).limitedSelector limits l r = .ok s :=
      fun limits s answered => carries.limitedSelector_renamed unique inner left right answered
    refine ⟨limited .unbounded, fun limits => ⟨limited limits, fun c checked => ?_⟩⟩
    exact carries.checkedSelector_renamed unique inner left right checked

/-- Two declared chains. Only the first may leave out its counts. -/
def looseChains : Environment :=
  .ofBodies [.record false [("count", .union [.type .int, .type .null]),
      ("rest", .union [.node (.nominal ⟨1⟩), .type .null])],
    .record false [("count", .type .int), ("rest", .union [.node (.nominal ⟨2⟩), .type .null])]]

/-- The same chains in the other order, after a declaration that names the fields the other way round. -/
def laterChains : Environment :=
  .ofBodies [.record true [("rest", .array (.type .bool)), ("count", .type .bool)],
    .record false [("count", .type .int), ("rest", .union [.node (.nominal ⟨2⟩), .type .null])],
    .record false [("count", .union [.type .int, .type .null]),
      ("rest", .union [.node (.nominal ⟨3⟩), .type .null])]]

/-- Where the types of `looseChains` are among those of `laterChains`. -/
def chainRenaming : Renaming where
  type t := if 104 ≤ t.val then ⟨t.val - 2⟩ else if 100 ≤ t.val then ⟨t.val + 5⟩ else t
  decl d := if d.val = 1 then ⟨3⟩ else d
  var := id

/-- The types of `looseChains`, with their nodes and with the nodes of the renamed types. -/
def chainTable : List (TypeId × TypeNode × TypeNode) :=
  [(⟨100⟩, .union ⟨1⟩, .union ⟨2⟩), (⟨101⟩, .nominal ⟨1⟩, .nominal ⟨3⟩), (⟨102⟩, .union ⟨2⟩, .union ⟨3⟩),
    (⟨103⟩, .record ⟨0⟩, .record ⟨2⟩), (⟨104⟩, .nominal ⟨2⟩, .nominal ⟨2⟩), (⟨105⟩, .union ⟨3⟩, .union ⟨1⟩),
    (⟨106⟩, .record ⟨1⟩, .record ⟨1⟩), (.int, .primitive .int, .primitive .int),
    (.null, .primitive .null, .primitive .null)]

theorem chainTable_closed :
    ∀ t ∈ chainTable.map Prod.fst, looseChains.isResolved t ∧
      ∀ u ∈ looseChains.parts t, u ∈ chainTable.map Prod.fst := by
  decide +kernel

theorem looseChains_carries :
    looseChains.Carries laterChains (looseChains.types.names.SameText laterChains.types.names) chainRenaming
      (looseChains.reachable ⟨101⟩ ⟨104⟩) := by
  have bodies : ∀ d ∈ [(⟨1⟩ : DeclId), ⟨2⟩], ∀ body ∈ looseChains.declarations.body? d,
      laterChains.declarations.body? (chainRenaming.decl d) = some (chainRenaming.type body) := by
    decide +kernel
  have lists : ∀ p ∈ [((⟨1⟩, ⟨2⟩) : ListId × ListId), (⟨2⟩, ⟨3⟩), (⟨3⟩, ⟨1⟩)],
      ∀ members ∈ looseChains.types.list? p.1,
        laterChains.types.list? p.2 = some (members.map chainRenaming.type) := by
    decide +kernel
  have records : ∀ p ∈ [((⟨0⟩, ⟨2⟩) : RecordId × RecordId), (⟨1⟩, ⟨1⟩)],
      ∀ shape ∈ looseChains.types.record? p.1, ∃ shape' ∈ laterChains.types.record? p.2,
        shape'.isOpen = shape.isOpen ∧ List.Forall₂ (fun x x' =>
          looseChains.types.names.SameText laterChains.types.names x.name x'.name ∧
            x'.type = chainRenaming.type x.type) shape.fields shape'.fields := by
    decide +kernel
  simp only [List.forall_mem_cons] at bodies lists records
  refine .of_table chainTable (by decide) (by decide) (fun t listed => (chainTable_closed t listed).2)
    (by decide +kernel) (by decide +kernel) ?_
  simp only [chainTable, List.forall_mem_cons]
  exact ⟨.union lists.1, .nominal bodies.1, .union lists.2.1, .record records.1, .nominal bodies.2.1,
    .union lists.2.2.1, .record records.2.1, .primitive .int, .primitive .null, by simp⟩

/-- A name, a type and a declaration of it are added, and a where clause for the first chain. -/
def chainChanges : List Change :=
  [.types (.name "spare"), .types (.array .bool), .declare { name := ⟨[⟨0x100000002⟩]⟩ }, .define ⟨3⟩ ⟨107⟩,
    .restrict ⟨1⟩ ⟨0x100000002⟩]

/-- The chains are compared alike in both environments: the answer keeps the counts that are there, and ten attempts are
    too few for it. Additions change nothing of it. -/
theorem laterChains_answers :
    looseChains.WellFormed ⟨101⟩ ⟨104⟩ ∧
      laterChains.selector ⟨106⟩ ⟨102⟩ = .ok (.record [.union [.top, .bottom], .top]) ∧
      laterChains.checkedSelector ⟨10, 10⟩ ⟨106⟩ ⟨102⟩ = .ok (.exceeded ⟨10, 10⟩) ∧
      (looseChains.after chainChanges).selector ⟨101⟩ ⟨104⟩ = .ok (.record [.union [.top, .bottom], .top]) ∧
      (looseChains.after chainChanges).checkedSelector ⟨10, 10⟩ ⟨101⟩ ⟨104⟩ = .ok (.exceeded ⟨10, 10⟩) := by
  have wellFormed : looseChains.WellFormed ⟨101⟩ ⟨104⟩ :=
    .of_list _ (by decide) (by decide) chainTable_closed
  have answer : looseChains.selector ⟨101⟩ ⟨104⟩ = .ok (.record [.union [.top, .bottom], .top]) := by decide +kernel
  have few : looseChains.checkedSelector ⟨10, 10⟩ ⟨101⟩ ⟨104⟩ = .ok (.exceeded ⟨10, 10⟩) := by decide +kernel
  obtain ⟨carried, grown⟩ := answers_depend_on_structure looseChains ⟨101⟩ ⟨104⟩
  obtain ⟨⟨s, first, second⟩, limited⟩ := carried laterChains chainRenaming wellFormed looseChains_carries
  obtain ⟨-, c, checked, checked'⟩ := limited ⟨10, 10⟩
  obtain rfl := Except.ok.inj (first.symm.trans answer)
  obtain rfl := Except.ok.inj (checked.symm.trans few)
  obtain ⟨kept, limitedKept⟩ := grown chainChanges
  exact ⟨wellFormed, second, checked', kept _ answer, (limitedKept ⟨10, 10⟩).2 _ few⟩

end Environment

end Narrowing
