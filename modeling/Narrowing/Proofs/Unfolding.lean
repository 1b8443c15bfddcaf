import Narrowing.Proofs.Growth
import Narrowing.Refinement

/-!
Looking through declarations. A chain of declarations that ends at a type of
another kind passes no declaration twice (`Unfolds.nodup`), so following as many
links as there are declarations always reaches its end (`Unfolds.concrete_eq`), and
a type shows the shape at the end of its chain (`elementOf?_eq_some_iff`,
`recordOf?_eq_some_iff`, `alternativesOf?_eq_some_iff`).
-/

namespace Narrowing

namespace Environment

/-- One type leads to another through declarations, which are passed in the given order. -/
inductive Unfolds (env : Environment) : List DeclId → TypeId → TypeId → Prop where
  | here {t : TypeId} : Unfolds env [] t t
  | link {d : DeclId} {ds : List DeclId} {t body u : TypeId} : env.types.node? t = some (.nominal d) →
      env.declarations.body? d = some body → Unfolds env ds body u → Unfolds env (d :: ds) t u

/-- A type that is no declaration. -/
def IsConcrete (env : Environment) (t : TypeId) : Prop := ∀ d, env.types.node? t ≠ some (.nominal d)

instance (env : Environment) (t : TypeId) : Decidable (env.IsConcrete t) :=
  match known : env.types.node? t with
  | some (.nominal d) => isFalse fun concrete => concrete d known
  | none | some (.primitive _) | some (.array _) | some (.record _) | some (.reference _ _) | some (.callable _)
  | some (.union _) | some (.intersection _) | some (.negation _) | some (.var _) | some (.unresolved _) =>
    isTrue fun d same => by simp [known] at same

variable {env : Environment}

theorem isConcrete_of_node? {t : TypeId} {n : TypeNode} (known : env.types.node? t = some n)
    (other : ∀ d, n ≠ .nominal d) : env.IsConcrete t := by
  intro d same
  exact other d (Option.some.inj (known.symm.trans same))

section
variable {ds ds' : List DeclId} {t u : TypeId}

/-- A chain that ends at a concrete type is determined by where it starts. -/
theorem Unfolds.unique (first : env.Unfolds ds t u) (second : env.Unfolds ds' t u) (last : env.IsConcrete u) :
    ds = ds' := by
  induction first generalizing ds' with
  | here =>
    cases second with
    | here => rfl
    | link known _ _ => exact absurd known (last _)
  | link known found _ ih =>
    cases second with
    | here => exact absurd known (last _)
    | link known' found' rest =>
      rw [known] at known'
      obtain rfl : _ = _ := by simpa using known'
      rw [found] at found'
      obtain rfl : _ = _ := by simpa using found'
      rw [ih rest last]

/-- From a declaration that a chain passes, the rest of the chain leads to its end. -/
theorem Unfolds.rest_of_mem (chain : env.Unfolds ds t u) {d : DeclId} (passed : d ∈ ds) :
    ∃ body rest, env.declarations.body? d = some body ∧ env.Unfolds rest body u ∧ rest.length < ds.length := by
  induction chain with
  | here => simp at passed
  | @link e es t body u _ found next ih =>
    rcases List.mem_cons.mp passed with rfl | later
    · exact ⟨body, es, found, next, by simp⟩
    · obtain ⟨body', rest, found', next', shorter⟩ := ih later
      exact ⟨body', rest, found', next', Nat.lt_succ_of_lt shorter⟩

theorem Unfolds.nodup (chain : env.Unfolds ds t u) (last : env.IsConcrete u) : ds.Nodup := by
  induction chain with
  | here => exact List.nodup_nil
  | @link d ds t body u _ found next ih =>
    refine List.nodup_cons.mpr ⟨fun again => ?_, ih last⟩
    -- From a declaration that is met twice the same chain would have two lengths.
    obtain ⟨body', rest, found', next', shorter⟩ := next.rest_of_mem again
    rw [found] at found'
    obtain rfl : body = body' := by simpa using found'
    rw [next.unique next' last] at shorter
    exact absurd shorter (Nat.lt_irrefl _)

theorem val_le_size_of_body? {d : DeclId} {body : TypeId} (found : env.declarations.body? d = some body) :
    d.val - 1 < env.declarations.size ∧ 1 ≤ d.val := by
  obtain ⟨entry, held, -⟩ := Option.bind_eq_some_iff.mp found
  unfold Declarations.get? at held
  split at held
  case isTrue valid =>
    obtain ⟨inside, -⟩ := Array.getElem?_eq_some_iff.mp held
    exact ⟨inside, by simpa [DeclId.isValid] using valid⟩
  case isFalse => simp at held

/-- A chain that ends at a concrete type is no longer than there are declarations. -/
theorem Unfolds.length_le (chain : env.Unfolds ds t u) (last : env.IsConcrete u) :
    ds.length ≤ env.declarations.size := by
  have distinct : (ds.map fun d => d.val - 1).Nodup := by
    refine (chain.nodup last).map_on fun d passed e passed' same => ?_
    obtain ⟨_, _, found, -⟩ := chain.rest_of_mem passed
    obtain ⟨_, _, found', -⟩ := chain.rest_of_mem passed'
    have valid := (val_le_size_of_body? found).2
    have valid' := (val_le_size_of_body? found').2
    obtain ⟨d⟩ := d
    obtain ⟨e⟩ := e
    simp only [DeclId.mk.injEq] at valid valid' same ⊢
    omega
  have inside : ds.map (fun d => d.val - 1) ⊆ List.range env.declarations.size := by
    intro i member
    obtain ⟨d, passed, rfl⟩ := List.mem_map.mp member
    obtain ⟨_, _, found, -⟩ := chain.rest_of_mem passed
    exact List.mem_range.mpr (val_le_size_of_body? found).1
  simpa using distinct.length_le_of_subset inside

theorem Unfolds.concreteWithin_eq (chain : env.Unfolds ds t u) (last : env.IsConcrete u) {links : Nat}
    (enough : ds.length ≤ links) : env.types.concreteWithin env.declarations links t = u := by
  induction chain generalizing links with
  | @here t =>
    cases links with
    | zero => rfl
    | succ links =>
      unfold TypeStore.concreteWithin
      split
      case h_1 d known => exact absurd known (last d)
      case h_2 => rfl
  | link known found _ ih =>
    obtain ⟨links, rfl⟩ : ∃ n, links = n + 1 := Nat.exists_eq_add_one.mpr (Nat.lt_of_lt_of_le (by simp) enough)
    simp only [TypeStore.concreteWithin, known, found]
    exact ih last (Nat.le_of_succ_le_succ enough)

/-- Looking through declarations ends where the chain does. -/
theorem Unfolds.concrete_eq (chain : env.Unfolds ds t u) (last : env.IsConcrete u) :
    env.types.concrete env.declarations t = u :=
  chain.concreteWithin_eq last (chain.length_le last)

end

theorem exists_unfolds_concreteWithin (links : Nat) (t : TypeId) :
    ∃ ds, env.Unfolds ds t (env.types.concreteWithin env.declarations links t) := by
  induction links generalizing t with
  | zero => exact ⟨[], .here⟩
  | succ links ih =>
    unfold TypeStore.concreteWithin
    split
    case h_1 d known =>
      cases found : env.declarations.body? d with
      | none => exact ⟨[], .here⟩
      | some body =>
        obtain ⟨ds, chain⟩ := ih body
        exact ⟨d :: ds, .link known found chain⟩
    case h_2 => exact ⟨[], .here⟩

theorem exists_unfolds_concrete (t : TypeId) : ∃ ds, env.Unfolds ds t (env.types.concrete env.declarations t) :=
  exists_unfolds_concreteWithin _ t

theorem elementOf?_eq_some_iff {t e : TypeId} :
    env.types.elementOf? env.declarations t = some e ↔
      ∃ ds u, env.Unfolds ds t u ∧ env.types.node? u = some (.array e) := by
  constructor
  · intro shown
    obtain ⟨ds, chain⟩ := env.exists_unfolds_concrete t
    unfold TypeStore.elementOf? at shown
    split at shown
    case h_1 e' known => exact ⟨ds, _, chain, by rw [known, Option.some.inj shown]⟩
    case h_2 => simp at shown
  · rintro ⟨ds, u, chain, known⟩
    rw [TypeStore.elementOf?, chain.concrete_eq (isConcrete_of_node? known (by simp)), known]

theorem recordOf?_eq_some_iff {t : TypeId} {shape : RecordShape} :
    env.types.recordOf? env.declarations t = some shape ↔
      ∃ ds u r, env.Unfolds ds t u ∧ env.types.node? u = some (.record r) ∧ env.types.record? r = some shape := by
  constructor
  · intro shown
    obtain ⟨ds, chain⟩ := env.exists_unfolds_concrete t
    unfold TypeStore.recordOf? at shown
    split at shown
    case h_1 r known => exact ⟨ds, _, r, chain, known, shown⟩
    case h_2 => simp at shown
  · rintro ⟨ds, u, r, chain, known, found⟩
    rw [TypeStore.recordOf?, chain.concrete_eq (isConcrete_of_node? known (by simp)), known]
    exact found

theorem alternativesOf?_eq_some_iff {t : TypeId} {alternatives : List TypeId} :
    env.types.alternativesOf? env.declarations t = some alternatives ↔
      ∃ ds u l, env.Unfolds ds t u ∧ env.types.node? u = some (.union l) ∧ env.types.list? l = some alternatives := by
  constructor
  · intro shown
    obtain ⟨ds, chain⟩ := env.exists_unfolds_concrete t
    unfold TypeStore.alternativesOf? at shown
    split at shown
    case h_1 l known => exact ⟨ds, _, l, chain, known, shown⟩
    case h_2 => simp at shown
  · rintro ⟨ds, u, l, chain, known, found⟩
    rw [TypeStore.alternativesOf?, chain.concrete_eq (isConcrete_of_node? known (by simp)), known]
    exact found

section
variable {t body : TypeId} {d : DeclId} (known : env.types.node? t = some (.nominal d))
  (found : env.declarations.body? d = some body)
include known found

theorem elementOf?_of_body {e : TypeId} (shown : env.types.elementOf? env.declarations body = some e) :
    env.types.elementOf? env.declarations t = some e := by
  obtain ⟨ds, u, chain, last⟩ := elementOf?_eq_some_iff.mp shown
  exact elementOf?_eq_some_iff.mpr ⟨d :: ds, u, .link known found chain, last⟩

theorem recordOf?_of_body {shape : RecordShape} (shown : env.types.recordOf? env.declarations body = some shape) :
    env.types.recordOf? env.declarations t = some shape := by
  obtain ⟨ds, u, r, chain, last⟩ := recordOf?_eq_some_iff.mp shown
  exact recordOf?_eq_some_iff.mpr ⟨d :: ds, u, r, .link known found chain, last⟩

theorem alternativesOf?_of_body {alternatives : List TypeId}
    (shown : env.types.alternativesOf? env.declarations body = some alternatives) :
    env.types.alternativesOf? env.declarations t = some alternatives := by
  obtain ⟨ds, u, l, chain, last⟩ := alternativesOf?_eq_some_iff.mp shown
  exact alternativesOf?_eq_some_iff.mpr ⟨d :: ds, u, l, .link known found chain, last⟩

theorem concrete_of_body (last : env.IsConcrete (env.types.concrete env.declarations body)) :
    env.types.concrete env.declarations t = env.types.concrete env.declarations body := by
  obtain ⟨ds, chain⟩ := env.exists_unfolds_concrete body
  exact (Unfolds.link known found chain).concrete_eq last

end

/-! ### Closed graphs and growing stores -/

section
variable {types : Set TypeId} (closed : env.Closed types) {t : TypeId} (member : t ∈ types)
include closed member

theorem Closed.of_unfolds {ds : List DeclId} {u : TypeId} (chain : env.Unfolds ds t u) : u ∈ types := by
  induction chain with
  | here => exact member
  | link known found _ ih => exact ih (closed.parts _ member _ (by simp [parts_of_node known, partsOf, found]))

theorem Closed.element {e : TypeId} (shown : env.types.elementOf? env.declarations t = some e) : e ∈ types := by
  obtain ⟨ds, u, chain, known⟩ := elementOf?_eq_some_iff.mp shown
  exact closed.parts u (closed.of_unfolds member chain) e (by simp [parts_of_node known, partsOf])

theorem Closed.fields {shape : RecordShape} (shown : env.types.recordOf? env.declarations t = some shape) :
    ∀ f ∈ shape.fields, f.type ∈ types := by
  obtain ⟨ds, u, r, chain, known, found⟩ := recordOf?_eq_some_iff.mp shown
  intro f listed
  refine closed.parts u (closed.of_unfolds member chain) f.type ?_
  simpa [parts_of_node known, partsOf, found] using ⟨f, listed, rfl⟩

theorem Closed.alternatives {alternatives : List TypeId}
    (shown : env.types.alternativesOf? env.declarations t = some alternatives) : ∀ m ∈ alternatives, m ∈ types := by
  obtain ⟨ds, u, l, chain, known, found⟩ := alternativesOf?_eq_some_iff.mp shown
  intro m listed
  refine closed.parts u (closed.of_unfolds member chain) m ?_
  simpa [parts_of_node known, partsOf, found] using listed

end

section
variable {t : TypeId} (tidy : env.Tidy t)
include tidy

theorem Tidy.of_unfolds {ds : List DeclId} {u : TypeId} (chain : env.Unfolds ds t u) : env.Tidy u :=
  (closed_tidy env).of_unfolds tidy chain

theorem Tidy.element {e : TypeId} (shown : env.types.elementOf? env.declarations t = some e) : env.Tidy e :=
  (closed_tidy env).element tidy shown

theorem Tidy.fields {shape : RecordShape} (shown : env.types.recordOf? env.declarations t = some shape) :
    ∀ f ∈ shape.fields, env.Tidy f.type :=
  (closed_tidy env).fields tidy shown

theorem Tidy.alternatives {alternatives : List TypeId}
    (shown : env.types.alternativesOf? env.declarations t = some alternatives) :
    env.NormalMembers alternatives ∧ ∀ m ∈ alternatives, env.Tidy m := by
  obtain ⟨ds, u, l, chain, known, found⟩ := alternativesOf?_eq_some_iff.mp shown
  obtain ⟨members, found', normal, tidyMembers⟩ := (tidy.of_unfolds chain).union known
  obtain rfl : alternatives = members := Option.some.inj (found.symm.trans found')
  exact ⟨normal, tidyMembers⟩

end

section
variable {env' : Environment} (larger : env.Extends env')
include larger

theorem Unfolds.of_extends {ds : List DeclId} {t u : TypeId} (chain : env.Unfolds ds t u) : env'.Unfolds ds t u := by
  induction chain with
  | here => exact .here
  | link known found _ ih => exact .link (larger.types.node known) (by rwa [larger.body?_eq]) ih

theorem Extends.elementOf? {t e : TypeId} (shown : env.types.elementOf? env.declarations t = some e) :
    env'.types.elementOf? env'.declarations t = some e := by
  obtain ⟨ds, u, chain, known⟩ := elementOf?_eq_some_iff.mp shown
  exact elementOf?_eq_some_iff.mpr ⟨ds, u, chain.of_extends larger, larger.types.node known⟩

theorem Extends.recordOf? {t : TypeId} {shape : RecordShape}
    (shown : env.types.recordOf? env.declarations t = some shape) :
    env'.types.recordOf? env'.declarations t = some shape := by
  obtain ⟨ds, u, r, chain, known, found⟩ := recordOf?_eq_some_iff.mp shown
  exact recordOf?_eq_some_iff.mpr
    ⟨ds, u, r, chain.of_extends larger, larger.types.node known, larger.types.record found⟩

theorem Extends.alternativesOf? {t : TypeId} {alternatives : List TypeId}
    (shown : env.types.alternativesOf? env.declarations t = some alternatives) :
    env'.types.alternativesOf? env'.declarations t = some alternatives := by
  obtain ⟨ds, u, l, chain, known, found⟩ := alternativesOf?_eq_some_iff.mp shown
  exact alternativesOf?_eq_some_iff.mpr
    ⟨ds, u, l, chain.of_extends larger, larger.types.node known, larger.types.list found⟩

theorem IsConcrete.of_extends {t : TypeId} (concrete : env.IsConcrete t) (tidy : env.Tidy t) : env'.IsConcrete t := by
  intro d known
  rw [larger.node?_eq tidy] at known
  exact concrete d known

end

end Environment

end Narrowing
