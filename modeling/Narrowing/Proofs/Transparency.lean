import Narrowing.Proofs.JustifiedLaws
import Narrowing.Proofs.Soundness

/-!
When a declaration compares like its body. Declarations are opened one at a time:
two that meet are opened together, one on the right before all else, and one on the
left only after a union on the right has been searched. So a declaration that leads
to a union is not opened if it meets a union that fewer declarations lead to, and
then it has to be below a single alternative (`DeeperUnion`). In all other cases a
pair is justified exactly if the types behind its declarations are
(`Unfolds.justified_iff_ends`), and a declaration can be replaced by its body on
either side.
-/

namespace Narrowing

namespace Environment

variable {env : Environment}

/-- Two types lead to unions, the first of them through more declarations. -/
def DeeperUnion (env : Environment) (t u : TypeId) : Prop :=
  ∃ ds es y z l k, env.Unfolds ds t y ∧ env.types.node? y = some (.union l) ∧
    env.Unfolds es u z ∧ env.types.node? z = some (.union k) ∧ es.length < ds.length

/-! ### Declarations that lead to a type of another kind -/

section
variable {ds es : List DeclId} {a b y z : TypeId}

theorem Unfolds.not_deeperUnion (first : env.Unfolds ds a y) (second : env.Unfolds es b z) (lastY : env.IsConcrete y)
    (lastZ : env.IsConcrete z) (shorter : ds.length ≤ es.length) : ¬ env.DeeperUnion a b := by
  rintro ⟨ds', es', y', z', l, k, first', knownY, second', knownZ, longer⟩
  have lastY' : env.IsConcrete y' := isConcrete_of_node? knownY (by simp)
  have lastZ' : env.IsConcrete z' := isConcrete_of_node? knownZ (by simp)
  obtain rfl : y = y' := (first.concrete_eq lastY).symm.trans (first'.concrete_eq lastY')
  obtain rfl : z = z' := (second.concrete_eq lastZ).symm.trans (second'.concrete_eq lastZ')
  rw [first.unique first' lastY, second.unique second' lastZ] at shorter
  omega

/-- A declaration that leads to a shape is below what the shape is below. -/
theorem Unfolds.justified_of_shape (chain : env.Unfolds ds a y) {n : TypeNode} (known : env.types.node? y = some n)
    (shape : n.IsShape) (tidyY : env.Tidy y) (tidyB : env.Tidy b) (justified : env.Justified y b) : env.Justified a b := by
  refine .coinduct (R := fun a b => (∃ ds, env.Unfolds ds a y) ∧ env.Tidy b ∧ env.Justified y b) ?_
    ⟨⟨ds, chain⟩, tidyB, justified⟩
  clear chain tidyB justified
  rintro a b ⟨⟨ds, chain⟩, tidyB, justified⟩
  cases chain with
  | here => exact justified.follows.mono fun _ _ => .inr
  | @link d ds _ body _ knownA foundA next =>
    rcases tidyB.kinds with ⟨e, bodyB, knownB, foundB, tidyBody⟩ |
      ⟨l, members, knownB, foundB, -, tidyMembers⟩ | ⟨m, knownB, shapeB⟩
    · have below := (justified_nominal_right tidyY.resolved (isConcrete_of_node? known shape.1) knownB foundB).mp justified
      exact (follows_nominals knownA knownB).mpr
        (.inr ⟨body, foundA, bodyB, foundB, .inl ⟨⟨ds, next⟩, tidyBody, below⟩⟩)
    · have plain : ∀ k, env.types.node? y ≠ some (.union k) := fun k union =>
        shape.2.1 k (Option.some.inj (known.symm.trans union))
      obtain ⟨m, member, below⟩ := (justified_union_right tidyY.resolved plain knownB foundB).mp justified
      exact (follows_union_right knownA (by simp) (by simp) knownB).mpr
        ⟨members, foundB, m, member, .inl ⟨⟨d :: ds, .link knownA foundA next⟩, tidyMembers m member, below⟩⟩
    · exact (follows_nominal_left knownA knownB shapeB).mpr
        ⟨body, foundA, .inl ⟨⟨ds, next⟩, tidyB, justified⟩⟩

/-- What is behind declarations is below everything that they are below. -/
theorem Unfolds.justified_end (chain : env.Unfolds ds a y) (tidyA : env.Tidy a) (tidyB : env.Tidy b)
    (justified : env.Justified a b) : env.Justified y b := by
  induction chain with
  | here => exact justified
  | link known found _ ih =>
    have opens := Opens.body known found
    exact ih (opens.tidy tidyA) (justified.of_opens opens tidyA tidyB)

theorem Unfolds.justified_iff_of_target (chain : env.Unfolds ds a y) {n : TypeNode} (known : env.types.node? b = some n)
    (shape : n.IsShape) : env.Justified a b ↔ env.Justified y b := by
  induction chain with
  | here => rfl
  | link knownA foundA _ ih => rw [justified_nominal_left knownA foundA known shape, ih]

/-- Declarations that are opened together, the ones on the left first at their end. -/
theorem Unfolds.justified_iff_of_length (first : env.Unfolds ds a y) (second : env.Unfolds es b z)
    (lastY : env.IsConcrete y) (lastZ : env.IsConcrete z) (tidyA : env.Tidy a) (tidyB : env.Tidy b)
    (shorter : ds.length ≤ es.length) : env.Justified a b ↔ env.Justified y z := by
  induction first generalizing es b with
  | here => exact second.justified_iff tidyA tidyB (.inl lastY)
  | @link d ds a body y knownA foundA next ih =>
    cases second with
    | here => simp at shorter
    | @link e es _ bodyB _ knownB foundB nextB =>
      have tidyBody := (Opens.body knownA foundA).tidy tidyA
      have tidyBodyB := (Opens.body knownB foundB).tidy tidyB
      have inStep := ih nextB lastY tidyBody tidyBodyB (Nat.le_of_succ_le_succ shorter)
      rw [justified_nominals knownA foundA knownB foundB, inStep]
      refine or_iff_right_of_imp ?_
      rintro rfl
      obtain rfl : body = bodyB := Option.some.inj (foundA.symm.trans foundB)
      rw [← next.concrete_eq lastY, nextB.concrete_eq lastZ]
      exact (tidyBody.of_unfolds nextB).justified_refl

/-- A pair is justified exactly if the types behind its declarations are, unless the first leads to a union through
    more declarations than the second. -/
theorem Unfolds.justified_iff_ends (first : env.Unfolds ds a y) (second : env.Unfolds es b z)
    (lastY : env.IsConcrete y) (lastZ : env.IsConcrete z) (tidyA : env.Tidy a) (tidyB : env.Tidy b)
    (free : ¬ env.DeeperUnion a b) : env.Justified a b ↔ env.Justified y z := by
  have tidyY := tidyA.of_unfolds first
  have tidyZ := tidyB.of_unfolds second
  rcases tidyY.kinds with ⟨d, _, knownY, -⟩ | ⟨l, _, knownY, -⟩ | ⟨n, knownY, shapeY⟩
  · exact absurd knownY (lastY d)
  · rcases tidyZ.kinds with ⟨d, _, knownZ, -⟩ | ⟨k, _, knownZ, -⟩ | ⟨m, knownZ, shapeZ⟩
    · exact absurd knownZ (lastZ d)
    · refine first.justified_iff_of_length second lastY lastZ tidyA tidyB (Nat.le_of_not_lt fun longer => free ?_)
      exact ⟨ds, es, y, z, l, k, first, knownY, second, knownZ, longer⟩
    · rw [second.justified_iff tidyA tidyB (.inr ⟨m, knownZ, shapeZ⟩), first.justified_iff_of_target knownZ shapeZ]
  · rw [← second.justified_iff tidyY tidyB (.inl lastY)]
    exact ⟨first.justified_end tidyA tidyB, first.justified_of_shape knownY shapeY tidyY tidyB⟩

end

/-! ### Declarations that run in a circle -/

/-- Declarations lead from a type to one of another kind. -/
def LeadsTo (env : Environment) (t u : TypeId) : Prop := (∃ ds, env.Unfolds ds t u) ∧ env.IsConcrete u

/-- A type whose declarations lead to no type of another kind. -/
def Circular (env : Environment) (t : TypeId) : Prop := ∀ u, ¬ env.LeadsTo t u

theorem leadsTo_body_iff {t body u : TypeId} {d : DeclId} (known : env.types.node? t = some (.nominal d))
    (found : env.declarations.body? d = some body) : env.LeadsTo t u ↔ env.LeadsTo body u := by
  refine and_congr_left fun last => ⟨?_, ?_⟩
  · rintro ⟨ds, chain⟩
    cases chain with
    | here => exact absurd known (last d)
    | @link e ds _ body' _ known' found' next =>
      obtain rfl : d = e := by simpa using known.symm.trans known'
      obtain rfl := Option.some.inj (found.symm.trans found')
      exact ⟨ds, next⟩
  · rintro ⟨ds, chain⟩
    exact ⟨d :: ds, .link known found chain⟩

theorem Circular.nominal {t : TypeId} (circular : env.Circular t) (tidy : env.Tidy t) :
    ∃ d body, env.types.node? t = some (.nominal d) ∧ env.declarations.body? d = some body ∧ env.Tidy body ∧
      env.Circular body := by
  rcases tidy.kinds with ⟨d, body, known, found, tidyBody⟩ | ⟨l, _, known, -⟩ | ⟨n, known, shape⟩
  · exact ⟨d, body, known, found, tidyBody, fun u leads => circular u ((leadsTo_body_iff known found).mpr leads)⟩
  · exact absurd ⟨⟨[], .here⟩, isConcrete_of_node? known (by simp)⟩ (circular t)
  · exact absurd ⟨⟨[], .here⟩, isConcrete_of_node? known shape.1⟩ (circular t)

section
variable {t u : TypeId} (circular : env.Circular t) (tidyT : env.Tidy t) (tidyU : env.Tidy u)
include circular tidyT tidyU

/-- Nothing speaks against a declaration in a circle. -/
theorem Circular.justified_left : env.Justified t u := by
  refine .coinduct (R := fun a b => env.Circular a ∧ env.Tidy a ∧ env.Tidy b) ?_ ⟨circular, tidyT, tidyU⟩
  rintro a b ⟨circular, tidyA, tidyB⟩
  obtain ⟨d, body, known, found, tidyBody, again⟩ := circular.nominal tidyA
  rcases tidyB.kinds with ⟨e, bodyB, knownB, foundB, tidyBodyB⟩ | ⟨l, members, knownB, foundB, normal, tidyMembers⟩ |
    ⟨m, knownB, shapeB⟩
  · exact (follows_nominals known knownB).mpr (.inr ⟨body, found, bodyB, foundB, .inl ⟨again, tidyBody, tidyBodyB⟩⟩)
  · obtain ⟨m, member⟩ := List.exists_mem_of_ne_nil members normal.ne_nil
    exact (follows_union_right known (by simp) (by simp) knownB).mpr
      ⟨members, foundB, m, member, .inl ⟨circular, tidyA, tidyMembers m member⟩⟩
  · exact (follows_nominal_left known knownB shapeB).mpr ⟨body, found, .inl ⟨again, tidyBody, tidyB⟩⟩

theorem Circular.justified_right : env.Justified u t := by
  refine .coinduct (R := fun a b => env.Circular b ∧ env.Tidy b ∧ env.Tidy a) ?_ ⟨circular, tidyT, tidyU⟩
  rintro a b ⟨circular, tidyB, tidyA⟩
  obtain ⟨d, body, known, found, tidyBody, again⟩ := circular.nominal tidyB
  rcases tidyA.kinds with ⟨e, bodyA, knownA, foundA, tidyBodyA⟩ | ⟨l, _, knownA, -⟩ | ⟨n, knownA, shapeA⟩
  · exact (follows_nominals knownA known).mpr (.inr ⟨bodyA, foundA, body, found, .inl ⟨again, tidyBody, tidyBodyA⟩⟩)
  · exact (follows_nominal_right knownA (by simp) (by simp) known).mpr ⟨body, found, .inl ⟨again, tidyBody, tidyA⟩⟩
  · exact (follows_nominal_right knownA shapeA.1 shapeA.2.2 known).mpr ⟨body, found, .inl ⟨again, tidyBody, tidyA⟩⟩

end

/-! ### A declaration and its body -/

/-- Pairs whose types lead to the same types compare alike. -/
theorem justified_congr {a a' b b' : TypeId} (tidyA : env.Tidy a) (tidyA' : env.Tidy a') (tidyB : env.Tidy b)
    (tidyB' : env.Tidy b') (sameA : ∀ y, env.LeadsTo a y ↔ env.LeadsTo a' y)
    (sameB : ∀ y, env.LeadsTo b y ↔ env.LeadsTo b' y) (free : ¬ env.DeeperUnion a b)
    (free' : ¬ env.DeeperUnion a' b') : env.Justified a b ↔ env.Justified a' b' := by
  by_cases circularA : env.Circular a
  · have circularA' : env.Circular a' := fun y leads => circularA y ((sameA y).mpr leads)
    exact iff_of_true (circularA.justified_left tidyA tidyB) (circularA'.justified_left tidyA' tidyB')
  by_cases circularB : env.Circular b
  · have circularB' : env.Circular b' := fun y leads => circularB y ((sameB y).mpr leads)
    exact iff_of_true (circularB.justified_right tidyB tidyA) (circularB'.justified_right tidyB' tidyA')
  simp only [Circular, not_forall, not_not] at circularA circularB
  obtain ⟨y, leadsA⟩ := circularA
  obtain ⟨z, leadsB⟩ := circularB
  obtain ⟨⟨ds, first⟩, lastY⟩ := leadsA
  obtain ⟨⟨es, second⟩, lastZ⟩ := leadsB
  obtain ⟨⟨ds', first'⟩, -⟩ := (sameA y).mp ⟨⟨ds, first⟩, lastY⟩
  obtain ⟨⟨es', second'⟩, -⟩ := (sameB z).mp ⟨⟨es, second⟩, lastZ⟩
  rw [first.justified_iff_ends second lastY lastZ tidyA tidyB free,
    first'.justified_iff_ends second' lastY lastZ tidyA' tidyB' free']

section
variable {t body u : TypeId} {d : DeclId} (known : env.types.node? t = some (.nominal d))
  (found : env.declarations.body? d = some body) (tidyT : env.Tidy t) (tidyU : env.Tidy u)
include known found tidyT tidyU

theorem justified_body_left (free : ¬ env.DeeperUnion t u) : env.Justified t u ↔ env.Justified body u := by
  have tidyBody := (Opens.body known found).tidy tidyT
  refine justified_congr tidyT tidyBody tidyU tidyU (fun y => leadsTo_body_iff known found) (fun y => .rfl) free ?_
  rintro ⟨ds, es, y, z, l, k, first, knownY, second, knownZ, longer⟩
  exact free ⟨d :: ds, es, y, z, l, k, .link known found first, knownY, second, knownZ, Nat.lt_succ_of_lt longer⟩

theorem justified_body_right (free : ¬ env.DeeperUnion u body) : env.Justified u t ↔ env.Justified u body := by
  have tidyBody := (Opens.body known found).tidy tidyT
  refine justified_congr tidyU tidyU tidyT tidyBody (fun y => .rfl) (fun y => leadsTo_body_iff known found) ?_ free
  rintro ⟨ds, es, y, z, l, k, first, knownY, second, knownZ, longer⟩
  cases second with
  | here => exact absurd (known.symm.trans knownZ) (by simp)
  | @link e es _ body' _ known' found' next =>
    obtain rfl : d = e := by simpa using known.symm.trans known'
    obtain rfl := Option.some.inj (found.symm.trans found')
    exact free ⟨ds, es, y, z, l, k, first, knownY, next, knownZ, Nat.lt_of_succ_lt longer⟩

end

/-- A comparison that assumes soundly, with no more pairs nested than can be counted. -/
structure Faithful (env : Environment) (l r : TypeId) : Prop where
  sound : env.AssumesSoundly l r
  shallow : env.Shallow .unbounded l r

theorem Faithful.isSubtype_iff {l r : TypeId} (faithful : env.Faithful l r) (wellFormed : env.WellFormed l r) :
    env.isSubtype l r = .ok true ↔ env.Justified l r :=
  wellFormed.isSubtype_iff faithful.sound faithful.shallow

theorem isSubtype_congr {l r l' r' : TypeId} (wellFormed : env.WellFormed l r) (wellFormed' : env.WellFormed l' r')
    (same : env.isSubtype l r = .ok true ↔ env.isSubtype l' r' = .ok true) : env.isSubtype l r = env.isSubtype l' r' := by
  obtain ⟨below, answer⟩ := wellFormed.exists_isSubtype
  obtain ⟨below', answer'⟩ := wellFormed'.exists_isSubtype
  simp only [answer, answer', Except.ok.injEq] at same ⊢
  exact Bool.eq_iff_iff.mpr same

/-- A declaration compares like its body, on the left unless it leads to a union through more declarations than the
    other type does, and on the right unless the other type leads to one through more declarations than the body. In
    any case the body is below what the declaration is below, and the declaration above what the body is above. -/
theorem isSubtype_nominal {types : Set TypeId} (closed : env.Closed types) (normal : ∀ t ∈ types, env.isNormal t)
    {t body u : TypeId} {d : DeclId} (insideT : t ∈ types) (insideU : u ∈ types)
    (known : env.types.node? t = some (.nominal d)) (found : env.declarations.body? d = some body) :
    (env.Faithful t u → env.Faithful body u →
      (env.isSubtype t u = .ok true → env.isSubtype body u = .ok true) ∧
      (¬ env.DeeperUnion t u → env.isSubtype t u = env.isSubtype body u)) ∧
    (env.Faithful u t → env.Faithful u body →
      (env.isSubtype u body = .ok true → env.isSubtype u t = .ok true) ∧
      (¬ env.DeeperUnion u body → env.isSubtype u t = env.isSubtype u body)) := by
  have opens := Opens.body known found
  have tidyT := closed.tidy normal insideT
  have tidyU := closed.tidy normal insideU
  have tidyBody := opens.tidy tidyT
  have insideBody : body ∈ types := closed.parts t insideT body (by simp [parts_of_node known, partsOf, found])
  constructor
  · intro faithful faithfulBody
    have wellFormed := closed.wellFormed insideT insideU
    have wellFormedBody := closed.wellFormed insideBody insideU
    constructor
    · rw [faithful.isSubtype_iff wellFormed, faithfulBody.isSubtype_iff wellFormedBody]
      exact fun justified => justified.of_opens opens tidyT tidyU
    · intro free
      apply isSubtype_congr wellFormed wellFormedBody
      rw [faithful.isSubtype_iff wellFormed, faithfulBody.isSubtype_iff wellFormedBody]
      exact justified_body_left known found tidyT tidyU free
  · intro faithful faithfulBody
    have wellFormed := closed.wellFormed insideU insideT
    have wellFormedBody := closed.wellFormed insideU insideBody
    constructor
    · rw [faithful.isSubtype_iff wellFormed, faithfulBody.isSubtype_iff wellFormedBody]
      exact fun justified => justified.of_body tidyU tidyBody known found
    · intro free
      apply isSubtype_congr wellFormed wellFormedBody
      rw [faithful.isSubtype_iff wellFormed, faithfulBody.isSubtype_iff wellFormedBody]
      exact justified_body_right known found tidyT tidyU free

/-- Two declarations of lists that may be empty. The second allows its values to be null. -/
def optionalLists : Environment :=
  .ofBodies [.union [.type .null, .record false [("val", .type .int), ("next", .node (.nominal ⟨1⟩))]],
    .union [.type .null,
      .record false [("val", .union [.type .int, .type .null]), ("next", .node (.nominal ⟨2⟩))]]]

def optionalTypes : List TypeId := [⟨100⟩, ⟨101⟩, ⟨102⟩, ⟨103⟩, ⟨104⟩, ⟨105⟩, ⟨106⟩, .int, .null]

/-- A declared list compares like the union that it stands for: on the left with another declared list, and on the
    right with the union that the other stands for. -/
theorem optionalLists_transparent :
    optionalLists.isSubtype ⟨100⟩ ⟨104⟩ = .ok true ∧ optionalLists.isSubtype ⟨102⟩ ⟨104⟩ = .ok true ∧
      optionalLists.isSubtype ⟨102⟩ ⟨106⟩ = .ok true := by
  have closed : optionalLists.Closed {t | t ∈ optionalTypes} := .of_list optionalTypes (by decide +kernel)
  have normal : ∀ t ∈ optionalTypes, optionalLists.isNormal t := by decide +kernel
  have along : ∀ p ∈ [(⟨100⟩, ⟨104⟩), (⟨102⟩, ⟨104⟩), (⟨102⟩, ⟨106⟩)], ∀ a ∈ optionalLists.attempts .unbounded p.1 p.2,
      (a.entrance = .cycle → (a.lhs, a.rhs) ∈ a.path) ∧ a.entrance ≠ .depthExceeded := by decide +kernel
  have faithful : ∀ p ∈ [(⟨100⟩, ⟨104⟩), (⟨102⟩, ⟨104⟩), (⟨102⟩, ⟨106⟩)], optionalLists.Faithful p.1 p.2 :=
    fun p listed => ⟨fun a made cycle => .inl ((along p listed a made).1 cycle), fun a made => (along p listed a made).2⟩
  have known : optionalLists.types.node? ⟨100⟩ = some (.nominal ⟨1⟩) ∧
      optionalLists.types.node? ⟨104⟩ = some (.nominal ⟨2⟩) := by decide +kernel
  have found : optionalLists.declarations.body? ⟨1⟩ = some ⟨102⟩ ∧
      optionalLists.declarations.body? ⟨2⟩ = some ⟨106⟩ := by decide +kernel
  have inStep : ¬ optionalLists.DeeperUnion ⟨100⟩ ⟨104⟩ :=
    Unfolds.not_deeperUnion (.link known.1 found.1 .here) (.link known.2 found.2 .here) (by decide +kernel)
      (by decide +kernel) (by simp)
  have left := (isSubtype_nominal closed normal (u := ⟨104⟩) (by decide) (by decide) known.1 found.1).1
    (faithful (⟨100⟩, ⟨104⟩) (by simp)) (faithful (⟨102⟩, ⟨104⟩) (by simp))
  have right := (isSubtype_nominal closed normal (u := ⟨102⟩) (by decide) (by decide) known.2 found.2).2
    (faithful (⟨102⟩, ⟨104⟩) (by simp)) (faithful (⟨102⟩, ⟨106⟩) (by simp))
  have below : optionalLists.isSubtype ⟨102⟩ ⟨106⟩ = .ok true := by decide +kernel
  have step := right.1 below
  refine ⟨?_, step, below⟩
  rw [left.2 inStep]
  exact step

/-- A declared union and a record that mentions it. -/
def maybeNumbers : Environment :=
  .ofBodies [.union [.type .int, .type .null], .record false [("it", .node (.nominal ⟨1⟩))]]

/-- A declared union is not found below the union that it stands for, though that is below itself, and the declaration
    is below itself. -/
theorem maybeNumbers_not_transparent :
    maybeNumbers.Closed {t | t ∈ [⟨100⟩, ⟨101⟩, .int, .null]} ∧
      (∀ t ∈ [⟨100⟩, ⟨101⟩, .int, .null], maybeNumbers.isNormal t) ∧
      maybeNumbers.types.node? ⟨101⟩ = some (.nominal ⟨1⟩) ∧ maybeNumbers.declarations.body? ⟨1⟩ = some ⟨100⟩ ∧
      maybeNumbers.isSubtype ⟨101⟩ ⟨100⟩ = .ok false ∧ maybeNumbers.isSubtype ⟨100⟩ ⟨100⟩ = .ok true ∧
      maybeNumbers.isSubtype ⟨101⟩ ⟨101⟩ = .ok true := by
  refine ⟨.of_list _ (by decide +kernel), ?_⟩
  decide +kernel

end Environment

end Narrowing
