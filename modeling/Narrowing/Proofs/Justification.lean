import Narrowing.Proofs.Settlement

/-!
What makes a subtyping valid between recursive types. A set of ordered pairs is
consistent if the rule confirms each of its pairs from the others, and a pair is
justified if some consistent set contains it. Justified pairs are the largest
consistent set (`Justified.follows`, `Justified.coinduct`). They are also what a
finite derivation reaches that may stop at a pair it is in the middle of deriving,
provided it stops at the same ordered pair: `justified_iff_derivable`. For given
graphs both sides can be computed: `Consistent.of_list`, `not_justified_of_refutes`.
-/

namespace Narrowing

namespace Environment

/-- Answers that are top on some ordered pairs and bottom on all others. -/
noncomputable def answersOf (pairs : Set (TypeId × TypeId)) (l r : TypeId) : Selector :=
  open Classical in if (l, r) ∈ pairs then .top else .bottom

/-- A set of ordered pairs for each of which the rule yields top, if exactly the pairs of the set are top. -/
def Consistent (env : Environment) (pairs : Set (TypeId × TypeId)) : Prop :=
  ∀ l r, (l, r) ∈ pairs → (env.rule l r).settle (fun a b => .ok (answersOf pairs a b)) = .ok .top

/-- Some consistent set contains the pair. -/
def Justified (env : Environment) (l r : TypeId) : Prop := ∃ pairs, env.Consistent pairs ∧ (l, r) ∈ pairs

theorem answersOf_eq_top_iff {pairs : Set (TypeId × TypeId)} {l r : TypeId} :
    answersOf pairs l r = .top ↔ (l, r) ∈ pairs := by
  unfold answersOf
  split <;> simp_all

variable {env : Environment}

theorem consistent_iff_follows {pairs : Set (TypeId × TypeId)} :
    env.Consistent pairs ↔ ∀ l r, (l, r) ∈ pairs → env.Follows (fun a b => (a, b) ∈ pairs) l r := by
  simp only [Consistent, settle_rule_eq_top_iff, answersOf_eq_top_iff]

/-- A list of pairs is consistent if each of them passes the rule, which can be checked. -/
theorem Consistent.of_list (pairs : List (TypeId × TypeId))
    (passes : ∀ p ∈ pairs,
      (env.rule p.1 p.2).settle (fun a b => .ok (.ofBool ((a, b) ∈ pairs))) = .ok .top) :
    env.Consistent {p | p ∈ pairs} := by
  rw [consistent_iff_follows]
  intro l r member
  have follows := (settle_rule_eq_top_iff _ l r).mp (passes (l, r) member)
  simpa using follows

theorem Justified.follows {l r : TypeId} (justified : env.Justified l r) : env.Follows env.Justified l r := by
  obtain ⟨pairs, consistent, member⟩ := justified
  exact (consistent_iff_follows.mp consistent l r member).mono fun a b inside => ⟨pairs, consistent, inside⟩

/-- A relation whose pairs follow from its own pairs and justified ones is justified. -/
theorem Justified.coinduct {R : TypeId → TypeId → Prop}
    (step : ∀ a b, R a b → env.Follows (fun x y => R x y ∨ env.Justified x y) a b) {l r : TypeId} (start : R l r) :
    env.Justified l r := by
  refine ⟨{p | R p.1 p.2 ∨ env.Justified p.1 p.2}, consistent_iff_follows.mpr ?_, .inl start⟩
  rintro a b (related | justified)
  · exact step a b related
  · exact justified.follows.mono fun x y => .inr

theorem Justified.of_follows {l r : TypeId} (follows : env.Follows env.Justified l r) : env.Justified l r := by
  refine coinduct (R := fun a b => a = l ∧ b = r) ?_ ⟨rfl, rfl⟩
  rintro a b ⟨rfl, rfl⟩
  exact follows.mono fun x y => .inr

theorem justified_iff_follows {l r : TypeId} : env.Justified l r ↔ env.Follows env.Justified l r :=
  ⟨Justified.follows, Justified.of_follows⟩

/-- Whether each pair of a list fails the rule even if all pairs are top except those after it. -/
def refutes (env : Environment) : List (TypeId × TypeId) → Bool
  | [] => true
  | p :: rest =>
    decide ((env.rule p.1 p.2).settle (fun a b => .ok (.ofBool ((a, b) ∉ rest))) ≠ .ok .top) && env.refutes rest

theorem not_justified_of_refutes {pairs : List (TypeId × TypeId)} (refuted : env.refutes pairs) :
    ∀ p ∈ pairs, ¬ env.Justified p.1 p.2 := by
  induction pairs with
  | nil => simp
  | cons p rest ih =>
    simp only [refutes, Bool.and_eq_true, decide_eq_true_eq] at refuted
    refine List.forall_mem_cons.mpr ⟨fun justified => refuted.1 ?_, ih refuted.2⟩
    rw [settle_rule_eq_top_iff]
    refine justified.follows.mono fun a b premise => ?_
    simpa using fun listed => ih refuted.2 (a, b) listed premise

theorem follows_iff_settle {S : TypeId → TypeId → Prop} {l r : TypeId} :
    env.Follows S l r ↔ (env.rule l r).settle (fun a b => .ok (answersOf {p | S p.1 p.2} a b)) = .ok .top := by
  simp only [settle_rule_eq_top_iff, answersOf_eq_top_iff, Set.mem_ofPred_eq]

/-- On a closed graph a pair follows from pairs of the graph. -/
theorem Follows.inside {types : Set TypeId} (closed : env.Closed types) {S : TypeId → TypeId → Prop} {l r : TypeId}
    (left : l ∈ types) (right : r ∈ types) (follows : env.Follows S l r) :
    env.Follows (fun a b => S a b ∧ a ∈ types ∧ b ∈ types) l r := by
  rw [follows_iff_settle] at follows ⊢
  rw [← follows]
  refine Inquiry.settle_congr fun p asked => ?_
  have inside := Inquiry.allowed_of_asked (rule_within closed left right) p asked
  by_cases top : S p.1 p.2 <;> simp [answersOf, top, inside]

/-! ### Derivations -/

/-- A pair is derived by the rule from pairs that are derived in turn, or the derivation stops at it. Where it
    may stop depends on the pairs that are being derived, the last one first. -/
inductive Derivable (env : Environment) (stops : List (TypeId × TypeId) → TypeId → TypeId → Prop) :
    List (TypeId × TypeId) → TypeId → TypeId → Prop where
  | stop {path : List (TypeId × TypeId)} {l r : TypeId} : stops path l r → Derivable env stops path l r
  | rule {path : List (TypeId × TypeId)} {l r : TypeId} (premise : TypeId → TypeId → Prop) :
      env.Follows premise l r → (∀ a b, premise a b → Derivable env stops ((l, r) :: path) a b) →
        Derivable env stops path l r

/-- A derivation may stop at a pair that is being derived. -/
def StopsAlong (path : List (TypeId × TypeId)) (l r : TypeId) : Prop := (l, r) ∈ path

/-- A derivation may stop at a pair that is being derived, or whose reverse is. -/
def StopsEitherWay (path : List (TypeId × TypeId)) (l r : TypeId) : Prop := (l, r) ∈ path ∨ (r, l) ∈ path

variable {stops : List (TypeId × TypeId) → TypeId → TypeId → Prop}

theorem Derivable.weaken {also : List (TypeId × TypeId) → TypeId → TypeId → Prop}
    (more : ∀ path l r, stops path l r → also path l r) {path : List (TypeId × TypeId)} {l r : TypeId}
    (derivable : env.Derivable stops path l r) : env.Derivable also path l r := by
  induction derivable with
  | stop here => exact .stop (more _ _ _ here)
  | rule premise follows _ ih => exact .rule premise follows ih

/-- A pair belongs to a relation that is consistent up to justified pairs and those on a path. -/
private def JustifiedUpTo (env : Environment) (path : List (TypeId × TypeId)) (l r : TypeId) : Prop :=
  ∃ R : TypeId → TypeId → Prop, R l r ∧
    ∀ a b, R a b → env.Follows (fun x y => R x y ∨ (x, y) ∈ path ∨ env.Justified x y) a b

/-- A derived pair is itself an assumption that its derivation may use. -/
private theorem JustifiedUpTo.discharge {path : List (TypeId × TypeId)} {l r : TypeId}
    {premise : TypeId → TypeId → Prop} (follows : env.Follows premise l r)
    (derived : ∀ a b, premise a b →
      JustifiedUpTo env ((l, r) :: path) a b ∨ (a, b) ∈ (l, r) :: path ∨ env.Justified a b) :
    JustifiedUpTo env path l r := by
  refine ⟨fun a b => (a = l ∧ b = r) ∨ JustifiedUpTo env ((l, r) :: path) a b, .inl ⟨rfl, rfl⟩, ?_⟩
  have sort : ∀ x y, (JustifiedUpTo env ((l, r) :: path) x y ∨ (x, y) ∈ (l, r) :: path ∨ env.Justified x y) →
      ((x = l ∧ y = r) ∨ JustifiedUpTo env ((l, r) :: path) x y) ∨ (x, y) ∈ path ∨ env.Justified x y := by
    rintro x y (upTo | onPath | justified)
    · exact .inl (.inr upTo)
    · rcases List.mem_cons.mp onPath with same | earlier
      · exact .inl (.inl (Prod.mk.inj same))
      · exact .inr (.inl earlier)
    · exact .inr (.inr justified)
  rintro a b (⟨rfl, rfl⟩ | ⟨R, related, step⟩)
  · exact follows.mono fun x y premised => sort x y (derived x y premised)
  · exact (step a b related).mono fun x y next => sort x y (next.imp_left fun again => ⟨R, again, step⟩)

/-- A derivation that stops only at pairs being derived, or at justified ones, derives a justified pair. -/
theorem Derivable.justified
    (sound : ∀ path a b, stops path a b → (a, b) ∈ path ∨ env.Justified a b) {l r : TypeId}
    (derivable : env.Derivable stops [] l r) : env.Justified l r := by
  have along : ∀ {path l r}, env.Derivable stops path l r →
      JustifiedUpTo env path l r ∨ (l, r) ∈ path ∨ env.Justified l r := by
    intro path l r derivable
    induction derivable with
    | stop here => exact .inr (sound _ _ _ here)
    | rule premise follows _ ih => exact .inl (.discharge follows ih)
  rcases along derivable with ⟨R, related, step⟩ | onPath | justified
  · exact .coinduct (fun a b next => by simpa using step a b next) related
  · simp at onPath
  · exact justified

/-- On a finite graph a justified pair is derived: a path that does not stop would run out of pairs. -/
theorem Closed.derivable {types : Set TypeId} (closed : env.Closed types) (path : List (TypeId × TypeId))
    {l r : TypeId} (left : l ∈ types) (right : r ∈ types) (justified : env.Justified l r) :
    env.Derivable StopsAlong path l r := by
  classical
  have finite : (types ×ˢ types).Finite := closed.finite.prod closed.finite
  -- The induction is on the number of pairs that are not on the path.
  induction left_over : ((types ×ˢ types) \ {p | p ∈ path}).ncard using Nat.strong_induction_on
    generalizing path l r with
  | _ n ih =>
    by_cases seen : (l, r) ∈ path
    · exact .stop seen
    · refine .rule _ (justified.follows.inside closed left right) ?_
      rintro a b ⟨premise, leftPart, rightPart⟩
      refine ih _ ?_ ((l, r) :: path) leftPart rightPart premise rfl
      rw [← left_over]
      refine Set.ncard_lt_ncard ?_ (finite.subset Set.sdiff_subset)
      refine ⟨fun p new => ⟨new.1, fun old => new.2 (List.mem_cons_of_mem _ old)⟩, fun back => ?_⟩
      exact (back ⟨⟨left, right⟩, seen⟩).2 List.mem_cons_self

/-- On a well-formed graph the justified pairs are those with a derivation that stops only at the same ordered
    pair that it is deriving. -/
theorem WellFormed.justified_iff_derivable {l r : TypeId} (wellFormed : env.WellFormed l r) :
    env.Justified l r ↔ env.Derivable StopsAlong [] l r :=
  ⟨wellFormed.closed.derivable [] (left_mem_reachable l r) (right_mem_reachable l r),
    Derivable.justified fun _ _ _ => .inl⟩

end Environment

end Narrowing
