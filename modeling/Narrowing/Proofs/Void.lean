import Narrowing.Proofs.JustifiedLaws
import Narrowing.Proofs.Soundness

/-!
Void is the least type, and only empty types are below it. A comparison with void on
one side keeps it there, so that the pairs in progress are told apart by their other
types (`VoidSide.KeptBy`). Hence no more of them are nested than types have numbers,
and a pair that is met again is met in the same direction. What is below void then
are the types from which declarations and alternatives lead to nothing else
(`OnlyVoid`), also where declarations run in circles.
-/

namespace Narrowing

namespace Environment

variable {env : Environment} {types : Set TypeId}

/-- Every type behind a type that leads no further is void. -/
def OnlyVoid (env : Environment) (t : TypeId) : Prop :=
  ∀ u, env.Behind t u → (∀ v, ¬ env.Opens u v) → u = .void

theorem node?_void (env : Environment) : env.types.node? .void = some (.primitive .void) :=
  env.types.node?_primitive .void

theorem parts_void (env : Environment) : env.parts .void = [] := parts_of_node (node?_void env)

theorem isResolved_void (env : Environment) : env.isResolved .void := isResolved_iff.mpr ⟨_, node?_void env, rfl⟩

/-- A graph may be taken to contain void. -/
theorem Closed.insert_void (closed : env.Closed types) : env.Closed (insert .void types) := by
  constructor
  · rintro t (rfl | member)
    · exact isResolved_void env
    · exact closed.resolved t member
  · rintro t (rfl | member) u part
    · simp [parts_void] at part
    · exact .inr (closed.parts t member u part)

theorem Filled.insert_void (filled : env.Filled types) : env.Filled (insert .void types) := by
  rintro t (rfl | member) l known
  · simp [node?_void] at known
  · exact filled t member l known

section
variable (closed : env.Closed types) (filled : env.Filled types) {t : TypeId} (member : t ∈ types)
include closed filled member

/-- Void is below every type, if no union on the way is empty. -/
theorem Closed.justified_void : env.Justified .void t :=
  closed.insert_void.justified_of_void (.inl rfl) filled.insert_void (.inr member)
    (closed.insert_void.justified_refl (.inl rfl) filled.insert_void)

/-- The types below void are those that lead to nothing else. -/
theorem Closed.justified_void_iff : env.Justified t .void ↔ env.OnlyVoid t := by
  have void := node?_void env
  have shapeV : (TypeNode.primitive .void).IsShape := by simp [TypeNode.IsShape]
  constructor
  · intro empty u behind last
    have inside : u ∈ types := reachable_subset member member closed.parts (.inl behind.reaches)
    have emptyU := justified_of_behind_shape behind void shapeV empty
    rcases closed.kinds_of_void inside emptyU with ⟨d, body, known, found, -⟩ | ⟨l, members, known, found, -⟩ | same
    · exact absurd (.body known found) (last body)
    · obtain ⟨m, listed⟩ := List.exists_mem_of_ne_nil members fun none => filled u inside l known (none ▸ found)
      exact absurd (.alternative known found listed) (last m)
    · exact same
  · intro only
    refine .coinduct (R := fun a b => b = .void ∧ a ∈ types ∧ env.OnlyVoid a) ?_ ⟨rfl, member, only⟩
    clear member only
    rintro a _ ⟨rfl, inside, only⟩
    have further {u : TypeId} (opens : env.Opens a u) : env.OnlyVoid u := fun v behind => only v (.head opens behind)
    rcases closed.kinds inside with ⟨d, body, known, found, insideBody⟩ | ⟨l, members, known, found, insideMembers⟩ |
      ⟨n, known, shape, -⟩
    · exact (follows_nominal_left known void shapeV).mpr
        ⟨body, found, .inl ⟨rfl, insideBody, further (.body known found)⟩⟩
    · refine (follows_union_left known void (by simp) (by simp)).mpr
        ⟨members, found, fun none => filled a inside l known (none ▸ found), fun m listed => ?_⟩
      exact .inl ⟨rfl, insideMembers m listed, further (.alternative known found listed)⟩
    · have last : ∀ v, ¬ env.Opens a v := by
        intro v opens
        cases opens with
        | alternative union => exact shape.2.1 _ (Option.some.inj (known.symm.trans union))
        | body nominal => exact shape.1 _ (Option.some.inj (known.symm.trans nominal))
      rw [only a .refl last]
      exact (follows_shapes void shapeV void shapeV).mpr (.inl rfl)

end

/-! ### Comparing with void -/

/-- On which side of a comparison void stands. -/
inductive VoidSide where
  | left
  | right

/-- The pair of a type and void. -/
def VoidSide.pair : VoidSide → TypeId → TypeId × TypeId
  | .left, t => (.void, t)
  | .right, t => (t, .void)

/-- Void has no parts, so it stays on its side. -/
theorem VoidSide.rule_within (side : VoidSide) {t : TypeId} (resolved : env.isResolved t) :
    (env.rule (side.pair t).1 (side.pair t).2).Within fun a b => ∃ u ∈ env.parts t, side.pair u = (a, b) := by
  cases side with
  | left =>
    refine (rule_descends (isResolved_void env) resolved).mono fun a b descends => ?_
    cases descends with
    | right part => exact ⟨b, part, rfl⟩
    | both part | left part | crossed _ part => simp [parts_void] at part
  | right =>
    refine (rule_descends resolved (isResolved_void env)).mono fun a b descends => ?_
    cases descends with
    | left part => exact ⟨a, part, rfl⟩
    | both _ part | right part | crossed part => simp [parts_void] at part

/-- The pair that is tried and those in progress all have void on the same side. -/
def VoidSide.KeptBy (side : VoidSide) (types : Set TypeId) (a : Attempt) : Prop :=
  ∀ p ∈ (a.lhs, a.rhs) :: a.path, ∃ t ∈ types, side.pair t = p

theorem Closed.keptBy (closed : env.Closed types) (side : VoidSide) {t : TypeId} (member : t ∈ types)
    (limits : Limits) :
    ∀ a ∈ env.attempts limits (side.pair t).1 (side.pair t).2, side.KeptBy types a := by
  refine attemptsWithin_preserve (fun a kept _ => ?_) (Nat.le_refl _) ?_
  · obtain ⟨u, inside, same⟩ := kept _ List.mem_cons_self
    have within := side.rule_within (closed.resolved u inside)
    rw [same] at within
    refine within.mono fun x y ⟨v, part, pair⟩ g' _ => ?_
    exact List.forall_mem_cons.mpr ⟨⟨v, closed.parts u inside v part, pair⟩, kept⟩
  · exact List.forall_mem_singleton.mpr ⟨t, member, rfl⟩

namespace VoidSide

variable {side : VoidSide} {a : Attempt} (kept : side.KeptBy types a) {limits : Limits} {graph : Set TypeId}
  (sound : AttemptSound graph limits a)
include kept sound

/-- A pair that is met again is met in the same direction, or is void with itself. -/
theorem KeptBy.mem_path (assumed : a.entrance = .cycle) : (a.lhs, a.rhs) ∈ a.path := by
  rcases sound.stopsEitherWay assumed with along | against
  · exact along
  · obtain ⟨t, -, here⟩ := kept _ List.mem_cons_self
    obtain ⟨u, -, there⟩ := kept _ (List.mem_cons_of_mem _ against)
    have same : a.lhs = a.rhs := by cases side <;> simp_all [pair]
    rwa [same] at against ⊢

/-- With void on one side, no more pairs are in progress than the graph has types. -/
theorem KeptBy.length_le (finite : types.Finite) : a.guard.visiting.length ≤ types.ncard := by
  have distinct : a.path.Nodup := by
    have nodup := sound.distinct.nodup
    rw [sound.visiting] at nodup
    exact nodup.of_map
  have covered : (a.path.toFinset : Set (TypeId × TypeId)) ⊆ Set.image side.pair types := by
    intro p listed
    obtain ⟨t, inside, same⟩ := kept p (List.mem_cons_of_mem _ (List.mem_toFinset.mp listed))
    exact ⟨t, inside, same⟩
  calc a.guard.visiting.length = a.path.toFinset.card := by
        rw [sound.visiting, List.length_map, List.toFinset_card_of_nodup distinct]
    _ = (a.path.toFinset : Set (TypeId × TypeId)).ncard := (Set.ncard_coe_finset _).symm
    _ ≤ (Set.image side.pair types).ncard := Set.ncard_le_ncard covered (finite.image _)
    _ ≤ types.ncard := Set.ncard_image_le finite

end VoidSide

/-- Types with numbers of 32 bits are fewer than the pairs that may be nested, since some numbers are not given out. -/
theorem Closed.ncard_lt (closed : env.Closed types) (fits : env.types.size ≤ 0x100000000) :
    types.ncard < Limits.ceiling := by
  let reserved : Finset Nat := {0, 99}
  have taken : types ⊆ Set.image TypeId.mk (Finset.range env.types.size \ reserved : Finset Nat) := by
    intro t member
    obtain ⟨n, known, -⟩ := closed.rests member
    refine ⟨t.val, ?_, rfl⟩
    have given : t.val ≠ 0 ∧ t.val ≠ 99 := by
      rcases TypeStore.node?_eq_some_iff.mp known with ⟨k, rfl, -⟩ | ⟨i, rfl, -⟩
      · cases k <;> decide
      · simp only [TypeId.first]
        omega
    simpa [reserved] using ⟨TypeStore.val_lt_size known, given⟩
  have inside : reserved ⊆ Finset.range env.types.size := by
    intro v listed
    simp only [reserved, Finset.mem_insert, Finset.mem_singleton] at listed
    simp only [Finset.mem_range, TypeStore.size, TypeId.first]
    omega
  calc types.ncard ≤ (Set.image TypeId.mk (Finset.range env.types.size \ reserved : Finset Nat)).ncard :=
        Set.ncard_le_ncard taken (Set.toFinite _)
    _ ≤ ((Finset.range env.types.size \ reserved : Finset Nat) : Set Nat).ncard := Set.ncard_image_le (Set.toFinite _)
    _ = env.types.size - 2 := by
        rw [Set.ncard_coe_finset, Finset.card_sdiff_of_subset inside, Finset.card_range]
        rfl
    _ < Limits.ceiling := by
        simp only [Limits.ceiling]
        omega

section
variable (closed : env.Closed types) {t : TypeId} (member : t ∈ types) (side : VoidSide)
include closed member

theorem Closed.wellFormed_void : env.WellFormed (side.pair t).1 (side.pair t).2 := by
  cases side with
  | left => exact closed.insert_void.wellFormed (.inl rfl) (.inr member)
  | right => exact closed.insert_void.wellFormed (.inr member) (.inl rfl)

theorem Closed.assumesSoundly_void : env.AssumesSoundly (side.pair t).1 (side.pair t).2 := by
  intro a made assumed
  exact .inl ((closed.keptBy side member _ a made).mem_path ((closed.wellFormed_void member side).attemptSound a made)
    assumed)

theorem Closed.shallow_void (fits : env.types.size ≤ 0x100000000) :
    env.Shallow .unbounded (side.pair t).1 (side.pair t).2 := by
  refine (closed.wellFormed_void member side).shallow_of_length fun a made => ?_
  have sound := (closed.wellFormed_void member side).attemptSound a made
  exact Nat.lt_of_le_of_lt ((closed.keptBy side member _ a made).length_le sound closed.finite) (closed.ncard_lt fits)

end

/-- In a graph without empty unions void narrows to every type, and a type is below void exactly if declarations and
    alternatives lead from it to nothing but void. -/
theorem void_isLeast (closed : env.Closed types) (filled : env.Filled types) (fits : env.types.size ≤ 0x100000000)
    {t : TypeId} (member : t ∈ types) :
    env.selector .void t = .ok .top ∧ ∃ below, env.isSubtype t .void = .ok below ∧ (below = true ↔ env.OnlyVoid t) := by
  have left := closed.wellFormed_void member .left
  have right := closed.wellFormed_void member .right
  constructor
  · exact left.selector_of_justified (closed.justified_void filled member) (closed.shallow_void member .left fits)
  · obtain ⟨below, answer⟩ : ∃ below, env.isSubtype t .void = .ok below := right.exists_isSubtype
    refine ⟨below, answer, ?_⟩
    calc below = true ↔ env.isSubtype t .void = .ok true := by simp [answer]
      _ ↔ env.Justified t .void :=
        right.isSubtype_iff (closed.assumesSoundly_void member .right) (closed.shallow_void member .right fits)
      _ ↔ env.OnlyVoid t := closed.justified_void_iff filled member

/-- Two declarations that refer to each other, a name for void, and the union of void, the first declaration and that
    name. -/
def emptyNames : Environment :=
  .ofBodies [.node (.nominal ⟨2⟩), .node (.nominal ⟨1⟩), .node (.union ⟨1⟩),
    .intersection [.type .void, .node (.nominal ⟨1⟩), .node (.nominal ⟨5⟩)], .type .void]

/-- From the union declarations lead in a circle or to void, so it is below void. -/
theorem emptyNames_isLeast :
    emptyNames.types.list? ⟨1⟩ = some [.void, ⟨101⟩, ⟨103⟩] ∧ emptyNames.selector .void ⟨102⟩ = .ok .top ∧
      emptyNames.isSubtype ⟨102⟩ .void = .ok true ∧ emptyNames.OnlyVoid ⟨102⟩ := by
  have closed : emptyNames.Closed {t | t ∈ [⟨100⟩, ⟨101⟩, ⟨102⟩, ⟨103⟩, .void]} := .of_list _ (by decide +kernel)
  have filled : emptyNames.Filled {t | t ∈ [⟨100⟩, ⟨101⟩, ⟨102⟩, ⟨103⟩, .void]} :=
    .of_list _ (by decide +kernel)
  obtain ⟨least, below, answer, only⟩ := void_isLeast closed filled (by decide +kernel) (t := ⟨102⟩) (by simp)
  have subtype : emptyNames.isSubtype ⟨102⟩ .void = .ok true := by decide +kernel
  refine ⟨by decide +kernel, least, subtype, only.mp ?_⟩
  simpa [subtype, eq_comm] using answer

end Environment

end Narrowing
