import Narrowing.Proofs.Contracts
import Narrowing.Proofs.LargerLimits
import Narrowing.Proofs.SelectorOrder

/-!
Limits lose precision and nothing else. A pair that a limit refuses counts as
bottom, which may change what is asked afterwards; but smaller answers never lead
the rule to a larger end (`monotone_rule`), so whatever a limit cuts off, each answer
stays below the one that the same pair has with more room (`answer_le_outcome`).
-/

namespace Narrowing

namespace Inquiry

/-- The answers that are selectors, and top in place of the others. -/
def granted (answer : TypeId → TypeId → Except Fault Selector) (l r : TypeId) : Selector :=
  (answer l r).toOption.getD .top

/-- An inquiry that ends with a selector has asked for no other answers. -/
theorem settle_granted {answer : TypeId → TypeId → Except Fault Selector} {i : Inquiry} {t : Selector}
    (settled : i.settle answer = .ok t) : i.settle (fun l r => .ok (granted answer l r)) = .ok t := by
  induction i with
  | done | fail => exact settled
  | note event next ih => exact ih settled
  | ask l r next ih =>
    cases found : answer l r with
    | error fault => simp [settle, found] at settled
    | ok s =>
      have given : granted answer l r = s := by simp [granted, found, Except.toOption]
      simp only [settle, found] at settled
      simpa only [settle, given] using ih s settled

/-- Answers below given ones lead to an end below theirs, even if a question is answered differently each time. -/
def IsMonotone (i : Inquiry) : Prop :=
  ∀ (value : TypeId → TypeId → Selector) (t : Selector), i.settle (fun l r => .ok (value l r)) = .ok t →
    i.Ensures (fun l r s => s ≤ value l r) (· ≤ t)

theorem monotone_done (s : Selector) : (done s).IsMonotone := by
  intro value t settled
  obtain rfl := Except.ok.inj settled
  exact le_refl s

theorem monotone_note {event : Event} {next : Inquiry} (monotone : next.IsMonotone) : (note event next).IsMonotone :=
  monotone

theorem monotone_require {α : Type} {part? : Option α} {fault : Fault} {next : α → Inquiry}
    (monotone : ∀ a, (next a).IsMonotone) : (require part? fault next).IsMonotone := by
  intro value t settled
  obtain ⟨a, found, settled⟩ := settle_require_eq_ok_iff.mp settled
  refine ensures_require fun a' found' => ?_
  obtain rfl : a = a' := Option.some.inj (found.symm.trans found')
  exact monotone a value t settled

theorem monotone_defer (l r : TypeId) : (defer l r).IsMonotone := by
  intro value t settled
  obtain rfl := Except.ok.inj settled
  exact fun s le => le

theorem monotone_every (pairs : List (TypeId × TypeId)) : (every pairs).IsMonotone := by
  intro value t settled
  rw [settle_every, Except.ok.injEq] at settled
  subst settled
  refine ensures_every (Selector.bottom_le _) fun tops => ?_
  have all : pairs.all (fun p => (value p.1 p.2).isTop) = true := by
    rw [List.all_eq_true]
    intro p member
    exact Selector.isTop_iff.mpr (Selector.top_le_iff.mp (tops p member))
  rw [all]
  exact le_refl _

theorem monotone_oneOf (lhs : TypeId) (alternatives : List TypeId) : (oneOf lhs alternatives).IsMonotone := by
  intro value t settled
  rw [settle_oneOf, Except.ok.injEq] at settled
  subst settled
  refine ensures_oneOf (Selector.bottom_le _) fun r member top => ?_
  have some_top : alternatives.any (fun r => (value lhs r).isTop) = true := by
    rw [List.any_eq_true]
    exact ⟨r, member, Selector.isTop_iff.mpr (Selector.top_le_iff.mp top)⟩
  rw [some_top]
  exact le_refl _

theorem monotone_each (rhs : TypeId) (alternatives : List TypeId) : (each rhs [] alternatives).IsMonotone := by
  intro value t settled
  rw [settle_each, Except.ok.injEq] at settled
  subst settled
  refine ensures_each fun items below => Selector.unionOf_le ?_
  rw [List.nil_append, List.nil_append, List.forall₂_map_right_iff]
  exact below.flip

/-- A field that a smaller answer does not rule out is not ruled out. -/
private theorem meets_of_below {value : TypeId → TypeId → Selector} {fields : List (Field × Field)}
    {items : List Selector}
    (below : List.Forall₂ (fun p s => p.1.name = p.2.name ∧ s ≠ .bottom ∧ s ≤ value p.1.type p.2.type) fields items) :
    fields.all (fieldsMeet value) = true := by
  induction below with
  | nil => rfl
  | @cons p s _ _ first _ ih =>
    obtain ⟨named, filled, le⟩ := first
    have possible : (value p.1.type p.2.type).isBottom = false := by
      rw [Bool.eq_false_iff, ne_eq, Selector.isBottom_iff]
      intro bottom
      rw [bottom] at le
      exact filled (Selector.le_bottom_iff.mp le)
    simp [fieldsMeet, named, possible, ih]

theorem monotone_fieldwise (fields : List (Field × Field)) : (fieldwise [] fields).IsMonotone := by
  intro value t settled
  rw [settle_fieldwise, Except.ok.injEq] at settled
  subst settled
  refine ensures_fieldwise (Selector.bottom_le _) fun items below => ?_
  rw [meets_of_below below, if_pos rfl]
  refine Selector.recordOf_le ?_
  rw [List.nil_append, List.nil_append, List.forall₂_map_right_iff]
  exact (below.imp fun p s both => both.2.2).flip

end Inquiry

namespace Environment

variable {env : Environment}

theorem monotone_compareShapes (l r : TypeNode) : (env.compareShapes l r).IsMonotone := by
  unfold compareShapes
  split
  case h_1 | h_8 | h_9 | h_10 => exact Inquiry.monotone_done _
  case h_2 =>
    intro value t settled
    obtain rfl := Except.ok.inj settled
    exact fun s le => Selector.arrayOf_le le
  case h_3 =>
    refine Inquiry.monotone_require fun ls => Inquiry.monotone_require fun rs => ?_
    split
    · exact Inquiry.monotone_fieldwise _
    · exact Inquiry.monotone_done _
  case h_4 | h_7 => exact Inquiry.monotone_every _
  case h_5 | h_6 =>
    refine Inquiry.monotone_require fun ls => Inquiry.monotone_require fun rs => ?_
    split
    · exact Inquiry.monotone_every _
    · exact Inquiry.monotone_done _

theorem monotone_rule (lhs rhs : TypeId) : (env.rule lhs rhs).IsMonotone := by
  refine Inquiry.monotone_require fun l => Inquiry.monotone_require fun r => ?_
  split
  case h_1 | h_2 =>
    intro value t settled
    simp [Inquiry.settle] at settled
  case h_3 =>
    split
    · exact Inquiry.monotone_done _
    · refine Inquiry.monotone_require fun a => Inquiry.monotone_note ?_
      exact Inquiry.monotone_require fun b => Inquiry.monotone_note (Inquiry.monotone_defer a b)
  case h_4 | h_7 => exact Inquiry.monotone_require fun body => Inquiry.monotone_note (Inquiry.monotone_defer _ _)
  case h_5 => exact Inquiry.monotone_require fun alternatives => Inquiry.monotone_each rhs alternatives
  case h_6 => exact Inquiry.monotone_require fun alternatives => Inquiry.monotone_oneOf lhs alternatives
  case h_8 => exact monotone_compareShapes _ _

/-- Any answer, whatever was refused on the way, is below the answer with at least as much room, at least as many pairs
    in progress, and no other limit. -/
theorem answer_le_outcome {room room' : Nat} {g : Guard TypePair} (enough : g.room ≤ room) (wider : room ≤ room')
    {inProgress : List TypePair} (more : g.visiting ⊆ inProgress) {l r : TypeId} {s t : Selector}
    (answered : (env.compareWithin room g l r).answer = .ok s)
    (unrefused : env.outcome room' inProgress l r = .ok t) : s ≤ t := by
  refine answer_ensured (fun room path l r s => ∀ t, (∃ room' inProgress, room ≤ room' ∧ path ⊆ inProgress ∧
    env.outcome room' inProgress l r = .ok t) → s ≤ t) ?_ ?_ ?_ enough answered t ⟨room', _, wider, more, unrefused⟩
  · exact fun room path l r t _ => Selector.bottom_le t
  · rintro room path l r old t ⟨room', inProgress, -, more, found⟩
    rw [outcome_of_inProgress (more old), Except.ok.injEq] at found
    exact found ▸ le_refl _
  · intro room path l r new
    refine Inquiry.ensures_forall fun t => Inquiry.ensures_forall ?_
    rintro ⟨room', inProgress, wider, more, found⟩
    -- The pair may be in progress where there are more; then nothing exceeds its answer.
    by_cases old : TypePair.of l r ∈ inProgress
    · rw [outcome_of_inProgress old, Except.ok.injEq] at found
      exact Inquiry.ensures_of_forall fun s => found ▸ Selector.le_top s
    · obtain ⟨room', rfl⟩ : ∃ n, room' = n + 1 := Nat.exists_eq_add_one.mpr (by omega)
      rw [outcome_of_new old] at found
      refine (monotone_rule l r _ t (Inquiry.settle_granted found)).mono fun a b s below => ?_
      unfold Inquiry.granted
      cases answer : env.outcome room' (.of l r :: inProgress) a b with
      | error fault => exact Selector.le_top s
      | ok u => exact below u ⟨room', _, by omega, List.cons_subset_cons _ more, answer⟩

theorem limitedSelector_le_outcome {limits : Limits} {room : Nat} (deeper : limits.maxDepth ≤ room) {l r : TypeId}
    {s t : Selector} (answered : env.limitedSelector limits l r = .ok s) (unrefused : env.outcome room [] l r = .ok t) :
    s ≤ t :=
  answer_le_outcome (g := .fresh limits) (Nat.le_refl _) deeper (List.Subset.refl _) answered unrefused

/-- A comparison that refuses nothing has the answer of any deeper one. -/
theorem answer_eq_outcome_of_deeper {room : Nat} {g : Guard TypePair} (deeper : g.room ≤ room) {l r : TypeId}
    (kept : (env.compareFrom g l r).guard.exceeded = false) :
    (env.compareFrom g l r).answer = env.outcome room g.visiting l r := by
  let wider : Limits := ⟨g.depth + room, max g.limits.maxIterations Limits.ceiling⟩
  have more : g.limits ≤ wider := by
    refine ⟨?_, Nat.le_max_left ..⟩
    simp only [Guard.room] at deeper
    show g.limits.maxDepth ≤ g.depth + room
    omega
  have same := compareWithin_withLimits more (Nat.le_refl _) deeper kept
  have exact : (g.withLimits wider).room = room := Nat.add_sub_cancel_left ..
  have answer : (env.compareWithin room (g.withLimits wider) l r).answer = env.outcome room g.visiting l r :=
    answer_compareWithin room (g.withLimits wider) (Nat.le_max_right ..) exact l r
  rw [← answer, same]
  rfl

/-- An unbounded query that hits no limit has the answer of any deeper one. -/
theorem selector_eq_outcome_of_deeper {room : Nat} (deeper : Limits.ceiling ≤ room) {l r : TypeId}
    (kept : (env.compare .unbounded l r).guard.exceeded = false) : env.selector l r = env.outcome room [] l r :=
  answer_eq_outcome_of_deeper (g := .fresh .unbounded) deeper kept

/-- Limits only lose precision: the selector found under any limits is below that of the unbounded query, and what it
    lets through unconditionally, at whatever place, the unbounded one does too. A depth beyond what is counted is no
    limit; there the unbounded query must not have run out of depth itself. -/
theorem limitedSelector_le {l r : TypeId} (wellFormed : env.WellFormed l r) (limits : Limits)
    (counted : limits.maxDepth ≤ Limits.ceiling ∨ (env.compare .unbounded l r).guard.exceeded = false) :
    ∃ s t, env.limitedSelector limits l r = .ok s ∧ env.selector l r = .ok t ∧ s ≤ t ∧
      ∀ place, s.at? place = some .top → t.at? place = some .top := by
  obtain ⟨s, limited⟩ := wellFormed.exists_limitedSelector limits
  obtain ⟨t, unbounded⟩ := wellFormed.exists_limitedSelector .unbounded
  have le : s ≤ t := by
    rcases counted with shallow | kept
    · apply limitedSelector_le_outcome shallow limited
      rw [← selector_eq_outcome]
      exact unbounded
    · apply limitedSelector_le_outcome (Nat.le_max_left limits.maxDepth Limits.ceiling) limited
      rw [← selector_eq_outcome_of_deeper (Nat.le_max_right _ _) kept]
      exact unbounded
  refine ⟨s, t, limited, unbounded, le, fun place found => ?_⟩
  obtain ⟨y, there, top⟩ := Selector.exists_at?_of_le le found
  rwa [Selector.top_le_iff.mp top] at there

/-- Arrays whose elements are a number, null or one of the copied lists, and arrays of null or the other list. -/
def listArrays : Environment :=
  [TypeExpr.array (.union [.type .int, .type .null, .node (.nominal ⟨1⟩)]),
    .array (.union [.type .null, .node (.nominal ⟨2⟩)])].foldl declaring copiedLists

theorem listArrays_wellFormed : listArrays.WellFormed ⟨107⟩ ⟨109⟩ :=
  .of_list [⟨107⟩, ⟨109⟩, ⟨106⟩, ⟨108⟩, ⟨100⟩, ⟨101⟩, ⟨102⟩, ⟨103⟩, ⟨104⟩, ⟨105⟩, .int, .null] (by decide) (by decide)
    (by decide +kernel)

/-- With depth 5 there is no room to compare the lists, so only null is let through; unbounded, the list is as well. -/
theorem listArrays_le :
    listArrays.limitedSelector ⟨5, 100⟩ ⟨107⟩ ⟨109⟩ = .ok (.array (.union [.bottom, .top, .bottom])) ∧
      listArrays.selector ⟨107⟩ ⟨109⟩ = .ok (.array (.union [.bottom, .top, .top])) ∧
      Selector.array (.union [.bottom, .top, .bottom]) ≤ .array (.union [.bottom, .top, .top]) ∧
      (Selector.array (.union [.bottom, .top, .bottom])).at? [0, 1] = some .top ∧
      (Selector.array (.union [.bottom, .top, .top])).at? [0, 1] = some .top := by
  have limited : listArrays.limitedSelector ⟨5, 100⟩ ⟨107⟩ ⟨109⟩ = .ok (.array (.union [.bottom, .top, .bottom])) := by
    decide +kernel
  have unbounded : listArrays.selector ⟨107⟩ ⟨109⟩ = .ok (.array (.union [.bottom, .top, .top])) := by decide +kernel
  obtain ⟨s, t, found, found', le, tops⟩ :=
    limitedSelector_le listArrays_wellFormed ⟨5, 100⟩ (.inl (by decide))
  obtain rfl := Except.ok.inj (limited.symm.trans found)
  obtain rfl := Except.ok.inj (unbounded.symm.trans found')
  exact ⟨limited, unbounded, le, rfl, tops [0, 1] rfl⟩

end Environment

end Narrowing
