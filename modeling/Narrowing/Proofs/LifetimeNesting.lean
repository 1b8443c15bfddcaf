import Narrowing.Lifetime
import Mathlib.Data.Finset.Card
import Mathlib.Data.Nat.Find
import Mathlib.Logic.Relation

/-!
The nesting of lifetimes. One lifetime lies within another exactly if the other is
static or is met on the way outwards, link by link (`isWithin_iff`), whatever has
been declared. The way may run in a circle, but the shortest way to a lifetime
passes no lifetime twice, so it has at most as many links as there are declarations
(`exists_ancestor?_le`).
-/

namespace Narrowing

namespace LifetimeScope

variable {s : LifetimeScope}

/-- One lifetime is declared directly in another. -/
def Links (s : LifetimeScope) (inner outer : Name) : Prop := s.parent? inner = some outer

/-- The lifetime that a number of links lead to. -/
def ancestor? (s : LifetimeScope) : (links : Nat) → Name → Option Name
  | 0, n => some n
  | links + 1, n => (s.parent? n).bind (s.ancestor? links)

theorem ancestor?_add (first second : Nat) (n : Name) :
    s.ancestor? (first + second) n = (s.ancestor? first n).bind (s.ancestor? second) := by
  induction first generalizing n with
  | zero => rw [Nat.zero_add, ancestor?, Option.bind_some]
  | succ first ih =>
    rw [Nat.succ_add, ancestor?, ancestor?, Option.bind_assoc]
    exact congrArg _ (funext ih)

theorem reachesWithin_iff {links : Nat} {n outer : Name} :
    s.reachesWithin links n outer = true ↔ ∃ k ≤ links, s.ancestor? k n = some outer := by
  induction links generalizing n with
  | zero => simp [reachesWithin, ancestor?]
  | succ links ih =>
    simp only [reachesWithin, Bool.or_eq_true, decide_eq_true_eq, Option.any_eq_true, ih]
    constructor
    · rintro (rfl | ⟨m, link, k, few, found⟩)
      · exact ⟨0, Nat.zero_le _, rfl⟩
      · exact ⟨k + 1, Nat.succ_le_succ few, by rw [ancestor?, link, Option.bind_some, found]⟩
    · rintro ⟨_ | k, few, found⟩
      · exact .inl (Option.some.inj found)
      · obtain ⟨m, link, found⟩ := Option.bind_eq_some_iff.mp found
        exact .inr ⟨m, link, k, Nat.le_of_succ_le_succ few, found⟩

theorem reaches_iff {n outer : Name} :
    Relation.ReflTransGen s.Links n outer ↔ ∃ k, s.ancestor? k n = some outer := by
  constructor
  · intro path
    induction path using Relation.ReflTransGen.head_induction_on with
    | refl => exact ⟨0, rfl⟩
    | head link _ ih =>
      obtain ⟨k, found⟩ := ih
      exact ⟨k + 1, by rw [ancestor?, link, Option.bind_some, found]⟩
  · rintro ⟨k, found⟩
    induction k generalizing n with
    | zero =>
      obtain rfl := Option.some.inj found
      exact .refl
    | succ k ih =>
      obtain ⟨m, link, found⟩ := Option.bind_eq_some_iff.mp found
      exact .head link (ih found)

/-- A lifetime with one around it is declared. -/
theorem mem_keys_of_parent? {n outer : Name} (link : s.parent? n = some outer) : n ∈ s.parents.map Prod.fst := by
  obtain ⟨before, after, split, -⟩ := List.lookup_eq_some_iff.mp link
  simp [split]

/-- The fewest links that lead to a lifetime start at different lifetimes, each of them declared. -/
theorem exists_ancestor?_le {n outer : Name} {k : Nat} (found : s.ancestor? k n = some outer) :
    ∃ few ≤ s.parents.length, s.ancestor? few n = some outer := by
  have some_way : ∃ k, s.ancestor? k n = some outer := ⟨k, found⟩
  let fewest := Nat.find some_way
  have reached : s.ancestor? fewest n = some outer := Nat.find_spec some_way
  have declared : ∀ i < fewest, ∃ m ∈ s.parents.map Prod.fst, s.ancestor? i n = some m := by
    intro i early
    obtain ⟨rest, total⟩ : ∃ rest, fewest = i + (rest + 1) := ⟨fewest - i - 1, by omega⟩
    rw [total, ancestor?_add] at reached
    obtain ⟨m, here, onwards⟩ := Option.bind_eq_some_iff.mp reached
    obtain ⟨next, link, -⟩ := Option.bind_eq_some_iff.mp onwards
    exact ⟨m, mem_keys_of_parent? link, here⟩
  have different : ∀ i < fewest, ∀ j < fewest, s.ancestor? i n = s.ancestor? j n → i ≤ j := by
    intro i _ j late same
    -- From the later of two equal lifetimes on the way is the same, so the links in between could be left out.
    by_contra before
    have shortcut : s.ancestor? (j + (fewest - i)) n = some outer := by
      rw [ancestor?_add, ← same, ← ancestor?_add, show i + (fewest - i) = fewest by omega, reached]
    have least : fewest ≤ j + (fewest - i) := Nat.find_min' some_way shortcut
    omega
  refine ⟨fewest, ?_, reached⟩
  calc fewest = (Finset.range fewest).card := (Finset.card_range fewest).symm
    _ ≤ ((s.parents.map Prod.fst).map some).toFinset.card := by
        refine Finset.card_le_card_of_injOn (fun i => s.ancestor? i n) (fun i early => ?_)
          (fun i early j late same => ?_)
        · obtain ⟨m, listed, here⟩ := declared i (Finset.mem_range.mp early)
          simpa [here] using listed
        · rw [Finset.coe_range, Set.mem_Iio] at early late
          exact Nat.le_antisymm (different i early j late same) (different j late i early same.symm)
    _ ≤ ((s.parents.map Prod.fst).map some).length := List.toFinset_card_le _
    _ = s.parents.length := by simp

/-- A lifetime lies within the static one and within those that are met on the way outwards, and in no other. -/
theorem isWithin_iff {inner outer : Name} :
    s.isWithin inner outer = true ↔ outer = s.static ∨ Relation.ReflTransGen s.Links inner outer := by
  rw [isWithin, Bool.or_eq_true, decide_eq_true_eq, reachesWithin_iff, reaches_iff]
  refine or_congr_right ⟨fun ⟨k, _, found⟩ => ⟨k, found⟩, fun ⟨k, found⟩ => exists_ancestor?_le found⟩

/-! ### Declarations -/

theorem lookup_filter_of_ne {pairs : List (Name × Name)} {n inner : Name} (other : n ≠ inner) :
    (pairs.filter (·.1 ≠ inner)).lookup n = pairs.lookup n := by
  induction pairs with
  | nil => rfl
  | cons p pairs ih =>
    obtain ⟨key, value⟩ := p
    by_cases same : key = inner
    · subst same
      have different : (n == key) = false := beq_eq_false_iff_ne.mpr other
      simp only [List.lookup_cons, different, ← ih]
      simp
    · rw [List.filter_cons_of_pos (by simpa using same), List.lookup_cons, List.lookup_cons, ih]

theorem parent?_declare (s : LifetimeScope) (inner outer n : Name) :
    (s.declare inner outer).parent? n = if n = inner then some outer else s.parent? n := by
  rw [parent?, declare]
  by_cases same : n = inner
  · simp [same]
  · have different : (n == inner) = false := beq_eq_false_iff_ne.mpr same
    rw [if_neg same, List.lookup_cons, different]
    exact lookup_filter_of_ne same

/-- A lifetime lies directly in the one that it was declared in last. -/
theorem parent?_declareAll (s : LifetimeScope) (pairs : List (Name × Name)) (n : Name) :
    (s.declareAll pairs).parent? n = (pairs.reverse.lookup n).or (s.parent? n) := by
  induction pairs generalizing s with
  | nil => rfl
  | cons p pairs ih =>
    obtain ⟨inner, outer⟩ := p
    show ((s.declare inner outer).declareAll pairs).parent? n = _
    rw [ih, parent?_declare, List.reverse_cons, List.lookup_append, Option.or_assoc]
    by_cases same : n = inner
    · simp [same]
    · have different : (n == inner) = false := beq_eq_false_iff_ne.mpr same
      simp [List.lookup_cons, same, different]

theorem static_declareAll (s : LifetimeScope) (pairs : List (Name × Name)) :
    (s.declareAll pairs).static = s.static := by
  induction pairs generalizing s with
  | nil => rfl
  | cons p pairs ih => exact ih (s.declare p.1 p.2)

/-- Nothing but the static lifetime lies around it, if it was not declared in another. -/
theorem reaches_static {pairs : List (Name × Name)} {static outer : Name}
    (outermost : ∀ other, (static, other) ∈ pairs → other = static)
    (path : Relation.ReflTransGen ((empty static).declareAll pairs).Links static outer) : outer = static := by
  induction path with
  | refl => rfl
  | tail _ link ih =>
    subst ih
    rw [Links, parent?_declareAll, Option.or_eq_some_iff] at link
    rcases link with declared | ⟨-, nothing⟩
    · obtain ⟨before, after, split, -⟩ := List.lookup_eq_some_iff.mp declared
      refine outermost _ (List.mem_reverse.mp ?_)
      rw [split]
      simp
    · simp [parent?, empty] at nothing

/-- Whatever is declared, one lifetime lies within another exactly if that is static or is reached by links, where
    each lifetime is linked to the one that it was declared in last. If the static lifetime was not declared in
    another, lying within is reflexive and transitive; without declarations it is what is known of the static
    lifetime alone. -/
theorem isWithin_declareAll (static : Name) (pairs : List (Name × Name)) :
    let s := (empty static).declareAll pairs
    (∀ n, s.parent? n = pairs.reverse.lookup n) ∧
    (∀ inner outer, s.isWithin inner outer = true ↔
      outer = static ∨ Relation.ReflTransGen (fun n m => s.parent? n = some m) inner outer) ∧
    ((∀ other, (static, other) ∈ pairs → other = static) → (∀ n, s.isWithin n n = true) ∧
      ∀ inner between outer, s.isWithin inner between = true → s.isWithin between outer = true →
        s.isWithin inner outer = true) ∧
    ∀ inner outer, (empty static).isWithin inner outer = (Lifetimes.static static).isWithin inner outer := by
  intro s
  have within (inner outer : Name) : s.isWithin inner outer = true ↔
      outer = static ∨ Relation.ReflTransGen (fun n m => s.parent? n = some m) inner outer := by
    have outermost : s.static = static := static_declareAll (empty static) pairs
    rw [isWithin_iff, outermost]
    rfl
  refine ⟨fun n => ?_, within, fun outermost => ⟨fun n => ?_, ?_⟩, fun inner outer => ?_⟩
  · rw [parent?_declareAll]
    simp [parent?, empty]
  · exact (within n n).mpr (.inr .refl)
  · intro inner between outer first second
    rw [within] at first second ⊢
    rcases second with rfl | outwards
    · exact .inl rfl
    · rcases first with rfl | inwards
      · exact .inl (reaches_static outermost outwards)
      · exact .inr (inwards.trans outwards)
  · show (decide (outer = static) || decide (inner = outer)) = (decide (inner = outer) || decide (outer = static))
    exact Bool.or_comm ..

/-- Three lifetimes one in the other, the outermost of which is declared again, in the innermost. -/
def nestedCircle : List (Name × Name) := [(⟨11⟩, ⟨12⟩), (⟨12⟩, ⟨13⟩), (⟨13⟩, ⟨14⟩), (⟨13⟩, ⟨11⟩)]

/-- In a circle each lifetime lies within each other, over as many links as it takes, but not within the one that the
    circle was taken out of. -/
theorem nestedCircle_isWithin :
    (∀ other, ((⟨10⟩ : Name), other) ∈ nestedCircle → other = ⟨10⟩) ∧
      Relation.ReflTransGen (fun n m => ((empty ⟨10⟩).declareAll nestedCircle).parent? n = some m) ⟨12⟩ ⟨11⟩ ∧
      ¬ Relation.ReflTransGen (fun n m => ((empty ⟨10⟩).declareAll nestedCircle).parent? n = some m) ⟨12⟩ ⟨14⟩ ∧
      ((empty ⟨10⟩).declareAll nestedCircle).isWithin ⟨12⟩ ⟨12⟩ = true := by
  have outermost : ∀ other, ((⟨10⟩ : Name), other) ∈ nestedCircle → other = ⟨10⟩ := by simp [nestedCircle]
  obtain ⟨-, within, ordered, -⟩ := isWithin_declareAll ⟨10⟩ nestedCircle
  refine ⟨outermost, ?_, ?_, (ordered outermost).1 ⟨12⟩⟩
  · exact ((within ⟨12⟩ ⟨11⟩).mp (by decide)).resolve_left (by decide)
  · exact fun path => absurd ((within ⟨12⟩ ⟨14⟩).mpr (.inr path)) (by decide)

end LifetimeScope

end Narrowing
