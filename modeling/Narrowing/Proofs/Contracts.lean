import Narrowing.Proofs.GuardedRun

/-!
What comparisons ensure under any limits. Under a limit the same question may be
answered differently at different times, so an inquiry is not settled by a function
of its questions. What can be said of its end is what follows from each answer being
as expected (`Inquiry.Ensures`). If the rule ensures a property of its end from the
same property of its answers, and the property holds of what pairs are given that
are refused or assumed, then it holds of every answer (`answer_ensured`).
-/

namespace Narrowing

namespace Inquiry

/-- As long as each answer is as expected for its question, the inquiry ends as promised or with a fault. -/
def Ensures (expected : TypeId → TypeId → Selector → Prop) (promised : Selector → Prop) : Inquiry → Prop
  | .done s => promised s
  | .fail _ => True
  | .note _ next => next.Ensures expected promised
  | .ask l r next => ∀ s, expected l r s → (next s).Ensures expected promised

section
variable {expected also : TypeId → TypeId → Selector → Prop} {promised : Selector → Prop}

theorem Ensures.mono {i : Inquiry} (ensures : i.Ensures expected promised)
    (stronger : ∀ l r s, also l r s → expected l r s) : i.Ensures also promised := by
  induction i with
  | done | fail => exact ensures
  | note event next ih => exact ih ensures
  | ask l r next ih => exact fun s answer => ih s (ensures s (stronger l r s answer))

theorem ensures_of_forall {i : Inquiry} (all : ∀ s, promised s) : i.Ensures expected promised := by
  induction i with
  | done s => exact all s
  | fail => trivial
  | note event next ih => exact ih
  | ask l r next ih => exact fun s _ => ih s

theorem ensures_forall {ι : Sort*} {promises : ι → Selector → Prop} {i : Inquiry}
    (each : ∀ x, i.Ensures expected (promises x)) : i.Ensures expected fun s => ∀ x, promises x s := by
  induction i with
  | done s => exact each
  | fail => trivial
  | note event next ih => exact ih each
  | ask l r next ih => exact fun s answer => ih s fun x => each x s answer

/-! ### The ways of asking -/

theorem ensures_require {α : Type} {part? : Option α} {fault : Fault} {next : α → Inquiry}
    (ensures : ∀ a, part? = some a → (next a).Ensures expected promised) :
    (require part? fault next).Ensures expected promised := by
  cases part? with
  | none => trivial
  | some a => exact ensures a rfl

theorem ensures_every {pairs : List (TypeId × TypeId)} (bottom : promised .bottom)
    (top : (∀ p ∈ pairs, expected p.1 p.2 .top) → promised .top) : (every pairs).Ensures expected promised := by
  induction pairs with
  | nil => exact top (by simp)
  | cons p rest ih =>
    intro s answer
    by_cases whole : s.isTop = true
    · obtain rfl := Selector.isTop_iff.mp whole
      exact ih fun tops => top (List.forall_mem_cons.mpr ⟨answer, tops⟩)
    · simpa [whole, Ensures] using bottom

theorem ensures_oneOf {lhs : TypeId} {alternatives : List TypeId} (bottom : promised .bottom)
    (top : ∀ r ∈ alternatives, expected lhs r .top → promised .top) :
    (oneOf lhs alternatives).Ensures expected promised := by
  induction alternatives with
  | nil => exact bottom
  | cons r rest ih =>
    obtain ⟨here, others⟩ := List.forall_mem_cons.mp top
    intro s answer
    by_cases whole : s.isTop = true
    · obtain rfl := Selector.isTop_iff.mp whole
      exact here answer
    · simpa [whole] using ih others

theorem ensures_each {rhs : TypeId} {found : List Selector} {alternatives : List TypeId}
    (all : ∀ items, List.Forall₂ (fun l s => expected l rhs s) alternatives items →
      promised (.unionOf (found ++ items))) :
    (each rhs found alternatives).Ensures expected promised := by
  induction alternatives generalizing found with
  | nil => simpa [each, Ensures] using all [] .nil
  | cons l rest ih =>
    intro s answer
    refine ih fun items answers => ?_
    simpa using all (s :: items) (.cons answer answers)

theorem ensures_fieldwise {found : List Selector} {fields : List (Field × Field)} (bottom : promised .bottom)
    (all : ∀ items, List.Forall₂ (fun p s => p.1.name = p.2.name ∧ s ≠ .bottom ∧ expected p.1.type p.2.type s)
      fields items → promised (.recordOf (found ++ items))) :
    (fieldwise found fields).Ensures expected promised := by
  induction fields generalizing found with
  | nil => simpa [fieldwise, Ensures] using all [] .nil
  | cons p rest ih =>
    obtain ⟨l, r⟩ := p
    by_cases named : l.name = r.name
    · simp only [fieldwise, named, if_true]
      intro s answer
      by_cases empty : s.isBottom = true
      · simpa [empty, Ensures] using bottom
      · have filled : s ≠ .bottom := fun same => empty (Selector.isBottom_iff.mpr same)
        simp only [empty]
        refine ih fun items answers => ?_
        simpa using all (s :: items) (.cons ⟨named, filled, answer⟩ answers)
    · simpa [fieldwise, named, Ensures] using bottom

/-! ### Runs -/

/-- A run whose comparisons answer as expected ends as promised. -/
theorem Ensures.of_run {compare : Guard TypePair → TypeId → TypeId → Run} {start : Guard TypePair}
    (steady : KeepsPath compare start)
    (answers : ∀ g, start.SamePath g → ∀ l r s, (compare g l r).answer = .ok s → expected l r s)
    {g : Guard TypePair} (path : start.SamePath g) {i : Inquiry} (ensures : i.Ensures expected promised) {s : Selector}
    (answered : (i.run compare g).answer = .ok s) : promised s := by
  induction i generalizing g with
  | done t =>
    obtain rfl := Except.ok.inj answered
    exact ensures
  | fail => simp [run] at answered
  | note event next ih => exact ih path ensures answered
  | ask l r next ih =>
    simp only [run] at answered
    cases found : (compare g l r).answer with
    | error fault => simp [found] at answered
    | ok t =>
      simp only [found] at answered
      have step := steady g path l r t found
      exact ih t (path.trans step) (ensures t (answers g path l r t found)) answered

end

end Inquiry

namespace Environment

variable {env : Environment}

/-- A property of the answers of comparisons with some room left and some pairs in progress. It holds of every answer
    if it holds of bottom, of top for the pairs in progress, and of what the rule makes of answers that have it. -/
theorem answer_ensured (holds : Nat → List TypePair → TypeId → TypeId → Selector → Prop)
    (refused : ∀ room path l r, holds room path l r .bottom)
    (assumed : ∀ room path l r, TypePair.of l r ∈ path → holds room path l r .top)
    (compared : ∀ room path l r, TypePair.of l r ∉ path →
      (env.rule l r).Ensures (holds room (.of l r :: path)) (holds (room + 1) path l r))
    {room : Nat} {g : Guard TypePair} (enough : g.room ≤ room) {l r : TypeId} {s : Selector}
    (answered : (env.compareWithin room g l r).answer = .ok s) : holds room g.visiting l r s := by
  induction room, g, l, r, enough using compareWithin_induction generalizing s with
  | away room g l r _ outside =>
    rw [compareWithin_turnedAway outside, answer_turnedAway, Except.ok.injEq] at answered
    subst answered
    rcases g.enter_cases (.of l r) with ⟨-, result⟩ | ⟨-, old, result⟩ | ⟨-, -, -, result⟩ | ⟨-, -, -, result⟩
    · simpa [result, Selector.ofBool] using refused room g.visiting l r
    · simpa [result, Selector.ofBool] using assumed room g.visiting l r old
    · simpa [result, Selector.ofBool] using refused room g.visiting l r
    · exact absurd (by rw [result]) outside
  | entered room g l r _ entered left_over ih =>
    rw [compareWithin_entered entered, answer_enclose] at answered
    obtain ⟨new, -, -, visiting, -⟩ := Guard.enter_entered entered
    refine (compared room g.visiting l r new).of_run (keepsPath_compareWithin left_over) ?_ (.refl _) answered
    intro g' path a b t found
    rw [← visiting, ← path.visiting]
    exact ih g' a b (by rwa [path.room]) found

end Environment

end Narrowing
