import Narrowing.Proofs.Settlement
import Mathlib.Order.Defs.PartialOrder

/-!
Selectors by how much they let through. Bottom is least, top is greatest, and
selectors of one shape are ordered place by place. The smart constructors respect
the order (`arrayOf_le`, `recordOf_le`, `unionOf_le`), although they collapse, and a
larger selector has at every place of a smaller one something larger
(`exists_at?_of_le`).
-/

namespace Narrowing

namespace Selector

mutual

/-- Induction on selectors, with a hypothesis for each item of a record or union. -/
theorem tree_induction {motive : Selector → Prop} (top : motive .top) (bottom : motive .bottom)
    (array : ∀ item, motive item → motive (.array item))
    (record : ∀ items, (∀ item ∈ items, motive item) → motive (.record items))
    (union : ∀ items, (∀ item ∈ items, motive item) → motive (.union items)) : ∀ s, motive s
  | .top => top
  | .bottom => bottom
  | .array item => array item (tree_induction top bottom array record union item)
  | .record items => record items (trees_induction top bottom array record union items)
  | .union items => union items (trees_induction top bottom array record union items)

private theorem trees_induction {motive : Selector → Prop} (top : motive .top) (bottom : motive .bottom)
    (array : ∀ item, motive item → motive (.array item))
    (record : ∀ items, (∀ item ∈ items, motive item) → motive (.record items))
    (union : ∀ items, (∀ item ∈ items, motive item) → motive (.union items)) :
    ∀ items : List Selector, ∀ item ∈ items, motive item
  | [] => by simp
  | item :: items => List.forall_mem_cons.mpr
      ⟨tree_induction top bottom array record union item, trees_induction top bottom array record union items⟩

end

mutual

/-- Whether one selector lets at most as much through as another, place by place. -/
@[simp] def isBelow : Selector → Selector → Bool
  | .bottom, _ => true
  | _, .top => true
  | .array a, .array b => isBelow a b
  | .record as, .record bs => areBelow as bs
  | .union as, .union bs => areBelow as bs
  | _, _ => false

@[simp] def areBelow : List Selector → List Selector → Bool
  | [], [] => true
  | a :: as, b :: bs => isBelow a b && areBelow as bs
  | _, _ => false

end

instance : LE Selector := ⟨fun s t => isBelow s t = true⟩

instance (s t : Selector) : Decidable (s ≤ t) := inferInstanceAs (Decidable (_ = true))

theorem bottom_le (s : Selector) : .bottom ≤ s := by cases s <;> rfl

theorem le_top (s : Selector) : s ≤ .top := by cases s <;> rfl

theorem top_le_iff {s : Selector} : .top ≤ s ↔ s = .top := by
  cases s <;> simp [LE.le]

theorem le_bottom_iff {s : Selector} : s ≤ .bottom ↔ s = .bottom := by
  cases s <;> simp [LE.le]

theorem areBelow_iff {as bs : List Selector} : areBelow as bs = true ↔ List.Forall₂ (· ≤ ·) as bs := by
  induction as generalizing bs with
  | nil => cases bs <;> simp
  | cons a as ih =>
    cases bs with
    | nil => simp
    | cons b bs =>
      rw [areBelow, Bool.and_eq_true, ih, List.forall₂_cons]
      exact Iff.rfl

theorem array_le_iff {a t : Selector} : .array a ≤ t ↔ t = .top ∨ ∃ b, t = .array b ∧ a ≤ b := by
  cases t <;> simp [LE.le]

theorem record_le_iff {as : List Selector} {t : Selector} :
    .record as ≤ t ↔ t = .top ∨ ∃ bs, t = .record bs ∧ List.Forall₂ (· ≤ ·) as bs := by
  simp only [← areBelow_iff]
  cases t <;> simp [LE.le]

theorem union_le_iff {as : List Selector} {t : Selector} :
    .union as ≤ t ↔ t = .top ∨ ∃ bs, t = .union bs ∧ List.Forall₂ (· ≤ ·) as bs := by
  simp only [← areBelow_iff]
  cases t <;> simp [LE.le]

/-! ### A partial order -/

private theorem forall₂_le_trans {as bs cs : List Selector} (trans : ∀ a ∈ as, ∀ b c, a ≤ b → b ≤ c → a ≤ c)
    (first : List.Forall₂ (· ≤ ·) as bs) (second : List.Forall₂ (· ≤ ·) bs cs) : List.Forall₂ (· ≤ ·) as cs := by
  induction first generalizing cs with
  | nil => exact second
  | @cons a b as bs le _ ih =>
    cases second with
    | @cons _ c _ cs le' second =>
      obtain ⟨here, others⟩ := List.forall_mem_cons.mp trans
      exact .cons (here b c le le') (ih others second)

private theorem forall₂_le_antisymm {as bs : List Selector} (antisymm : ∀ a ∈ as, ∀ b, a ≤ b → b ≤ a → a = b)
    (first : List.Forall₂ (· ≤ ·) as bs) (second : List.Forall₂ (· ≤ ·) bs as) : as = bs := by
  induction first with
  | nil => rfl
  | @cons a b as bs le _ ih =>
    obtain ⟨le', second⟩ := List.forall₂_cons.mp second
    obtain ⟨here, others⟩ := List.forall_mem_cons.mp antisymm
    rw [here b le le', ih others second]

private theorem isBelow_refl (s : Selector) : s ≤ s := by
  induction s using tree_induction with
  | top => exact le_top _
  | bottom => exact bottom_le _
  | array item ih => exact array_le_iff.mpr (.inr ⟨item, rfl, ih⟩)
  | record items ih => exact record_le_iff.mpr (.inr ⟨items, rfl, List.forall₂_same.mpr ih⟩)
  | union items ih => exact union_le_iff.mpr (.inr ⟨items, rfl, List.forall₂_same.mpr ih⟩)

private theorem isBelow_trans {a b c : Selector} (first : a ≤ b) (second : b ≤ c) : a ≤ c := by
  induction a using tree_induction generalizing b c with
  | top =>
    obtain rfl := top_le_iff.mp first
    exact second
  | bottom => exact bottom_le c
  | array x ih =>
    rcases array_le_iff.mp first with rfl | ⟨y, rfl, le⟩
    · exact top_le_iff.mp second ▸ le_top _
    · refine array_le_iff.mpr ((array_le_iff.mp second).imp_right ?_)
      rintro ⟨z, rfl, le'⟩
      exact ⟨z, rfl, ih le le'⟩
  | record xs ih =>
    rcases record_le_iff.mp first with rfl | ⟨ys, rfl, le⟩
    · exact top_le_iff.mp second ▸ le_top _
    · refine record_le_iff.mpr ((record_le_iff.mp second).imp_right ?_)
      rintro ⟨zs, rfl, le'⟩
      exact ⟨zs, rfl, forall₂_le_trans (fun x member y z => ih x member) le le'⟩
  | union xs ih =>
    rcases union_le_iff.mp first with rfl | ⟨ys, rfl, le⟩
    · exact top_le_iff.mp second ▸ le_top _
    · refine union_le_iff.mpr ((union_le_iff.mp second).imp_right ?_)
      rintro ⟨zs, rfl, le'⟩
      exact ⟨zs, rfl, forall₂_le_trans (fun x member y z => ih x member) le le'⟩

private theorem isBelow_antisymm {a b : Selector} (first : a ≤ b) (second : b ≤ a) : a = b := by
  induction a using tree_induction generalizing b with
  | top => exact (top_le_iff.mp first).symm
  | bottom => exact (le_bottom_iff.mp second).symm
  | array x ih =>
    rcases array_le_iff.mp first with rfl | ⟨y, rfl, le⟩
    · exact top_le_iff.mp second
    · rw [ih le second]
  | record xs ih =>
    rcases record_le_iff.mp first with rfl | ⟨ys, rfl, le⟩
    · exact top_le_iff.mp second
    · rw [forall₂_le_antisymm (fun x member y => ih x member) le (areBelow_iff.mp second)]
  | union xs ih =>
    rcases union_le_iff.mp first with rfl | ⟨ys, rfl, le⟩
    · exact top_le_iff.mp second
    · rw [forall₂_le_antisymm (fun x member y => ih x member) le (areBelow_iff.mp second)]

instance : PartialOrder Selector where
  le_refl := isBelow_refl
  le_trans _ _ _ := isBelow_trans
  le_antisymm _ _ := isBelow_antisymm

/-! ### The smart constructors -/

theorem arrayOf_le {a b : Selector} (le : a ≤ b) : arrayOf a ≤ arrayOf b := by
  cases a with
  | bottom => exact bottom_le _
  | top => rw [top_le_iff.mp le]
  | _ =>
    cases b with
    | top => exact le_top _
    | bottom => exact absurd (le_bottom_iff.mp le) (by simp)
    | _ => exact array_le_iff.mpr (.inr ⟨_, rfl, le⟩)

section
variable {as bs : List Selector} (le : List.Forall₂ (· ≤ ·) as bs)
include le

/-- Selectors above those that are all top are all top. -/
theorem tops_of_le (tops : as.all isTop = true) : bs.all isTop = true := by
  induction le with
  | nil => rfl
  | cons here _ ih =>
    simp only [List.all_cons, Bool.and_eq_true, isTop_iff] at tops ⊢
    exact ⟨top_le_iff.mp (tops.1 ▸ here), ih tops.2⟩

/-- Selectors below those that are all bottom are all bottom. -/
theorem bottoms_of_le (bottoms : bs.all isBottom = true) : as.all isBottom = true := by
  induction le with
  | nil => rfl
  | cons here _ ih =>
    simp only [List.all_cons, Bool.and_eq_true, isBottom_iff] at bottoms ⊢
    exact ⟨le_bottom_iff.mp (bottoms.1 ▸ here), ih bottoms.2⟩

theorem recordOf_le : recordOf as ≤ recordOf bs := by
  unfold recordOf
  by_cases tops : as.all isTop = true
  · simp [tops, tops_of_le le tops]
  · by_cases bottoms : as.all isBottom = true
    · simp [tops, bottoms, bottom_le]
    · have mixed : ¬ bs.all isBottom = true := fun all => bottoms (bottoms_of_le le all)
      by_cases whole : bs.all isTop = true
      · simp [whole, le_top]
      · simp only [tops, bottoms, whole, mixed]
        exact record_le_iff.mpr (.inr ⟨bs, rfl, le⟩)

theorem unionOf_le : unionOf as ≤ unionOf bs := by
  unfold unionOf
  by_cases bottoms : as.all isBottom = true
  · simp [bottoms, bottom_le]
  · have mixed : ¬ bs.all isBottom = true := fun all => bottoms (bottoms_of_le le all)
    by_cases whole : bs.all isTop = true
    · simp [mixed, whole, le_top]
    · have tops : ¬ as.all isTop = true := fun all => whole (tops_of_le le all)
      simp only [tops, bottoms, whole, mixed]
      exact union_le_iff.mpr (.inr ⟨bs, rfl, le⟩)

end

/-! ### Places -/

/-- The selector at a place, which is given by the number of the child to go to at each step. Top lets all through,
    so it is top at every place below it. -/
def at? : Selector → (place : List Nat) → Option Selector
  | s, [] => some s
  | .top, _ :: _ => some .top
  | s, i :: place => s.children[i]?.bind fun item => item.at? place

theorem at?_top (place : List Nat) : Selector.top.at? place = some .top := by cases place <;> rfl

theorem at?_cons {s : Selector} (tested : s ≠ .top) (i : Nat) (place : List Nat) :
    s.at? (i :: place) = s.children[i]?.bind fun item => item.at? place := by
  cases s with
  | top => exact absurd rfl tested
  | _ => rfl

/-- Except at the ends of the order, a larger selector has larger children. -/
theorem children_le {s t : Selector} (le : s ≤ t) (filled : s ≠ .bottom) (tested : t ≠ .top) :
    List.Forall₂ (· ≤ ·) s.children t.children := by
  cases s with
  | top => exact absurd (top_le_iff.mp le) tested
  | bottom => exact absurd rfl filled
  | array a =>
    obtain ⟨b, rfl, each⟩ := (array_le_iff.mp le).resolve_left tested
    exact .cons each .nil
  | record as =>
    obtain ⟨bs, rfl, each⟩ := (record_le_iff.mp le).resolve_left tested
    exact each
  | union as =>
    obtain ⟨bs, rfl, each⟩ := (union_le_iff.mp le).resolve_left tested
    exact each

/-- At every place of a selector, a larger one has something larger. -/
theorem exists_at?_of_le {s t x : Selector} (le : s ≤ t) {place : List Nat} (found : s.at? place = some x) :
    ∃ y, t.at? place = some y ∧ x ≤ y := by
  induction place generalizing s t with
  | nil =>
    obtain rfl : s = x := Option.some.inj found
    exact ⟨t, rfl, le⟩
  | cons i place ih =>
    by_cases whole : t = .top
    · exact ⟨.top, whole ▸ at?_top _, le_top x⟩
    · have smaller : s ≠ .top := fun top => whole (top_le_iff.mp (top ▸ le))
      rw [at?_cons smaller] at found
      obtain ⟨item, inside, below⟩ := Option.bind_eq_some_iff.mp found
      have filled : s ≠ .bottom := by
        rintro rfl
        simp [children] at inside
      obtain ⟨item', inside', larger⟩ : ∃ item', t.children[i]? = some item' ∧ item ≤ item' := by
        obtain ⟨count, each⟩ := List.forall₂_iff_get.mp (children_le le filled whole)
        obtain ⟨bound, rfl⟩ := List.getElem?_eq_some_iff.mp inside
        exact ⟨_, List.getElem?_eq_getElem (count ▸ bound), each i bound (count ▸ bound)⟩
      obtain ⟨y, found', le'⟩ := ih larger below
      exact ⟨y, by rw [at?_cons whole, inside', Option.bind_some, found'], le'⟩

end Selector

end Narrowing
