import Narrowing.Selector.Printer
import Narrowing.Proofs.SelectorOrder

/-!
The bracketed text of a selector tells which selector it is. A text shows by itself
where it ends, so it can be cut off whatever follows it (`isDelimited`). The items of a
record or union are cut off one after the other, up to the closing bracket: no item
begins with it, and neither does what stands between two of them
(`charsJoined_inj`).
-/

namespace Narrowing.Selector

/-- What follows the text of a selector cannot be taken for a part of it: no other selector has a text that begins
    in the same way. -/
def IsDelimited (s : Selector) : Prop :=
  ∀ t rest rest', s.chars ++ rest = t.chars ++ rest' → s = t ∧ rest = rest'

/-- What the text of a selector can begin with. -/
def openings : List Char := ['t', 'b', '[', '\x7b', '(']

theorem exists_chars_eq_cons (s : Selector) : ∃ c ∈ openings, ∃ cs, s.chars = c :: cs := by
  cases s <;> simp [chars, openings]

theorem charsJoined_cons (separator : List Char) (s : Selector) (items : List Selector) :
    charsJoined separator (s :: items) = s.chars ++ items.flatMap fun t => separator ++ t.chars := by
  induction items generalizing s with
  | nil => simp [charsJoined]
  | cons t items ih => simp [charsJoined, ih]

section
variable {sign close : Char} {pad : List Char} (differ : sign ≠ close) {items items' : List Selector}
  (delimited : ∀ s ∈ items, s.IsDelimited) {rest rest' : List Char}
include differ delimited

/-- Items that are each preceded by a separator can be told apart up to a closing bracket. -/
theorem following_inj
    (same : (items.flatMap fun t => sign :: pad ++ t.chars) ++ close :: rest =
      (items'.flatMap fun t => sign :: pad ++ t.chars) ++ close :: rest') : items = items' ∧ rest = rest' := by
  induction items generalizing items' with
  | nil =>
    cases items' with
    | nil => simpa using same
    | cons t items' =>
      have heads : close = sign := by simpa using congrArg List.head? same
      exact absurd heads.symm differ
  | cons s items ih =>
    cases items' with
    | nil =>
      have heads : sign = close := by simpa using congrArg List.head? same
      exact absurd heads differ
    | cons t items' =>
      obtain ⟨here, others⟩ := List.forall_mem_cons.mp delimited
      simp only [List.flatMap_cons, List.append_assoc, List.append_cancel_left_eq] at same
      obtain ⟨rfl, later⟩ := here t _ _ same
      obtain ⟨rfl, rfl⟩ := ih others later
      exact ⟨rfl, rfl⟩

theorem charsJoined_inj (closing : close ∉ openings)
    (same : charsJoined (sign :: pad) items ++ close :: rest = charsJoined (sign :: pad) items' ++ close :: rest') :
    items = items' ∧ rest = rest' := by
  -- A closing bracket at once means that there are no items, since none begins with it.
  have filled : ∀ (s : Selector) (more more' : List Char), close :: more ≠ s.chars ++ more' := by
    intro s more more' begins
    obtain ⟨c, opening, cs, written⟩ := s.exists_chars_eq_cons
    rw [written, List.cons_append, List.cons.injEq] at begins
    exact closing (begins.1 ▸ opening)
  cases items with
  | nil =>
    cases items' with
    | nil => simpa [charsJoined] using same
    | cons t items' =>
      rw [charsJoined_cons, List.append_assoc] at same
      exact absurd same (filled t _ _)
  | cons s items =>
    rw [charsJoined_cons, List.append_assoc] at same
    cases items' with
    | nil => exact absurd same.symm (filled s _ _)
    | cons t items' =>
      rw [charsJoined_cons, List.append_assoc] at same
      obtain ⟨here, others⟩ := List.forall_mem_cons.mp delimited
      obtain ⟨rfl, later⟩ := here t _ _ same
      obtain ⟨rfl, rfl⟩ := following_inj differ others later
      exact ⟨rfl, rfl⟩

end

theorem isDelimited (s : Selector) : s.IsDelimited := by
  induction s using tree_induction with
  | top =>
    intro t rest rest' same
    cases t <;> simp_all [chars]
  | bottom =>
    intro t rest rest' same
    cases t <;> simp_all [chars]
  | array item ih =>
    intro t rest rest' same
    cases t with
    | array item' =>
      simp only [chars, List.cons_append, List.append_assoc, List.cons.injEq, true_and] at same
      obtain ⟨rfl, later⟩ := ih item' _ _ same
      exact ⟨rfl, by simpa using later⟩
    | _ => simp [chars] at same
  | record items ih =>
    intro t rest rest' same
    cases t with
    | record items' =>
      simp only [chars, List.cons_append, List.append_assoc, List.cons.injEq, true_and, List.nil_append] at same
      obtain ⟨rfl, rfl⟩ := charsJoined_inj (by decide) ih (by decide) same
      exact ⟨rfl, rfl⟩
    | _ => simp [chars] at same
  | union items ih =>
    intro t rest rest' same
    cases t with
    | union items' =>
      simp only [chars, List.cons_append, List.append_assoc, List.cons.injEq, true_and, List.nil_append] at same
      obtain ⟨rfl, rfl⟩ := charsJoined_inj (by decide) ih (by decide) same
      exact ⟨rfl, rfl⟩
    | _ => simp [chars] at same

/-- Two selectors have the same text exactly if they are the same tree. -/
theorem text_eq_iff (s t : Selector) : s.text = t.text ↔ s = t := by
  constructor
  · intro same
    have written : s.chars ++ [] = t.chars ++ [] := by simpa [text] using congrArg String.toList same
    exact (s.isDelimited t [] [] written).1
  · rintro rfl
    rfl

/-- Brackets show which items are nested, even where there is one or none. -/
example : (record [union [], .top]).text = "\x7b(), top\x7d" ∧ (record [union [.top]]).text = "\x7b(top)\x7d" := by
  decide

end Narrowing.Selector
