import Narrowing.Name
import Mathlib.Data.Finset.Card
import Mathlib.Data.List.Forall2

/-!
Names over the whole life of a table. Texts are handed in one by one or, the frequent
ones, all at once; each is answered by a name. One text more keeps what the table knows
in agreement with the texts and names so far (`accounts_intern`), hence so does every
history (`accounts_history`): a text has one name, which stays its own, and beyond these
names and the blank one nothing is known.
-/

namespace Narrowing

/-- What is known of names: the texts that were handed in, each by the name that answered it, and of others only the
    empty one. -/
structure Accounts {ν : Type} (text? : ν → Option String) (texts : List String) (names : List ν) : Prop where
  named : List.Forall₂ (fun n s => text? n = some s) names texts
  known : ∀ n s, text? n = some s → s = "" ∨ s ∈ texts

private theorem exists_of_forall₂ {α β : Type} {R : α → β → Prop} {as : List α} {bs : List β}
    (all : List.Forall₂ R as bs) : ∀ b ∈ bs, ∃ a ∈ as, R a b := by
  induction all with
  | nil => simp
  | @cons a b as bs first _ ih =>
    refine List.forall_mem_cons.mpr ⟨⟨a, List.mem_cons_self, first⟩, fun b' later => ?_⟩
    obtain ⟨a', member, related⟩ := ih b' later
    exact ⟨a', List.mem_cons_of_mem _ member, related⟩

section
variable {ν : Type} {text? : ν → Option String} {texts : List String} {names : List ν}
  (accounts : Accounts text? texts names)
include accounts

/-- The texts that are known are those that were handed in, and the empty one. -/
theorem Accounts.known_iff {blank : ν} (empty : text? blank = some "") (s : String) :
    (∃ n, text? n = some s) ↔ s = "" ∨ s ∈ texts := by
  constructor
  · rintro ⟨n, known⟩
    exact accounts.known n s known
  · rintro (rfl | member)
    · exact ⟨blank, empty⟩
    · obtain ⟨n, -, known⟩ := exists_of_forall₂ accounts.named s member
      exact ⟨n, known⟩

/-- A name is unknown exactly if it is not the blank one and has answered no text. -/
theorem Accounts.text?_eq_none_iff (inj : ∀ {m n s}, text? m = some s → text? n = some s → m = n) {blank : ν}
    (empty : text? blank = some "") (n : ν) : text? n = none ↔ n ≠ blank ∧ n ∉ names := by
  constructor
  · intro unknown
    refine ⟨?_, fun member => ?_⟩
    · rintro rfl
      simp [empty] at unknown
    · obtain ⟨s, -, known⟩ := exists_of_forall₂ accounts.named.flip n member
      simp [unknown] at known
  · rintro ⟨other, unanswered⟩
    cases known : text? n with
    | none => rfl
    | some s =>
      rcases accounts.known n s known with rfl | member
      · exact absurd (inj known empty) other
      · -- The text was answered by some name, and it has no other.
        obtain ⟨n', answered, same⟩ := exists_of_forall₂ accounts.named s member
        exact absurd (inj known same ▸ answered) unanswered

/-- Two names that answered are the same exactly if the texts are. -/
theorem Accounts.eq_iff (inj : ∀ {m n s}, text? m = some s → text? n = some s → m = n) {i j : Nat}
    (hi : i < texts.length) (hj : j < texts.length) : names[i]? = names[j]? ↔ texts[i]? = texts[j]? := by
  obtain ⟨count, each⟩ := List.forall₂_iff_get.mp accounts.named
  have named (i : Nat) (inside : i < texts.length) :
      ∃ n s, names[i]? = some n ∧ texts[i]? = some s ∧ text? n = some s :=
    ⟨_, _, List.getElem?_eq_getElem (count ▸ inside), List.getElem?_eq_getElem inside,
      each i (count ▸ inside) inside⟩
  obtain ⟨m, r, nameM, textR, first⟩ := named i hi
  obtain ⟨n, s, nameN, textS, second⟩ := named j hj
  rw [nameM, nameN, textR, textS, Option.some.injEq, Option.some.injEq]
  constructor
  · rintro rfl
    exact Option.some.inj (first.symm.trans second)
  · rintro rfl
    exact inj first second

end

namespace NameTable

/-- What can be done with a table. -/
inductive Call where
  | intern (text : String)
  | internFrequent
deriving DecidableEq, Repr

/-- The texts that a call hands in, in order. -/
def Call.texts : Call → List String
  | .intern text => [text]
  | .internFrequent => frequent

/-- The texts that some calls hand in, in order. -/
def handed (calls : List Call) : List String := calls.flatMap Call.texts

/-- The names that answered some calls to a new table, in order, and the table after them. -/
def history (calls : List Call) : List Name × NameTable := empty.internAll (handed calls)

section
variable {t : NameTable}

@[simp] theorem text?_blank (t : NameTable) : t.text? .blank = some "" := by simp [text?]

/-- Entering a text brings no other text in. -/
theorem text?_of_intern {r s : String} {n : Name} (found : (t.intern r).2.text? n = some s) :
    t.text? n = some s ∨ s = r := by
  revert found
  unfold intern
  split
  case isTrue => exact .inl
  case isFalse =>
    unfold text?
    split
    · exact .inl
    · split
      · exact .inl
      · exact Pool.get?_intern_eq_some

theorem text?_internAll_of_text? {n : Name} {s : String} (texts : List String) (known : t.text? n = some s) :
    (t.internAll texts).2.text? n = some s := by
  induction texts generalizing t with
  | nil => exact known
  | cons text texts ih => exact ih (text?_intern_of_text? text known)

theorem internAll_append (t : NameTable) (texts more : List String) :
    (t.internAll (texts ++ more)).2 = ((t.internAll texts).2.internAll more).2 := by
  induction texts generalizing t with
  | nil => rfl
  | cons text texts ih => exact ih (t.intern text).2

/-- After a text is entered, it is known, and so are the texts that were. -/
theorem known_intern_iff (t : NameTable) (r s : String) :
    (∃ n, (t.intern r).2.text? n = some s) ↔ (∃ n, t.text? n = some s) ∨ s = r := by
  constructor
  · rintro ⟨n, found⟩
    exact (text?_of_intern found).imp_left fun before => ⟨n, before⟩
  · rintro (⟨n, known⟩ | rfl)
    · exact ⟨n, text?_intern_of_text? r known⟩
    · exact ⟨_, t.text?_intern s⟩

/-- The texts that a table holds are those with a name, except for the empty one. -/
theorem mem_texts_iff {s : String} : s ∈ t.texts.items.toList ↔ s ≠ "" ∧ ∃ n, t.text? n = some s := by
  constructor
  · intro held
    obtain ⟨i, found⟩ := List.mem_iff_getElem?.mp held
    have at_i : t.texts.get? i = some s := by simpa [Pool.get?] using found
    exact ⟨fun blank => t.filled i (blank ▸ at_i), ⟨Name.first + i⟩, by rw [text?_eq_get?, at_i]⟩
  · rintro ⟨filled, n, known⟩
    unfold text? at known
    split at known
    case isTrue => exact absurd (Option.some.inj known).symm filled
    case isFalse =>
      split at known
      case isTrue => exact absurd known (by simp)
      case isFalse => exact List.mem_iff_getElem?.mpr ⟨_, by simpa [Pool.get?] using known⟩

end

/-! ### The table and its history -/

theorem accounts_empty : Accounts empty.text? [] [] := by
  refine ⟨.nil, fun n s known => .inl ?_⟩
  by_contra filled
  have held : s ∈ empty.texts.items.toList := mem_texts_iff.mpr ⟨filled, n, known⟩
  simp [empty, Pool.empty] at held

section
variable {texts : List String} {names : List Name} {t : NameTable} (accounts : Accounts t.text? texts names)
include accounts

theorem accounts_intern (s : String) : Accounts (t.intern s).2.text? (texts ++ [s]) (names ++ [(t.intern s).1]) where
  named := by
    have before := accounts.named.imp fun n r known => text?_intern_of_text? s known
    exact List.rel_append before (.cons (t.text?_intern s) .nil)
  known := fun n r found => by
    rcases text?_of_intern found with before | rfl
    · exact (accounts.known n r before).imp_right (List.mem_append_left _)
    · exact .inr (by simp)

theorem accounts_internAll (more : List String) :
    Accounts (t.internAll more).2.text? (texts ++ more) (names ++ (t.internAll more).1) := by
  induction more generalizing texts names t with
  | nil => simpa [NameTable.internAll] using accounts
  | cons s more ih => simpa [NameTable.internAll] using ih (accounts_intern accounts s)

theorem size_of_accounts : t.size = (texts.toFinset.erase "").card + 1 := by
  have same : t.texts.items.toList.toFinset = texts.toFinset.erase "" := by
    ext s
    rw [List.mem_toFinset, mem_texts_iff, Finset.mem_erase, List.mem_toFinset,
      accounts.known_iff t.text?_blank]
    exact and_congr_right fun filled => or_iff_right filled
  rw [← same, List.toFinset_card_of_nodup t.texts.distinct, Array.length_toList]
  rfl

end

theorem accounts_history (calls : List Call) : Accounts (history calls).2.text? (handed calls) (history calls).1 :=
  accounts_internAll accounts_empty (handed calls)

end NameTable

end Narrowing
