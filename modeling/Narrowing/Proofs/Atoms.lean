import Narrowing.Proofs.Ledgers
import Narrowing.Proofs.Naming
import Narrowing.Storage.Atoms
import Mathlib.Algebra.Order.BigOperators.Group.Finset

/-!
Atoms over the whole life of a table. Entering a text either finds its atom, or gives it
the next one of its lane, or is refused because the lane is full (`Sound.intern_cases`),
so a known atom keeps its text whatever is entered. As long as there are places, a table
of atoms and a table of names that are handed the same texts know the same texts
(`Represents.intern`, `represents_history`), and so what holds of names holds of atoms.
-/

namespace Narrowing

namespace AtomTable

open NameTable (Call handed)

section
variable (hash : String → UInt64)

/-- The lane of a text. The empty text has a place that is reserved for it. -/
def assign (text : String) : Fin 64 := if text = "" then Lanes.lane blank else Lanes.assigned (hash text)

/-- The lanes are in order, and the first word belongs to the empty text. -/
structure Sound (t : AtomTable) : Prop where
  lanes : t.lanes.Sound Lanes.pack (assign hash)
  text?_blank : t.text? blank = some ""

end

variable {hash : String → UInt64} {t : AtomTable}

theorem sound_empty : empty.Sound hash := by
  have reserved : (Ledger.empty.append "" blank).Sound fun place => (Lanes.checked 0 place).map (Lanes.pack · 0) :=
    Ledger.sound_empty.append rfl (by decide)
  refine ⟨⟨fun j => ?_, fun j => ?_, fun {j i text} held => ?_⟩, rfl⟩ <;> by_cases first : j = 0
  · subst first
    exact reserved
  · simpa [empty, first] using Ledger.sound_empty
  · simp [empty, first, Ledger.append, Ledger.empty, Lanes.places]
  · simp [empty, first, Ledger.empty]
  · simp only [empty, first, if_true, Ledger.getElem?_append] at held
    split at held
    · rw [← Option.some.inj held, first]
      rfl
    · simp [Ledger.empty] at held
  · simp [empty, first, Ledger.empty] at held

/-- Entering a text adds one at most, and a known atom keeps its text, whether or not there is a place for it. -/
theorem intern_grows (t : AtomTable) (hash : String → UInt64) (text : String) :
    (∀ atom s, t.text? atom = some s → (t.intern hash text).2.text? atom = some s) ∧
      (t.intern hash text).2.size ≤ t.size + 1 := by
  unfold intern
  split
  · exact ⟨fun _ _ => id, Nat.le_succ _⟩
  · split
    case h_1 entered => exact Lanes.enter_grows entered
    case h_2 => exact ⟨fun _ _ => id, Nat.le_succ _⟩

theorem text?_intern_of_text? (hash : String → UInt64) {atom : UInt32} {s : String} (text : String)
    (known : t.text? atom = some s) : (t.intern hash text).2.text? atom = some s :=
  (t.intern_grows hash text).1 atom s known

theorem text?_internAll_of_text? (hash : String → UInt64) {atom : UInt32} {s : String} (texts : List String)
    (known : t.text? atom = some s) : (t.internAll hash texts).2.text? atom = some s := by
  induction texts generalizing t with
  | nil => exact known
  | cons text texts ih => exact ih (text?_intern_of_text? hash text known)

theorem internAll_append (hash : String → UInt64) (t : AtomTable) (texts more : List String) :
    (t.internAll hash (texts ++ more)).2 = ((t.internAll hash texts).2.internAll hash more).2 := by
  induction texts generalizing t with
  | nil => rfl
  | cons text texts ih => exact ih (t.intern hash text).2

theorem size_internAll_le (hash : String → UInt64) (t : AtomTable) (texts : List String) :
    (t.internAll hash texts).2.size ≤ t.size + texts.length := by
  induction texts generalizing t with
  | nil => exact Nat.le_refl _
  | cons text texts ih =>
    have first := (t.intern_grows hash text).2
    have rest := ih (t.intern hash text).2
    rw [List.length_cons]
    exact Nat.le_trans rest (by omega)

/-- There is a place for a text: it is known, or its lane is not full. -/
def HasRoom (hash : String → UInt64) (t : AtomTable) (text : String) : Prop :=
  (∃ atom, t.text? atom = some text) ∨ (t.lanes (assign hash text)).items.size < Lanes.places

section
variable (sound : t.Sound hash)
include sound

theorem Sound.text?_inj {a b : UInt32} {text : String} (ha : t.text? a = some text) (hb : t.text? b = some text) :
    a = b :=
  sound.lanes.get?_inj ha hb

/-- Entering a text finds its atom, or gives it the next one of its lane, or is refused because the lane is full. -/
theorem Sound.intern_cases (text : String) :
    (∃ atom, t.text? atom = some text ∧ t.intern hash text = (atom, t)) ∨
    ((∀ atom, t.text? atom ≠ some text) ∧ (t.lanes (assign hash text)).items.size < Lanes.places ∧
      t.intern hash text =
        (t.lanes.next (assign hash text), ⟨t.lanes.append Lanes.pack (assign hash text) text⟩)) ∨
    (¬ t.HasRoom hash text ∧ t.intern hash text = (blank, t)) := by
  by_cases filled : text = ""
  · subst filled
    exact .inl ⟨blank, sound.text?_blank, rfl⟩
  · have lane : Lanes.assigned (hash text) = assign hash text := (if_neg filled).symm
    rw [intern, if_neg filled, lane]
    rcases sound.lanes.enter_cases text with ⟨atom, known, result⟩ | ⟨new, room, result⟩ | ⟨new, full, result⟩
    · rw [result, Lanes.pack_place_lane]
      exact .inl ⟨atom, known, rfl⟩
    · rw [result]
      exact .inr (.inl ⟨new, room, rfl⟩)
    · rw [result]
      refine .inr (.inr ⟨?_, rfl⟩)
      rintro (⟨atom, known⟩ | room)
      · exact new atom known
      · omega

theorem Sound.intern (text : String) : (t.intern hash text).2.Sound hash := by
  have blank := text?_intern_of_text? hash text sound.text?_blank
  rcases sound.intern_cases text with ⟨atom, -, result⟩ | ⟨new, room, result⟩ | ⟨-, result⟩
  · rwa [result]
  · rw [result] at blank ⊢
    exact ⟨sound.lanes.append new room, blank⟩
  · rwa [result]

theorem Sound.internAll (texts : List String) : (t.internAll hash texts).2.Sound hash := by
  induction texts generalizing t with
  | nil => exact sound
  | cons text texts ih => exact ih (sound.intern text)

/-- Entering a text brings no other text in. -/
theorem Sound.text?_of_intern {text s : String} {atom : UInt32} (found : (t.intern hash text).2.text? atom = some s) :
    t.text? atom = some s ∨ s = text := by
  rcases sound.intern_cases text with ⟨_, -, result⟩ | ⟨-, place, result⟩ | ⟨-, result⟩
  · exact .inl (by rwa [result] at found)
  · rw [result, text?, Lanes.get?_append place] at found
    split at found
    · exact .inr (Option.some.inj found).symm
    · exact .inl found
  · exact .inl (by rwa [result] at found)

section
variable {text : String} (room : t.HasRoom hash text)
include room

theorem Sound.text?_intern : (t.intern hash text).2.text? (t.intern hash text).1 = some text := by
  rcases sound.intern_cases text with ⟨atom, known, result⟩ | ⟨-, place, result⟩ | ⟨none_left, -⟩
  · rwa [result]
  · rw [result, text?, Lanes.get?_append place, if_pos rfl]
  · exact absurd room none_left

/-- After a text is entered, it is known, and so are the texts that were. -/
theorem Sound.known_intern_iff (s : String) :
    (∃ atom, (t.intern hash text).2.text? atom = some s) ↔ (∃ atom, t.text? atom = some s) ∨ s = text := by
  constructor
  · rintro ⟨atom, found⟩
    exact (sound.text?_of_intern found).imp_left fun before => ⟨atom, before⟩
  · rintro (⟨atom, known⟩ | rfl)
    · exact ⟨atom, text?_intern_of_text? hash text known⟩
    · exact ⟨_, sound.text?_intern room⟩

end

end

/-! ### Counting texts -/

section
variable (sound : t.Sound hash) {texts : Finset String} (known : ∀ s, (∃ atom, t.text? atom = some s) ↔ s ∈ texts)
include sound known

theorem Sound.size_lane (j : Fin 64) : (t.lanes j).items.size = (texts.filter fun s => assign hash s = j).card := by
  have distinct : (t.lanes j).items.toList.Nodup := by
    rw [List.nodup_iff_getElem?_ne_getElem?]
    intro i k less inside same
    have held : (t.lanes j).items[k]? = some (t.lanes j).items[k] := Array.getElem?_eq_getElem (by simpa using inside)
    rw [Array.getElem?_toList, Array.getElem?_toList] at same
    have := (sound.lanes.ledger j).distinct (same.trans held) held
    omega
  have members : (t.lanes j).items.toList.toFinset = texts.filter fun s => assign hash s = j := by
    ext s
    rw [List.mem_toFinset, Finset.mem_filter, ← known, List.mem_iff_getElem?]
    simp only [Array.getElem?_toList]
    constructor
    · rintro ⟨i, held⟩
      obtain ⟨atom, -, -, found⟩ := sound.lanes.exists_word held
      exact ⟨⟨atom, found⟩, sound.lanes.assigned held⟩
    · rintro ⟨⟨atom, found⟩, rfl⟩
      have here : assign hash s = Lanes.lane atom := sound.lanes.assigned found
      exact ⟨(Lanes.place atom).toNat, by rw [here]; exact found⟩
  rw [← members, List.toFinset_card_of_nodup distinct, Array.length_toList]

theorem Sound.size_eq : t.size = texts.card := by
  have lanes (j : Fin 64) (_ : j ∈ Finset.univ) := sound.size_lane known j
  have apart (s : String) (_ : s ∈ texts) : assign hash s ∈ (Finset.univ : Finset (Fin 64)) := Finset.mem_univ _
  rw [size, Lanes.size, Finset.sum_congr rfl lanes, Finset.card_eq_sum_card_fiberwise apart]

end

/-- Every lane has places for its texts, the empty one included. -/
def Fits (hash : String → UInt64) (texts : List String) : Prop :=
  ∀ j, ((insert "" texts.toFinset).filter fun s => assign hash s = j).card ≤ Lanes.places

theorem Fits.of_append {texts more : List String} (fits : Fits hash (texts ++ more)) : Fits hash texts := by
  intro j
  refine Nat.le_trans (Finset.card_le_card (Finset.filter_subset_filter _ ?_)) (fits j)
  rw [List.toFinset_append]
  exact Finset.insert_subset_insert _ Finset.subset_union_left

/-- Texts fit if they are not more than one lane has places. -/
theorem fits_of_length {texts : List String} (few : texts.length < Lanes.places) : Fits hash texts := by
  intro j
  calc ((insert "" texts.toFinset).filter fun s => assign hash s = j).card
      ≤ (insert "" texts.toFinset).card := Finset.card_filter_le ..
    _ ≤ texts.toFinset.card + 1 := Finset.card_insert_le ..
    _ ≤ texts.length + 1 := Nat.add_le_add_right (List.toFinset_card_le texts) 1
    _ ≤ Lanes.places := few

/-! ### Atoms and names -/

/-- A table of atoms knows the texts of a table of names. -/
structure Represents (hash : String → UInt64) (t : AtomTable) (n : NameTable) : Prop where
  sound : t.Sound hash
  same : ∀ s, (∃ atom, t.text? atom = some s) ↔ ∃ name, n.text? name = some s

theorem represents_empty : empty.Represents hash NameTable.empty := by
  refine ⟨sound_empty, fun s => ?_⟩
  rw [NameTable.accounts_empty.known_iff NameTable.empty.text?_blank]
  simp only [List.not_mem_nil, or_false]
  constructor
  · rintro ⟨atom, known⟩
    simp only [text?, Lanes.get?, empty] at known
    split at known
    · rw [Ledger.getElem?_append] at known
      split at known
      · exact (Option.some.inj known).symm
      · simp [Ledger.empty] at known
    · simp [Ledger.empty] at known
  · rintro rfl
    exact ⟨blank, rfl⟩

section
variable {n : NameTable} (represents : t.Represents hash n)
include represents

theorem Represents.size_eq : t.size = n.size := by
  have known (s : String) : (∃ atom, t.text? atom = some s) ↔ s ∈ insert "" n.texts.items.toList.toFinset := by
    rw [represents.same, Finset.mem_insert, List.mem_toFinset, NameTable.mem_texts_iff]
    constructor
    · intro named
      exact or_iff_not_imp_left.mpr fun filled => ⟨filled, named⟩
    · rintro (rfl | ⟨-, named⟩)
      · exact ⟨.blank, n.text?_blank⟩
      · exact named
  have filled : "" ∉ n.texts.items.toList.toFinset := by
    rw [List.mem_toFinset, NameTable.mem_texts_iff]
    exact fun held => held.1 rfl
  rw [represents.sound.size_eq known, Finset.card_insert_of_notMem filled,
    List.toFinset_card_of_nodup n.texts.distinct, Array.length_toList]
  rfl

/-- Texts that are handed to both tables are known as names, if they are known as atoms. -/
theorem Represents.known_internAll (texts : List String) {atom : UInt32} {s : String}
    (known : (t.internAll hash texts).2.text? atom = some s) : ∃ name, (n.internAll texts).2.text? name = some s := by
  have sound := represents.sound
  have same (atom : UInt32) (s : String) (known : t.text? atom = some s) : ∃ name, n.text? name = some s :=
    (represents.same s).mp ⟨atom, known⟩
  clear represents
  induction texts generalizing t n with
  | nil => exact same atom s known
  | cons text texts ih =>
    refine ih known (sound.intern text) fun atom s known => ?_
    rcases sound.text?_of_intern known with before | rfl
    · obtain ⟨name, named⟩ := same atom s before
      exact ⟨name, NameTable.text?_intern_of_text? text named⟩
    · exact ⟨_, n.text?_intern s⟩

/-- One text more keeps two tables in step. -/
theorem Represents.intern {text : String} (room : t.HasRoom hash text) :
    (t.intern hash text).2.Represents hash (n.intern text).2 := by
  refine ⟨represents.sound.intern text, fun s => ?_⟩
  rw [represents.sound.known_intern_iff room, n.known_intern_iff, represents.same]

/-- Where its texts fit, there is a place for the next of them. -/
theorem Represents.hasRoom {texts : List String} {names : List Name} (accounts : Accounts n.text? texts names)
    {text : String} (fits : Fits hash (texts ++ [text])) : t.HasRoom hash text := by
  have known (s : String) : (∃ atom, t.text? atom = some s) ↔ s ∈ insert "" texts.toFinset := by
    rw [represents.same, accounts.known_iff n.text?_blank, Finset.mem_insert, List.mem_toFinset]
  by_cases old : text ∈ insert "" texts.toFinset
  · exact .inl ((known text).mpr old)
  · right
    have more : insert "" (texts ++ [text]).toFinset = insert text (insert "" texts.toFinset) := by
      ext s
      simp only [List.toFinset_append, Finset.mem_insert, Finset.mem_union, List.mem_toFinset, List.mem_singleton]
      tauto
    have bounded := fits (assign hash text)
    rw [more, Finset.filter_insert, if_pos rfl,
      Finset.card_insert_of_notMem (fun held => old (Finset.mem_of_mem_filter _ held)),
      ← represents.sound.size_lane known] at bounded
    exact bounded

/-- Several texts keep two tables in step, if they fit. -/
theorem Represents.internAll {texts : List String} {names : List Name} (accounts : Accounts n.text? texts names)
    {more : List String} (fits : Fits hash (texts ++ more)) :
    (t.internAll hash more).2.Represents hash (n.internAll more).2 ∧
      List.Forall₂ (fun atom s => (t.internAll hash more).2.text? atom = some s) (t.internAll hash more).1 more := by
  induction more generalizing t n texts names with
  | nil => exact ⟨represents, .nil⟩
  | cons text more ih =>
    have longer : texts ++ text :: more = texts ++ [text] ++ more := by simp
    have room : t.HasRoom hash text := represents.hasRoom accounts (Fits.of_append (longer ▸ fits))
    obtain ⟨rest, named⟩ := ih (represents.intern room) (NameTable.accounts_intern accounts text) (longer ▸ fits)
    have first := represents.sound.text?_intern room
    exact ⟨rest, .cons (text?_internAll_of_text? hash more first) named⟩

end

/-- The atoms that answered some calls to a new table, in order, and the table after them. -/
def history (hash : String → UInt64) (calls : List Call) : List UInt32 × AtomTable :=
  empty.internAll hash (handed calls)

section
variable {calls : List Call} (fits : Fits hash (handed calls))
include fits

/-- Atoms and names are in step along every history whose texts fit. -/
theorem represents_history : (history hash calls).2.Represents hash (NameTable.history calls).2 :=
  (represents_empty.internAll NameTable.accounts_empty fits).1

theorem accounts_history : Accounts (history hash calls).2.text? (handed calls) (history hash calls).1 := by
  refine ⟨(represents_empty.internAll NameTable.accounts_empty fits).2, fun atom s known => ?_⟩
  obtain ⟨name, named⟩ := ((represents_history fits).same s).mp ⟨atom, known⟩
  exact (NameTable.accounts_history calls).known name s named

end

private theorem forall₂_answers {α β : Type} {f : α → Option String} {g : β → Option String} {as : List α}
    {bs : List β} {texts : List String} (first : List.Forall₂ (fun a s => f a = some s) as texts)
    (second : List.Forall₂ (fun b s => g b = some s) bs texts) : List.Forall₂ (fun a b => f a = g b) as bs := by
  induction first generalizing bs with
  | nil =>
    cases second
    exact .nil
  | cons here _ ih =>
    cases second with
    | cons here' rest => exact .cons (here.trans here'.symm) (ih rest)

/-- Whatever calls are made, atoms and texts determine each other for good, as long as every lane has places for its
    texts. Two texts are given one atom exactly if they are the same, and the blank atom exactly if they are empty. An
    atom stands for its text at once and after all later calls, even where these find no place. All other atoms are
    unknown, the blank one apart, and the size of the table is one more than the number of different texts, other than
    the empty one, that were handed in. The table of names knows the same texts after the same calls, and answers each
    of them by a name with the same text. -/
theorem naming_is_bijective (hash : String → UInt64) (calls : List Call) (fits : Fits hash (handed calls)) :
    let atoms := (history hash calls).1
    let t := (history hash calls).2
    (∀ i j, i < (handed calls).length → j < (handed calls).length →
      (atoms[i]? = atoms[j]? ↔ (handed calls)[i]? = (handed calls)[j]?)) ∧
    List.Forall₂ (fun atom text => (atom = blank ↔ text = "") ∧
      ∀ more, (t.internAll hash (handed more)).2.text? atom = some text ∧
        (t.internAll hash (handed more)).2.text atom = text) atoms (handed calls) ∧
    (∀ atom, t.text? atom = none ↔ atom ≠ blank ∧ atom ∉ atoms) ∧
    t.size = ((handed calls).toFinset.erase "").card + 1 ∧
    t.Represents hash (NameTable.history calls).2 ∧
    List.Forall₂ (fun atom name => t.text? atom = (NameTable.history calls).2.text? name) atoms
      (NameTable.history calls).1 := by
  intro atoms t
  have represents := represents_history fits
  have accounts := accounts_history fits
  have sound := represents.sound
  refine ⟨fun i j hi hj => accounts.eq_iff sound.text?_inj hi hj, ?_,
    accounts.text?_eq_none_iff sound.text?_inj sound.text?_blank, ?_, represents,
    forall₂_answers accounts.named (NameTable.accounts_history calls).named⟩
  · refine accounts.named.imp fun atom text known => ⟨⟨?_, ?_⟩, fun more => ?_⟩
    · rintro rfl
      exact Option.some.inj (known.symm.trans sound.text?_blank)
    · rintro rfl
      exact sound.text?_inj known sound.text?_blank
    · have later := text?_internAll_of_text? hash (handed more) known
      exact ⟨later, by rw [AtomTable.text, later, Option.getD_some]⟩
  · rw [represents.size_eq, NameTable.size_of_accounts (NameTable.accounts_history calls)]

/-- A hash that many texts share. -/
def byLength (text : String) : UInt64 := text.length.toUInt64

def fewCalls : List Call := [.internFrequent, .intern "", .intern "val", .intern "node"]

/-- The text `val` is frequent, so it has its atom already. The text `node` is new, and has another atom than `next`,
    which is in the same lane. -/
theorem fewCalls_bijective :
    Fits byLength (handed fewCalls) ∧ (handed fewCalls)[37]? = some "val" ∧ (handed fewCalls)[38]? = some "node" ∧
      (history byLength fewCalls).1[22]? = (history byLength fewCalls).1[37]? ∧
      (history byLength fewCalls).1[24]? ≠ (history byLength fewCalls).1[38]? ∧
      (history byLength fewCalls).2.text? (Lanes.pack 12345 0) = none ∧
      (history byLength fewCalls).2.size = 36 + 1 + 1 := by
  have fits : Fits byLength (handed fewCalls) := fits_of_length (by decide)
  obtain ⟨same_iff, -, unknown_iff, size, -⟩ := naming_is_bijective byLength fewCalls fits
  have inside : 38 < (handed fewCalls).length := by decide
  refine ⟨fits, rfl, rfl, ?_, ?_, ?_, ?_⟩
  · exact (same_iff 22 37 (by omega) (by omega)).mpr (by decide)
  · rw [ne_eq, same_iff 24 38 (by omega) inside]
    decide
  · exact (unknown_iff _).mpr (by decide +kernel)
  · rw [size]
    decide +kernel

end AtomTable

end Narrowing
