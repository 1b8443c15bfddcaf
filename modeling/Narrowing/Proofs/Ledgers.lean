import Narrowing.Storage.Ledger

/-!
Ledgers in step. The row and the map of a ledger agree on which values there are and on
their numbers, and putting a new value at the end keeps it so (`Ledger.Sound.append`).
In lanes that agree, and where every value is in its own lane, a value is named by one
word (`Lanes.Sound.get?_inj`); entering it finds that word, or names the next word of
its lane, or is refused because the lane is full (`Lanes.Sound.enter_cases`).
-/

namespace Narrowing

namespace Ledger

variable {α β ε : Type} {mint : UInt32 → Except ε β} {l : Ledger α β}

/-- The values of the row are different, and they are those of the map, under the numbers that `mint` makes from
    their places. -/
structure Sound (mint : UInt32 → Except ε β) (l : Ledger α β) : Prop where
  distinct : ∀ {i j : Nat} {a}, l.items[i]? = some a → l.items[j]? = some a → i = j
  numbered : ∀ {i : Nat} {a}, l.items[i]? = some a →
    ∃ number, mint i.toUInt32 = .ok number ∧ l.numbers a = some number
  placed : ∀ {a number}, l.numbers a = some number → ∃ i : Nat, l.items[i]? = some a

theorem sound_empty : (empty : Ledger α β).Sound mint := ⟨by simp [empty], by simp [empty], by simp [empty]⟩

theorem Sound.numbers_eq_none_iff (sound : l.Sound mint) {a : α} :
    l.numbers a = none ↔ ∀ i : Nat, l.items[i]? ≠ some a := by
  constructor
  · intro new i held
    obtain ⟨number, -, known⟩ := sound.numbered held
    simp [new] at known
  · intro absent
    cases known : l.numbers a with
    | none => rfl
    | some number =>
      obtain ⟨i, held⟩ := sound.placed known
      exact absurd held (absent i)

/-- Places are told apart by the values at them. -/
theorem Sound.place_eq_iff (sound : l.Sound mint) {i j : Nat} (inside : i < l.items.size) :
    i = j ↔ l.items[i]? = l.items[j]? := by
  constructor
  · rintro rfl
    rfl
  · intro same
    have held := Array.getElem?_eq_getElem inside
    exact sound.distinct held (same ▸ held)

variable [DecidableEq α]

theorem getElem?_append (l : Ledger α β) (a : α) (number : β) (i : Nat) :
    (l.append a number).items[i]? = if i = l.items.size then some a else l.items[i]? :=
  Array.getElem?_push

theorem enter_cases (l : Ledger α β) (mint : UInt32 → Except ε β) (a : α) :
    (∃ number, l.numbers a = some number ∧ l.enter mint a = .ok (number, l)) ∨
    (∃ number, l.numbers a = none ∧ mint l.items.size.toUInt32 = .ok number ∧
      l.enter mint a = .ok (number, l.append a number)) ∨
    ∃ refusal, l.numbers a = none ∧ mint l.items.size.toUInt32 = .error refusal ∧ l.enter mint a = .error refusal := by
  unfold enter
  cases known : l.numbers a with
  | some number => exact .inl ⟨number, rfl, rfl⟩
  | none =>
    cases minted : mint l.items.size.toUInt32 with
    | ok number => exact .inr (.inl ⟨number, rfl, rfl, rfl⟩)
    | error refusal => exact .inr (.inr ⟨refusal, rfl, rfl, rfl⟩)

/-- Entering a value moves no other, and adds one at most. -/
theorem enter_grows {a : α} {number : β} {l' : Ledger α β} (entered : l.enter mint a = .ok (number, l')) :
    (∀ (i : Nat) b, l.items[i]? = some b → l'.items[i]? = some b) ∧ l'.items.size ≤ l.items.size + 1 := by
  rcases l.enter_cases mint a with ⟨_, -, result⟩ | ⟨other, -, -, result⟩ | ⟨_, -, -, result⟩
  · cases entered.symm.trans result
    exact ⟨fun _ _ => id, Nat.le_succ _⟩
  · cases entered.symm.trans result
    refine ⟨fun i b held => ?_, by rw [Ledger.append, Array.size_push]⟩
    obtain ⟨inside, -⟩ := Array.getElem?_eq_some_iff.mp held
    rwa [getElem?_append, if_neg (Nat.ne_of_lt inside)]
  · cases entered.symm.trans result

/-- A value that is not there can be put at the end. -/
theorem Sound.append (sound : l.Sound mint) {a : α} {number : β} (new : l.numbers a = none)
    (minted : mint l.items.size.toUInt32 = .ok number) : (l.append a number).Sound mint := by
  have absent := sound.numbers_eq_none_iff.mp new
  refine ⟨fun {i j b} hi hj => ?_, fun {i b} held => ?_, fun {b other} known => ?_⟩
  · rw [getElem?_append] at hi hj
    split at hi <;> split at hj
    · omega
    · exact absurd (Option.some.inj hi ▸ hj) (absent j)
    · exact absurd (Option.some.inj hj ▸ hi) (absent i)
    · exact sound.distinct hi hj
  · rw [getElem?_append] at held
    split at held
    case isTrue last =>
      obtain rfl := Option.some.inj held
      exact ⟨number, last ▸ minted, Function.update_self ..⟩
    case isFalse =>
      obtain ⟨other, same, known⟩ := sound.numbered held
      have differs : b ≠ a := by
        rintro rfl
        exact absent i held
      exact ⟨other, same, (Function.update_of_ne differs ..).trans known⟩
  · by_cases same : b = a
    · exact ⟨l.items.size, by rw [getElem?_append, if_pos rfl, same]⟩
    · obtain ⟨i, held⟩ := sound.placed ((Function.update_of_ne same ..).symm.trans known)
      obtain ⟨inside, -⟩ := Array.getElem?_eq_some_iff.mp held
      exact ⟨i, by rwa [getElem?_append, if_neg (Nat.ne_of_lt inside)]⟩

end Ledger

namespace Lanes

variable {α β : Type} {make : UInt32 → Fin 64 → β} {assign : α → Fin 64} {lanes : Lanes α β}

/-- How many places a lane has. -/
def places : Nat := 0x4000000

theorem toNat_toUInt32_of_lt {n : Nat} (room : n < places) : n.toUInt32.toNat = n :=
  Nat.mod_eq_of_lt (Nat.lt_trans room (by decide))

theorem le_lastPlace_of_lt {n : Nat} (room : n < places) : n.toUInt32 ≤ lastPlace := by
  rw [UInt32.le_iff_toNat_le, toNat_toUInt32_of_lt room, toNat_lastPlace]
  exact Nat.le_of_lt_succ room

theorem checked_places (j : Fin 64) : checked j places.toUInt32 = .error ⟨j⟩ := if_neg (by decide)

/-- Every lane agrees with its numbers, no lane has more values than places, and every value is in its own lane. -/
structure Sound (make : UInt32 → Fin 64 → β) (assign : α → Fin 64) (lanes : Lanes α β) : Prop where
  ledger : ∀ j, (lanes j).Sound fun place => (checked j place).map (make · j)
  bounded : ∀ j, (lanes j).items.size ≤ places
  assigned : ∀ {j} {i : Nat} {a}, (lanes j).items[i]? = some a → assign a = j

section
variable (sound : lanes.Sound make assign)
include sound

/-- A value is named by one word. -/
theorem Sound.get?_inj {v w : UInt32} {a : α} (hv : lanes.get? v = some a) (hw : lanes.get? w = some a) : v = w := by
  have sameLane : lane v = lane w := (sound.assigned hv).symm.trans (sound.assigned hw)
  have samePlace : place v = place w :=
    UInt32.toNat_inj.mp ((sound.ledger (lane w)).distinct (sameLane ▸ hv) hw)
  rw [← pack_place_lane v, ← pack_place_lane w, sameLane, samePlace]

/-- The values of a lane are named by words. -/
theorem Sound.exists_word {j : Fin 64} {i : Nat} {a : α} (held : (lanes j).items[i]? = some a) :
    ∃ w, lane w = j ∧ place w = i.toUInt32 ∧ lanes.get? w = some a := by
  obtain ⟨inside, -⟩ := Array.getElem?_eq_some_iff.mp held
  have small : i < places := Nat.lt_of_lt_of_le inside (sound.bounded j)
  have named := le_lastPlace_of_lt small
  refine ⟨pack i.toUInt32 j, lane_pack named j, place_pack named j, ?_⟩
  rw [get?, lane_pack named, place_pack named, toNat_toUInt32_of_lt small, held]

end

/-! ### One more value -/

/-- The word for the next value of a lane. -/
def next (lanes : Lanes α β) (j : Fin 64) : UInt32 := pack (lanes j).items.size.toUInt32 j

section
variable {j : Fin 64} (room : (lanes j).items.size < places)
include room

theorem lane_next : lane (lanes.next j) = j := lane_pack (le_lastPlace_of_lt room) j

theorem place_next : place (lanes.next j) = (lanes j).items.size.toUInt32 := place_pack (le_lastPlace_of_lt room) j

theorem toNat_next : (lanes.next j).toNat = 64 * (lanes j).items.size + j.val := by
  rw [next, toNat_pack (le_lastPlace_of_lt room), toNat_toUInt32_of_lt room]

theorem get?_next : lanes.get? (lanes.next j) = none := by
  rw [get?, lane_next room, place_next room, toNat_toUInt32_of_lt room]
  exact Array.getElem?_size

end

/-- Exchanging a lane changes the size by what the lanes differ in. -/
theorem size_update (lanes : Lanes α β) (j : Fin 64) (ledger : Ledger α β) :
    size (Function.update lanes j ledger) + (lanes j).items.size = lanes.size + ledger.items.size := by
  have others : ∀ k ∈ Finset.univ.erase j, (Function.update lanes j ledger k).items.size = (lanes k).items.size :=
    fun k member => by rw [Function.update_of_ne (Finset.ne_of_mem_erase member)]
  rw [size, size, ← Finset.add_sum_erase _ _ (Finset.mem_univ j), ← Finset.add_sum_erase _ _ (Finset.mem_univ j),
    Finset.sum_congr rfl others, Function.update_self]
  omega

theorem size_lane_le (lanes : Lanes α β) (j : Fin 64) : (lanes j).items.size ≤ lanes.size := by
  rw [size, ← Finset.add_sum_erase _ _ (Finset.mem_univ j)]
  exact Nat.le_add_right ..

variable [DecidableEq α]

/-- The lanes with one more value in one of them. -/
def append (make : UInt32 → Fin 64 → β) (lanes : Lanes α β) (j : Fin 64) (a : α) : Lanes α β :=
  Function.update lanes j ((lanes j).append a (make (lanes j).items.size.toUInt32 j))

theorem get?_append {j : Fin 64} (room : (lanes j).items.size < places) (make : UInt32 → Fin 64 → β) (a : α)
    (w : UInt32) : (lanes.append make j a).get? w = if w = lanes.next j then some a else lanes.get? w := by
  unfold get? append
  by_cases here : lane w = j
  · have last : (place w).toNat = (lanes j).items.size ↔ w = lanes.next j := by
      constructor
      · intro same
        rw [next, ← same, ← here, Nat.toUInt32_eq, UInt32.ofNat_toNat, pack_place_lane]
      · rintro rfl
        rw [place_next room, toNat_toUInt32_of_lt room]
    rw [here, Function.update_self, Ledger.getElem?_append]
    simp only [last]
  · have other : w ≠ lanes.next j := by
      rintro rfl
      exact here (lane_next room)
    rw [Function.update_of_ne here, if_neg other]

theorem size_append (make : UInt32 → Fin 64 → β) (lanes : Lanes α β) (j : Fin 64) (a : α) :
    (lanes.append make j a).size = lanes.size + 1 := by
  have balanced := lanes.size_update j ((lanes j).append a (make (lanes j).items.size.toUInt32 j))
  simp only [Ledger.append, Array.size_push] at balanced
  simp only [append, Ledger.append]
  omega

/-- Entering a value leaves the others under their words, and adds one at most. -/
theorem enter_grows {j : Fin 64} {a : α} {number : β} {lanes' : Lanes α β}
    (entered : lanes.enter make j a = .ok (number, lanes')) :
    (∀ w b, lanes.get? w = some b → lanes'.get? w = some b) ∧ lanes'.size ≤ lanes.size + 1 := by
  unfold enter at entered
  cases result : (lanes j).enter (fun place => (checked j place).map (make · j)) a with
  | error refusal =>
    rw [result] at entered
    cases entered
  | ok entry =>
    obtain ⟨other, ledger⟩ := entry
    obtain ⟨kept, few⟩ := Ledger.enter_grows result
    rw [result] at entered
    cases entered
    constructor
    · intro w b held
      by_cases here : lane w = j
      · rw [get?, here] at held ⊢
        rw [Function.update_self]
        exact kept _ b held
      · rwa [get?, Function.update_of_ne here]
    · have balanced := lanes.size_update j ledger
      omega

section
variable (sound : lanes.Sound make assign)
include sound

theorem Sound.append {a : α} (new : ∀ w, lanes.get? w ≠ some a) (room : (lanes (assign a)).items.size < places) :
    (lanes.append make (assign a) a).Sound make assign := by
  have absent : (lanes (assign a)).numbers a = none := by
    refine (sound.ledger (assign a)).numbers_eq_none_iff.mpr fun i held => ?_
    obtain ⟨w, -, -, found⟩ := sound.exists_word held
    exact new w found
  have minted : (checked (assign a) (lanes (assign a)).items.size.toUInt32).map (make · (assign a)) =
      .ok (make (lanes (assign a)).items.size.toUInt32 (assign a)) := by
    rw [checked, if_pos (le_lastPlace_of_lt room)]
    rfl
  refine ⟨fun j => ?_, fun j => ?_, fun {j i b} held => ?_⟩ <;> by_cases here : j = assign a
  · subst here
    rw [Lanes.append, Function.update_self]
    exact (sound.ledger (assign a)).append absent minted
  · rw [Lanes.append, Function.update_of_ne here]
    exact sound.ledger j
  · subst here
    rw [Lanes.append, Function.update_self, Ledger.append, Array.size_push]
    exact room
  · rw [Lanes.append, Function.update_of_ne here]
    exact sound.bounded j
  · subst here
    rw [Lanes.append, Function.update_self, Ledger.getElem?_append] at held
    split at held
    · exact Option.some.inj held ▸ rfl
    · exact sound.assigned held
  · rw [Lanes.append, Function.update_of_ne here] at held
    exact sound.assigned held

/-- Entering a value finds its word, or names the next one of its lane, or is refused because the lane is full. -/
theorem Sound.enter_cases (a : α) :
    (∃ w, lanes.get? w = some a ∧ lanes.enter make (assign a) a = .ok (make (place w) (lane w), lanes)) ∨
    ((∀ w, lanes.get? w ≠ some a) ∧ (lanes (assign a)).items.size < places ∧
      lanes.enter make (assign a) a =
        .ok (make (lanes (assign a)).items.size.toUInt32 (assign a), lanes.append make (assign a) a)) ∨
    ((∀ w, lanes.get? w ≠ some a) ∧ (lanes (assign a)).items.size = places ∧
      lanes.enter make (assign a) a = .error ⟨assign a⟩) := by
  have ledger := sound.ledger (assign a)
  have absent (new : (lanes (assign a)).numbers a = none) : ∀ w, lanes.get? w ≠ some a := by
    intro w found
    have here := sound.assigned found
    exact ledger.numbers_eq_none_iff.mp new (place w).toNat (here ▸ found)
  unfold enter
  rcases (lanes (assign a)).enter_cases (fun place => (checked (assign a) place).map (make · (assign a))) a with
    ⟨number, known, result⟩ | ⟨number, new, minted, result⟩ | ⟨refusal, new, minted, result⟩
  · obtain ⟨i, held⟩ := ledger.placed known
    obtain ⟨w, here, there, found⟩ := sound.exists_word held
    obtain ⟨other, minted, known'⟩ := ledger.numbered held
    obtain rfl : number = other := Option.some.inj (known.symm.trans known')
    rw [checked, if_pos (there ▸ place_le_lastPlace w)] at minted
    obtain rfl := Except.ok.inj minted
    refine .inl ⟨w, found, ?_⟩
    have same : Function.update lanes (assign a) (lanes (assign a)) = lanes := Function.update_eq_self ..
    rw [result, here, there]
    exact congrArg (fun lanes => Except.ok (make i.toUInt32 (assign a), lanes)) same
  · have room : (lanes (assign a)).items.size < places := by
      refine Nat.lt_of_le_of_ne (sound.bounded _) fun full => ?_
      rw [full, checked_places] at minted
      cases minted
    rw [checked, if_pos (le_lastPlace_of_lt room)] at minted
    obtain rfl := Except.ok.inj minted
    exact .inr (.inl ⟨absent new, room, by rw [result]; rfl⟩)
  · have full : (lanes (assign a)).items.size = places := by
      refine Nat.le_antisymm (sound.bounded _) (Nat.not_lt.mp fun room => ?_)
      rw [checked, if_pos (le_lastPlace_of_lt room)] at minted
      cases minted
    rw [full, checked_places] at minted
    obtain rfl := Except.error.inj minted
    exact .inr (.inr ⟨absent new, full, by rw [result]; rfl⟩)

end

end Lanes

end Narrowing
