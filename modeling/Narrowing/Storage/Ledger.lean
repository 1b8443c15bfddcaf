import Mathlib.Algebra.BigOperators.Group.Finset.Basic
import Mathlib.Data.Fintype.Basic

/-!
Ledgers. A ledger keeps values twice: in a row, where a value is found by its place,
and in a map from each value to the number that it was given. Entering a value looks it
up in the map and puts a new one into both. Where there are many values they are kept
in 64 ledgers, the lanes. A hash assigns a value to its lane, and a word of 32 bits
names a lane and a place in it; the two are recovered from the word (`lane_pack`,
`place_pack`), and make it up (`pack_place_lane`).
-/

namespace Narrowing

/-- Values in the order of their entry, and the number of each. -/
structure Ledger (α β : Type) where
  numbers : α → Option β
  items : Array α

namespace Ledger

variable {α β ε : Type}

def empty : Ledger α β := ⟨fun _ => none, #[]⟩

variable [DecidableEq α]

/-- The ledger with a value at its end. -/
def append (l : Ledger α β) (a : α) (number : β) : Ledger α β :=
  ⟨Function.update l.numbers a (some number), l.items.push a⟩

/-- The number of a value. A new value is put at the end, and `mint` makes its number from its place, counted in 32
    bits, or refuses it. -/
def enter (mint : UInt32 → Except ε β) (l : Ledger α β) (a : α) : Except ε (β × Ledger α β) :=
  match l.numbers a with
  | some number => .ok (number, l)
  | none => (mint l.items.size.toUInt32).map fun number => (number, l.append a number)

end Ledger

/-- As many ledgers as six bits can name. -/
abbrev Lanes (α β : Type) := Fin 64 → Ledger α β

/-- A lane has no place left for a new value. -/
structure LaneFull where
  lane : Fin 64
deriving DecidableEq, Repr

namespace Lanes

/-- The lane to which a hash assigns a value. -/
def assigned (hash : UInt64) : Fin 64 :=
  ⟨(hash &&& 63).toNat, by
    rw [UInt64.toNat_and]
    exact Nat.lt_of_le_of_lt Nat.and_le_right (by decide)⟩

/-! ### Words -/

/-- The last place that a word can name. -/
def lastPlace : UInt32 := (0xFFFFFFFF : UInt32) >>> 6

theorem toNat_lastPlace : lastPlace.toNat = 0x3FFFFFF := by decide

/-- The word for a place in a lane. -/
def pack (place : UInt32) (lane : Fin 64) : UInt32 := (place <<< 6) ||| (lane.val.toUInt32 &&& 63)

/-- The lane that a word names. -/
def lane (w : UInt32) : Fin 64 :=
  ⟨(w &&& 63).toNat, by
    rw [UInt32.toNat_and]
    exact Nat.lt_of_le_of_lt Nat.and_le_right (by decide)⟩

/-- The place that a word names. -/
def place (w : UInt32) : UInt32 := w >>> 6

theorem val_lane (w : UInt32) : (lane w).val = w.toNat % 64 := by
  show (w &&& 63).toNat = w.toNat % 64
  rw [UInt32.toNat_and]
  exact Nat.and_two_pow_sub_one_eq_mod w.toNat 6

theorem toNat_place (w : UInt32) : (place w).toNat = w.toNat / 64 := by
  show (w >>> 6).toNat = w.toNat / 64
  rw [UInt32.toNat_shiftRight]
  exact Nat.shiftRight_eq_div_pow w.toNat 6

theorem place_le_lastPlace (w : UInt32) : place w ≤ lastPlace := by
  rw [UInt32.le_iff_toNat_le, toNat_place, toNat_lastPlace]
  have bounded := w.toNat_lt
  omega

theorem toNat_pack {place : UInt32} (inside : place ≤ lastPlace) (lane : Fin 64) :
    (pack place lane).toNat = 64 * place.toNat + lane.val := by
  have small : place.toNat ≤ 0x3FFFFFF := toNat_lastPlace ▸ UInt32.le_iff_toNat_le.mp inside
  have shifted : (place <<< 6).toNat = place.toNat <<< 6 := by
    rw [UInt32.toNat_shiftLeft, show (6 : UInt32).toNat % 32 = 6 from rfl]
    refine Nat.mod_eq_of_lt ?_
    rw [Nat.shiftLeft_eq]
    omega
  have masked : (lane.val.toUInt32 &&& 63).toNat = lane.val := by
    have word : lane.val.toUInt32.toNat = lane.val := Nat.mod_eq_of_lt (Nat.lt_trans lane.isLt (by decide))
    have mask := Nat.and_two_pow_sub_one_eq_mod lane.val 6
    rw [UInt32.toNat_and, word]
    exact mask.trans (Nat.mod_eq_of_lt lane.isLt)
  rw [pack, UInt32.toNat_or, shifted, masked, ← Nat.shiftLeft_add_eq_or_of_lt lane.isLt, Nat.shiftLeft_eq]
  omega

theorem lane_pack {place : UInt32} (inside : place ≤ lastPlace) (j : Fin 64) : lane (pack place j) = j := by
  apply Fin.ext
  rw [val_lane, toNat_pack inside]
  have := j.isLt
  omega

theorem place_pack {i : UInt32} (inside : i ≤ lastPlace) (j : Fin 64) : place (pack i j) = i := by
  apply UInt32.toNat_inj.mp
  rw [toNat_place, toNat_pack inside]
  have := j.isLt
  omega

theorem pack_place_lane (w : UInt32) : pack (place w) (lane w) = w := by
  apply UInt32.toNat_inj.mp
  rw [toNat_pack (place_le_lastPlace w), toNat_place, val_lane]
  omega

/-! ### Values -/

variable {α β : Type}

/-- The value that a word names. -/
def get? (lanes : Lanes α β) (w : UInt32) : Option α := (lanes (lane w)).items[(place w).toNat]?

/-- How many values there are. -/
@[irreducible] def size (lanes : Lanes α β) : Nat := ∑ j, (lanes j).items.size

/-- A place is taken as it is, if a word can name it. -/
def checked (j : Fin 64) (place : UInt32) : Except LaneFull UInt32 :=
  if place ≤ lastPlace then .ok place else .error ⟨j⟩

/-- The number of a value of lane `j`, which is entered there if it is new. Numbers are made from places that words
    can name. -/
def enter [DecidableEq α] (make : UInt32 → Fin 64 → β) (lanes : Lanes α β) (j : Fin 64) (a : α) :
    Except LaneFull (β × Lanes α β) :=
  ((lanes j).enter (fun place => (checked j place).map (make · j)) a).map fun (number, ledger) =>
    (number, Function.update lanes j ledger)

end Lanes

end Narrowing
