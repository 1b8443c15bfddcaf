import Narrowing.Proofs.Ledgers
import Narrowing.Type.Store
import Mathlib.Data.List.Nodup

/-!
Other numbers for types and names. A renumbering keeps different ones apart and leaves
primitives as they are, so it tells nodes and shapes apart as before. There is one that
counts given types in a given order and gives every known text its name in a given table
(`exists_renumbering`). A ledger and a pool that hold the same values, renumbered, give
them the same places (`Ledger.Mirrors.enter`).
-/

namespace Narrowing

/-- Other numbers for types and names. -/
structure Renumbering where
  type : TypeId → TypeId
  name : Name → Name
  type_injective : Function.Injective type
  name_injective : Function.Injective name
  type_primitive : ∀ k : Primitive, type k.id = k.id

namespace Renumbering

section
variable (r : Renumbering)

def field (f : Field) : Field := ⟨r.name f.name, r.type f.type⟩

theorem names_map_field (fields : List Field) :
    (fields.map r.field).map Field.name = (fields.map Field.name).map r.name := by
  rw [List.map_map, List.map_map]
  rfl

theorem types_map_field (fields : List Field) :
    (fields.map r.field).map Field.type = (fields.map Field.type).map r.type := by
  rw [List.map_map, List.map_map]
  rfl

def record (shape : RecordShape) : RecordShape where
  isOpen := shape.isOpen
  fields := shape.fields.map r.field
  distinct := by
    rw [names_map_field]
    exact shape.distinct.map r.name_injective

def callable (shape : CallableShape) : CallableShape where
  kind := shape.kind
  params := shape.params.map r.type
  returns := shape.returns.map r.type
  captured := shape.captured.map r.name
  lifetimeParams := shape.lifetimeParams.map r.name

/-- The node with its types and names renumbered. Lists, shapes and variables keep their numbers. -/
def node : TypeNode → TypeNode
  | .array element => .array (r.type element)
  | .reference element lifetime => .reference (r.type element) (lifetime.map r.name)
  | .negation operand => .negation (r.type operand)
  | .unresolved name => .unresolved (r.name name)
  | other => other

end

variable {r : Renumbering}

theorem field_injective : Function.Injective r.field := by
  rintro ⟨name, type⟩ ⟨name', type'⟩ same
  simp only [field, Field.mk.injEq] at same
  rw [r.name_injective same.1, r.type_injective same.2]

theorem record_injective : Function.Injective r.record := by
  rintro ⟨isOpen, fields, _⟩ ⟨isOpen', fields', _⟩ same
  simp only [record, RecordShape.mk.injEq] at same
  obtain ⟨rfl, sameFields⟩ := same
  obtain rfl := field_injective.list_map sameFields
  rfl

theorem callable_injective : Function.Injective r.callable := by
  rintro ⟨kind, params, returns, captured, lifetimes⟩ ⟨kind', params', returns', captured', lifetimes'⟩ same
  simp only [callable, CallableShape.mk.injEq] at same
  obtain ⟨rfl, sameParams, sameReturns, sameCaptured, sameLifetimes⟩ := same
  rw [r.type_injective.list_map sameParams, r.type_injective.list_map sameReturns,
    r.name_injective.list_map sameCaptured, r.name_injective.list_map sameLifetimes]

theorem node_injective : Function.Injective r.node := by
  have lifetimes {a b : Option Name} : a.map r.name = b.map r.name ↔ a = b :=
    (Option.map_injective r.name_injective).eq_iff
  intro n m
  cases n <;> cases m <;> simp [node, r.type_injective.eq_iff, r.name_injective.eq_iff, lifetimes]

theorem primitive?_node (n : TypeNode) : (r.node n).primitive? = n.primitive? := by cases n <;> rfl

end Renumbering

/-! ### Finding a renumbering -/

/-- The place of a type among given ones; others have later places. -/
def placeIn (born : List TypeId) (t : TypeId) : Nat := if t ∈ born then born.idxOf t else born.length + t.val

theorem placeIn_injective (born : List TypeId) : Function.Injective (placeIn born) := by
  have inside {t : TypeId} (member : t ∈ born) : born.idxOf t < born.length := List.idxOf_lt_length_of_mem member
  intro t u same
  by_cases ht : t ∈ born <;> by_cases hu : u ∈ born <;> simp only [placeIn, ht, hu, if_true, if_false] at same
  · exact (List.idxOf_inj ht).mp same
  · have := inside ht
    omega
  · have := inside hu
    omega
  · obtain ⟨⟨t⟩, ⟨u⟩⟩ := t, u
    simpa using same

/-- Given types can be counted in their order, while reserved types are as they were. -/
theorem exists_numbering {born : List TypeId} (nodup : born.Nodup) (far : ∀ t ∈ born, TypeId.first ≤ t.val) :
    ∃ f : TypeId → TypeId, Function.Injective f ∧ (∀ t, t.val < TypeId.first → f t = t) ∧
      ∀ (i : Nat) t, born[i]? = some t → f t = ⟨TypeId.first + i⟩ := by
  refine ⟨fun t => if t.val < TypeId.first then t else ⟨TypeId.first + placeIn born t⟩, ?_,
    fun t reserved => if_pos reserved, ?_⟩
  · intro t u same
    simp only at same
    split at same <;> split at same
    case isTrue.isTrue => exact same
    case isTrue.isFalse reserved _ =>
      rw [same] at reserved
      exact absurd reserved (Nat.not_lt.mpr (Nat.le_add_right ..))
    case isFalse.isTrue reserved =>
      rw [← same] at reserved
      exact absurd reserved (Nat.not_lt.mpr (Nat.le_add_right ..))
    case isFalse.isFalse => exact placeIn_injective born (Nat.add_left_cancel (TypeId.mk.inj same))
  · intro i t listed
    obtain ⟨inside, rfl⟩ := List.getElem?_eq_some_iff.mp listed
    have member := List.getElem_mem inside
    simp only
    rw [if_neg (Nat.not_lt.mpr (far _ member)), placeIn, if_pos member, nodup.idxOf_getElem i inside]

/-- Texts can be given their names in a table, while all other names are unknown to it. -/
theorem exists_naming {text? : Name → Option String} (inj : ∀ {m n s}, text? m = some s → text? n = some s → m = n)
    {table : NameTable} (known : ∀ {n s}, text? n = some s → ∃ m, table.text? m = some s) :
    ∃ f : Name → Name, Function.Injective f ∧ ∀ {n s}, text? n = some s → table.text? (f n) = some s := by
  let f (n : Name) : Name :=
    match text? n with
    | some s => (table.intern s).1
    | none => ⟨Name.first + (table.texts.size + n.val)⟩
  have named {n : Name} {s : String} (found : text? n = some s) : table.text? (f n) = some s := by
    obtain ⟨m, name⟩ := known found
    simp only [f, found]
    rwa [NameTable.intern_of_text? name]
  have unnamed {n : Name} (other : text? n = none) : table.text? (f n) = none := by
    simp only [f, other]
    rw [NameTable.text?_eq_get?]
    exact Array.getElem?_eq_none (Nat.le_add_right ..)
  refine ⟨f, fun m n same => ?_, named⟩
  cases hm : text? m with
  | some s =>
    have first := same ▸ named hm
    cases hn : text? n with
    | some r => exact inj hm (hn.trans ((named hn).symm.trans first))
    | none => cases first.symm.trans (unnamed hn)
  | none =>
    cases hn : text? n with
    | some r => cases (unnamed hm).symm.trans (same ▸ named hn)
    | none =>
      simp only [f, hm, hn, Name.mk.injEq] at same
      obtain ⟨⟨m⟩, ⟨n⟩⟩ := m, n
      exact congrArg Name.mk (by simpa using same)

theorem exists_renumbering {born : List TypeId} (nodup : born.Nodup) (far : ∀ t ∈ born, TypeId.first ≤ t.val)
    {text? : Name → Option String} (inj : ∀ {m n s}, text? m = some s → text? n = some s → m = n)
    {table : NameTable} (known : ∀ {n s}, text? n = some s → ∃ m, table.text? m = some s) :
    ∃ r : Renumbering, (∀ (i : Nat) t, born[i]? = some t → r.type t = ⟨TypeId.first + i⟩) ∧
      ∀ {n s}, text? n = some s → table.text? (r.name n) = some s := by
  obtain ⟨type, type_injective, reserved, counted⟩ := exists_numbering nodup far
  obtain ⟨name, name_injective, named⟩ := exists_naming inj known
  exact ⟨⟨type, name, type_injective, name_injective, fun k => reserved k.id k.id_lt_first⟩, counted, named⟩

/-! ### Places -/

/-- A value that is not there is put at the end. -/
theorem Pool.intern_of_absent {α : Type} [DecidableEq α] {p : Pool α} {a : α} (absent : ∀ i, p.get? i ≠ some a) :
    (p.intern a).1 = p.size ∧ (p.intern a).2.items = p.items.push a := by
  have new := find?_eq_none_iff.mpr absent
  unfold intern
  split
  case h_1 found => cases new.symm.trans found
  case h_2 => exact ⟨rfl, rfl⟩

/-- A pool holds the values of a ledger at their places, up to the map `f`. -/
structure Ledger.Mirrors {α β : Type} (f : α → β) (l : Ledger α UInt32) (p : Pool β) : Prop where
  sound : l.Sound (Except.ok : UInt32 → Except LaneFull UInt32)
  items : p.items = l.items.map f

namespace Ledger.Mirrors

variable {α β : Type} {f : α → β} {l : Ledger α UInt32} {p : Pool β} (mirrors : l.Mirrors f p)
include mirrors

theorem get?_eq (i : Nat) : p.get? i = l.items[i]?.map f := by
  rw [Pool.get?, mirrors.items, Array.getElem?_map]

/-- A value is entered in step if there is a number for it. -/
theorem enter [DecidableEq α] [DecidableEq β] (inj : Function.Injective f) (room : l.items.size < 0x100000000) (a : α) :
    ∃ i l', l.enter (Except.ok : UInt32 → Except LaneFull UInt32) a = .ok (i, l') ∧ (p.intern (f a)).1 = i.toNat ∧
      l'.Mirrors f (p.intern (f a)).2 := by
  rcases l.enter_cases Except.ok a with ⟨number, known, result⟩ | ⟨number, new, minted, result⟩ | ⟨_, -, minted, -⟩
  · obtain ⟨i, held⟩ := mirrors.sound.placed known
    obtain ⟨other, minted, known'⟩ := mirrors.sound.numbered held
    obtain rfl : number = i.toUInt32 := by
      rw [Option.some.inj (known.symm.trans known'), Except.ok.inj minted]
    have there : p.get? i = some (f a) := by rw [mirrors.get?_eq, held, Option.map_some]
    obtain ⟨inside, -⟩ := Array.getElem?_eq_some_iff.mp held
    refine ⟨_, l, result, ?_, ?_⟩ <;> rw [Pool.intern_of_get? there]
    · exact (Nat.mod_eq_of_lt (Nat.lt_trans inside room)).symm
    · exact mirrors
  · obtain rfl := Except.ok.inj minted
    have absent (i : Nat) : p.get? i ≠ some (f a) := by
      intro held
      rw [mirrors.get?_eq] at held
      obtain ⟨b, there, same⟩ := Option.map_eq_some_iff.mp held
      exact mirrors.sound.numbers_eq_none_iff.mp new i (inj same ▸ there)
    obtain ⟨place, items⟩ := Pool.intern_of_absent absent
    refine ⟨_, _, result, ?_, mirrors.sound.append new rfl, ?_⟩
    · rw [place, Pool.size, mirrors.items, Array.size_map]
      exact (Nat.mod_eq_of_lt room).symm
    · rw [items, mirrors.items, Ledger.append, Array.map_push]
  · cases minted

end Ledger.Mirrors

end Narrowing
