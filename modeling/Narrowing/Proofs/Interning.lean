import Narrowing.Proofs.Atoms
import Narrowing.Storage.Interner

/-!
The life of a store in its tables. Whatever is done, what has a number keeps it, and few
entries are added (`Call.grows`). A call first prepares a node, where it may enter a
name, a list, a shape or a variable, and then enters the node (`Call.run_eq`), so that
it makes one type at most. Entering a node finds its type, or makes the next type of its
lane (`Sound.intern_cases`), as long as the lane has a number for it. That is so along
every history that is not too long (`roomy_of_length`); the last places of a lane have
no number (`Sound.intern_beyond_numbers`).
-/

namespace Narrowing

theorem AtomTable.spelling?_eq_some_iff {t : AtomTable} {n : Name} {text : String} :
    t.spelling? n = some text ↔ ∃ atom, n = ⟨atom.toNat⟩ ∧ t.text? atom = some text := by
  unfold spelling?
  constructor
  · intro known
    split at known
    case isTrue small => exact ⟨n.val.toUInt32, congrArg Name.mk (Nat.mod_eq_of_lt small).symm, known⟩
    case isFalse => cases known
  · rintro ⟨atom, rfl, known⟩
    rw [if_pos atom.toNat_lt, Nat.toUInt32_eq, UInt32.ofNat_toNat, known]

theorem AtomTable.Sound.spelling?_inj {t : AtomTable} {hash : String → UInt64} (sound : t.Sound hash) {m n : Name}
    {text : String} (hm : t.spelling? m = some text) (hn : t.spelling? n = some text) : m = n := by
  obtain ⟨a, rfl, ha⟩ := spelling?_eq_some_iff.mp hm
  obtain ⟨b, rfl, hb⟩ := spelling?_eq_some_iff.mp hn
  rw [sound.text?_inj ha hb]

namespace Interner

variable {h : Hashing} {x x' x'' : Interner}

/-- The types of nodes are primitives or have words. -/
theorem node?_eq_some_iff {t : TypeId} {n : TypeNode} :
    x.node? t = some n ↔ (∃ k, t = k.id ∧ n = .primitive k) ∨
      ∃ w, t = typeOf w ∧ TypeId.first + w.toNat < 0x100000000 ∧ x.types.get? w = some n := by
  unfold node?
  constructor
  · intro known
    split at known
    case h_1 k found => exact .inl ⟨k, Primitive.eq_id_of_primitive? found, (Option.some.inj known).symm⟩
    case h_2 =>
      obtain ⟨w, named, held⟩ := Option.bind_eq_some_iff.mp known
      obtain ⟨same, fits⟩ := word?_eq_some_iff.mp named
      exact .inr ⟨w, same, fits, held⟩
  · rintro (⟨k, rfl, rfl⟩ | ⟨w, rfl, fits, held⟩)
    · rw [Primitive.primitive?_id]
    · have far : ¬ (typeOf w).val < TypeId.first := by rw [typeOf_lt_first_iff]; omega
      have named : word? (typeOf w) = some w := word?_eq_some_iff.mpr ⟨rfl, fits⟩
      cases found : (typeOf w).primitive? with
      | some k => exact absurd (Primitive.eq_id_of_primitive? found ▸ k.id_lt_first) far
      | none => simp only [named, Option.bind_some, held]

theorem node?_primitive (x : Interner) (k : Primitive) : x.node? k.id = some (.primitive k) :=
  node?_eq_some_iff.mpr (.inl ⟨k, rfl, rfl⟩)

/-! ### Growth -/

/-- Everything that has a number in one store is the same in another. -/
structure Keeps (x x' : Interner) : Prop where
  node : ∀ {t n}, x.node? t = some n → x'.node? t = some n
  list : ∀ {l types}, x.list? l = some types → x'.list? l = some types
  record : ∀ {r shape}, x.record? r = some shape → x'.record? r = some shape
  callable : ∀ {c shape}, x.callable? c = some shape → x'.callable? c = some shape
  binder : ∀ {v n}, x.binder? v = some n → x'.binder? v = some n
  text : ∀ {n text}, x.text? n = some text → x'.text? n = some text

theorem Keeps.refl (x : Interner) : x.Keeps x := ⟨id, id, id, id, id, id⟩

theorem Keeps.trans (first : x.Keeps x') (second : x'.Keeps x'') : x.Keeps x'' :=
  ⟨second.node ∘ first.node, second.list ∘ first.list, second.record ∘ first.record,
    second.callable ∘ first.callable, second.binder ∘ first.binder, second.text ∘ first.text⟩

/-- How many entries all tables have together. -/
def entries (x : Interner) : Nat :=
  x.types.size + x.names.size + x.lists.items.size + x.records.items.size + x.callables.items.size + x.binders.size

end Interner

private theorem except_bind_eq_ok {α β ε : Type} {m : Except ε α} {next : α → Except ε β} {b : β} :
    (m >>= next) = .ok b ↔ ∃ a, m = .ok a ∧ next a = .ok b := by
  cases m with
  | error refusal =>
    constructor
    · intro same
      cases same
    · rintro ⟨a, same, -⟩
      cases same
  | ok a =>
    constructor
    · exact fun same => ⟨a, rfl, same⟩
    · rintro ⟨_, same, rest⟩
      cases same
      exact rest

namespace Entering

open Interner

variable {α β : Type} {h : Hashing}

theorem bind_eq_ok {m : Entering α} {next : α → Entering β} {x x'' : Interner} {b : β} :
    (m >>= next) x = .ok (b, x'') ↔ ∃ a x', m x = .ok (a, x') ∧ next a x' = .ok (b, x'') := by
  show (m x >>= fun p => next p.1 p.2) = _ ↔ _
  rw [except_bind_eq_ok, Prod.exists]

/-- What is there is kept, and at most so many entries are added. -/
def Grows (count : Nat) (m : Entering α) : Prop :=
  ∀ x a x', m x = .ok (a, x') → x.Keeps x' ∧ x'.entries ≤ x.entries + count

theorem grows_pure (a : α) : Grows 0 (pure a : Entering α) := by
  intro x _ _ same
  cases same
  exact ⟨.refl x, by omega⟩

theorem grows_get : Grows 0 (get : Entering Interner) := by
  intro x _ _ same
  cases same
  exact ⟨.refl x, by omega⟩

theorem Grows.bind {m : Entering α} {next : α → Entering β} {count more : Nat} (first : m.Grows count)
    (rest : ∀ a, (next a).Grows more) : (m >>= next).Grows (count + more) := by
  intro x b x'' same
  obtain ⟨a, x', done, done'⟩ := bind_eq_ok.mp same
  obtain ⟨keeps, few⟩ := first x a x' done
  obtain ⟨keeps', few'⟩ := rest a x' b x'' done'
  exact ⟨keeps.trans keeps', by omega⟩

theorem Grows.map {m : Entering α} {count : Nat} (grows : m.Grows count) (f : α → β) : (f <$> m).Grows count := by
  rw [map_eq_pure_bind]
  exact grows.bind fun a => grows_pure (f a)

theorem Grows.mono {m : Entering α} {count more : Nat} (grows : m.Grows count) (less : count ≤ more) :
    m.Grows more := by
  intro x a x' same
  obtain ⟨keeps, few⟩ := grows x a x' same
  exact ⟨keeps, by omega⟩

theorem grows_list (types : List TypeId) : (list types).Grows 1 := by
  intro x l x' entered
  unfold list at entered
  split at entered
  · cases entered
    exact ⟨.refl x, by omega⟩
  · obtain ⟨entry, result, same⟩ := except_bind_eq_ok.mp entered
    cases same
    obtain ⟨kept, few⟩ := Ledger.enter_grows result
    refine ⟨⟨id, fun {l types} => kept l.val types, id, id, id, id⟩, ?_⟩
    simp only [entries]
    omega

theorem grows_recordShape (shape : RecordShape) : (recordShape shape).Grows 1 := by
  intro x r x' entered
  obtain ⟨entry, result, same⟩ := except_bind_eq_ok.mp entered
  cases same
  obtain ⟨kept, few⟩ := Ledger.enter_grows result
  refine ⟨⟨id, id, fun {r shape} => kept r.val shape, id, id, id⟩, ?_⟩
  simp only [entries]
  omega

theorem grows_callableShape (shape : CallableShape) : (callableShape shape).Grows 1 := by
  intro x c x' entered
  obtain ⟨entry, result, same⟩ := except_bind_eq_ok.mp entered
  cases same
  obtain ⟨kept, few⟩ := Ledger.enter_grows result
  refine ⟨⟨id, id, id, fun {c shape} => kept c.val shape, id, id⟩, ?_⟩
  simp only [entries]
  omega

theorem grows_binder (name : Name) : (binder name).Grows 1 := by
  intro x v x' entered
  cases entered
  refine ⟨⟨id, id, id, id, fun {v n} found => ?_, id⟩, ?_⟩
  · obtain ⟨inside, -⟩ := Array.getElem?_eq_some_iff.mp found
    show (x.binders.push name)[v.val]? = some n
    rwa [Array.getElem?_push_lt inside, ← Array.getElem?_eq_getElem inside]
  · simp only [entries, Array.size_push]
    omega

theorem name_run (text : String) (x : Interner) :
    name h text x =
      .ok (⟨(x.names.intern h.text text).1.toNat⟩, { x with names := (x.names.intern h.text text).2 }) := rfl

theorem grows_name (text : String) : (name h text).Grows 1 := by
  intro x n x' entered
  rw [name_run, Except.ok.injEq, Prod.mk.injEq] at entered
  obtain ⟨-, rfl⟩ := entered
  obtain ⟨kept, few⟩ := x.names.intern_grows h.text text
  refine ⟨⟨id, id, id, id, id, fun {n s} known => ?_⟩, ?_⟩
  · obtain ⟨atom, rfl, found⟩ := AtomTable.spelling?_eq_some_iff.mp known
    exact AtomTable.spelling?_eq_some_iff.mpr ⟨atom, rfl, kept atom s found⟩
  · simp only [entries]
    omega

theorem grows_intern (node : TypeNode) : (intern h node).Grows 1 := by
  intro x t x' entered
  unfold intern at entered
  split at entered
  · cases entered
    exact ⟨.refl x, by omega⟩
  · obtain ⟨entry, result, same⟩ := except_bind_eq_ok.mp entered
    cases same
    obtain ⟨kept, few⟩ := Lanes.enter_grows result
    refine ⟨⟨fun {u n} known => ?_, id, id, id, id, id⟩, ?_⟩
    · refine node?_eq_some_iff.mpr ((node?_eq_some_iff.mp known).imp_right ?_)
      rintro ⟨w, same, fits, held⟩
      exact ⟨w, same, fits, kept w n held⟩
    · simp only [entries]
      omega

end Entering

/-! ### Calls -/

/-- The entries that are made below the nodes, in computations of some kind. -/
structure Parts (m : Type → Type) where
  name : String → m Name
  binder : Name → m VarId
  list : List TypeId → m ListId
  record : RecordShape → m RecordId
  callable : CallableShape → m CallableId
  flattened : (TypeNode → Option ListId) → List TypeId → m (List TypeId)

def Entering.parts (h : Hashing) : Parts Entering := ⟨name h, binder, list, recordShape, callableShape, flattened⟩

namespace Interner

variable {h : Hashing} {x x' : Interner}

/-- What can be done with a store. -/
inductive Call where
  /-- Give a text a name. -/
  | name (text : String)
  /-- Take a node as it is, whether or not what it refers to is there. -/
  | intern (node : TypeNode)
  | array (element : TypeId)
  /-- Build a record. It is not built if two fields have one name. -/
  | record (isOpen : Bool) (fields : List Field)
  | reference (element : TypeId) (lifetime : Option Name)
  | callable (shape : CallableShape)
  | union (types : List TypeId)
  | intersection (types : List TypeId)
  | negation (operand : TypeId)
  | nominal (decl : DeclId)
  | freshVariable (text : String)
  | unresolved (text : String)

/-- What a call comes to. -/
inductive Answer where
  | name (name : Name)
  | type (type : TypeId)
  /-- A record was not built. -/
  | refused
deriving DecidableEq, Repr

namespace Call

open Entering

def run (h : Hashing) : Call → Entering Answer
  | .name text => .name <$> Entering.name h text
  | .intern node => .type <$> Entering.intern h node
  | .array element => .type <$> Entering.array h element
  | .record isOpen fields =>
    match RecordShape.ofFields? isOpen fields with
    | some shape => .type <$> Entering.record h shape
    | none => return .refused
  | .reference element lifetime => .type <$> Entering.reference h element lifetime
  | .callable shape => .type <$> Entering.callable h shape
  | .union types => .type <$> Entering.union h types
  | .intersection types => .type <$> Entering.intersection h types
  | .negation operand => .type <$> Entering.negation h operand
  | .nominal decl => .type <$> Entering.nominal h decl
  | .freshVariable text => .type <$> Entering.variableNamed h text
  | .unresolved text => .type <$> Entering.unresolved h text

section
variable {m : Type → Type} [Monad m] (parts : Parts m)

/-- What members make: none at all, one, or a node over a list of several. -/
def join (none : TypeId) (node : ListId → TypeNode) : List TypeId → m (Answer ⊕ TypeNode)
  | [] => return .inl (.type none)
  | [t] => return .inl (.type t)
  | members => (.inr ∘ node) <$> parts.list members

/-- The node that a call enters, or its answer if it enters none. -/
def prepare : Call → m (Answer ⊕ TypeNode)
  | .name text => (.inl ∘ .name) <$> parts.name text
  | .intern node => return .inr node
  | .array element => return .inr (.array element)
  | .record isOpen fields =>
    match RecordShape.ofFields? isOpen fields with
    | some shape => (.inr ∘ .record) <$> parts.record shape
    | none => return .inl .refused
  | .reference element lifetime => return .inr (.reference element lifetime)
  | .callable shape => (.inr ∘ .callable) <$> parts.callable shape
  | .union types => do
    join parts .void .union ((← parts.flattened TypeNode.alternatives? types).filter (· ≠ .void))
  | .intersection types => do join parts .any .intersection (← parts.flattened TypeNode.operands? types)
  | .negation operand => return .inr (.negation operand)
  | .nominal decl => return .inr (.nominal decl)
  | .freshVariable text => do return .inr (.var (← parts.binder (← parts.name text)))
  | .unresolved text => (.inr ∘ .unresolved) <$> parts.name text

/-- Enter the node that was prepared. -/
def finish (intern : TypeNode → m TypeId) : Answer ⊕ TypeNode → m Answer
  | .inl answer => return answer
  | .inr node => .type <$> intern node

end

theorem run_eq (c : Call) : c.run h = c.prepare (parts h) >>= finish (Entering.intern h) := by
  cases c with
  | record isOpen fields =>
    simp only [run, prepare]
    split <;> simp [finish, parts, Entering.record]
  | union types =>
    simp only [run, prepare, Entering.union, map_bind, bind_assoc]
    congr 1
    funext flat
    generalize flat.filter (· ≠ .void) = members
    rcases members with _ | ⟨t, _ | ⟨u, rest⟩⟩ <;> simp [join, finish, parts]
  | intersection types =>
    simp only [run, prepare, Entering.intersection, map_bind, bind_assoc]
    congr 1
    funext members
    rcases members with _ | ⟨t, _ | ⟨u, rest⟩⟩ <;> simp [join, finish, parts]
  | _ =>
    simp [run, prepare, finish, parts, Entering.array, Entering.reference, Entering.callable, Entering.negation,
      Entering.nominal, variableNamed, Entering.unresolved]

theorem grows_join (none : TypeId) (node : ListId → TypeNode) (members : List TypeId) :
    (join (parts h) none node members).Grows 1 := by
  unfold join
  split
  · exact (grows_pure _).mono (by omega)
  · exact (grows_pure _).mono (by omega)
  · exact (grows_list _).map _

theorem grows_prepare (c : Call) : (c.prepare (parts h)).Grows 2 := by
  cases c with
  | name | unresolved => exact ((grows_name _).map _).mono (by omega)
  | record isOpen fields =>
    simp only [prepare]
    split
    · exact ((grows_recordShape _).map _).mono (by omega)
    · exact (grows_pure _).mono (by omega)
  | callable => exact ((grows_callableShape _).map _).mono (by omega)
  | union | intersection =>
    exact ((grows_get.bind fun _ => grows_pure _).bind fun _ => grows_join _ _ _).mono (by omega)
  | freshVariable => exact (grows_name _).bind fun _ => (grows_binder _).bind fun _ => grows_pure _
  | intern | array | reference | negation | nominal => exact (grows_pure _).mono (by omega)

/-- A call keeps what is there, and adds three entries at most. -/
theorem grows (c : Call) : (c.run h).Grows 3 := by
  have entered (prepared : Answer ⊕ TypeNode) : (finish (Entering.intern h) prepared).Grows 1 := by
    cases prepared with
    | inl answer => exact (grows_pure answer).mono (by omega)
    | inr node => exact (grows_intern node).map _
  rw [run_eq]
  exact (grows_prepare c).bind entered

end Call

/-- Some calls, one after the other. -/
def performAll (h : Hashing) (calls : List Call) : Entering (List Answer) := calls.mapM (Call.run h)

theorem performAll_cons (c : Call) (calls : List Call) :
    performAll h (c :: calls) = do return (← c.run h) :: (← performAll h calls) := List.mapM_cons

/-- Along a history everything keeps its number. -/
theorem keeps_performAll {calls : List Call} {answers : List Answer}
    (done : performAll h calls x = .ok (answers, x')) : x.Keeps x' := by
  induction calls generalizing x answers with
  | nil =>
    cases done
    exact .refl _
  | cons c calls ih =>
    rw [performAll_cons] at done
    obtain ⟨answer, x1, first, rest⟩ := Entering.bind_eq_ok.mp done
    obtain ⟨later, x2, others, same⟩ := Entering.bind_eq_ok.mp rest
    cases same
    exact (c.grows x answer x1 first).1.trans (ih others)

/-! ### Room -/

/-- Every lane and every counter has a number for one more entry. -/
structure HasRoom (x : Interner) : Prop where
  types : ∀ j, TypeId.first + (64 * (x.types j).items.size + j.val) < 0x100000000
  names : ∀ j, (x.names.lanes j).items.size < Lanes.places
  lists : x.lists.items.size < 0x100000000
  records : x.records.items.size < 0x100000000
  callables : x.callables.items.size < 0x100000000
  binders : x.binders.size < 0x100000000

/-- No store along a history fills up. -/
def Roomy (h : Hashing) : Interner → List Call → Prop
  | x, [] => x.HasRoom
  | x, c :: calls => x.HasRoom ∧ ∀ answer x', c.run h x = .ok (answer, x') → Roomy h x' calls

theorem hasRoom_of_entries (few : x.entries < 0x3FFFFFE) : x.HasRoom := by
  have types := x.types.size_lane_le
  have names := x.names.lanes.size_lane_le
  unfold entries AtomTable.size at few
  refine ⟨fun j => ?_, fun j => ?_, ?_, ?_, ?_, ?_⟩
  · have lane := types j
    have bounded := j.isLt
    simp only [TypeId.first]
    omega
  · have lane := names j
    simp only [Lanes.places]
    omega
  all_goals omega

theorem roomy_of_entries {calls : List Call} (few : x.entries + 3 * calls.length < 0x3FFFFFE) : Roomy h x calls := by
  induction calls generalizing x with
  | nil => exact hasRoom_of_entries (by simpa using few)
  | cons c calls ih =>
    rw [List.length_cons] at few
    refine ⟨hasRoom_of_entries (by omega), fun answer x' done => ih ?_⟩
    have added := (c.grows x answer x' done).2
    omega

theorem entries_new_le (h : Hashing) : (new h).entries ≤ 38 := by
  have types : (new h).types.size = 0 := by simp [new, Lanes.size, Ledger.empty]
  have names := AtomTable.size_internAll_le h.text .empty NameTable.frequent
  have blank : AtomTable.empty.size = 1 := (AtomTable.represents_empty : AtomTable.empty.Represents h.text _).size_eq
  rw [blank] at names
  calc (new h).entries = (AtomTable.empty.internFrequent h.text).size + 1 := by
        rw [entries, types]
        simp [new, Ledger.append, Ledger.empty]
    _ ≤ 38 := Nat.succ_le_succ names

/-- A history of a new store fills nothing up unless it has more than twenty million calls. -/
theorem roomy_of_length {calls : List Call} (few : 3 * calls.length + 38 < 0x3FFFFFE) : Roomy h (new h) calls := by
  have start := entries_new_le h
  exact roomy_of_entries (by omega)

/-! ### Types -/

theorem typeOf_inj {v w : UInt32} (fitsV : TypeId.first + v.toNat < 0x100000000)
    (fitsW : TypeId.first + w.toNat < 0x100000000) (same : typeOf v = typeOf w) : v = w := by
  have named : word? (typeOf v) = some w := word?_eq_some_iff.mpr ⟨same, fitsW⟩
  rw [word?_eq_some_iff.mpr ⟨rfl, fitsV⟩] at named
  exact Option.some.inj named

section
variable {v : UInt32} (fits : TypeId.first + v.toNat < 0x100000000)
include fits

theorem node?_typeOf_eq (x : Interner) : x.node? (typeOf v) = x.types.get? v := by
  apply Option.ext
  intro n
  rw [node?_eq_some_iff]
  constructor
  · rintro (⟨k, same, -⟩ | ⟨w, same, fitsW, held⟩)
    · have reserved := same ▸ k.id_lt_first
      rw [typeOf_lt_first_iff] at reserved
      omega
    · rwa [typeOf_inj fits fitsW same]
  · exact fun held => .inr ⟨v, rfl, fits, held⟩

/-- One word more is one type more. -/
theorem node?_of_words {node : TypeNode}
    (words : ∀ w, x'.types.get? w = if w = v then some node else x.types.get? w) (u : TypeId) :
    x'.node? u = if u = typeOf v then some node else x.node? u := by
  by_cases here : u = typeOf v
  · rw [if_pos here, here, node?_typeOf_eq fits, words, if_pos rfl]
  · rw [if_neg here]
    apply Option.ext
    intro n
    rw [node?_eq_some_iff, node?_eq_some_iff]
    refine or_congr_right (exists_congr fun w => and_congr_right fun same => ?_)
    have other : w ≠ v := by
      rintro rfl
      exact here same
    rw [words, if_neg other]

end

/-- The nodes are in order, each has a type of its own, and none is a primitive. -/
structure Sound (h : Hashing) (x : Interner) : Prop where
  lanes : x.types.Sound (fun place _ => place) fun n => Lanes.assigned (h.node n)
  numbered : ∀ {w n}, x.types.get? w = some n → TypeId.first + w.toNat < 0x100000000
  built : ∀ {w k}, x.types.get? w ≠ some (.primitive k)

theorem Sound.of_types (sound : x.Sound h) (same : x'.types = x.types) : x'.Sound h := by
  refine ⟨?_, ?_, ?_⟩ <;> rw [same]
  · exact sound.lanes
  · exact sound.numbered
  · exact sound.built

theorem sound_new (h : Hashing) : (new h).Sound h := by
  have nothing (w : UInt32) : (new h).types.get? w = none := rfl
  refine ⟨⟨fun j => Ledger.sound_empty, fun j => Nat.zero_le _, fun {j i n} held => ?_⟩, ?_, ?_⟩
  · simp [new, Ledger.empty] at held
  · simp [nothing]
  · simp [nothing]

theorem intern_of_enter {node : TypeNode} {place : UInt32} {types : Lanes TypeNode UInt32}
    (other : node.primitive? = none)
    (entered : x.types.enter (fun place _ => place) (Lanes.assigned (h.node node)) node = .ok (place, types)) :
    Entering.intern h node x = .ok (typeOf (Lanes.pack place (Lanes.assigned (h.node node))), { x with types }) := by
  unfold Entering.intern
  simp only [other, entered]
  rfl

section
variable (sound : x.Sound h)
include sound

/-- A node belongs to one type. -/
theorem Sound.node?_inj {t u : TypeId} {n : TypeNode} (ht : x.node? t = some n) (hu : x.node? u = some n) : t = u := by
  rcases node?_eq_some_iff.mp ht with ⟨k, rfl, rfl⟩ | ⟨v, rfl, -, heldV⟩ <;>
    rcases node?_eq_some_iff.mp hu with ⟨m, rfl, same⟩ | ⟨w, rfl, -, heldW⟩
  · rw [TypeNode.primitive.inj same]
  · exact absurd heldW sound.built
  · exact absurd (same ▸ heldV) sound.built
  · rw [sound.lanes.get?_inj heldV heldW]

/-- A new node can be put at the end of its lane, if there is a number for it. -/
theorem Sound.append {node : TypeNode} (other : node.primitive? = none) (new : ∀ w, x.types.get? w ≠ some node)
    (place : (x.types (Lanes.assigned (h.node node))).items.size < Lanes.places)
    (fits : TypeId.first + (x.types.next (Lanes.assigned (h.node node))).toNat < 0x100000000) :
    Sound h { x with types := x.types.append (fun place _ => place) (Lanes.assigned (h.node node)) node } := by
  have words := Lanes.get?_append place (fun place _ => place) node
  refine ⟨sound.lanes.append new place, fun {w n} held => ?_, fun {w k} held => ?_⟩
  · rw [words] at held
    split at held
    case isTrue same => rwa [same]
    case isFalse => exact sound.numbered held
  · rw [words] at held
    split at held
    case isTrue =>
      obtain rfl := Option.some.inj held
      cases other
    case isFalse => exact sound.built held

/-- Entering a node finds its type, or makes a new type. -/
theorem Sound.intern_cases (room : ∀ j, TypeId.first + (64 * (x.types j).items.size + j.val) < 0x100000000)
    (node : TypeNode) :
    (∃ t, x.node? t = some node ∧ Entering.intern h node x = .ok (t, x)) ∨
    ∃ t types, Entering.intern h node x = .ok (t, { x with types }) ∧ node.primitive? = none ∧
      (∀ u, x.node? u ≠ some node) ∧ x.node? t = none ∧ Sound h { x with types } ∧
      (∀ u, node? { x with types } u = if u = t then some node else x.node? u) ∧ types.size = x.types.size + 1 := by
  cases other : node.primitive? with
  | some k =>
    rw [TypeNode.eq_primitive_of_primitive? other]
    exact .inl ⟨k.id, x.node?_primitive k, rfl⟩
  | none =>
    rcases sound.lanes.enter_cases node with ⟨w, held, result⟩ | ⟨new, place, result⟩ | ⟨-, full, -⟩
    · have here : Lanes.assigned (h.node node) = Lanes.lane w := sound.lanes.assigned held
      have known : x.node? (typeOf w) = some node := by rw [node?_typeOf_eq (sound.numbered held), held]
      refine .inl ⟨typeOf w, known, ?_⟩
      rw [intern_of_enter other result, here, Lanes.pack_place_lane]
    · have fits : TypeId.first + (x.types.next (Lanes.assigned (h.node node))).toNat < 0x100000000 := by
        rw [Lanes.toNat_next place]
        exact room _
      have free := Lanes.get?_next place
      have words := Lanes.get?_append place (fun place _ => place) node
      refine .inr ⟨_, _, intern_of_enter other result, rfl, fun u known => ?_, (node?_typeOf_eq fits x).trans free,
        sound.append other new place fits, node?_of_words fits words, Lanes.size_append ..⟩
      rcases node?_eq_some_iff.mp known with ⟨k, -, rfl⟩ | ⟨w, -, -, held⟩
      · cases other
      · exact new w held
    · have small := room (Lanes.assigned (h.node node))
      rw [full] at small
      simp only [Lanes.places, TypeId.first] at small
      omega

/-- Where a lane has a place left but no number, a new node is answered by a reserved type, which does not stand for
    it. -/
theorem Sound.intern_beyond_numbers {node : TypeNode} (other : node.primitive? = none)
    (new : ∀ u, x.node? u ≠ some node)
    (place : (x.types (Lanes.assigned (h.node node))).items.size < Lanes.places)
    (beyond : 0x100000000 ≤ TypeId.first +
      (64 * (x.types (Lanes.assigned (h.node node))).items.size + (Lanes.assigned (h.node node)).val)) :
    ∃ t x', Entering.intern h node x = .ok (t, x') ∧ t.val < TypeId.first ∧ x'.node? t ≠ some node := by
  rcases sound.lanes.enter_cases node with ⟨w, held, -⟩ | ⟨-, -, result⟩ | ⟨-, full, -⟩
  · exact absurd ((node?_typeOf_eq (sound.numbered held) x).trans held) (new _)
  · have reserved : (typeOf (x.types.next (Lanes.assigned (h.node node)))).val < TypeId.first := by
      rwa [typeOf_lt_first_iff, Lanes.toNat_next place]
    refine ⟨_, _, intern_of_enter other result, reserved, fun known => ?_⟩
    rcases node?_eq_some_iff.mp known with ⟨k, -, rfl⟩ | ⟨w, same, fits, -⟩
    · cases other
    · have reserved' : (typeOf w).val < TypeId.first := same ▸ reserved
      rw [typeOf_lt_first_iff] at reserved'
      omega
  · omega

end

end Interner

end Narrowing
