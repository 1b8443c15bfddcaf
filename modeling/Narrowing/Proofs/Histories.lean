import Narrowing.Proofs.Growth
import Narrowing.Refinement
import Narrowing.TypeExpr

/-!
Histories of a store. Whatever operation is carried out on a store, and whether or
not it has a result, everything that had a number before has the same number after
it (`keeps_run`), and so it is along every history (`keeps_after`).
-/

namespace Narrowing

/-- Everything that has a number in one store is the same in another: parts of types, variables and names. -/
structure TypeStore.Keeps (s s' : TypeStore) : Prop extends s.Extends s' where
  binder : ∀ {v n}, s.binder? v = some n → s'.binder? v = some n
  text : ∀ {n text}, s.names.text? n = some text → s'.names.text? n = some text

theorem TypeStore.Keeps.refl (s : TypeStore) : s.Keeps s := ⟨.refl s, id, id⟩

theorem TypeStore.Keeps.trans {s s' s'' : TypeStore} (first : s.Keeps s') (second : s'.Keeps s'') : s.Keeps s'' :=
  ⟨first.toExtends.trans second.toExtends, second.binder ∘ first.binder, second.text ∘ first.text⟩

/-! ### Constructions -/

namespace Build

/-- A construction keeps everything that is there, in whatever store it runs. -/
def Growing {α : Type} (b : Build α) : Prop := ∀ s : TypeStore, s.Keeps (b s).2

section
variable {α β : Type}

theorem growing_pure (a : α) : Growing (pure a : Build α) := fun s => .refl s

theorem growing_get : Growing (get : Build TypeStore) := fun s => .refl s

theorem growing_bind {b : Build α} {next : α → Build β} (first : b.Growing) (rest : ∀ a, (next a).Growing) :
    Growing (b >>= next) :=
  fun s => (first s).trans (rest (b s).1 (b s).2)

end

theorem growing_name (text : String) : (name text).Growing :=
  fun _ => ⟨⟨id, id, id, id⟩, id, NameTable.text?_intern_of_text? text⟩

theorem growing_intern (node : TypeNode) : (intern node).Growing := by
  intro s
  refine ⟨extends_intern node s, ?_, ?_⟩ <;>
  · intro _ _ found
    unfold intern
    split <;> exact found

theorem growing_list (types : List TypeId) : (list types).Growing := fun s => ⟨extends_list types s, id, id⟩

theorem growing_record (shape : RecordShape) : (record shape).Growing := by
  refine growing_bind (fun s => ?_) fun r => growing_intern _
  exact ⟨⟨id, id, Pool.get?_intern_of_get? shape, id⟩, id, id⟩

theorem growing_callable (shape : CallableShape) : (callable shape).Growing := by
  refine growing_bind (fun s => ?_) fun c => growing_intern _
  exact ⟨⟨id, id, id, Pool.get?_intern_of_get? shape⟩, id, id⟩

theorem growing_variableNamed (text : String) : (variableNamed text).Growing := by
  refine growing_bind (growing_name text) fun n => growing_bind (fun s => ?_) fun v => growing_intern _
  refine ⟨⟨id, id, id, id⟩, ?_, id⟩
  intro v m found
  obtain ⟨inside, -⟩ := Array.getElem?_eq_some_iff.mp found
  show (s.binders.push n)[v.val]? = some m
  rwa [Array.getElem?_push_lt inside, ← Array.getElem?_eq_getElem inside]

theorem growing_flattened (part? : TypeNode → Option ListId) (types : List TypeId) :
    (flattened part? types).Growing :=
  growing_bind growing_get fun _ => growing_pure _

theorem growing_union (types : List TypeId) : (union types).Growing := by
  refine growing_bind (growing_flattened _ types) fun members => ?_
  split
  · exact growing_pure _
  · exact growing_pure _
  · exact growing_bind (growing_list _) fun l => growing_intern _

theorem growing_intersection (types : List TypeId) : (intersection types).Growing := by
  refine growing_bind (growing_flattened _ types) fun members => ?_
  split
  · exact growing_pure _
  · exact growing_pure _
  · exact growing_bind (growing_list _) fun l => growing_intern _

end Build

mutual

/-- Refinement enters types, and changes none. -/
theorem growing_refine (ds : Declarations) (source : TypeId) :
    ∀ selector, Build.Growing (refine ds source selector)
  | .top | .bottom => by
    rw [refine]
    exact Build.growing_pure _
  | .array item => by
    rw [refine]
    refine Build.growing_bind Build.growing_get fun s => ?_
    split
    · refine Build.growing_bind (growing_refine ds _ item) fun refined => ?_
      exact Build.growing_bind (Build.growing_intern _) fun t => Build.growing_pure _
    · exact Build.growing_pure _
  | .record items => by
    rw [refine]
    refine Build.growing_bind Build.growing_get fun s => ?_
    split
    · split
      · refine Build.growing_bind (growing_refineAll ds _ items) fun refined => ?_
        exact Build.growing_bind (Build.growing_record _) fun t => Build.growing_pure _
      · exact Build.growing_pure _
    · exact Build.growing_pure _
  | .union items => by
    rw [refine]
    refine Build.growing_bind Build.growing_get fun s => ?_
    split
    · split
      · refine Build.growing_bind (growing_refineKept ds _ items) fun refined => ?_
        exact Build.growing_bind (Build.growing_union _) fun t => Build.growing_pure _
      · exact Build.growing_pure _
    · exact Build.growing_pure _

theorem growing_refineAll (ds : Declarations) : ∀ sources items, Build.Growing (refineAll ds sources items)
  | source :: sources, item :: items => by
    rw [refineAll]
    refine Build.growing_bind (growing_refine ds source item) fun refined => ?_
    exact Build.growing_bind (growing_refineAll ds sources items) fun rest => Build.growing_pure _
  | [], _ | _ :: _, [] => by
    rw [refineAll]
    · exact Build.growing_pure _
    · simp

theorem growing_refineKept (ds : Declarations) : ∀ sources items, Build.Growing (refineKept ds sources items)
  | source :: sources, item :: items => by
    rw [refineKept]
    split
    · exact growing_refineKept ds sources items
    · refine Build.growing_bind (growing_refine ds source item) fun refined => ?_
      exact Build.growing_bind (growing_refineKept ds sources items) fun rest => Build.growing_pure _
  | [], _ | _ :: _, [] => by
    rw [refineKept]
    · exact Build.growing_pure _
    · simp

end

/-! ### Operations -/

/-- What can be done with a store. -/
inductive Operation where
  /-- Give a text a name. -/
  | name (text : String)
  /-- Take a node as it is, whether or not what it refers to is there. -/
  | intern (node : TypeNode)
  | array (element : TypeId)
  /-- Build a record. It is not built if two fields have one name. -/
  | record (isOpen : Bool) (fields : List Field)
  | reference (element : TypeId) (lifetime : Option Name)
  | callable (shape : CallableShape)
  | union (types : List TypeId)
  | intersection (types : List TypeId)
  | negation (operand : TypeId)
  | nominal (decl : DeclId)
  | freshVariable (text : String)
  | unresolved (text : String)
  | refine (declarations : Declarations) (source : TypeId) (selector : Selector)

/-- The store after an operation. -/
def Operation.run : Operation → TypeStore → TypeStore
  | .name text, s => (Build.name text s).2
  | .intern node, s => (Build.intern node s).2
  | .array element, s => (Build.array element s).2
  | .record isOpen fields, s => (Build.recordOfFields isOpen fields s).2
  | .reference element lifetime, s => (Build.reference element lifetime s).2
  | .callable shape, s => (Build.callable shape s).2
  | .union types, s => (Build.union types s).2
  | .intersection types, s => (Build.intersection types s).2
  | .negation operand, s => (Build.negation operand s).2
  | .nominal decl, s => (Build.nominal decl s).2
  | .freshVariable text, s => (Build.variableNamed text s).2
  | .unresolved text, s => (Build.unresolved text s).2
  | .refine ds source selector, s => (Narrowing.refine ds source selector s).2

namespace TypeStore

/-- The store after a history of operations. -/
def after (s : TypeStore) (history : List Operation) : TypeStore := history.foldl (fun s op => op.run s) s

theorem keeps_run (s : TypeStore) (op : Operation) : s.Keeps (op.run s) := by
  cases op with
  | name text => exact Build.growing_name text s
  | record isOpen fields =>
    rw [Operation.run, Build.recordOfFields]
    cases RecordShape.ofFields? isOpen fields with
    | some shape => exact Build.growing_record shape s
    | none => exact .refl s
  | callable shape => exact Build.growing_callable shape s
  | union types => exact Build.growing_union types s
  | intersection types => exact Build.growing_intersection types s
  | freshVariable text => exact Build.growing_variableNamed text s
  | unresolved text => exact Build.growing_bind (Build.growing_name text) (fun n => Build.growing_intern _) s
  | refine ds source selector => exact growing_refine ds source selector s
  | intern | array | reference | negation | nominal => exact Build.growing_intern _ s

/-- Along a history everything keeps its number. -/
theorem keeps_after (s : TypeStore) (history : List Operation) : s.Keeps (s.after history) := by
  induction history generalizing s with
  | nil => exact .refl s
  | cons op history ih => exact (s.keeps_run op).trans (ih (op.run s))

end TypeStore

end Narrowing
