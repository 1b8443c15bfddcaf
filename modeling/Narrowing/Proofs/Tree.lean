import Narrowing.Proofs.Histories
import Mathlib.Data.List.Forall2

/-!
Types as trees. A tree shows a type in full: the texts of its names, and its parts
in place of their numbers. In a store a type and its tree determine each other
(`Depicts.eq_iff`), since every table holds each entry once, and a type keeps its
tree while the store grows (`Depicts.of_keeps`).
-/

namespace Narrowing

/-- One layer of a type, without the parts that stand below it. -/
inductive Layer where
  | primitive (kind : Primitive)
  | array
  | record (isOpen : Bool) (names : List String)
  | reference (lifetime : Option String)
  /-- The parts are the parameters, as many as given, and then the results. -/
  | callable (kind : CallableKind) (params : Nat) (captured lifetimeParams : List String)
  | union
  | intersection
  | negation
  | nominal (decl : DeclId)
  | var (binder : VarId)
  | unresolved (name : String)
deriving DecidableEq, Repr

/-- A type in full. -/
inductive Tree where
  | node (layer : Layer) (parts : List Tree)
deriving Repr

namespace Tree

mutual

/-- Whether two trees are the same. -/
def same : Tree → Tree → Bool
  | .node l xs, .node m ys => l = m && sameAll xs ys

def sameAll : List Tree → List Tree → Bool
  | [], [] => true
  | x :: xs, y :: ys => same x y && sameAll xs ys
  | _, _ => false

end

mutual

theorem same_iff : ∀ x y : Tree, same x y = true ↔ x = y
  | .node l xs, .node m ys => by simp [same, sameAll_iff xs]

theorem sameAll_iff : ∀ xs ys : List Tree, sameAll xs ys = true ↔ xs = ys
  | [], ys => by cases ys <;> simp [sameAll]
  | x :: xs, ys => by cases ys <;> simp [sameAll, same_iff x, sameAll_iff xs]

end

instance : DecidableEq Tree := fun x y => decidable_of_iff _ (same_iff x y)

def layer : Tree → Layer
  | .node layer _ => layer

mutual

/-- A property of a tree follows from the same property of its parts. -/
theorem induction {motive : Tree → Prop}
    (node : ∀ layer parts, (∀ x ∈ parts, motive x) → motive (.node layer parts)) : ∀ x, motive x
  | .node layer parts => node layer parts (induction_all node parts)

theorem induction_all {motive : Tree → Prop}
    (node : ∀ layer parts, (∀ x ∈ parts, motive x) → motive (.node layer parts)) :
    ∀ parts : List Tree, ∀ x ∈ parts, motive x
  | [] => by simp
  | x :: parts => List.forall_mem_cons.mpr ⟨induction node x, induction_all node parts⟩

end

end Tree

namespace TypeStore

/-- Names stand for texts, place by place. -/
def Spells (s : TypeStore) : List Name → List String → Prop :=
  List.Forall₂ fun n text => s.names.text? n = some text

/-- The layer that a node shows, and the types of its parts. -/
inductive Shows (s : TypeStore) : TypeNode → Layer → List TypeId → Prop where
  | primitive (k : Primitive) : Shows s (.primitive k) (.primitive k) []
  | array (e : TypeId) : Shows s (.array e) .array [e]
  | record {r : RecordId} {shape : RecordShape} {names : List String} : s.record? r = some shape →
      s.Spells (shape.fields.map Field.name) names →
        Shows s (.record r) (.record shape.isOpen names) (shape.fields.map Field.type)
  | static (e : TypeId) : Shows s (.reference e none) (.reference none) [e]
  | reference (e : TypeId) {n : Name} {lifetime : String} : s.names.text? n = some lifetime →
      Shows s (.reference e (some n)) (.reference (some lifetime)) [e]
  | callable {c : CallableId} {shape : CallableShape} {captured lifetimeParams : List String} :
      s.callable? c = some shape → s.Spells shape.captured captured → s.Spells shape.lifetimeParams lifetimeParams →
        Shows s (.callable c) (.callable shape.kind shape.params.length captured lifetimeParams)
          (shape.params ++ shape.returns)
  | union {l : ListId} {types : List TypeId} : s.list? l = some types → Shows s (.union l) .union types
  | intersection {l : ListId} {types : List TypeId} : s.list? l = some types →
      Shows s (.intersection l) .intersection types
  | negation (t : TypeId) : Shows s (.negation t) .negation [t]
  | nominal (d : DeclId) : Shows s (.nominal d) (.nominal d) []
  | var (v : VarId) : Shows s (.var v) (.var v) []
  | unresolved {n : Name} {name : String} : s.names.text? n = some name → Shows s (.unresolved n) (.unresolved name) []

mutual

/-- A type is drawn as a tree by following its parts. -/
def Depicts (s : TypeStore) (t : TypeId) : Tree → Prop
  | .node layer parts => ∃ n types, s.node? t = some n ∧ s.Shows n layer types ∧ s.DepictsAll types parts

/-- Types are drawn as trees, place by place. -/
def DepictsAll (s : TypeStore) : List TypeId → List Tree → Prop
  | [], [] => True
  | t :: types, x :: trees => s.Depicts t x ∧ s.DepictsAll types trees
  | _, _ => False

end

variable {s s' : TypeStore}

theorem depictsAll_iff {types : List TypeId} {trees : List Tree} :
    s.DepictsAll types trees ↔ List.Forall₂ s.Depicts types trees := by
  induction types generalizing trees with
  | nil => cases trees <;> simp [DepictsAll]
  | cons t types ih => cases trees <;> simp [DepictsAll, ih]

theorem depicts_node_iff {t : TypeId} {layer : Layer} {parts : List Tree} :
    s.Depicts t (.node layer parts) ↔
      ∃ n types, s.node? t = some n ∧ s.Shows n layer types ∧ List.Forall₂ s.Depicts types parts := by
  simp only [Depicts, depictsAll_iff]

/-! ### Growing stores -/

section
variable (keeps : s.Keeps s')
include keeps

theorem Spells.of_keeps {names : List Name} {texts : List String} (spells : s.Spells names texts) :
    s'.Spells names texts :=
  spells.imp fun _ _ => keeps.text

theorem Shows.of_keeps {n : TypeNode} {layer : Layer} {types : List TypeId} (shows : s.Shows n layer types) :
    s'.Shows n layer types := by
  cases shows with
  | primitive => exact .primitive _
  | array => exact .array _
  | record found named => exact .record (keeps.record found) (named.of_keeps keeps)
  | static => exact .static _
  | reference _ named => exact .reference _ (keeps.text named)
  | callable found captured params =>
    exact .callable (keeps.callable found) (captured.of_keeps keeps) (params.of_keeps keeps)
  | union found => exact .union (keeps.list found)
  | intersection found => exact .intersection (keeps.list found)
  | negation => exact .negation _
  | nominal => exact .nominal _
  | var => exact .var _
  | unresolved named => exact .unresolved (keeps.text named)

theorem Depicts.of_keeps {t : TypeId} {x : Tree} (depicts : s.Depicts t x) : s'.Depicts t x := by
  induction x using Tree.induction generalizing t with
  | node layer parts ih =>
    obtain ⟨n, types, known, shows, below⟩ := depicts_node_iff.mp depicts
    refine depicts_node_iff.mpr ⟨n, types, keeps.node known, shows.of_keeps keeps, ?_⟩
    rw [List.forall₂_iff_zip] at below ⊢
    exact ⟨below.1, fun member => ih _ (List.of_mem_zip member).2 (below.2 member)⟩

end

/-! ### Trees and types determine each other -/

theorem list?_inj {l k : ListId} {types : List TypeId} (hl : s.list? l = some types) (hk : s.list? k = some types) :
    l = k :=
  congrArg ListId.mk (Pool.get?_inj hl hk)

theorem record?_inj {q r : RecordId} {shape : RecordShape} (hq : s.record? q = some shape)
    (hr : s.record? r = some shape) : q = r :=
  congrArg RecordId.mk (Pool.get?_inj hq hr)

theorem callable?_inj {b c : CallableId} {shape : CallableShape} (hb : s.callable? b = some shape)
    (hc : s.callable? c = some shape) : b = c :=
  congrArg CallableId.mk (Pool.get?_inj hb hc)

theorem spells_biUnique (s : TypeStore) : Relator.BiUnique s.Spells := by
  apply Relator.BiUnique.forall₂
  constructor
  · exact fun _ _ _ => NameTable.text?_inj
  · exact fun _ _ _ first second => Option.some.inj (first.symm.trans second)

/-- A node shows one layer. -/
theorem Shows.unique {n : TypeNode} {layer layer' : Layer} {types types' : List TypeId}
    (first : s.Shows n layer types) (second : s.Shows n layer' types') : layer = layer' ∧ types = types' := by
  cases first with
  | record found named =>
    cases second with
    | record found' named' =>
      obtain rfl := Option.some.inj (found.symm.trans found')
      exact ⟨by rw [(spells_biUnique s).2 named named'], rfl⟩
  | callable found captured params =>
    cases second with
    | callable found' captured' params' =>
      obtain rfl := Option.some.inj (found.symm.trans found')
      exact ⟨by rw [(spells_biUnique s).2 captured captured', (spells_biUnique s).2 params params'], rfl⟩
  | reference e named =>
    cases second with
    | reference _ named' => exact ⟨by rw [Option.some.inj (named.symm.trans named')], rfl⟩
  | unresolved named =>
    cases second with
    | unresolved named' => exact ⟨by rw [Option.some.inj (named.symm.trans named')], rfl⟩
  | union found =>
    cases second with
    | union found' => exact ⟨rfl, Option.some.inj (found.symm.trans found')⟩
  | intersection found =>
    cases second with
    | intersection found' => exact ⟨rfl, Option.some.inj (found.symm.trans found')⟩
  | _ =>
    cases second
    exact ⟨rfl, rfl⟩

private theorem fields_eq {fs gs : List Field} (names : fs.map Field.name = gs.map Field.name)
    (types : fs.map Field.type = gs.map Field.type) : fs = gs := by
  induction fs generalizing gs with
  | nil => simpa using names
  | cons f fs ih =>
    cases gs with
    | nil => simp at names
    | cons g gs =>
      simp only [List.map_cons, List.cons.injEq] at names types
      have first : f = g := by
        cases f
        cases g
        simp_all
      rw [first, ih names.2 types.2]

private theorem recordShape_eq {shape shape' : RecordShape} (openness : shape.isOpen = shape'.isOpen)
    (fields : shape.fields = shape'.fields) : shape = shape' := by
  cases shape
  cases shape'
  simp_all

/-- A layer with given parts is shown by one node. -/
theorem Shows.node_eq {n m : TypeNode} {layer layer' : Layer} {types types' : List TypeId}
    (first : s.Shows n layer types) (second : s.Shows m layer' types') (sameLayer : layer = layer')
    (sameTypes : types = types') : n = m := by
  cases first with
  | record found named =>
    cases second with
    | record found' named' =>
      obtain ⟨openness, rfl⟩ := Layer.record.inj sameLayer
      have names := (spells_biUnique s).1 named named'
      obtain rfl := recordShape_eq openness (fields_eq names sameTypes)
      rw [record?_inj found found']
    | _ => simp at sameLayer
  | @callable c shape _ _ found captured params =>
    cases second with
    | @callable c' shape' _ _ found' captured' params' =>
      obtain ⟨kind, count, rfl, rfl⟩ := Layer.callable.inj sameLayer
      obtain ⟨inputs, outputs⟩ := List.append_inj sameTypes count
      have same : shape = shape' := by
        have captures := (spells_biUnique s).1 captured captured'
        have lifetimes := (spells_biUnique s).1 params params'
        cases shape
        cases shape'
        simp_all
      rw [callable?_inj found (same ▸ found')]
    | _ => simp at sameLayer
  | reference e named =>
    cases second with
    | reference _ named' =>
      simp only [Layer.reference.injEq, Option.some.injEq, List.cons.injEq, and_true] at sameLayer sameTypes
      rw [sameTypes, NameTable.text?_inj named (sameLayer ▸ named')]
    | _ => simp at sameLayer
  | unresolved named =>
    cases second with
    | unresolved named' =>
      obtain rfl := Layer.unresolved.inj sameLayer
      rw [NameTable.text?_inj named named']
    | _ => simp at sameLayer
  | union found =>
    cases second with
    | union found' => rw [list?_inj found (sameTypes ▸ found')]
    | _ => simp at sameLayer
  | intersection found =>
    cases second with
    | intersection found' => rw [list?_inj found (sameTypes ▸ found')]
    | _ => simp at sameLayer
  | _ => cases second <;> simp_all

/-- If types and trees determine each other place by place, so do lists of them. -/
private theorem depictsAll_eq_iff {types types' : List TypeId} {trees trees' : List Tree}
    (each : ∀ x ∈ trees, ∀ t u y, s.Depicts t x → s.Depicts u y → (t = u ↔ x = y))
    (first : List.Forall₂ s.Depicts types trees) (second : List.Forall₂ s.Depicts types' trees') :
    types = types' ↔ trees = trees' := by
  induction first generalizing types' trees' with
  | nil => cases second <;> simp
  | cons here _ ih =>
    cases second with
    | nil => simp
    | cons here' rest' =>
      obtain ⟨head, tail⟩ := List.forall_mem_cons.mp each
      rw [List.cons.injEq, List.cons.injEq, head _ _ _ here here', ih tail rest']

/-- Two types are the same exactly if they are drawn as the same tree. -/
theorem Depicts.eq_iff {t u : TypeId} {x y : Tree} (first : s.Depicts t x) (second : s.Depicts u y) :
    t = u ↔ x = y := by
  induction x using Tree.induction generalizing t u y with
  | node layer parts ih =>
    obtain ⟨layer', parts'⟩ := y
    obtain ⟨n, types, known, shows, below⟩ := depicts_node_iff.mp first
    obtain ⟨n', types', known', shows', below'⟩ := depicts_node_iff.mp second
    have parts_iff : types = types' ↔ parts = parts' :=
      depictsAll_eq_iff (fun x member t u y => ih x member) below below'
    rw [Tree.node.injEq]
    constructor
    · rintro rfl
      obtain rfl := Option.some.inj (known.symm.trans known')
      obtain ⟨sameLayer, sameTypes⟩ := shows.unique shows'
      exact ⟨sameLayer, parts_iff.mp sameTypes⟩
    · rintro ⟨sameLayer, sameParts⟩
      obtain rfl := shows.node_eq shows' sameLayer (parts_iff.mpr sameParts)
      exact node?_inj known known'

theorem depicts_biUnique (s : TypeStore) : Relator.BiUnique s.Depicts :=
  ⟨fun _ _ _ first second => (first.eq_iff second).mpr rfl, fun _ _ _ first second => (first.eq_iff second).mp rfl⟩

end TypeStore

end Narrowing
