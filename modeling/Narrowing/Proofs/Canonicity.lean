import Narrowing.Proofs.HashConsing
import Narrowing.Proofs.Mirroring
import Narrowing.Storage.Refinement

/-!
Types as they are kept, built by constructors. Types that are built along trees in the
tables are built along the same trees in the plain store (`Built.mirrored`), so two of
them are the same exactly if they are the same tree. Refinement does nothing that calls
do not do (`byCalls_refine`), so that it is part of every history.
-/

namespace Narrowing

/-! ### Refinement by calls -/

namespace Interner

variable {h : Hashing} {x x' : Interner}

theorem performAll_append (calls more : List Call) :
    performAll h (calls ++ more) = do return (← performAll h calls) ++ (← performAll h more) := List.mapM_append

/-- The store after some calls. -/
def after (h : Hashing) (x : Interner) (calls : List Call) : Except LaneFull Interner :=
  (performAll h calls x).map Prod.snd

theorem after_eq_ok {calls : List Call} :
    after h x calls = .ok x' ↔ ∃ answers, performAll h calls x = .ok (answers, x') := by
  unfold after
  cases performAll h calls x with
  | error refusal => simp [Except.map]
  | ok result =>
    obtain ⟨answers, x1⟩ := result
    simp [Except.map]

theorem after_append (x : Interner) (calls more : List Call) :
    after h x (calls ++ more) = after h x calls >>= fun x' => after h x' more := by
  unfold after
  rw [performAll_append]
  show ((performAll h calls x >>= fun p => (performAll h more p.2 >>= fun q => .ok (p.1 ++ q.1, q.2))).map Prod.snd) = _
  cases performAll h calls x with
  | error refusal => rfl
  | ok result =>
    show ((performAll h more result.2 >>= fun q => .ok (result.1 ++ q.1, q.2)).map Prod.snd) =
      (performAll h more result.2).map Prod.snd
    cases performAll h more result.2 <;> rfl

end Interner

namespace Entering

open Interner

variable {α β : Type} {h : Hashing}

/-- Whatever the computation does to a store, some calls do it. -/
def ByCalls (h : Hashing) (m : Entering α) : Prop := ∀ x, ∃ calls, after h x calls = (m x).map Prod.snd

theorem byCalls_pure (a : α) : ByCalls h (pure a) := fun _ => ⟨[], rfl⟩

theorem byCalls_get : ByCalls h get := fun _ => ⟨[], rfl⟩

theorem byCalls_bind {m : Entering α} {next : α → Entering β} (first : ByCalls h m) (rest : ∀ a, ByCalls h (next a)) :
    ByCalls h (m >>= next) := by
  intro x
  obtain ⟨calls, done⟩ := first x
  show ∃ calls, after h x calls = (m x >>= fun p => next p.1 p.2).map Prod.snd
  cases result : m x with
  | error refusal =>
    rw [result] at done
    exact ⟨calls, done⟩
  | ok p =>
    rw [result] at done
    obtain ⟨more, done'⟩ := rest p.1 p.2
    refine ⟨calls ++ more, ?_⟩
    rw [after_append, done]
    exact done'

/-- What a call answers by a type, it does. -/
theorem byCalls_of_run {m : Entering TypeId} (c : Call) (run : c.run h = Answer.type <$> m) : ByCalls h m := by
  intro x
  refine ⟨[c], ?_⟩
  rw [after, performAll_cons, run, map_eq_pure_bind, bind_assoc]
  show ((m x >>= fun p => .ok ([Answer.type p.1], p.2)).map Prod.snd) = (m x).map Prod.snd
  cases m x <;> rfl

theorem byCalls_record (shape : RecordShape) : ByCalls h (record h shape) := by
  refine byCalls_of_run (.record shape.isOpen shape.fields) ?_
  rw [Call.run, RecordShape.ofFields?, dif_pos shape.distinct]

mutual

/-- Refinement only makes calls. -/
theorem byCalls_refine (ds : Declarations) (source : TypeId) : ∀ selector, ByCalls h (refine h ds source selector)
  | .top | .bottom => by
    rw [refine]
    exact byCalls_pure _
  | .array item => by
    rw [refine]
    refine byCalls_bind byCalls_get fun x => ?_
    split
    · refine byCalls_bind (byCalls_refine ds _ item) fun refined => ?_
      exact byCalls_bind (byCalls_of_run (.array _) rfl) fun t => byCalls_pure _
    · exact byCalls_pure _
  | .record items => by
    rw [refine]
    refine byCalls_bind byCalls_get fun x => ?_
    split
    · split
      · refine byCalls_bind (byCalls_refineAll ds _ items) fun refined => ?_
        exact byCalls_bind (byCalls_record _) fun t => byCalls_pure _
      · exact byCalls_pure _
    · exact byCalls_pure _
  | .union items => by
    rw [refine]
    refine byCalls_bind byCalls_get fun x => ?_
    split
    · split
      · refine byCalls_bind (byCalls_refineKept ds _ items) fun refined => ?_
        exact byCalls_bind (byCalls_of_run (.union _) rfl) fun t => byCalls_pure _
      · exact byCalls_pure _
    · exact byCalls_pure _

theorem byCalls_refineAll (ds : Declarations) : ∀ sources items, ByCalls h (refineAll h ds sources items)
  | source :: sources, item :: items => by
    rw [refineAll]
    refine byCalls_bind (byCalls_refine ds source item) fun refined => ?_
    exact byCalls_bind (byCalls_refineAll ds sources items) fun rest => byCalls_pure _
  | [], _ | _ :: _, [] => by
    rw [refineAll]
    · exact byCalls_pure _
    · simp

theorem byCalls_refineKept (ds : Declarations) : ∀ sources items, ByCalls h (refineKept h ds sources items)
  | source :: sources, item :: items => by
    rw [refineKept]
    split
    · exact byCalls_refineKept ds sources items
    · refine byCalls_bind (byCalls_refine ds source item) fun refined => ?_
      exact byCalls_bind (byCalls_refineKept ds sources items) fun rest => byCalls_pure _
  | [], _ | _ :: _, [] => by
    rw [refineKept]
    · exact byCalls_pure _
    · simp

end

end Entering

namespace Interner

/-! ### Types built along trees -/

variable {h : Hashing} {r : Renumbering} {x : Interner} {calls more : List Call} {c : Call} {t : TypeId}

/-- Names stand for texts, place by place. -/
def Spells (x : Interner) : List Name → List String → Prop := List.Forall₂ fun n text => x.text? n = some text

/-- After the given calls to a new store, which is then `x`, the call `c` is answered by `t`. -/
structure Makes (h : Hashing) (calls : List Call) (x : Interner) (c : Call) (t : TypeId) : Prop where
  reached : after h (new h) calls = .ok x
  answered : ∃ x', c.run h x = .ok (.type t, x')

/-- After the given calls to a new store, a type has been made by constructors only, along a tree: it is given or the
    answer to a call for types that have been made in that way. The calls that come after, whatever they do, do not
    matter. -/
inductive Built (h : Hashing) : List Call → TypeId → Tree → Prop where
  | later {calls : List Call} {t : TypeId} {tree : Tree} (c : Call) : Built h calls t tree →
      Built h (calls ++ [c]) t tree
  | primitive (calls : List Call) (k : Primitive) : Built h calls k.id (.primitive k)
  | array {calls : List Call} {x : Interner} {t u : TypeId} {tree : Tree} : Makes h calls x (.array t) u →
      Built h calls t tree → Built h (calls ++ [.array t]) u (.node .array [tree])
  | record {calls : List Call} {x : Interner} {t : TypeId} {isOpen : Bool} {fields : List Field} {names : List String}
      {parts : List (TypeId × Tree)} : Makes h calls x (.record isOpen fields) t →
      x.Spells (fields.map Field.name) names → fields.map Field.type = parts.map Prod.fst →
      (∀ p ∈ parts, Built h calls p.1 p.2) →
        Built h (calls ++ [.record isOpen fields]) t (.node (.record isOpen names) (parts.map Prod.snd))
  | static {calls : List Call} {x : Interner} {t u : TypeId} {tree : Tree} : Makes h calls x (.reference t none) u →
      Built h calls t tree → Built h (calls ++ [.reference t none]) u (.node (.reference none) [tree])
  | reference {calls : List Call} {x : Interner} {t u : TypeId} {tree : Tree} {n : Name} {lifetime : String} :
      Makes h calls x (.reference t (some n)) u → x.text? n = some lifetime → Built h calls t tree →
        Built h (calls ++ [.reference t (some n)]) u (.node (.reference (some lifetime)) [tree])
  | callable {calls : List Call} {x : Interner} {t : TypeId} {shape : CallableShape}
      {captured lifetimeParams : List String} {parts : List (TypeId × Tree)} :
      Makes h calls x (.callable shape) t → x.Spells shape.captured captured →
      x.Spells shape.lifetimeParams lifetimeParams → shape.params ++ shape.returns = parts.map Prod.fst →
      (∀ p ∈ parts, Built h calls p.1 p.2) →
        Built h (calls ++ [.callable shape]) t
          (.node (.callable shape.kind shape.params.length captured lifetimeParams) (parts.map Prod.snd))
  | union {calls : List Call} {x : Interner} {t : TypeId} {parts : List (TypeId × Tree)} :
      Makes h calls x (.union (parts.map Prod.fst)) t → (∀ p ∈ parts, Built h calls p.1 p.2) →
        Built h (calls ++ [.union (parts.map Prod.fst)]) t (.unionOf (parts.map Prod.snd))
  | intersection {calls : List Call} {x : Interner} {t : TypeId} {parts : List (TypeId × Tree)} :
      Makes h calls x (.intersection (parts.map Prod.fst)) t → (∀ p ∈ parts, Built h calls p.1 p.2) →
        Built h (calls ++ [.intersection (parts.map Prod.fst)]) t (.intersectionOf (parts.map Prod.snd))
  | negation {calls : List Call} {x : Interner} {t u : TypeId} {tree : Tree} : Makes h calls x (.negation t) u →
      Built h calls t tree → Built h (calls ++ [.negation t]) u (.node .negation [tree])
  | nominal {calls : List Call} {x : Interner} {t : TypeId} {d : DeclId} : Makes h calls x (.nominal d) t →
      Built h (calls ++ [.nominal d]) t (.node (.nominal d) [])
  | freshVariable {calls : List Call} {x : Interner} {t : TypeId} {text : String} :
      Makes h calls x (.freshVariable text) t →
        Built h (calls ++ [.freshVariable text]) t (.node (.var ⟨x.binders.size⟩) [])
  | unresolved {calls : List Call} {x : Interner} {t : TypeId} {text : String} : Makes h calls x (.unresolved text) t →
      Built h (calls ++ [.unresolved text]) t (.node (.unresolved text) [])

/-- The plain store after the same calls, renumbered. -/
def mirror (r : Renumbering) (calls : List Call) : TypeStore :=
  TypeStore.empty.after (calls.map fun c => (r.call c).operation)

theorem mirror_eq_buildAll (calls : List Call) : mirror r calls = (buildAll (calls.map r.call) .empty).2 := by
  rw [mirror, ← after_operations, List.map_map]
  rfl

theorem mirror_concat (calls : List Call) (c : Call) :
    mirror r (calls ++ [c]) = (r.call c).operation.run (mirror r calls) := by
  rw [mirror, List.map_append]
  exact TypeStore.after_concat ..

/-- A call is answered in the plain store by the renumbered type. -/
theorem Makes.mirrored (makes : Makes h calls x c t) (follows : Follows h r (new h) .empty (calls ++ [c] ++ more)) :
    InStep h r x (mirror r calls) ∧ ((r.call c).build (mirror r calls)).1 = .type (r.type t) := by
  rw [List.append_assoc, List.singleton_append] at follows
  obtain ⟨answers, x1, performed, -, rest⟩ := follows.run
  obtain ⟨_, reached⟩ := after_eq_ok.mp makes.reached
  cases performed.symm.trans reached
  obtain ⟨x', answered⟩ := makes.answered
  obtain ⟨answer, x2, run, same, -⟩ := rest.step
  cases run.symm.trans answered
  rw [mirror_eq_buildAll]
  exact ⟨rest.inStep, same⟩

theorem InStep.spells {s : TypeStore} (inStep : InStep h r x s) {names : List Name} {texts : List String}
    (spells : x.Spells names texts) : s.Spells (names.map r.name) texts := by
  rw [TypeStore.Spells, List.forall₂_map_left_iff]
  exact spells.imp fun n text known => inStep.spelled n text known

theorem recordOfFields_of_build {isOpen : Bool} {fields : List Field} {s : TypeStore}
    (answered : ((Call.record isOpen fields).build s).1 = .type t) :
    (Build.recordOfFields isOpen fields s).1 = .ok t := by
  revert answered
  rw [Call.build, Build.recordOfFields]
  cases RecordShape.ofFields? isOpen fields with
  | none =>
    intro answered
    cases answered
  | some shape => exact fun answered => congrArg Except.ok (Answer.type.inj answered)

/-- Types with their trees, the types renumbered. -/
def renumbered (r : Renumbering) (parts : List (TypeId × Tree)) : List (TypeId × Tree) :=
  parts.map fun p => (r.type p.1, p.2)

theorem fst_renumbered (parts : List (TypeId × Tree)) :
    (renumbered r parts).map Prod.fst = (parts.map Prod.fst).map r.type := by simp [renumbered]

theorem snd_renumbered (parts : List (TypeId × Tree)) : (renumbered r parts).map Prod.snd = parts.map Prod.snd := by
  simp [renumbered]

/-- A type that is built along a tree is built along it in the plain store. -/
theorem Built.mirrored {tree : Tree} (built : Built h calls t tree)
    (follows : Follows h r (new h) .empty (calls ++ more)) : (mirror r calls).Built (r.type t) tree := by
  induction built generalizing more with
  | later c _ ih =>
    rw [mirror_concat]
    exact .later _ (ih (by rwa [← List.append_assoc]))
  | primitive calls k =>
    rw [r.type_primitive]
    exact .primitive _ k
  | array makes _ ih =>
    have number := Answer.type.inj (makes.mirrored follows).2
    rw [mirror_concat, ← number]
    exact .array (ih (by rwa [← List.append_assoc]))
  | record makes named listed _ ih =>
    obtain ⟨inStep, answered⟩ := makes.mirrored follows
    have names := inStep.spells named
    rw [← r.names_map_field] at names
    rw [mirror_concat, ← snd_renumbered]
    refine .record (recordOfFields_of_build answered) names ?_ ?_
    · rw [r.types_map_field, listed, fst_renumbered]
    · exact List.forall_mem_map.mpr fun p member => ih p member (by rwa [← List.append_assoc])
  | static makes _ ih =>
    have number := Answer.type.inj (makes.mirrored follows).2
    rw [mirror_concat, ← number]
    exact .static (ih (by rwa [← List.append_assoc]))
  | reference makes named _ ih =>
    obtain ⟨inStep, answered⟩ := makes.mirrored follows
    rw [mirror_concat, ← Answer.type.inj answered]
    exact .reference (inStep.spelled _ _ named) (ih (by rwa [← List.append_assoc]))
  | @callable calls x t shape captured lifetimeParams parts makes capturing binding listed _ ih =>
    obtain ⟨inStep, answered⟩ := makes.mirrored follows
    rw [mirror_concat, ← snd_renumbered, ← Answer.type.inj answered, ← List.length_map r.type]
    have types : (r.callable shape).params ++ (r.callable shape).returns = (renumbered r parts).map Prod.fst := by
      rw [fst_renumbered, ← listed, List.map_append]
      rfl
    refine .callable (inStep.spells capturing) (inStep.spells binding) types ?_
    exact List.forall_mem_map.mpr fun p member => ih p member (by rwa [← List.append_assoc])
  | union makes _ ih =>
    have number := Answer.type.inj (makes.mirrored follows).2
    rw [mirror_concat, ← snd_renumbered, ← number, Renumbering.call, ← fst_renumbered]
    exact .union (List.forall_mem_map.mpr fun p member => ih p member (by rwa [← List.append_assoc]))
  | intersection makes _ ih =>
    have number := Answer.type.inj (makes.mirrored follows).2
    rw [mirror_concat, ← snd_renumbered, ← number, Renumbering.call, ← fst_renumbered]
    exact .intersection (List.forall_mem_map.mpr fun p member => ih p member (by rwa [← List.append_assoc]))
  | negation makes _ ih =>
    have number := Answer.type.inj (makes.mirrored follows).2
    rw [mirror_concat, ← number]
    exact .negation (ih (by rwa [← List.append_assoc]))
  | nominal makes =>
    have number := Answer.type.inj (makes.mirrored follows).2
    rw [mirror_concat, ← number]
    exact .nominal ..
  | @freshVariable calls x t text makes =>
    obtain ⟨inStep, answered⟩ := makes.mirrored follows
    have number : (Build.variableNamed text (mirror r calls)).1 = r.type t := Answer.type.inj answered
    have binders : x.binders.size = (mirror r calls).binders.size := by rw [inStep.binders, Array.size_map]
    rw [mirror_concat, ← number, binders]
    exact .freshVariable ..
  | unresolved makes =>
    have number := Answer.type.inj (makes.mirrored follows).2
    rw [mirror_concat, ← number]
    exact .unresolved ..

/-- Whatever calls are made to a new store, as long as nothing fills up they are answered, and then entering a node and
    looking it up are inverse to each other; types, lists and shapes are told apart by what they stand for, and whatever
    has a number keeps it through every later history. A refinement does what some calls do, so that it changes nothing
    of this. The plain store is in step after the same calls, up to a renumbering. So types that are built by
    constructors are the same exactly if they are the same tree, with unions and intersections in normal form. -/
theorem interning_is_canonical (h : Hashing) (calls : List Call) (roomy : Roomy h (new h) calls) :
    ∃ answers x, performAll h calls (new h) = .ok (answers, x) ∧
      (∀ n, ∃ t x', Entering.intern h n x = .ok (t, x') ∧ x'.node? t = some n) ∧
      (∀ t u n m, x.node? t = some n → x.node? u = some m → (t = u ↔ n = m)) ∧
      (∀ l k : ListId, l.val < x.lists.items.size → (l = k ↔ x.list? l = x.list? k)) ∧
      (∀ q p : RecordId, q.val < x.records.items.size → (q = p ↔ x.record? q = x.record? p)) ∧
      (∀ b c : CallableId, b.val < x.callables.items.size → (b = c ↔ x.callable? b = x.callable? c)) ∧
      (∀ more later x', performAll h more x = .ok (later, x') → x.Keeps x') ∧
      (∀ ds source selector, ∃ more, after h x more = (Entering.refine h ds source selector x).map Prod.snd) ∧
      (∃ r, InStep h r x (mirror r calls) ∧
        buildAll (calls.map r.call) .empty = (answers.map r.answer, mirror r calls)) ∧
      (∀ t tree, Built h calls t tree → tree.Normal) ∧
      ∀ t u tree tree', Built h calls t tree → Built h calls u tree' → (t = u ↔ tree = tree') := by
  obtain ⟨r, follows⟩ := exists_follows roomy
  rw [← List.append_nil calls] at follows
  obtain ⟨answers, x, performed, answered, rest⟩ := follows.run
  have inStep := rest.inStep
  have depicts {t : TypeId} {tree : Tree} (built : Built h calls t tree) := (built.mirrored follows).depicts
  refine ⟨answers, x, performed, fun n => ?_, fun t u n m ht hu => ?_, ?_, ?_, ?_,
    fun more later x' => keeps_performAll, fun ds source selector => Entering.byCalls_refine ds source selector x,
    ⟨r, mirror_eq_buildAll calls ▸ inStep, Prod.ext answered (mirror_eq_buildAll calls).symm⟩,
    fun t tree built => (depicts built).2, ?_⟩
  · rcases inStep.sound.intern_cases rest.roomy.types n with
      ⟨t, known, entered⟩ | ⟨t, types, entered, -, -, -, -, nodes, -⟩
    · exact ⟨t, x, entered, known⟩
    · exact ⟨t, _, entered, by rw [nodes, if_pos rfl]⟩
  · constructor
    · rintro rfl
      exact Option.some.inj (ht.symm.trans hu)
    · rintro rfl
      exact inStep.sound.node?_inj ht hu
  · rintro ⟨l⟩ ⟨k⟩ inside
    rw [ListId.mk.injEq]
    exact inStep.lists.sound.place_eq_iff inside
  · rintro ⟨q⟩ ⟨p⟩ inside
    rw [RecordId.mk.injEq]
    exact inStep.records.sound.place_eq_iff inside
  · rintro ⟨b⟩ ⟨c⟩ inside
    rw [CallableId.mk.injEq]
    exact inStep.callables.sound.place_eq_iff inside
  · intro t u tree tree' first second
    rw [← r.type_injective.eq_iff]
    exact (depicts first).1.eq_iff (depicts second).1

theorem Built.append {tree : Tree} (built : Built h calls t tree) (more : List Call) :
    Built h (calls ++ more) t tree := by
  induction more generalizing calls with
  | nil => rwa [List.append_nil]
  | cons c more ih =>
    have rest := ih (built.later c)
    rwa [List.append_assoc, List.singleton_append] at rest

/-- The answer to a call after others to a new store. -/
def answer? (h : Hashing) (calls : List Call) (c : Call) : Option Answer :=
  match after h (new h) calls with
  | .ok x =>
    match c.run h x with
    | .ok (answer, _) => some answer
    | .error _ => none
  | .error _ => none

theorem exists_makes (answered : answer? h calls c = some (.type t)) : ∃ x, Makes h calls x c t := by
  unfold answer? at answered
  split at answered
  case h_1 x reached =>
    split at answered
    case h_1 answer x' run =>
      obtain rfl := Option.some.inj answered
      exact ⟨x, reached, x', run⟩
    case h_2 => cases answered
  case h_2 => cases answered

private theorem built_union {parts : List (TypeId × Tree)} (built : ∀ p ∈ parts, Built h calls p.1 p.2)
    (answered : answer? h calls (.union (parts.map Prod.fst)) = some (.type t)) {tree : Tree}
    (drawn : Tree.unionOf (parts.map Prod.snd) = tree) : Built h (calls ++ [.union (parts.map Prod.fst)]) t tree := by
  obtain ⟨x, makes⟩ := exists_makes answered
  exact drawn ▸ .union makes built

private theorem built_array {u : TypeId} {tree : Tree} (built : Built h calls t tree)
    (answered : answer? h calls (.array t) = some (.type u)) :
    Built h (calls ++ [.array t]) u (.node .array [tree]) := by
  obtain ⟨x, makes⟩ := exists_makes answered
  exact .array makes built

/-- Arrays are in one lane, and all other nodes in another. -/
def arraysApart : Hashing where
  text := AtomTable.byLength
  node
    | .array _ => 1
    | _ => 0

/-- Arrays of int or null, built twice, and arrays of null or int. In between, a record cannot be built, and a union is
    entered whose members are not there. -/
def arrayCalls : List Call :=
  [.union [.int, .null], .record false [⟨.blank, .int⟩, ⟨.blank, .null⟩], .array ⟨100⟩, .intern (.union ⟨9⟩),
    .union [.void, ⟨100⟩, .int], .array ⟨100⟩, .union [.null, .int], .array ⟨228⟩]

/-- The tree of a union of two primitives. -/
def eitherTree (k m : Primitive) : Tree := .node .union [.primitive k, .primitive m]

/-- An array of int or null is the same type whether its element is built at once or from a nested union, and not an
    array of null or int. -/
theorem arrayCalls_canonical :
    Roomy arraysApart (new arraysApart) arrayCalls ∧
      Built arraysApart arrayCalls ⟨101⟩ (.node .array [eitherTree .int .null]) ∧
      Built arraysApart arrayCalls ⟨165⟩ (.node .array [eitherTree .null .int]) ∧
      answer? arraysApart (arrayCalls.take 5) (.array ⟨100⟩) = some (.type ⟨101⟩) ∧
      ((⟨101⟩ : TypeId) = ⟨165⟩ ↔ Tree.node .array [eitherTree .int .null] = .node .array [eitherTree .null .int]) := by
  have roomy : Roomy arraysApart (new arraysApart) arrayCalls := roomy_of_length (by decide)
  have primitives (calls : List Call) (k m : Primitive) :
      ∀ p ∈ [(k.id, Tree.primitive k), (m.id, Tree.primitive m)], Built arraysApart calls p.1 p.2 := by
    simpa using ⟨Built.primitive calls k, Built.primitive calls m⟩
  have union : Built arraysApart (arrayCalls.take 1) ⟨100⟩ (eitherTree .int .null) :=
    built_union (primitives [] .int .null) (by decide +kernel) (by decide +kernel)
  have other : Built arraysApart (arrayCalls.take 7) ⟨228⟩ (eitherTree .null .int) :=
    built_union (primitives (arrayCalls.take 6) .null .int) (by decide +kernel) (by decide +kernel)
  have first : Built arraysApart arrayCalls ⟨101⟩ (.node .array [eitherTree .int .null]) :=
    (built_array (union.append ((arrayCalls.take 2).drop 1)) (by decide +kernel)).append (arrayCalls.drop 3)
  have second : Built arraysApart arrayCalls ⟨165⟩ (.node .array [eitherTree .null .int]) :=
    built_array other (by decide +kernel)
  obtain ⟨-, -, -, -, -, -, -, -, -, -, -, -, same_iff⟩ := interning_is_canonical arraysApart arrayCalls roomy
  exact ⟨roomy, first, second, by decide +kernel, same_iff _ _ _ _ first second⟩

end Interner

end Narrowing
