import Narrowing.Proofs.Dispatch
import Narrowing.Proofs.Graph
import Narrowing.Proofs.Tree
import Mathlib.Logic.Relator

/-!
Graphs under other numbers. A renaming gives types, declarations and variables
other numbers, in another environment; it carries a graph over if every node that is
there corresponds to the node of the renamed type, with its lists and shapes looked
up (`Carries`). Nothing is said of parts that are missing, so a graph is also carried
over where it has grown. The rules for a pair and for the renamed pair then ask in
parallel (`Carries.rule_parallel`): equal names, declarations and variables
stay equal, and different ones stay different.
-/

namespace Narrowing

/-- Other numbers for types, declarations and template variables. -/
structure Renaming where
  type : TypeId → TypeId
  decl : DeclId → DeclId
  var : VarId → VarId

/-- The renaming that changes nothing. -/
def Renaming.same : Renaming := ⟨id, id, id⟩

/-- Two names have the same text, each in its own table. -/
def NameTable.SameText (t t' : NameTable) (n n' : Name) : Prop := ∃ text ∈ t.text? n, t'.text? n' = some text

instance (t t' : NameTable) (n n' : Name) : Decidable (t.SameText t' n n') :=
  inferInstanceAs (Decidable (∃ text ∈ t.text? n, t'.text? n' = some text))

/-- A text has one name in each table. -/
theorem NameTable.sameText_biUnique (t t' : NameTable) : Relator.BiUnique (t.SameText t') := by
  constructor
  · rintro m n k ⟨text, known, found⟩ ⟨text', known', found'⟩
    obtain rfl : text = text' := Option.some.inj (found.symm.trans found')
    exact text?_inj known known'
  · rintro m n k ⟨text, known, found⟩ ⟨text', known', found'⟩
    obtain rfl : text = text' := Option.some.inj (known.symm.trans known')
    exact text?_inj found found'

/-! ### Inquiries in parallel -/

namespace Inquiry

/-- Two inquiries that make the same remarks, up to what they mention, ask for a pair of some types and for the renamed
    pair, and end alike whatever the answers. Nothing is said of the second where the first fails. -/
inductive Parallel (rename : TypeId → TypeId) (types : Set TypeId) : Inquiry → Inquiry → Prop where
  | done (s : Selector) : Parallel rename types (.done s) (.done s)
  | fail (fault : Fault) (i : Inquiry) : Parallel rename types (.fail fault) i
  | note {event event' : Event} {next next' : Inquiry} :
    Parallel rename types next next' → Parallel rename types (.note event next) (.note event' next')
  | ask {l r : TypeId} {next next' : Selector → Inquiry} : l ∈ types → r ∈ types →
    (∀ s, Parallel rename types (next s) (next' s)) →
    Parallel rename types (.ask l r next) (.ask (rename l) (rename r) next')

section
variable {rename : TypeId → TypeId} {types : Set TypeId}

theorem parallel_require {α β : Type} {part? : Option α} {part'? : Option β} {fault fault' : Fault}
    {next : α → Inquiry} {next' : β → Inquiry}
    (parallel : ∀ a, part? = some a → ∃ b, part'? = some b ∧ (next a).Parallel rename types (next' b)) :
    (require part? fault next).Parallel rename types (require part'? fault' next') := by
  cases part? with
  | none => exact .fail _ _
  | some a =>
    obtain ⟨b, rfl, rest⟩ := parallel a rfl
    exact rest

theorem parallel_defer {l r : TypeId} (left : l ∈ types) (right : r ∈ types) :
    (defer l r).Parallel rename types (defer (rename l) (rename r)) :=
  .ask left right .done

theorem parallel_every {pairs : List (TypeId × TypeId)} (inside : ∀ p ∈ pairs, p.1 ∈ types ∧ p.2 ∈ types) :
    (every pairs).Parallel rename types (every (pairs.map (Prod.map rename rename))) := by
  induction pairs with
  | nil => exact .done _
  | cons p rest ih =>
    obtain ⟨here, later⟩ := List.forall_mem_cons.mp inside
    refine .ask here.1 here.2 fun s => ?_
    by_cases top : s.isTop
    · simpa [top] using ih later
    · simpa [top] using .done _

theorem parallel_oneOf {lhs : TypeId} (left : lhs ∈ types) {alternatives : List TypeId}
    (inside : ∀ r ∈ alternatives, r ∈ types) :
    (oneOf lhs alternatives).Parallel rename types (oneOf (rename lhs) (alternatives.map rename)) := by
  induction alternatives with
  | nil => exact .done _
  | cons r rest ih =>
    obtain ⟨here, later⟩ := List.forall_mem_cons.mp inside
    refine .ask left here fun s => ?_
    by_cases top : s.isTop
    · simpa [top] using .note (.done _)
    · simpa [top] using ih later

theorem parallel_each {rhs : TypeId} (right : rhs ∈ types) (found : List Selector) {alternatives : List TypeId}
    (inside : ∀ l ∈ alternatives, l ∈ types) :
    (each rhs found alternatives).Parallel rename types (each (rename rhs) found (alternatives.map rename)) := by
  induction alternatives generalizing found with
  | nil => exact .done _
  | cons l rest ih =>
    obtain ⟨here, later⟩ := List.forall_mem_cons.mp inside
    exact .ask here right fun s => ih (found ++ [s]) later

/-- Fields with renamed types are compared in parallel if the same places agree in name. -/
theorem parallel_fieldwise (found : List Selector) {fields fields' : List (Field × Field)}
    (renamed : List.Forall₂ (fun p p' => (p.1.name = p.2.name ↔ p'.1.name = p'.2.name) ∧
      p'.1.type = rename p.1.type ∧ p'.2.type = rename p.2.type) fields fields')
    (inside : ∀ p ∈ fields, p.1.type ∈ types ∧ p.2.type ∈ types) :
    (fieldwise found fields).Parallel rename types (fieldwise found fields') := by
  induction renamed generalizing found with
  | nil => exact .done _
  | @cons p p' rest rest' same _ ih =>
    obtain ⟨⟨l, r⟩, ⟨l', r'⟩⟩ := p, p'
    obtain ⟨named, leftType, rightType⟩ := same
    obtain ⟨here, later⟩ := List.forall_mem_cons.mp inside
    simp only [fieldwise]
    by_cases agree : l.name = r.name
    · rw [if_pos agree, if_pos (named.mp agree)]
      simp only at leftType rightType
      rw [leftType, rightType]
      refine .ask here.1 here.2 fun s => ?_
      by_cases bottom : s.isBottom
      · simpa [bottom] using .done _
      · simpa [bottom] using ih (found ++ [s]) later
    · rw [if_neg agree, if_neg (fun same => agree (named.mpr same))]
      exact .done _

end

end Inquiry

namespace Environment

/-! ### Corresponding nodes -/

/-- A node of one environment corresponds to a node of another: they are of the same kind, and what is found behind
    the first is found behind the second, with fields whose names are related and with renamed types. Lifetimes may
    differ, and so may the names of mentions that nothing resolves. -/
inductive Corresponds (env env' : Environment) (names : Name → Name → Prop) (f : Renaming) :
    TypeNode → TypeNode → Prop where
  | primitive (k : Primitive) : Corresponds env env' names f (.primitive k) (.primitive k)
  | array (e : TypeId) : Corresponds env env' names f (.array e) (.array (f.type e))
  | record {r r' : RecordId} : (∀ shape ∈ env.types.record? r, ∃ shape' ∈ env'.types.record? r',
      shape'.isOpen = shape.isOpen ∧
      List.Forall₂ (fun x x' => names x.name x'.name ∧ x'.type = f.type x.type) shape.fields shape'.fields) →
    Corresponds env env' names f (.record r) (.record r')
  | reference (e : TypeId) (lifetime lifetime' : Option Name) :
    Corresponds env env' names f (.reference e lifetime) (.reference (f.type e) lifetime')
  | callable {c c' : CallableId} : (∀ shape ∈ env.types.callable? c, ∃ shape' ∈ env'.types.callable? c',
      shape'.kind = shape.kind ∧ shape'.params = shape.params.map f.type ∧
      shape'.returns = shape.returns.map f.type) →
    Corresponds env env' names f (.callable c) (.callable c')
  | union {l l' : ListId} : (∀ types ∈ env.types.list? l, env'.types.list? l' = some (types.map f.type)) →
    Corresponds env env' names f (.union l) (.union l')
  | intersection {l l' : ListId} : (∀ types ∈ env.types.list? l, env'.types.list? l' = some (types.map f.type)) →
    Corresponds env env' names f (.intersection l) (.intersection l')
  | negation (e : TypeId) : Corresponds env env' names f (.negation e) (.negation (f.type e))
  | nominal {d : DeclId} :
    (∀ body ∈ env.declarations.body? d, env'.declarations.body? (f.decl d) = some (f.type body)) →
    Corresponds env env' names f (.nominal d) (.nominal (f.decl d))
  | var (v : VarId) : Corresponds env env' names f (.var v) (.var (f.var v))
  | unresolved (n n' : Name) : Corresponds env env' names f (.unresolved n) (.unresolved n')

/-- A renaming keeps the types of a graph apart, and the node of each that is known corresponds to the node of the
    renamed type. -/
structure Carries (env env' : Environment) (names : Name → Name → Prop) (f : Renaming) (types : Set TypeId) : Prop where
  apart : Set.InjOn f.type types
  nodes : ∀ t ∈ types, ∀ n ∈ env.types.node? t, ∃ n' ∈ env'.types.node? (f.type t), env.Corresponds env' names f n n'

variable {env env' : Environment} {names : Name → Name → Prop} {f : Renaming} {types : Set TypeId}

/-- Renamed types with one node are one type. -/
theorem Carries.eq_of_node (carries : env.Carries env' names f types) {l r : TypeId} (left : l ∈ types)
    (right : r ∈ types) {n' : TypeNode} (knownL : env'.types.node? (f.type l) = some n')
    (knownR : env'.types.node? (f.type r) = some n') : l = r :=
  carries.apart left right (TypeStore.node?_inj knownL knownR)

/-! ### Rules in parallel -/

private theorem forall₂_zip {α β : Type} {R S : α → β → Prop} {as bs : List α} {as' bs' : List β}
    (first : List.Forall₂ R as as') (second : List.Forall₂ S bs bs') :
    List.Forall₂ (fun p p' => R p.1 p'.1 ∧ S p.2 p'.2) (as.zip bs) (as'.zip bs') := by
  induction first generalizing bs bs' with
  | nil => exact .nil
  | cons here _ ih =>
    cases second with
    | nil => exact .nil
    | cons here' rest => exact .cons ⟨here, here'⟩ (ih rest)

private theorem inside_zip {ls rs : List TypeId} (left : ∀ u ∈ ls, u ∈ types) (right : ∀ u ∈ rs, u ∈ types) :
    ∀ p ∈ ls.zip rs, p.1 ∈ types ∧ p.2 ∈ types :=
  fun p member => ⟨left p.1 (List.of_mem_zip member).1, right p.2 (List.of_mem_zip member).2⟩

private theorem body_inside {d : DeclId} (parts : ∀ u ∈ env.partsOf (.nominal d), u ∈ types) {body : TypeId}
    (found : env.declarations.body? d = some body) : body ∈ types :=
  parts body (by simp [partsOf, found])

private theorem members_inside {l : ListId} (parts : ∀ u ∈ env.partsOf (.union l), u ∈ types) {members : List TypeId}
    (found : env.types.list? l = some members) : ∀ u ∈ members, u ∈ types :=
  fun u listed => parts u (by simpa [partsOf, found] using listed)

theorem compareRecords_parallel (unique : Relator.BiUnique names) {r s r' s' : RecordId}
    (corrL : env.Corresponds env' names f (.record r) (.record r'))
    (corrR : env.Corresponds env' names f (.record s) (.record s'))
    (partsL : ∀ u ∈ env.partsOf (.record r), u ∈ types) (partsR : ∀ u ∈ env.partsOf (.record s), u ∈ types) :
    (env.compareRecords r s).Parallel f.type types (env'.compareRecords r' s') := by
  cases corrL with | record shapesL
  cases corrR with | record shapesR
  refine Inquiry.parallel_require fun ls foundL => ?_
  obtain ⟨ls', foundL', openL, fieldsL⟩ := shapesL ls foundL
  refine ⟨ls', foundL', Inquiry.parallel_require fun rs foundR => ?_⟩
  obtain ⟨rs', foundR', openR, fieldsR⟩ := shapesR rs foundR
  refine ⟨rs', foundR', ?_⟩
  rw [openL, openR, ← fieldsL.length_eq, ← fieldsR.length_eq]
  split
  · refine Inquiry.parallel_fieldwise [] ((forall₂_zip fieldsL fieldsR).imp ?_) ?_
    · rintro p p' ⟨⟨namedL, typeL⟩, namedR, typeR⟩
      exact ⟨Relator.rel_eq unique namedL namedR, typeL, typeR⟩
    · intro p member
      obtain ⟨left, right⟩ := List.of_mem_zip member
      refine ⟨partsL p.1.type ?_, partsR p.2.type ?_⟩
      · simpa [partsOf, show env.types.record? r = some ls from foundL] using ⟨p.1, left, rfl⟩
      · simpa [partsOf, show env.types.record? s = some rs from foundR] using ⟨p.2, right, rfl⟩
  · exact .done _

theorem compareCallables_parallel {c e c' e' : CallableId}
    (corrL : env.Corresponds env' names f (.callable c) (.callable c'))
    (corrR : env.Corresponds env' names f (.callable e) (.callable e'))
    (partsL : ∀ u ∈ env.partsOf (.callable c), u ∈ types) (partsR : ∀ u ∈ env.partsOf (.callable e), u ∈ types) :
    (env.compareCallables c e).Parallel f.type types (env'.compareCallables c' e') := by
  cases corrL with | callable shapesL
  cases corrR with | callable shapesR
  refine Inquiry.parallel_require fun ls foundL => ?_
  obtain ⟨ls', foundL', kindL, paramsL, returnsL⟩ := shapesL ls foundL
  refine ⟨ls', foundL', Inquiry.parallel_require fun rs foundR => ?_⟩
  obtain ⟨rs', foundR', kindR, paramsR, returnsR⟩ := shapesR rs foundR
  refine ⟨rs', foundR', ?_⟩
  simp only [partsOf, foundL, foundR, Option.map_some, Option.getD_some, List.forall_mem_append] at partsL partsR
  simp only [kindL, kindR, paramsL, paramsR, returnsL, returnsR, List.length_map, List.zip_map, ← List.map_append]
  split
  · exact Inquiry.parallel_every
      (List.forall_mem_append.mpr ⟨inside_zip partsL.1 partsR.1, inside_zip partsL.2 partsR.2⟩)
  · exact .done _

theorem compareIntersections_parallel {l r l' r' : ListId}
    (corrL : env.Corresponds env' names f (.intersection l) (.intersection l'))
    (corrR : env.Corresponds env' names f (.intersection r) (.intersection r'))
    (partsL : ∀ u ∈ env.partsOf (.intersection l), u ∈ types)
    (partsR : ∀ u ∈ env.partsOf (.intersection r), u ∈ types) :
    (env.compareIntersections l r).Parallel f.type types (env'.compareIntersections l' r') := by
  cases corrL with | intersection membersL
  cases corrR with | intersection membersR
  refine Inquiry.parallel_require fun ls foundL => ⟨_, membersL ls foundL, ?_⟩
  refine Inquiry.parallel_require fun rs foundR => ⟨_, membersR rs foundR, ?_⟩
  simp only [partsOf, foundL, foundR, Option.getD_some] at partsL partsR
  simp only [List.length_map, List.zip_map]
  split
  · exact Inquiry.parallel_every (inside_zip partsL partsR)
  · exact .done _

section
variable (unique : Relator.BiUnique names) {n m n' m' : TypeNode} (corrL : env.Corresponds env' names f n n')
  (corrR : env.Corresponds env' names f m m') (partsL : ∀ u ∈ env.partsOf n, u ∈ types)
  (partsR : ∀ u ∈ env.partsOf m, u ∈ types)
include unique corrL corrR partsL partsR

/-- Nodes are compared by their shapes in parallel if the renaming keeps them apart. -/
theorem compareShapes_parallel (apart : n' = m' → n = m) :
    (env.compareShapes n m).Parallel f.type types (env'.compareShapes n' m') := by
  have left := corrL
  have right := corrR
  cases corrL with
  | primitive k =>
    cases corrR with
    | primitive => exact .done _
    | _ => cases k <;> exact .done _
  | array e =>
    cases corrR with
    | array e' => exact .ask (partsL e (by simp [partsOf])) (partsR e' (by simp [partsOf])) fun s => .done _
    | _ => exact .done _
  | record =>
    cases corrR with
    | record => exact compareRecords_parallel unique left right partsL partsR
    | _ => exact .done _
  | reference e =>
    cases corrR with
    | reference e' => exact Inquiry.parallel_every (by simpa [partsOf] using And.intro partsL partsR)
    | _ => exact .done _
  | callable =>
    cases corrR with
    | callable => exact compareCallables_parallel left right partsL partsR
    | _ => exact .done _
  | intersection =>
    cases corrR with
    | intersection => exact compareIntersections_parallel left right partsL partsR
    | _ => exact .done _
  | negation e =>
    cases corrR with
    | negation e' =>
      have insideL : e ∈ types := partsL e (by simp [partsOf])
      have insideR : e' ∈ types := partsR e' (by simp [partsOf])
      exact Inquiry.parallel_every (by simp [insideL, insideR])
    | _ => exact .done _
  | var v =>
    cases corrR with
    | var w =>
      have same : f.var v = f.var w ↔ v = w :=
        ⟨fun renamed => TypeNode.var.inj (apart (congrArg TypeNode.var renamed)), congrArg f.var⟩
      simpa [compareShapes, same] using .done _
    | _ => exact .done _
  | nominal | union | unresolved => cases corrR <;> exact .done _

end

theorem unfold_parallel {d : DeclId} {next next' : TypeId → Inquiry}
    (bodies : ∀ body ∈ env.declarations.body? d, env'.declarations.body? (f.decl d) = some (f.type body))
    (parallel : ∀ body, env.declarations.body? d = some body →
      (next body).Parallel f.type types (next' (f.type body))) :
    (env.unfold d next).Parallel f.type types (env'.unfold (f.decl d) next') :=
  Inquiry.parallel_require fun body found => ⟨f.type body, bodies body found, .note (parallel body found)⟩

theorem members_parallel {l l' : ListId} {next next' : List TypeId → Inquiry}
    (lists : ∀ members ∈ env.types.list? l, env'.types.list? l' = some (members.map f.type))
    (parallel : ∀ members, env.types.list? l = some members →
      (next members).Parallel f.type types (next' (members.map f.type))) :
    (env.members l next).Parallel f.type types (env'.members l' next') :=
  Inquiry.parallel_require fun members found => ⟨members.map f.type, lists members found, parallel members found⟩

section
variable (unique : Relator.BiUnique names) (carries : env.Carries env' names f types)
  (inner : ∀ t ∈ types, ∀ u ∈ env.parts t, u ∈ types) {l r : TypeId} (left : l ∈ types) (right : r ∈ types)
include unique carries inner left right

/-- The rules for a pair and for the renamed pair ask in parallel. -/
theorem Carries.rule_parallel :
    (env.rule l r).Parallel f.type types (env'.rule (f.type l) (f.type r)) := by
  refine Inquiry.parallel_require fun n knownL => ?_
  obtain ⟨n', knownL', corrL⟩ := carries.nodes l left n knownL
  refine ⟨n', knownL', Inquiry.parallel_require fun m knownR => ?_⟩
  obtain ⟨m', knownR', corrR⟩ := carries.nodes r right m knownR
  refine ⟨m', knownR', ?_⟩
  have partsL : ∀ u ∈ env.partsOf n, u ∈ types := by
    rw [← parts_of_node knownL]
    exact inner l left
  have partsR : ∀ u ∈ env.partsOf m, u ∈ types := by
    rw [← parts_of_node knownR]
    exact inner r right
  have apart : n' = m' → n = m := by
    rintro rfl
    obtain rfl := carries.eq_of_node left right knownL' knownR'
    exact Option.some.inj (knownL.symm.trans knownR)
  have corrL' := corrL
  have corrR' := corrR
  cases corrL with
  | unresolved => exact .fail _ _
  | @nominal d bodiesL =>
    cases corrR with
    | unresolved => exact .fail _ _
    | @nominal e bodiesR =>
      have same : f.decl d = f.decl e ↔ d = e :=
        ⟨fun renamed => TypeNode.nominal.inj (apart (congrArg TypeNode.nominal renamed)), congrArg f.decl⟩
      simp only [same]
      split
      · exact .done _
      · exact unfold_parallel bodiesL fun a foundL => unfold_parallel bodiesR fun b foundR =>
          Inquiry.parallel_defer (body_inside partsL foundL) (body_inside partsR foundR)
    | union listsR =>
      exact members_parallel listsR fun members found => Inquiry.parallel_oneOf left (members_inside partsR found)
    | _ => exact unfold_parallel bodiesL fun a found => Inquiry.parallel_defer (body_inside partsL found) right
  | union listsL =>
    cases corrR with
    | unresolved => exact .fail _ _
    | nominal bodiesR => exact unfold_parallel bodiesR fun b found => Inquiry.parallel_defer left (body_inside partsR found)
    | _ => exact members_parallel listsL fun members found => Inquiry.parallel_each right [] (members_inside partsL found)
  | _ =>
    cases corrR with
    | unresolved => exact .fail _ _
    | nominal bodiesR => exact unfold_parallel bodiesR fun b found => Inquiry.parallel_defer left (body_inside partsR found)
    | union listsR =>
      exact members_parallel listsR fun members found => Inquiry.parallel_oneOf left (members_inside partsR found)
    | _ => exact compareShapes_parallel unique corrL' corrR' partsL partsR apart

end

end Environment

end Narrowing
