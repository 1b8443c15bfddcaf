import Narrowing.Proofs.Dispatch
import Narrowing.Proofs.Graph
import Mathlib.Data.List.Forall2

/-!
Inquiries settled by given answers. The rule of comparison is a tree of questions;
answered by a function it ends with a selector, and only the answers it asks for
matter (`settle_congr`). Whether that selector is top depends only on which
answers are top: `Follows` says how, and `settle_rule_eq_top_iff` that it says so
exactly. A rule asks about parts of its pair (`rule_descends`), so on a closed graph
it asks about the graph only and meets no fault (`rule_within`).
-/

namespace Narrowing

namespace Selector

theorem isTop_iff {s : Selector} : s.isTop = true ↔ s = .top := by cases s <;> simp [isTop]

theorem isBottom_iff {s : Selector} : s.isBottom = true ↔ s = .bottom := by cases s <;> simp [isBottom]

@[simp] theorem ofBool_eq_top_iff {b : Bool} : ofBool b = .top ↔ b = true := by cases b <;> simp [ofBool]

@[simp] theorem arrayOf_eq_top_iff {s : Selector} : arrayOf s = .top ↔ s = .top := by cases s <;> simp [arrayOf]

@[simp] theorem recordOf_eq_top_iff {items : List Selector} : recordOf items = .top ↔ ∀ s ∈ items, s = .top := by
  unfold recordOf
  split
  case isTrue tops => simpa [isTop_iff] using tops
  case isFalse mixed =>
    have no : ¬ ∀ s ∈ items, s = .top := by simpa [isTop_iff] using mixed
    split <;> simpa using no

@[simp] theorem unionOf_eq_top_iff {items : List Selector} :
    unionOf items = .top ↔ items ≠ [] ∧ ∀ s ∈ items, s = .top := by
  unfold unionOf
  split
  case isTrue bottoms =>
    simp only [reduceCtorEq, false_iff, not_and]
    intro filled tops
    obtain ⟨s, member⟩ := List.exists_mem_of_ne_nil items filled
    have bottom : s = .bottom := by simpa [isBottom_iff] using List.all_eq_true.mp bottoms s member
    rw [tops s member] at bottom
    exact absurd bottom (by simp)
  case isFalse mixed =>
    have filled : items ≠ [] := by rintro rfl; simp at mixed
    split
    case isTrue tops => exact ⟨fun _ => ⟨filled, by simpa [isTop_iff] using tops⟩, fun _ => rfl⟩
    case isFalse no =>
      simp only [reduceCtorEq, false_iff, not_and]
      exact fun _ tops => no (by simpa [isTop_iff] using tops)

end Selector

namespace Inquiry

/-- Whatever the answers, an inquiry asks only for pairs that are allowed, and no fault ends it. -/
def Within (allowed : TypeId → TypeId → Prop) : Inquiry → Prop
  | .done _ => True
  | .fail _ => False
  | .note _ next => next.Within allowed
  | .ask l r next => allowed l r ∧ ∀ s, (next s).Within allowed

theorem Within.mono {allowed also : TypeId → TypeId → Prop} (more : ∀ a b, allowed a b → also a b) {i : Inquiry}
    (within : i.Within allowed) : i.Within also := by
  induction i with
  | done | fail => exact within
  | note event next ih => exact ih within
  | ask l r next ih => exact ⟨more l r within.1, fun s => ih s (within.2 s)⟩

/-- The end of an inquiry whose questions are answered as given. The first fault ends it. -/
def settle (answer : TypeId → TypeId → Except Fault Selector) : Inquiry → Except Fault Selector
  | .done s => .ok s
  | .fail fault => .error fault
  | .note _ next => next.settle answer
  | .ask l r next =>
    match answer l r with
    | .ok s => (next s).settle answer
    | .error fault => .error fault

/-- The pairs that an inquiry asks for, in order, when its questions are answered as given. -/
def asked (answer : TypeId → TypeId → Except Fault Selector) : Inquiry → List (TypeId × TypeId)
  | .done _ | .fail _ => []
  | .note _ next => next.asked answer
  | .ask l r next =>
    (l, r) :: match answer l r with
      | .ok s => (next s).asked answer
      | .error _ => []

theorem allowed_of_asked {allowed : TypeId → TypeId → Prop} {answer : TypeId → TypeId → Except Fault Selector}
    {i : Inquiry} (within : i.Within allowed) : ∀ p ∈ i.asked answer, allowed p.1 p.2 := by
  induction i with
  | done | fail => simp [asked]
  | note event next ih => exact ih within
  | ask l r next ih =>
    intro p member
    simp only [asked, List.mem_cons] at member
    rcases member with rfl | later
    · exact within.1
    · cases found : answer l r with
      | ok s => exact ih s (within.2 s) p (by simpa [found] using later)
      | error fault => simp [found] at later

/-- Only the answers that are asked for matter. -/
theorem settle_congr {f g : TypeId → TypeId → Except Fault Selector} {i : Inquiry}
    (same : ∀ p ∈ i.asked f, f p.1 p.2 = g p.1 p.2) : i.settle f = i.settle g := by
  induction i with
  | done | fail => rfl
  | note event next ih => exact ih same
  | ask l r next ih =>
    have first : f l r = g l r := same (l, r) (by simp [asked])
    simp only [settle, ← first]
    cases found : f l r with
    | error fault => rfl
    | ok s => exact ih s fun p member => same p (by simp [asked, found, member])

theorem exists_settle {allowed : TypeId → TypeId → Prop} {answer : TypeId → TypeId → Except Fault Selector}
    {i : Inquiry} (within : i.Within allowed) (answered : ∀ l r, allowed l r → ∃ s, answer l r = .ok s) :
    ∃ s, i.settle answer = .ok s := by
  induction i with
  | done s => exact ⟨s, rfl⟩
  | fail => exact within.elim
  | note event next ih => exact ih within
  | ask l r next ih =>
    obtain ⟨s, found⟩ := answered l r within.1
    simpa [settle, found] using ih s (within.2 s)

theorem settle_require_eq_ok_iff {α : Type} {answer : TypeId → TypeId → Except Fault Selector} {part? : Option α}
    {fault : Fault} {next : α → Inquiry} {s : Selector} :
    (require part? fault next).settle answer = .ok s ↔ ∃ a, part? = some a ∧ (next a).settle answer = .ok s := by
  cases part? <;> simp [require, settle]

/-! ### The ways of asking -/

section
variable (answer : TypeId → TypeId → Selector)

@[simp] theorem settle_every (pairs : List (TypeId × TypeId)) :
    (every pairs).settle (fun l r => .ok (answer l r)) = .ok (.ofBool (pairs.all fun p => (answer p.1 p.2).isTop)) := by
  induction pairs with
  | nil => rfl
  | cons p rest ih => cases top : (answer p.1 p.2).isTop <;> simp [every, settle, top, ih, Selector.ofBool]

@[simp] theorem settle_oneOf (lhs : TypeId) (alternatives : List TypeId) :
    (oneOf lhs alternatives).settle (fun l r => .ok (answer l r)) =
      .ok (.ofBool (alternatives.any fun r => (answer lhs r).isTop)) := by
  induction alternatives with
  | nil => rfl
  | cons r rest ih => cases top : (answer lhs r).isTop <;> simp [oneOf, settle, top, ih, Selector.ofBool]

@[simp] theorem settle_each (rhs : TypeId) (found : List Selector) (alternatives : List TypeId) :
    (each rhs found alternatives).settle (fun l r => .ok (answer l r)) =
      .ok (.unionOf (found ++ alternatives.map (answer · rhs))) := by
  induction alternatives generalizing found with
  | nil => simp [each, settle]
  | cons l rest ih => simp [each, settle, ih]

/-- Fields that agree in name and are not ruled out. -/
def fieldsMeet (answer : TypeId → TypeId → Selector) (p : Field × Field) : Bool :=
  p.1.name = p.2.name && !(answer p.1.type p.2.type).isBottom

theorem settle_fieldwise (found : List Selector) (fields : List (Field × Field)) :
    (fieldwise found fields).settle (fun l r => .ok (answer l r)) =
      .ok (if fields.all (fieldsMeet answer) then
        .recordOf (found ++ fields.map fun p => answer p.1.type p.2.type) else .bottom) := by
  induction fields generalizing found with
  | nil => simp [fieldwise, settle]
  | cons p rest ih =>
    obtain ⟨l, r⟩ := p
    by_cases named : l.name = r.name
    · cases bottom : (answer l.type r.type).isBottom with
      | true => simp [fieldwise, settle, named, bottom, fieldsMeet]
      | false =>
        have meet : fieldsMeet answer (l, r) = true := by simp [fieldsMeet, named, bottom]
        rw [List.all_cons, meet, Bool.true_and]
        simp [fieldwise, settle, named, bottom, ih]
    · simp [fieldwise, settle, named, fieldsMeet]

theorem settle_fieldwise_eq_top_iff {fields : List (Field × Field)} :
    (fieldwise [] fields).settle (fun l r => .ok (answer l r)) = .ok .top ↔
      ∀ p ∈ fields, p.1.name = p.2.name ∧ answer p.1.type p.2.type = .top := by
  rw [settle_fieldwise]
  by_cases meet : fields.all (fieldsMeet answer)
  · have named : ∀ p ∈ fields, p.1.name = p.2.name := fun p member => by
      have := List.all_eq_true.mp meet p member
      simp only [fieldsMeet, Bool.and_eq_true, decide_eq_true_eq] at this
      exact this.1
    simp only [meet, if_true, List.nil_append, Except.ok.injEq, Selector.recordOf_eq_top_iff, List.mem_map,
      forall_exists_index, and_imp, forall_apply_eq_imp_iff₂]
    exact ⟨fun tops p member => ⟨named p member, tops p member⟩, fun both p member => (both p member).2⟩
  · simp only [meet, if_false, Except.ok.injEq, reduceCtorEq, false_iff]
    intro both
    refine meet (List.all_eq_true.mpr fun p member => ?_)
    simp [fieldsMeet, both p member, Selector.isBottom]

end

section
variable {allowed : TypeId → TypeId → Prop}

theorem within_every {pairs : List (TypeId × TypeId)} (each : ∀ p ∈ pairs, allowed p.1 p.2) :
    (every pairs).Within allowed := by
  induction pairs with
  | nil => trivial
  | cons p rest ih =>
    refine ⟨each p (by simp), fun s => ?_⟩
    by_cases top : s.isTop
    · simpa [top] using ih fun q later => each q (by simp [later])
    · simp [top, Within]

theorem within_oneOf {lhs : TypeId} {alternatives : List TypeId} (each : ∀ r ∈ alternatives, allowed lhs r) :
    (oneOf lhs alternatives).Within allowed := by
  induction alternatives with
  | nil => trivial
  | cons r rest ih =>
    refine ⟨each r (by simp), fun s => ?_⟩
    by_cases top : s.isTop
    · simp [top, Within]
    · simpa [top] using ih fun q later => each q (by simp [later])

theorem within_each {rhs : TypeId} {found : List Selector} {alternatives : List TypeId}
    (all : ∀ l ∈ alternatives, allowed l rhs) : (each rhs found alternatives).Within allowed := by
  induction alternatives generalizing found with
  | nil => trivial
  | cons l rest ih => exact ⟨all l (by simp), fun s => ih fun q later => all q (by simp [later])⟩

theorem within_fieldwise {found : List Selector} {fields : List (Field × Field)}
    (all : ∀ p ∈ fields, allowed p.1.type p.2.type) : (fieldwise found fields).Within allowed := by
  induction fields generalizing found with
  | nil => trivial
  | cons p rest ih =>
    obtain ⟨l, r⟩ := p
    by_cases named : l.name = r.name
    · simp only [fieldwise, named, if_true]
      refine ⟨all (l, r) (by simp), fun s => ?_⟩
      by_cases bottom : s.isBottom
      · simp [bottom, Within]
      · simpa [bottom] using ih fun q later => all q (by simp [later])
    · simp [fieldwise, named, Within]

end

end Inquiry

namespace Environment

/-! ### When the rule yields top -/

/-- One shape is below another by its components, given which pairs are top. -/
def ShapesFollow (env : Environment) (top : TypeId → TypeId → Prop) : TypeNode → TypeNode → Prop
  | .primitive l, .primitive r => l = r ∨ l = .void
  | .array l, .array r => top l r
  | .record l, .record r => ∃ ls, env.types.record? l = some ls ∧ ∃ rs, env.types.record? r = some rs ∧
      ls.isOpen = rs.isOpen ∧ List.Forall₂ (fun f g => f.name = g.name ∧ top f.type g.type) ls.fields rs.fields
  | .reference l _, .reference r _ => top l r
  | .callable l, .callable r => ∃ ls, env.types.callable? l = some ls ∧ ∃ rs, env.types.callable? r = some rs ∧
      ls.kind = rs.kind ∧ List.Forall₂ top ls.params rs.params ∧ List.Forall₂ top ls.returns rs.returns
  | .intersection l, .intersection r => ∃ ls, env.types.list? l = some ls ∧ ∃ rs, env.types.list? r = some rs ∧
      List.Forall₂ top ls rs
  | .negation l, .negation r => top l r ∧ top r l
  | .var l, .var r => l = r
  | .primitive .void, _ => True
  | _, _ => False

/-- One type with a given node is below another, given which pairs are top. -/
def NodesFollow (env : Environment) (top : TypeId → TypeId → Prop) (lhs rhs : TypeId) : TypeNode → TypeNode → Prop
  | .unresolved _, _ | _, .unresolved _ => False
  | .nominal d, .nominal e => d = e ∨
      ∃ left, env.declarations.body? d = some left ∧ ∃ right, env.declarations.body? e = some right ∧ top left right
  | _, .nominal e => ∃ right, env.declarations.body? e = some right ∧ top lhs right
  | .union ls, _ => ∃ alternatives, env.types.list? ls = some alternatives ∧ alternatives ≠ [] ∧
      ∀ l ∈ alternatives, top l rhs
  | _, .union rs => ∃ alternatives, env.types.list? rs = some alternatives ∧ ∃ r ∈ alternatives, top lhs r
  | .nominal d, _ => ∃ left, env.declarations.body? d = some left ∧ top left rhs
  | l, r => env.ShapesFollow top l r

/-- One type is below another by one rule, given which pairs are top. -/
def Follows (env : Environment) (top : TypeId → TypeId → Prop) (lhs rhs : TypeId) : Prop :=
  ∃ l, env.types.node? lhs = some l ∧ ∃ r, env.types.node? rhs = some r ∧ env.NodesFollow top lhs rhs l r

variable {env : Environment}

section
variable (answer : TypeId → TypeId → Selector)

private theorem settle_compareRecords_eq_top_iff (l r : RecordId) :
    (env.compareRecords l r).settle (fun a b => .ok (answer a b)) = .ok .top ↔
      env.ShapesFollow (fun a b => answer a b = .top) (.record l) (.record r) := by
  have fields (ls rs : RecordShape) :
      (if ls.isOpen = rs.isOpen ∧ ls.fields.length = rs.fields.length then
        Inquiry.fieldwise [] (ls.fields.zip rs.fields) else .done .bottom).settle (fun a b => .ok (answer a b)) =
          .ok .top ↔
        ls.isOpen = rs.isOpen ∧
          List.Forall₂ (fun f g => f.name = g.name ∧ answer f.type g.type = .top) ls.fields rs.fields := by
    rw [List.forall₂_iff_zip]
    by_cases fits : ls.isOpen = rs.isOpen ∧ ls.fields.length = rs.fields.length
    · simp [fits, Inquiry.settle_fieldwise_eq_top_iff]
    · simp only [fits, if_false, Inquiry.settle, Except.ok.injEq, reduceCtorEq, false_iff]
      exact fun both => fits ⟨both.1, both.2.1⟩
  simp only [compareRecords, ShapesFollow, Inquiry.settle_require_eq_ok_iff, fields]

private theorem settle_compareCallables_eq_top_iff (l r : CallableId) :
    (env.compareCallables l r).settle (fun a b => .ok (answer a b)) = .ok .top ↔
      env.ShapesFollow (fun a b => answer a b = .top) (.callable l) (.callable r) := by
  have components (ls rs : CallableShape) :
      (if ls.kind = rs.kind ∧ ls.params.length = rs.params.length ∧ ls.returns.length = rs.returns.length then
        Inquiry.every (ls.params.zip rs.params ++ ls.returns.zip rs.returns) else .done .bottom).settle
          (fun a b => .ok (answer a b)) = .ok .top ↔
        ls.kind = rs.kind ∧ List.Forall₂ (fun a b => answer a b = .top) ls.params rs.params ∧
          List.Forall₂ (fun a b => answer a b = .top) ls.returns rs.returns := by
    simp only [List.forall₂_iff_zip]
    by_cases fits : ls.kind = rs.kind ∧ ls.params.length = rs.params.length ∧ ls.returns.length = rs.returns.length
    · simp [fits, Selector.isTop_iff]
    · simp only [fits, if_false, Inquiry.settle, Except.ok.injEq, reduceCtorEq, false_iff]
      exact fun all => fits ⟨all.1, all.2.1.1, all.2.2.1⟩
  simp only [compareCallables, ShapesFollow, Inquiry.settle_require_eq_ok_iff, components]

private theorem settle_compareIntersections_eq_top_iff (l r : ListId) :
    (env.compareIntersections l r).settle (fun a b => .ok (answer a b)) = .ok .top ↔
      env.ShapesFollow (fun a b => answer a b = .top) (.intersection l) (.intersection r) := by
  have operands (ls rs : List TypeId) :
      (if ls.length = rs.length then Inquiry.every (ls.zip rs) else .done .bottom).settle
          (fun a b => .ok (answer a b)) = .ok .top ↔ List.Forall₂ (fun a b => answer a b = .top) ls rs := by
    rw [List.forall₂_iff_zip]
    by_cases fits : ls.length = rs.length <;> simp [fits, Selector.isTop_iff, Inquiry.settle]
  simp only [compareIntersections, members, ShapesFollow, Inquiry.settle_require_eq_ok_iff, operands]

private theorem settle_compareShapes_eq_top_iff (l r : TypeNode) :
    (env.compareShapes l r).settle (fun a b => .ok (answer a b)) = .ok .top ↔
      env.ShapesFollow (fun a b => answer a b = .top) l r := by
  cases l with
  | primitive k => cases k <;> cases r <;> simp [compareShapes, ShapesFollow, Inquiry.settle]
  | record l =>
    cases r with
    | record r => exact settle_compareRecords_eq_top_iff answer l r
    | _ => simp [compareShapes, ShapesFollow, Inquiry.settle]
  | callable l =>
    cases r with
    | callable r => exact settle_compareCallables_eq_top_iff answer l r
    | _ => simp [compareShapes, ShapesFollow, Inquiry.settle]
  | intersection l =>
    cases r with
    | intersection r => exact settle_compareIntersections_eq_top_iff answer l r
    | _ => simp [compareShapes, ShapesFollow, Inquiry.settle]
  | _ => cases r <;> simp [compareShapes, ShapesFollow, Inquiry.settle, Selector.isTop_iff]

/-- The rule yields top exactly for the pairs that follow from those answered by top. -/
theorem settle_rule_eq_top_iff (lhs rhs : TypeId) :
    (env.rule lhs rhs).settle (fun a b => .ok (answer a b)) = .ok .top ↔
      env.Follows (fun a b => answer a b = .top) lhs rhs := by
  simp only [rule, Follows, Inquiry.settle_require_eq_ok_iff]
  refine exists_congr fun l => and_congr_right fun _ => exists_congr fun r => and_congr_right fun _ => ?_
  cases l with
  | unresolved => simp [NodesFollow, Inquiry.settle]
  | nominal d =>
    cases r with
    | nominal e =>
      by_cases same : d = e <;>
        simp [NodesFollow, same, unfold, Inquiry.settle_require_eq_ok_iff, Inquiry.settle, Inquiry.defer]
    | _ =>
      simp [NodesFollow, unfold, members, Inquiry.settle_require_eq_ok_iff, Inquiry.settle, Inquiry.defer,
        Selector.isTop_iff]
  | union ls =>
    cases r <;>
      simp [NodesFollow, unfold, members, Inquiry.settle_require_eq_ok_iff, Inquiry.settle, Inquiry.defer]
  | _ =>
    cases r with
    | unresolved | nominal | union =>
      simp [NodesFollow, unfold, members, Inquiry.settle_require_eq_ok_iff, Inquiry.settle, Inquiry.defer,
        Selector.isTop_iff]
    | _ => exact settle_compareShapes_eq_top_iff answer _ _

end

/-! ### The questions of a rule -/

/-- The pairs that a rule may ask about: parts of both types, of one of them, or of both the other way round. -/
inductive Descends (env : Environment) (l r : TypeId) : TypeId → TypeId → Prop where
  | both {a b : TypeId} : a ∈ env.parts l → b ∈ env.parts r → Descends env l r a b
  | left {a : TypeId} : a ∈ env.parts l → Descends env l r a r
  | right {b : TypeId} : b ∈ env.parts r → Descends env l r l b
  | crossed {a b : TypeId} : a ∈ env.parts r → b ∈ env.parts l → Descends env l r a b

section
variable {l r : TypeId} {n m : TypeNode} (knownL : env.types.node? l = some n) (knownR : env.types.node? r = some m)
  (resolvedL : env.resolves n) (resolvedR : env.resolves m)
include knownL knownR resolvedL resolvedR

private theorem compareShapes_descends : (env.compareShapes n m).Within (env.Descends l r) := by
  have partsL := parts_of_node knownL
  have partsR := parts_of_node knownR
  have zipped {ls rs : List TypeId} (left : ls ⊆ env.parts l) (right : rs ⊆ env.parts r) :
      ∀ p ∈ ls.zip rs, env.Descends l r p.1 p.2 :=
    fun p member => .both (left (List.of_mem_zip member).1) (right (List.of_mem_zip member).2)
  unfold compareShapes
  split
  case h_1 | h_8 | h_9 | h_10 => trivial
  case h_2 => exact ⟨.both (by simp [partsL, partsOf]) (by simp [partsR, partsOf]), fun _ => trivial⟩
  case h_3 =>
    obtain ⟨ls, foundL⟩ := Option.isSome_iff_exists.mp resolvedL
    obtain ⟨rs, foundR⟩ := Option.isSome_iff_exists.mp resolvedR
    simp only [compareRecords, Inquiry.require, foundL, foundR]
    split
    · refine Inquiry.within_fieldwise fun p member => .both ?_ ?_
      · simpa [partsL, partsOf, foundL] using ⟨p.1, (List.of_mem_zip member).1, rfl⟩
      · simpa [partsR, partsOf, foundR] using ⟨p.2, (List.of_mem_zip member).2, rfl⟩
    · trivial
  case h_4 => exact Inquiry.within_every (by simpa using .both (by simp [partsL, partsOf]) (by simp [partsR, partsOf]))
  case h_5 =>
    obtain ⟨ls, foundL⟩ := Option.isSome_iff_exists.mp resolvedL
    obtain ⟨rs, foundR⟩ := Option.isSome_iff_exists.mp resolvedR
    simp only [compareCallables, Inquiry.require, foundL, foundR]
    split
    · refine Inquiry.within_every (List.forall_mem_append.mpr ⟨zipped ?_ ?_, zipped ?_ ?_⟩) <;>
        simp [partsL, partsR, partsOf, foundL, foundR]
    · trivial
  case h_6 =>
    obtain ⟨ls, foundL⟩ := Option.isSome_iff_exists.mp resolvedL
    obtain ⟨rs, foundR⟩ := Option.isSome_iff_exists.mp resolvedR
    simp only [compareIntersections, members, Inquiry.require, foundL, foundR]
    split
    · exact Inquiry.within_every (zipped (by simp [partsL, partsOf, foundL]) (by simp [partsR, partsOf, foundR]))
    · trivial
  case h_7 a b =>
    have left : a ∈ env.parts l := by simp [partsL, partsOf]
    have right : b ∈ env.parts r := by simp [partsR, partsOf]
    exact Inquiry.within_every (by simpa using And.intro (.both left right) (.crossed right left))

private theorem rule_descends_of_nodes : (env.rule l r).Within (env.Descends l r) := by
  have partsL := parts_of_node knownL
  have partsR := parts_of_node knownR
  simp only [rule, Inquiry.require, knownL, knownR]
  split
  case h_1 => exact absurd resolvedL (by simp [resolves])
  case h_2 => exact absurd resolvedR (by simp [resolves])
  case h_3 d e =>
    obtain ⟨a, foundL⟩ := Option.isSome_iff_exists.mp resolvedL
    obtain ⟨b, foundR⟩ := Option.isSome_iff_exists.mp resolvedR
    split
    · trivial
    · simp only [unfold, foundL, foundR, Inquiry.require]
      exact ⟨.both (by simp [partsL, partsOf, foundL]) (by simp [partsR, partsOf, foundR]), fun _ => trivial⟩
  case h_4 e =>
    obtain ⟨b, foundR⟩ := Option.isSome_iff_exists.mp resolvedR
    simp only [unfold, foundR, Inquiry.require]
    exact ⟨.right (by simp [partsR, partsOf, foundR]), fun _ => trivial⟩
  case h_5 =>
    obtain ⟨as, foundL⟩ := Option.isSome_iff_exists.mp resolvedL
    simp only [members, Inquiry.require, foundL]
    exact Inquiry.within_each fun a member => .left (by simpa [partsL, partsOf, foundL] using member)
  case h_6 =>
    obtain ⟨bs, foundR⟩ := Option.isSome_iff_exists.mp resolvedR
    simp only [members, Inquiry.require, foundR]
    exact Inquiry.within_oneOf fun b member => .right (by simpa [partsR, partsOf, foundR] using member)
  case h_7 d =>
    obtain ⟨a, foundL⟩ := Option.isSome_iff_exists.mp resolvedL
    simp only [unfold, foundL, Inquiry.require]
    exact ⟨.left (by simp [partsL, partsOf, foundL]), fun _ => trivial⟩
  case h_8 => exact compareShapes_descends knownL knownR resolvedL resolvedR

end

/-- The rule asks about parts of its pair only, and meets no fault. -/
theorem rule_descends {l r : TypeId} (left : env.isResolved l) (right : env.isResolved r) :
    (env.rule l r).Within (env.Descends l r) := by
  obtain ⟨n, knownL, resolvedL⟩ := isResolved_iff.mp left
  obtain ⟨m, knownR, resolvedR⟩ := isResolved_iff.mp right
  exact rule_descends_of_nodes knownL knownR resolvedL resolvedR

/-- On a closed graph the rule asks about the graph only, and meets no fault. -/
theorem rule_within {types : Set TypeId} (closed : env.Closed types) {lhs rhs : TypeId} (left : lhs ∈ types)
    (right : rhs ∈ types) : (env.rule lhs rhs).Within fun a b => a ∈ types ∧ b ∈ types := by
  refine (rule_descends (closed.resolved lhs left) (closed.resolved rhs right)).mono ?_
  intro a b descends
  cases descends with
  | both partA partB => exact ⟨closed.parts lhs left a partA, closed.parts rhs right b partB⟩
  | left part => exact ⟨closed.parts lhs left a part, right⟩
  | right part => exact ⟨left, closed.parts rhs right b part⟩
  | crossed partA partB => exact ⟨closed.parts rhs right a partA, closed.parts lhs left b partB⟩

section
variable {S T : TypeId → TypeId → Prop}

private theorem ShapesFollow.mono (more : ∀ a b, S a b → T a b) {l r : TypeNode} (shapes : env.ShapesFollow S l r) :
    env.ShapesFollow T l r := by
  unfold ShapesFollow at shapes ⊢
  split at shapes
  case h_1 | h_8 => exact shapes
  case h_2 | h_4 => exact more _ _ shapes
  case h_3 =>
    obtain ⟨ls, foundL, rs, foundR, same, fields⟩ := shapes
    exact ⟨ls, foundL, rs, foundR, same, fields.imp fun _ _ both => ⟨both.1, more _ _ both.2⟩⟩
  case h_5 =>
    obtain ⟨ls, foundL, rs, foundR, same, params, returns⟩ := shapes
    exact ⟨ls, foundL, rs, foundR, same, params.imp more, returns.imp more⟩
  case h_6 =>
    obtain ⟨ls, foundL, rs, foundR, operands⟩ := shapes
    exact ⟨ls, foundL, rs, foundR, operands.imp more⟩
  case h_7 => exact ⟨more _ _ shapes.1, more _ _ shapes.2⟩
  case h_9 => trivial
  case h_10 => exact shapes.elim

private theorem NodesFollow.mono (more : ∀ a b, S a b → T a b) {lhs rhs : TypeId} {l r : TypeNode}
    (nodes : env.NodesFollow S lhs rhs l r) : env.NodesFollow T lhs rhs l r := by
  unfold NodesFollow at nodes ⊢
  split at nodes
  case h_1 | h_2 => exact nodes.elim
  case h_3 =>
    refine nodes.imp_right ?_
    rintro ⟨a, foundL, b, foundR, top⟩
    exact ⟨a, foundL, b, foundR, more _ _ top⟩
  case h_4 =>
    obtain ⟨b, found, top⟩ := nodes
    exact ⟨b, found, more _ _ top⟩
  case h_5 =>
    obtain ⟨as, found, filled, tops⟩ := nodes
    exact ⟨as, found, filled, fun l member => more _ _ (tops l member)⟩
  case h_6 =>
    obtain ⟨bs, found, r, member, top⟩ := nodes
    exact ⟨bs, found, r, member, more _ _ top⟩
  case h_7 =>
    obtain ⟨a, found, top⟩ := nodes
    exact ⟨a, found, more _ _ top⟩
  case h_8 => exact nodes.mono more

/-- More pairs that are top make no pair fall. -/
theorem Follows.mono (more : ∀ a b, S a b → T a b) {lhs rhs : TypeId} (follows : env.Follows S lhs rhs) :
    env.Follows T lhs rhs := by
  obtain ⟨l, knownL, r, knownR, nodes⟩ := follows
  exact ⟨l, knownL, r, knownR, nodes.mono more⟩

end

/-! ### Answers on a closed graph -/

section
variable {types : Set TypeId} (closed : env.Closed types) {l r : TypeId} (left : l ∈ types) (right : r ∈ types)
  {answer : TypeId → TypeId → Except Fault Selector}
  (answered : ∀ a b, a ∈ types → b ∈ types → ∃ s, answer a b = .ok s)
include closed left right answered

/-- The answers that a rule asks for on a closed graph decide what it yields, so the others may be replaced. -/
theorem Closed.exists_total (other : Selector) :
    ∃ value : TypeId → TypeId → Selector,
      (∀ a b, (a, b) ∈ (env.rule l r).asked answer → answer a b = .ok (value a b)) ∧
      (∀ a b, (a, b) ∉ (env.rule l r).asked answer → value a b = other) ∧
      (env.rule l r).settle answer = (env.rule l r).settle fun a b => .ok (value a b) := by
  let value (a b : TypeId) : Selector :=
    if (a, b) ∈ (env.rule l r).asked answer then (answer a b).toOption.getD other else other
  have agree : ∀ a b, (a, b) ∈ (env.rule l r).asked answer → answer a b = .ok (value a b) := by
    intro a b asked
    have inside := Inquiry.allowed_of_asked (rule_within closed left right) (a, b) asked
    obtain ⟨s, found⟩ := answered a b inside.1 inside.2
    simp [value, asked, found, Except.toOption]
  exact ⟨value, agree, fun a b unasked => if_neg unasked, Inquiry.settle_congr fun p asked => agree p.1 p.2 asked⟩

/-- A pair that the rule finds top follows from the pairs that it asked for and found top. -/
theorem Closed.follows_asked (settled : (env.rule l r).settle answer = .ok .top) :
    env.Follows (fun a b => (a, b) ∈ (env.rule l r).asked answer ∧ answer a b = .ok .top) l r := by
  -- With bottom for the other pairs, none of them can be what the pair follows from.
  obtain ⟨value, agree, others, same⟩ := closed.exists_total left right answered .bottom
  rw [same, settle_rule_eq_top_iff] at settled
  refine settled.mono fun a b top => ?_
  by_cases asked : (a, b) ∈ (env.rule l r).asked answer
  · exact ⟨asked, by rw [agree a b asked, top]⟩
  · rw [others a b asked] at top
    exact absurd top (by simp)

/-- A pair that follows from some pairs is found top if those of them that the rule asks for are. -/
theorem Closed.settle_of_follows {premise : TypeId → TypeId → Prop} (follows : env.Follows premise l r)
    (tops : ∀ p ∈ (env.rule l r).asked answer, premise p.1 p.2 → answer p.1 p.2 = .ok .top) :
    (env.rule l r).settle answer = .ok .top := by
  -- With top for the other pairs, every premise holds.
  obtain ⟨value, agree, others, same⟩ := closed.exists_total left right answered .top
  rw [same, settle_rule_eq_top_iff]
  refine follows.mono fun a b premised => ?_
  by_cases asked : (a, b) ∈ (env.rule l r).asked answer
  · have top := tops (a, b) asked premised
    rw [agree a b asked] at top
    exact Except.ok.inj top
  · exact others a b asked

end

end Environment

end Narrowing
