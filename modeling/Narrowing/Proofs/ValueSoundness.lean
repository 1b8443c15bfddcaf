import Narrowing.Narrowed
import Narrowing.Proofs.RefinementMeaning

/-!
Narrowing keeps to the values. On types without circles and callables a comparison
yields a selector that lets only values of the target through
(`Closed.selected_subset_of_outcome`), and refinement builds the type of the values
that it lets through. So the values of a narrowed type are values of the source and
of the target.
-/

namespace Narrowing

universe u

namespace Environment

variable {V : Type u} {I : Interpretation V} {env : Environment}

/-! ### The values that a comparison lets through -/

/-- Whether a type is a callable. -/
def isCallable (env : Environment) (t : TypeId) : Bool :=
  match env.types.node? t with
  | some (.callable _) => true
  | _ => false

def CallableFree (env : Environment) (types : Set TypeId) : Prop := ∀ t ∈ types, ¬ env.isCallable t

theorem selected_ofBool {condition : Bool} {t : TypeId} {values : Set V}
    (all : condition = true → env.meaning I t ⊆ values) : env.selected I t (.ofBool condition) ⊆ values := by
  cases condition with
  | true => exact all rfl
  | false => simp [Selector.ofBool, selected]

section
variable {value : TypeId → TypeId → Selector} (sound : ∀ a b, env.selected I a (value a b) ⊆ env.meaning I b)
include sound

private theorem subset_of_top {a b : TypeId} (top : value a b = .top) : env.meaning I a ⊆ env.meaning I b := by
  have passes := sound a b
  rwa [top, selected] at passes

private theorem selectedFields_zip {fs gs : List Field} (count : fs.length = gs.length)
    (names : ∀ p ∈ fs.zip gs, p.1.name = p.2.name) :
    List.Forall₂ (fun f g => f.1 = g.1 ∧ f.2 ⊆ g.2)
      (env.selectedFields I fs ((fs.zip gs).map fun p => value p.1.type p.2.type))
      (gs.map fun g => (g.name, env.meaning I g.type)) := by
  induction fs generalizing gs with
  | nil =>
    obtain rfl : gs = [] := List.eq_nil_of_length_eq_zero count.symm
    exact .nil
  | cons f fs ih =>
    cases gs with
    | nil => simp at count
    | cons g gs =>
      obtain ⟨here, rest⟩ := List.forall_mem_cons.mp names
      rw [List.zip_cons_cons, List.map_cons, List.map_cons, selectedFields]
      exact .cons ⟨here, sound f.type g.type⟩ (ih (by simpa using count) rest)

variable {l r : TypeId} (groundedL : env.Grounded l) (groundedR : env.Grounded r) {s : Selector}
include groundedL groundedR

private theorem selected_compareRecords {a b : RecordId} (knownL : env.types.node? l = some (.record a))
    (knownR : env.types.node? r = some (.record b))
    (settled : (env.compareRecords a b).settle (fun a b => .ok (value a b)) = .ok s) :
    env.selected I l s ⊆ env.meaning I r := by
  simp only [compareRecords, Inquiry.settle_require_eq_ok_iff] at settled
  obtain ⟨ls, foundL, rs, foundR, settled⟩ := settled
  split at settled
  case isFalse =>
    obtain rfl : .bottom = s := by simpa [Inquiry.settle] using settled
    simp [selected]
  case isTrue alike =>
    rw [Inquiry.settle_fieldwise, Except.ok.injEq] at settled
    split at settled
    case isFalse =>
      subst settled
      simp [selected]
    case isTrue meet =>
      subst settled
      have shownL := recordOf?_eq_some_iff.mpr ⟨[], l, a, .here, knownL, foundL⟩
      have shownR := recordOf?_eq_some_iff.mpr ⟨[], r, b, .here, knownR, foundR⟩
      have names : ∀ p ∈ ls.fields.zip rs.fields, p.1.name = p.2.name := by
        intro p member
        have both := List.all_eq_true.mp meet p member
        simp only [Inquiry.fieldsMeet, Bool.and_eq_true, decide_eq_true_eq] at both
        exact both.1
      rw [List.nil_append, groundedR.meaning_fields shownR, ← alike.1]
      refine (groundedL.selected_recordOf shownL (by simp [alike.2])).trans (I.record_mono _ ?_)
      exact selectedFields_zip sound alike.2 names

private theorem selected_compareIntersections {a b : ListId} (knownL : env.types.node? l = some (.intersection a))
    (knownR : env.types.node? r = some (.intersection b))
    (settled : (env.compareIntersections a b).settle (fun a b => .ok (value a b)) = .ok s) :
    env.selected I l s ⊆ env.meaning I r := by
  simp only [compareIntersections, members, Inquiry.settle_require_eq_ok_iff] at settled
  obtain ⟨ls, foundL, rs, foundR, settled⟩ := settled
  split at settled
  case isFalse =>
    obtain rfl : .bottom = s := by simpa [Inquiry.settle] using settled
    simp [selected]
  case isTrue alike =>
    simp only [Inquiry.settle_every, Except.ok.injEq] at settled
    subst settled
    refine selected_ofBool fun tops v value => ?_
    rw [groundedL.meaning_eq knownL] at value
    rw [groundedR.meaning_eq knownR]
    simp only [layer, foundL, foundR, Option.getD_some, Set.mem_ofPred_eq] at value ⊢
    intro m member
    obtain ⟨i, inside, rfl⟩ := List.getElem_of_mem member
    have paired : (ls[i], rs[i]) ∈ ls.zip rs := by
      refine List.mem_iff_getElem.mpr ⟨i, by simp; omega, by simp⟩
    have top := List.all_eq_true.mp tops _ paired
    exact subset_of_top sound (Selector.isTop_iff.mp top) (value _ (List.getElem_mem _))

private theorem selected_compareShapes {n m : TypeNode} (knownL : env.types.node? l = some n)
    (knownR : env.types.node? r = some m) (free : ∀ c, n ≠ .callable c)
    (settled : (env.compareShapes n m).settle (fun a b => .ok (value a b)) = .ok s) :
    env.selected I l s ⊆ env.meaning I r := by
  unfold compareShapes at settled
  split at settled
  case h_1 j k =>
    simp only [Inquiry.settle, Except.ok.injEq] at settled
    subst settled
    refine selected_ofBool fun alike => ?_
    rw [groundedL.meaning_eq knownL, groundedR.meaning_eq knownR, layer, layer]
    rcases of_decide_eq_true alike with rfl | rfl
    · exact subset_rfl
    · simp [I.void]
  case h_2 e f =>
    simp only [Inquiry.settle, Except.ok.injEq] at settled
    subst settled
    have shownL := elementOf?_eq_some_iff.mpr ⟨[], l, .here, knownL⟩
    have shownR := elementOf?_eq_some_iff.mpr ⟨[], r, .here, knownR⟩
    rw [groundedR.meaning_element shownR]
    exact (groundedL.selected_arrayOf shownL _).trans (I.lists_mono (sound e f))
  case h_3 => exact selected_compareRecords sound groundedL groundedR knownL knownR settled
  case h_4 a _ b _ =>
    simp only [Inquiry.settle_every, Except.ok.injEq] at settled
    subst settled
    refine selected_ofBool fun top => ?_
    have inner : env.meaning I a ⊆ env.meaning I b := subset_of_top sound (by simpa [Selector.isTop_iff] using top)
    rw [groundedL.meaning_eq knownL, groundedR.meaning_eq knownR, layer, layer]
    rintro v ⟨w, value, rfl⟩
    exact ⟨w, inner value, rfl⟩
  case h_5 a b => exact absurd rfl (free a)
  case h_6 => exact selected_compareIntersections sound groundedL groundedR knownL knownR settled
  case h_7 a b =>
    simp only [Inquiry.settle_every, Except.ok.injEq] at settled
    subst settled
    refine selected_ofBool fun tops => ?_
    -- A complement shrinks as its operand grows, so it is the reverse comparison that counts.
    have inner : env.meaning I b ⊆ env.meaning I a := by
      have both : value a b = .top ∧ value b a = .top := by simpa [Selector.isTop_iff] using tops
      exact subset_of_top sound both.2
    rw [groundedL.meaning_eq knownL, groundedR.meaning_eq knownR, layer, layer]
    exact Set.compl_subset_compl.mpr inner
  case h_8 a b =>
    simp only [Inquiry.settle, Except.ok.injEq] at settled
    subst settled
    refine selected_ofBool fun alike => ?_
    rw [groundedL.meaning_eq knownL, groundedR.meaning_eq knownR, layer, layer, of_decide_eq_true alike]
  case h_9 =>
    simp only [Inquiry.settle, Except.ok.injEq] at settled
    subst settled
    rw [selected, groundedL.meaning_eq knownL, layer, I.void]
    exact Set.empty_subset _
  case h_10 =>
    simp only [Inquiry.settle, Except.ok.injEq] at settled
    subst settled
    simp [selected]

/-- If the answers let only values of their targets through, so does what the rule makes of them. -/
theorem selected_settle (free : ¬ env.isCallable l)
    (settled : (env.rule l r).settle (fun a b => .ok (value a b)) = .ok s) : env.selected I l s ⊆ env.meaning I r := by
  obtain ⟨n, knownL, restsL⟩ := (closed_grounded env).rests groundedL
  obtain ⟨m, knownR, restsR⟩ := (closed_grounded env).rests groundedR
  simp only [rule, Inquiry.require, knownL, knownR] at settled
  split at settled
  case h_1 => exact absurd restsL.resolved (by simp [resolves])
  case h_2 => exact absurd restsR.resolved (by simp [resolves])
  case h_3 d e =>
    obtain ⟨a, foundL, -⟩ := restsL.nominal
    obtain ⟨b, foundR, -⟩ := restsR.nominal
    rw [groundedR.meaning_nominal knownR foundR, groundedL.selected_body knownL foundL]
    split at settled
    case isTrue same =>
      obtain rfl : .top = s := by simpa [Inquiry.settle] using settled
      subst same
      obtain rfl : a = b := Option.some.inj (foundL.symm.trans foundR)
      rw [selected]
    case isFalse =>
      obtain rfl : value a b = s := by
        simpa [unfold, foundL, foundR, Inquiry.require, Inquiry.settle, Inquiry.defer] using settled
      exact sound a b
  case h_4 e =>
    obtain ⟨b, foundR, -⟩ := restsR.nominal
    obtain rfl : value l b = s := by
      simpa [unfold, foundR, Inquiry.require, Inquiry.settle, Inquiry.defer] using settled
    rw [groundedR.meaning_nominal knownR foundR]
    exact sound l b
  case h_5 =>
    obtain ⟨alternatives, found, -⟩ := restsL.union
    simp only [members, Inquiry.require, found, Inquiry.settle_each, List.nil_append, Except.ok.injEq] at settled
    subst settled
    intro v passes
    obtain ⟨a, -, here⟩ := groundedL.selected_unionOf (f := (value · r))
      (alternativesOf?_eq_some_iff.mpr ⟨[], l, _, .here, knownL, found⟩) passes
    exact sound a r here
  case h_6 =>
    obtain ⟨alternatives, found, -⟩ := restsR.union
    simp only [members, Inquiry.require, found, Inquiry.settle_oneOf, Except.ok.injEq] at settled
    subst settled
    refine selected_ofBool fun some_top v value => ?_
    obtain ⟨b, member, top⟩ := List.any_eq_true.mp some_top
    rw [groundedR.mem_meaning_union knownR found]
    exact ⟨b, member, subset_of_top sound (Selector.isTop_iff.mp top) value⟩
  case h_7 d =>
    obtain ⟨a, foundL, -⟩ := restsL.nominal
    obtain rfl : value a r = s := by
      simpa [unfold, foundL, Inquiry.require, Inquiry.settle, Inquiry.defer] using settled
    rw [groundedL.selected_body knownL foundL]
    exact sound a r
  case h_8 =>
    have shape : ∀ c, n ≠ .callable c := fun c same => free (by simp [isCallable, knownL, same])
    exact selected_compareShapes sound groundedL groundedR knownL knownR shape settled

end

section
variable {types : Set TypeId} (closed : env.Closed types) (acyclic : env.Acyclic types) (free : env.CallableFree types)
include closed acyclic free

/-- A comparison lets only values of the target through. Nothing is assumed on the way, since no pair is met while it
    is in progress; a pair that is refused lets nothing through. -/
theorem Closed.selected_subset_of_outcome {room : Nat} {inProgress : List TypePair} {l r : TypeId} (left : l ∈ types)
    (right : r ∈ types) (above : ∀ p ∈ inProgress, env.rank l + env.rank r < env.weight p) {s : Selector}
    (answer : env.outcome room inProgress l r = .ok s) : env.selected I l s ⊆ env.meaning I r := by
  induction room generalizing inProgress l r s with
  | zero =>
    obtain rfl := Except.ok.inj answer
    exact selected_ofBool fun old => absurd (of_decide_eq_true old) (not_mem_of_weight above)
  | succ room ih =>
    have groundedL := closed.grounded acyclic left
    have groundedR := closed.grounded acyclic right
    rw [outcome_of_new (not_mem_of_weight above)] at answer
    obtain ⟨value, agree, others, same⟩ := closed.exists_total left right
      (fun a b => closed.exists_outcome room (.of l r :: inProgress)) .bottom
    rw [same] at answer
    refine selected_settle (fun a b => ?_) groundedL groundedR (free l left) answer
    by_cases asked : (a, b) ∈ (env.rule l r).asked (env.outcome room (.of l r :: inProgress))
    · have inside := Inquiry.allowed_of_asked (rule_within closed left right) (a, b) asked
      obtain ⟨-, -, falls⟩ := Inquiry.allowed_of_asked (groundedL.rule_falls groundedR) (a, b) asked
      refine ih inside.1 inside.2 (List.forall_mem_cons.mpr ⟨?_, fun p old => falls.trans (above p old)⟩) (agree a b asked)
      rw [weight_of]
      exact falls
    · rw [others a b asked, selected]
      exact Set.empty_subset _

/-- Narrowing a type to a target, without circles and callables, ends with a type whose values are those that the
    selector lets through of the source, and these are values of the source and of the target. In particular, if the
    selector is top every value of the source is one of the target. -/
theorem narrow_sound {a b : TypeId} (insideA : a ∈ types) (insideB : b ∈ types) :
    ∃ narrowed env', env.narrow a b = (.ok narrowed, env') ∧
      env'.meaning I narrowed.type = env.selected I a narrowed.selector ∧
      (∀ v ∈ env'.meaning I narrowed.type, v ∈ env.meaning I a ∧ v ∈ env.meaning I b) ∧
      (narrowed.selector = .top → env.meaning I a ⊆ env.meaning I b) := by
  obtain ⟨s, answer⟩ : ∃ s, env.selector a b = .ok s := (closed.wellFormed insideA insideB).exists_limitedSelector _
  have grounded := closed.grounded acyclic insideA
  have passes : env.selected I a s ⊆ env.meaning I b :=
    closed.selected_subset_of_outcome acyclic free insideA insideB (by simp) ((selector_eq_outcome a b).symm.trans answer)
  obtain ⟨-, means⟩ := refine_means (I := I) env s grounded (.refl env.types)
  refine ⟨⟨s, _⟩, _, ?_, means.meaning_eq, ?_, ?_⟩
  · simp only [narrow, answer]
    rfl
  · intro v value
    rw [means.meaning_eq] at value
    exact ⟨selected_subset env s grounded value, passes value⟩
  · rintro rfl
    rwa [selected] at passes

end

end Environment

/-! ### Values of the usual kinds -/

inductive Value where
  | null
  | bool (b : Bool)
  | byte (n : Fin 256)
  | int (n : Int)
  | list (elements : List Value)
  | reference (v : Value)
  | record (fields : List (Name × Value))

/-- The usual values. A closed record has exactly the fields of its type, in order, and an open one at least these. -/
def Value.standard : Interpretation Value where
  primitive
    | .void => ∅
    | .null => {.null}
    | .bool => Set.range .bool
    | .byte => Set.range .byte
    | .int => Set.range .int
    | .any => Set.univ
  void := rfl
  binder _ := Set.univ
  callable _ := ∅
  list := .list
  reference := .reference
  record
    | false, fs => {v | ∃ fields, v = .record fields ∧ List.Forall₂ (fun p f => p.1 = f.1 ∧ p.2 ∈ f.2) fields fs}
    | true, fs => {v | ∃ fields, v = .record fields ∧ ∀ f ∈ fs, ∃ p ∈ fields, p.1 = f.1 ∧ p.2 ∈ f.2}
  record_mono := by
    rintro (_ | _) fs gs wider v ⟨fields, rfl, inside⟩
    · refine ⟨fields, rfl, ?_⟩
      induction inside generalizing gs with
      | nil =>
        cases wider
        exact .nil
      | cons here _ ih =>
        cases wider with
        | cons first rest => exact .cons ⟨here.1.trans first.1, first.2 here.2⟩ (ih rest)
    · refine ⟨fields, rfl, fun g member => ?_⟩
      obtain ⟨f, listed, same, more⟩ : ∃ f ∈ fs, f.1 = g.1 ∧ f.2 ⊆ g.2 := by
        induction wider with
        | nil => simp at member
        | @cons f h fs hs first _ ih =>
          rcases List.mem_cons.mp member with rfl | later
          · exact ⟨f, by simp, first⟩
          · obtain ⟨f', listed, both⟩ := ih (fun f listed => inside f (by simp [listed])) later
            exact ⟨f', by simp [listed], both⟩
      obtain ⟨p, held, named, value⟩ := inside f listed
      exact ⟨p, held, named.trans same, more value⟩

namespace Environment

/-- Two declared records of a value and a list of values that may be missing in the one and undecided in the other,
    and a record that mentions both. -/
def readings : Environment :=
  .ofBodies [.record false [("val", .union [.type .int, .type .null]), ("all", .array (.union [.type .int, .type .null]))],
    .record false [("val", .union [.type .int, .type .bool]), ("all", .array (.union [.type .int, .type .bool]))],
    .record false [("old", .node (.nominal ⟨1⟩)), ("new", .node (.nominal ⟨2⟩))]]

def readingTypes : List TypeId :=
  [⟨106⟩, ⟨107⟩, ⟨100⟩, ⟨101⟩, ⟨102⟩, ⟨103⟩, ⟨104⟩, ⟨105⟩, .int, .null, .bool]

/-- Narrowing one reading to the other leaves the numbers, in the value and in the list, and these belong to both. -/
theorem readings_narrow_sound :
    (readings.narrow ⟨106⟩ ⟨107⟩).1 =
        .ok ⟨.record [.union [.top, .bottom], .array (.union [.top, .bottom])], ⟨110⟩⟩ ∧
      ∀ v ∈ (readings.narrow ⟨106⟩ ⟨107⟩).2.meaning Value.standard ⟨110⟩,
        v ∈ readings.meaning Value.standard ⟨106⟩ ∧ v ∈ readings.meaning Value.standard ⟨107⟩ := by
  have closed : readings.Closed {t | t ∈ readingTypes} := .of_list readingTypes (by decide +kernel)
  have acyclic : readings.Acyclic {t | t ∈ readingTypes} :=
    closed.acyclic_of_list [⟨100⟩, ⟨101⟩, ⟨102⟩, ⟨103⟩, ⟨104⟩, ⟨105⟩, .int, .null, .bool] (by decide +kernel)
      (by decide +kernel) (by decide +kernel)
  have free : ∀ t ∈ readingTypes, ¬ readings.isCallable t := by decide +kernel
  have result : (readings.narrow ⟨106⟩ ⟨107⟩).1 =
      .ok ⟨.record [.union [.top, .bottom], .array (.union [.top, .bottom])], ⟨110⟩⟩ := by decide +kernel
  obtain ⟨narrowed, env', run, -, inside, -⟩ := narrow_sound (I := Value.standard) closed acyclic free
    (a := ⟨106⟩) (b := ⟨107⟩) (by decide) (by decide)
  rw [run] at result ⊢
  obtain rfl := Except.ok.inj result
  exact ⟨rfl, inside⟩

end Environment

end Narrowing
