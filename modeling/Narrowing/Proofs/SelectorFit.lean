import Narrowing.Proofs.Attempts
import Narrowing.Proofs.Unfolding

/-!
The form of the selectors that comparisons yield. Each layer of a selector belongs
to the shape that its source and its target show behind declarations, so that
refining the source by it never misses its shape. Where it is top, a part of the
source is kept whole (`kept`). Whatever relation the rule preserves holds where the
selector is top, if it holds for the pairs that were assumed (`fits_outcome`).
-/

namespace Narrowing

/-- A selector that lets all through or nothing. -/
def Selector.IsVerdict (s : Selector) : Prop := s = .top ∨ s = .bottom

theorem Selector.isVerdict_ofBool (condition : Bool) : (ofBool condition).IsVerdict := by
  cases condition with
  | true => exact .inl rfl
  | false => exact .inr rfl

/-- The types of the fields of two records, place by place. -/
def RecordShape.pairs (ls rs : RecordShape) : List (TypeId × TypeId) :=
  (ls.fields.zip rs.fields).map fun p => (p.1.type, p.2.type)

namespace Environment

mutual

/-- A selector has the form that the shapes behind its source and its target allow, and a relation holds between
    the parts where it is top. -/
def Fits (env : Environment) (valid : TypeId → TypeId → Prop) (a b : TypeId) : Selector → Prop
  | .top => valid a b
  | .bottom => True
  | .array item => ∃ e, env.types.elementOf? env.declarations a = some e ∧
      ∃ f, env.types.elementOf? env.declarations b = some f ∧ env.Fits valid e f item
  | .record items => ∃ ls, env.types.recordOf? env.declarations a = some ls ∧
      ∃ rs, env.types.recordOf? env.declarations b = some rs ∧ ls.isOpen = rs.isOpen ∧
        ls.fields.map Field.name = rs.fields.map Field.name ∧ env.FitsAll valid (ls.pairs rs) items
  | .union items => ∃ alternatives, env.types.alternativesOf? env.declarations a = some alternatives ∧
      env.IsConcrete (env.types.concrete env.declarations b) ∧
        -- An alternative is compared with a union as a whole.
        ((∃ k, env.types.node? (env.types.concrete env.declarations b) = some (.union k)) →
          ∀ item ∈ items, item.IsVerdict) ∧
        env.FitsAll valid (alternatives.map fun l => (l, env.types.concrete env.declarations b)) items

/-- Each selector fits the pair at its place. -/
def FitsAll (env : Environment) (valid : TypeId → TypeId → Prop) : List (TypeId × TypeId) → List Selector → Prop
  | [], [] => True
  | p :: pairs, item :: items => env.Fits valid p.1 p.2 item ∧ env.FitsAll valid pairs items
  | _, _ => False

end

/-- What the alternatives that remain of a union have to be below. A single one takes the place of the union. -/
def unionTarget (env : Environment) (b : TypeId) (items : List Selector) : TypeId :=
  if items.countP (!·.isBottom) = 1 then b else env.types.concrete env.declarations b

mutual

/-- The parts of a source that a selector keeps whole, each with the part of the target that it has to be below. -/
def kept (env : Environment) (a b : TypeId) : Selector → List (TypeId × TypeId)
  | .top => [(a, b)]
  | .bottom => []
  | .array item =>
    match env.types.elementOf? env.declarations a, env.types.elementOf? env.declarations b with
    | some e, some f => env.kept e f item
    | _, _ => []
  | .record items =>
    match env.types.recordOf? env.declarations a, env.types.recordOf? env.declarations b with
    | some ls, some rs => env.keptAll (ls.pairs rs) items
    | _, _ => []
  | .union items =>
    match env.types.alternativesOf? env.declarations a with
    | some alternatives => env.keptAll (alternatives.map fun l => (l, env.unionTarget b items)) items
    | none => []

/-- The parts that are kept of several sources. -/
def keptAll (env : Environment) : List (TypeId × TypeId) → List Selector → List (TypeId × TypeId)
  | p :: pairs, item :: items => env.kept p.1 p.2 item ++ env.keptAll pairs items
  | _, _ => []

end

variable {env : Environment} {valid : TypeId → TypeId → Prop}

theorem FitsAll.length_eq {pairs : List (TypeId × TypeId)} {items : List Selector} (fits : env.FitsAll valid pairs items) :
    pairs.length = items.length := by
  induction pairs generalizing items with
  | nil => cases items <;> simp_all [FitsAll]
  | cons p pairs ih =>
    cases items with
    | nil => simp [FitsAll] at fits
    | cons item items =>
      simp only [FitsAll] at fits
      simp [ih fits.2]

theorem fitsAll_map {value : TypeId → TypeId → Selector} {pairs : List (TypeId × TypeId)}
    (fits : ∀ p ∈ pairs, env.Fits valid p.1 p.2 (value p.1 p.2)) :
    env.FitsAll valid pairs (pairs.map fun p => value p.1 p.2) := by
  induction pairs with
  | nil => simp [FitsAll]
  | cons p pairs ih =>
    simp only [List.map_cons, FitsAll]
    exact ⟨fits p (by simp), ih fun q member => fits q (by simp [member])⟩

theorem FitsAll.retarget {also : TypeId → TypeId → Prop} {alternatives : List TypeId} {y z : TypeId}
    (weaker : ∀ l ∈ alternatives, ∀ s, env.Fits valid l y s → env.Fits also l z s) {items : List Selector}
    (fits : env.FitsAll valid (alternatives.map fun l => (l, y)) items) :
    env.FitsAll also (alternatives.map fun l => (l, z)) items := by
  induction alternatives generalizing items with
  | nil => cases items <;> simp_all [FitsAll]
  | cons l alternatives ih =>
    cases items with
    | nil => simp [FitsAll] at fits
    | cons item items =>
      simp only [List.map_cons, FitsAll] at fits ⊢
      obtain ⟨here, others⟩ := List.forall_mem_cons.mp weaker
      exact ⟨here item fits.1, ih others fits.2⟩

/-! ### Declarations do not change the fit -/

section
variable {t body : TypeId} {d : DeclId} (known : env.types.node? t = some (.nominal d))
  (found : env.declarations.body? d = some body)
include known found

theorem Fits.of_body_left {b : TypeId} {s : Selector} (fits : env.Fits valid body b s) (top : s = .top → valid t b) :
    env.Fits valid t b s := by
  cases s with
  | top => exact top rfl
  | bottom => trivial
  | array item =>
    simp only [Fits] at fits ⊢
    obtain ⟨e, shown, rest⟩ := fits
    exact ⟨e, elementOf?_of_body known found shown, rest⟩
  | record items =>
    simp only [Fits] at fits ⊢
    obtain ⟨ls, shown, rest⟩ := fits
    exact ⟨ls, recordOf?_of_body known found shown, rest⟩
  | union items =>
    simp only [Fits] at fits ⊢
    obtain ⟨alternatives, shown, rest⟩ := fits
    exact ⟨alternatives, alternativesOf?_of_body known found shown, rest⟩

theorem Fits.of_body_right {a : TypeId} {s : Selector} (fits : env.Fits valid a body s) (top : s = .top → valid a t) :
    env.Fits valid a t s := by
  cases s with
  | top => exact top rfl
  | bottom => trivial
  | array item =>
    simp only [Fits] at fits ⊢
    obtain ⟨e, shownE, f, shownF, rest⟩ := fits
    exact ⟨e, shownE, f, elementOf?_of_body known found shownF, rest⟩
  | record items =>
    simp only [Fits] at fits ⊢
    obtain ⟨ls, shownL, rs, shownR, rest⟩ := fits
    exact ⟨ls, shownL, rs, recordOf?_of_body known found shownR, rest⟩
  | union items =>
    simp only [Fits] at fits ⊢
    obtain ⟨alternatives, shown, last, rest⟩ := fits
    rw [concrete_of_body known found last]
    exact ⟨alternatives, shown, last, rest⟩

end

theorem Fits.of_unfolds {ds : List DeclId} {a b y : TypeId} {s : Selector} (chain : env.Unfolds ds b y)
    (fits : env.Fits valid a y s) (top : s = .top → valid a b) : env.Fits valid a b s := by
  by_cases whole : s = .top
  · rw [whole]
    exact top whole
  · clear top
    induction chain with
    | here => exact fits
    | link known found _ ih => exact (ih fits).of_body_right known found fun same => absurd same whole

/-! ### The smart constructors -/

theorem fits_ofBool {a b : TypeId} {condition : Bool} (top : Selector.ofBool condition = .top → valid a b) :
    env.Fits valid a b (.ofBool condition) := by
  cases condition with
  | true => exact top rfl
  | false => trivial

theorem fits_arrayOf {a b e f : TypeId} {item : Selector}
    (left : env.types.elementOf? env.declarations a = some e)
    (right : env.types.elementOf? env.declarations b = some f) (fits : env.Fits valid e f item)
    (top : Selector.arrayOf item = .top → valid a b) : env.Fits valid a b (.arrayOf item) := by
  cases item with
  | top => exact top rfl
  | bottom => trivial
  | _ => exact ⟨e, left, f, right, fits⟩

theorem fits_recordOf {a b : TypeId} {items : List Selector} (fits : env.Fits valid a b (.record items))
    (top : Selector.recordOf items = .top → valid a b) : env.Fits valid a b (.recordOf items) := by
  unfold Selector.recordOf at top ⊢
  split
  · simp_all [Fits]
  · split
    · simp [Fits]
    · exact fits

theorem fits_unionOf {a b : TypeId} {items : List Selector} (fits : env.Fits valid a b (.union items))
    (top : Selector.unionOf items = .top → valid a b) : env.Fits valid a b (.unionOf items) := by
  unfold Selector.unionOf at top ⊢
  split
  · simp [Fits]
  · split
    · simp_all [Fits]
    · exact fits

/-! ### What comparisons yield -/

/-- Against a union everything but a union is let through as a whole or not at all. -/
theorem Tidy.isVerdict_outcome {room : Nat} {visiting : List TypePair} {l r : TypeId} {k : ListId} {s : Selector}
    (tidyL : env.Tidy l) (tidyR : env.Tidy r) (plain : ∀ j, env.types.node? l ≠ some (.union j))
    (union : env.types.node? r = some (.union k)) (answer : env.outcome room visiting l r = .ok s) : s.IsVerdict := by
  cases room with
  | zero =>
    obtain rfl := Except.ok.inj answer
    exact Selector.isVerdict_ofBool _
  | succ room =>
    by_cases old : TypePair.of l r ∈ visiting
    · rw [outcome_of_inProgress old] at answer
      exact .inl (Except.ok.inj answer).symm
    · rw [outcome_of_new old] at answer
      obtain ⟨value, -, -, same⟩ := (closed_tidy env).exists_total tidyL tidyR
        (fun a b => (closed_tidy env).exists_outcome room (.of l r :: visiting)) .bottom
      obtain ⟨n, known, rests⟩ := (closed_tidy env).rests tidyL
      obtain ⟨alternatives, found, -⟩ := (tidyR.rests union).union
      have asked : env.rule l r = Inquiry.oneOf l alternatives := by
        cases n with
        | union j => exact absurd known (plain j)
        | unresolved name => exact absurd rests.resolved (by simp [resolves])
        | _ => simp [rule, Inquiry.require, known, union, members, found]
      rw [same, asked, Inquiry.settle_oneOf, Except.ok.injEq] at answer
      subst answer
      exact Selector.isVerdict_ofBool _

section
variable {l r : TypeId} {value : TypeId → TypeId → Selector} {s : Selector}
  (fits : ∀ a b, env.Tidy a → env.Tidy b → env.Fits valid a b (value a b))
  (verdict : ∀ a b, env.Tidy a → (∀ j, env.types.node? a ≠ some (.union j)) → env.Tidy b →
    (∃ k, env.types.node? b = some (.union k)) → (value a b).IsVerdict)
  (top : s = .top → valid l r)
include top

private theorem fits_every {condition : Prop} [Decidable condition] {pairs : List (TypeId × TypeId)}
    (settled : (if condition then Inquiry.every pairs else .done .bottom).settle (fun a b => .ok (value a b)) = .ok s) :
    env.Fits valid l r s := by
  split at settled
  · simp only [Inquiry.settle_every, Except.ok.injEq] at settled
    subst settled
    exact fits_ofBool top
  · obtain rfl : .bottom = s := by simpa [Inquiry.settle] using settled
    trivial

include fits

private theorem fits_compareRecords {a b : RecordId} (knownL : env.types.node? l = some (.record a))
    (knownR : env.types.node? r = some (.record b)) (restsL : env.Rests {t | env.Tidy t} (.record a))
    (restsR : env.Rests {t | env.Tidy t} (.record b))
    (settled : (env.compareRecords a b).settle (fun a b => .ok (value a b)) = .ok s) : env.Fits valid l r s := by
  obtain ⟨ls, foundL, fieldsL⟩ := restsL.record
  obtain ⟨rs, foundR, fieldsR⟩ := restsR.record
  simp only [compareRecords, Inquiry.require, foundL, foundR] at settled
  split at settled
  case isFalse =>
    obtain rfl : .bottom = s := by simpa [Inquiry.settle] using settled
    trivial
  case isTrue alike =>
    rw [Inquiry.settle_fieldwise, Except.ok.injEq] at settled
    split at settled
    case isFalse =>
      subst settled
      trivial
    case isTrue meet =>
      subst settled
      refine fits_recordOf ⟨ls, ?_, rs, ?_, alike.1, ?_, ?_⟩ top
      · exact recordOf?_eq_some_iff.mpr ⟨[], l, a, .here, knownL, foundL⟩
      · exact recordOf?_eq_some_iff.mpr ⟨[], r, b, .here, knownR, foundR⟩
      · have named : List.Forall₂ (fun f g => f.name = g.name) ls.fields rs.fields := by
          refine List.forall₂_iff_zip.mpr ⟨alike.2, fun member => ?_⟩
          have both := List.all_eq_true.mp meet _ member
          simp only [Inquiry.fieldsMeet, Bool.and_eq_true, decide_eq_true_eq] at both
          exact both.1
        rwa [← List.forall₂_eq_eq_eq, List.forall₂_map_left_iff, List.forall₂_map_right_iff]
      · have each : ∀ p ∈ ls.pairs rs, env.Fits valid p.1 p.2 (value p.1 p.2) := by
          intro p member
          obtain ⟨⟨f, g⟩, listed, rfl⟩ := List.mem_map.mp member
          exact fits _ _ (fieldsL f (List.of_mem_zip listed).1) (fieldsR g (List.of_mem_zip listed).2)
        simpa [RecordShape.pairs, Function.comp_def] using fitsAll_map each

private theorem fits_compareShapes {n m : TypeNode} (knownL : env.types.node? l = some n)
    (knownR : env.types.node? r = some m) (restsL : env.Rests {t | env.Tidy t} n) (restsR : env.Rests {t | env.Tidy t} m)
    (settled : (env.compareShapes n m).settle (fun a b => .ok (value a b)) = .ok s) : env.Fits valid l r s := by
  unfold compareShapes at settled
  split at settled
  case h_1 | h_8 =>
    simp only [Inquiry.settle, Except.ok.injEq] at settled
    subst settled
    exact fits_ofBool top
  case h_2 e f =>
    simp only [Inquiry.settle, Except.ok.injEq] at settled
    subst settled
    refine fits_arrayOf ?_ ?_ (fits e f (restsL.parts e (by simp [partsOf])) (restsR.parts f (by simp [partsOf]))) top
    · exact elementOf?_eq_some_iff.mpr ⟨[], l, .here, knownL⟩
    · exact elementOf?_eq_some_iff.mpr ⟨[], r, .here, knownR⟩
  case h_3 => exact fits_compareRecords fits top knownL knownR restsL restsR settled
  case h_4 | h_7 =>
    simp only [Inquiry.settle_every, Except.ok.injEq] at settled
    subst settled
    exact fits_ofBool top
  case h_5 =>
    obtain ⟨ls, foundL, -⟩ := restsL.callable
    obtain ⟨rs, foundR, -⟩ := restsR.callable
    simp only [compareCallables, Inquiry.require, foundL, foundR] at settled
    exact fits_every top settled
  case h_6 =>
    obtain ⟨ls, foundL, -⟩ := restsL.intersection
    obtain ⟨rs, foundR, -⟩ := restsR.intersection
    simp only [compareIntersections, members, Inquiry.require, foundL, foundR] at settled
    exact fits_every top settled
  case h_9 =>
    simp only [Inquiry.settle, Except.ok.injEq] at settled
    subst settled
    exact top rfl
  case h_10 =>
    simp only [Inquiry.settle, Except.ok.injEq] at settled
    subst settled
    trivial

include verdict

/-- If the answers fit their pairs, what the rule makes of them fits its pair. -/
theorem fits_settle (tidyL : env.Tidy l) (tidyR : env.Tidy r)
    (settled : (env.rule l r).settle (fun a b => .ok (value a b)) = .ok s) : env.Fits valid l r s := by
  obtain ⟨n, knownL, restsL⟩ := (closed_tidy env).rests tidyL
  obtain ⟨m, knownR, restsR⟩ := (closed_tidy env).rests tidyR
  simp only [rule, Inquiry.require, knownL, knownR] at settled
  split at settled
  case h_1 => exact absurd restsL.resolved (by simp [resolves])
  case h_2 => exact absurd restsR.resolved (by simp [resolves])
  case h_3 d e =>
    obtain ⟨a, foundL, bodyL⟩ := restsL.nominal
    obtain ⟨b, foundR, bodyR⟩ := restsR.nominal
    split at settled
    · obtain rfl : .top = s := by simpa [Inquiry.settle] using settled
      exact top rfl
    · obtain rfl : value a b = s := by
        simpa [unfold, foundL, foundR, Inquiry.require, Inquiry.settle, Inquiry.defer] using settled
      by_cases whole : value a b = .top
      · rw [whole]
        exact top whole
      · have right := (fits a b bodyL bodyR).of_body_right knownR foundR fun same => absurd same whole
        exact right.of_body_left knownL foundL top
  case h_4 e =>
    obtain ⟨b, foundR, bodyR⟩ := restsR.nominal
    obtain rfl : value l b = s := by
      simpa [unfold, foundR, Inquiry.require, Inquiry.settle, Inquiry.defer] using settled
    exact (fits l b tidyL bodyR).of_body_right knownR foundR top
  case h_5 resolved concrete =>
    obtain ⟨alternatives, found, normal, inside⟩ := tidyL.union knownL
    simp only [members, Inquiry.require, found, Inquiry.settle_each, List.nil_append, Except.ok.injEq] at settled
    subst settled
    have last := isConcrete_of_node? knownR fun d same => concrete d same
    have itself : env.types.concrete env.declarations r = r := Unfolds.here.concrete_eq last
    refine fits_unionOf ⟨alternatives, ?_, by rwa [itself], ?_, ?_⟩ top
    · exact alternativesOf?_eq_some_iff.mpr ⟨[], l, _, .here, knownL, found⟩
    · rw [itself]
      intro union item listed
      obtain ⟨a, member, rfl⟩ := List.mem_map.mp listed
      exact verdict a r (inside a member) (normal.plain a member) tidyR union
    · have each : ∀ p ∈ alternatives.map (fun a => (a, r)), env.Fits valid p.1 p.2 (value p.1 p.2) := by
        simpa using fun a member => fits a r (inside a member) tidyR
      simpa [itself, Function.comp_def] using fitsAll_map each
  case h_6 rs =>
    obtain ⟨alternatives, found, -⟩ := restsR.union
    simp only [members, Inquiry.require, found, Inquiry.settle_oneOf, Except.ok.injEq] at settled
    subst settled
    exact fits_ofBool top
  case h_7 d =>
    obtain ⟨a, foundL, bodyL⟩ := restsL.nominal
    obtain rfl : value a r = s := by
      simpa [unfold, foundL, Inquiry.require, Inquiry.settle, Inquiry.defer] using settled
    exact (fits a r bodyL tidyR).of_body_left knownL foundL top
  case h_8 => exact fits_compareShapes fits top knownL knownR restsL restsR settled

end

/-- The selector of a pair fits it, whatever is in progress. A relation that the rule preserves holds where the
    selector is top, if it holds between the types of every pair that was assumed. -/
theorem fits_outcome (preserved : ∀ a b, env.Follows valid a b → valid a b) {room : Nat}
    {path : List (TypeId × TypeId)} {g : Guard TypePair} (patient : Limits.ceiling ≤ g.limits.maxIterations)
    (exact : g.room = room) {l r : TypeId} (tidyL : env.Tidy l) (tidyR : env.Tidy r) {s : Selector}
    (answer : env.outcome room g.visiting l r = .ok s)
    (assumed : ∀ a ∈ env.attemptsWithin room path g l r, a.entrance = .cycle → valid a.lhs a.rhs) :
    env.Fits valid l r s := by
  induction room generalizing path g l r s with
  | zero =>
    obtain rfl := Except.ok.inj answer
    refine fits_ofBool fun top => assumed ⟨path, g, l, r⟩ (by simp [attemptsWithin]) ?_
    have old : TypePair.of l r ∈ g.visiting := by simpa using top
    simp [Attempt.entrance, Guard.enter_patient patient, old]
  | succ room ih =>
    by_cases old : TypePair.of l r ∈ g.visiting
    · rw [outcome_of_inProgress old] at answer
      obtain rfl := Except.ok.inj answer
      refine assumed ⟨path, g, l, r⟩ (by simp [attemptsWithin]) ?_
      simp [Attempt.entrance, Guard.enter_patient patient, old]
    · rw [outcome_of_new old] at answer
      have below : ∀ a b s, (a, b) ∈ (env.rule l r).asked (env.outcome room (.of l r :: g.visiting)) →
          env.outcome room (.of l r :: g.visiting) a b = .ok s → env.Fits valid a b s := by
        intro a b s asked found
        have inside := Inquiry.allowed_of_asked (rule_within (closed_tidy env) tidyL tidyR) (a, b) asked
        obtain ⟨g', limits, visiting, left_over, included⟩ := attempts_of_asked_rule patient exact old asked
        rw [← visiting] at found
        exact ih (by rwa [limits]) left_over inside.1 inside.2 found fun c member => assumed c (included c member)
      have answered : ∀ a b, a ∈ {t | env.Tidy t} → b ∈ {t | env.Tidy t} →
          ∃ s, env.outcome room (.of l r :: g.visiting) a b = .ok s :=
        fun a b => (closed_tidy env).exists_outcome room _
      obtain ⟨value, agree, others, same⟩ := (closed_tidy env).exists_total tidyL tidyR answered .bottom
      -- Pairs that were not asked for count as bottom, which fits everywhere.
      have fits : ∀ a b, env.Tidy a → env.Tidy b → env.Fits valid a b (value a b) := by
        intro a b _ _
        by_cases asked : (a, b) ∈ (env.rule l r).asked (env.outcome room (.of l r :: g.visiting))
        · exact below a b _ asked (agree a b asked)
        · rw [others a b asked]
          trivial
      have verdict : ∀ a b, env.Tidy a → (∀ j, env.types.node? a ≠ some (.union j)) → env.Tidy b →
          (∃ k, env.types.node? b = some (.union k)) → (value a b).IsVerdict := by
        rintro a b tidyA plain tidyB ⟨k, union⟩
        by_cases asked : (a, b) ∈ (env.rule l r).asked (env.outcome room (.of l r :: g.visiting))
        · exact tidyA.isVerdict_outcome tidyB plain union (agree a b asked)
        · exact .inr (others a b asked)
      refine fits_settle fits verdict (fun top => ?_) tidyL tidyR (same ▸ answer)
      rw [top] at answer
      refine preserved l r (((closed_tidy env).follows_asked tidyL tidyR answered answer).mono fun a b premise => ?_)
      exact below a b .top premise.1 premise.2

end Environment

end Narrowing
