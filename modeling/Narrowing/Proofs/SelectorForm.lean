import Narrowing.Proofs.Contracts
import Narrowing.Proofs.Histories
import Narrowing.Proofs.RefinementRun
import Narrowing.Proofs.Termination
import Narrowing.Proofs.Unfolding

/-!
The form of computed selectors, whatever limits they are computed under. Each layer
of a selector mirrors the layer that its source shows behind declarations
(`Mirrors`), and no layer could be collapsed (`Canonical`). The rule builds such
selectors from such selectors (`rule_ensures_shaped`), so refining a type by a
selector computed for it never misses its shape (`trace_refine`).
-/

namespace Narrowing

namespace Selector

/-- No layer that lets all through or nothing is spelled out, and no record has a field that nothing passes. -/
inductive Canonical : Selector → Prop where
  | top : Canonical .top
  | bottom : Canonical .bottom
  | array {item : Selector} : item ≠ .top → item ≠ .bottom → Canonical item → Canonical (.array item)
  | record {items : List Selector} : (∀ s ∈ items, s ≠ .bottom) → (∃ s ∈ items, s ≠ .top) →
      (∀ s ∈ items, Canonical s) → Canonical (.record items)
  | union {items : List Selector} : (∃ s ∈ items, s ≠ .top) → (∃ s ∈ items, s ≠ .bottom) →
      (∀ s ∈ items, Canonical s) → Canonical (.union items)

variable {items : List Selector}

private theorem exists_ne_top (tested : ¬ items.all isTop = true) : ∃ s ∈ items, s ≠ .top := by
  simpa [← isTop_iff] using tested

private theorem exists_ne_bottom (filled : ¬ items.all isBottom = true) : ∃ s ∈ items, s ≠ .bottom := by
  simpa [← isBottom_iff] using filled

theorem canonical_arrayOf {s : Selector} (canonical : s.Canonical) : (arrayOf s).Canonical := by
  cases s with
  | top => exact .top
  | bottom => exact .bottom
  | _ => exact .array (by simp) (by simp) canonical

theorem canonical_recordOf (filled : ∀ s ∈ items, s ≠ .bottom) (canonical : ∀ s ∈ items, s.Canonical) :
    (recordOf items).Canonical := by
  unfold recordOf
  split
  case isTrue => exact .top
  case isFalse tested =>
    split
    case isTrue => exact .bottom
    case isFalse => exact .record filled (exists_ne_top tested) canonical

theorem canonical_unionOf (canonical : ∀ s ∈ items, s.Canonical) : (unionOf items).Canonical := by
  unfold unionOf
  split
  case isTrue => exact .bottom
  case isFalse filled =>
    split
    case isTrue => exact .top
    case isFalse tested => exact .union (exists_ne_top tested) (exists_ne_bottom filled) canonical

end Selector

namespace Environment

mutual

/-- Each layer of a selector stands over a source that leads through declarations to that kind of type, with a child
    for each of its components. -/
def Mirrors (env : Environment) (source : TypeId) : Selector → Prop
  | .top | .bottom => True
  | .array item => ∃ ds t e, env.Unfolds ds source t ∧ env.types.node? t = some (.array e) ∧ env.Mirrors e item
  | .record items => ∃ ds t r shape, env.Unfolds ds source t ∧ env.types.node? t = some (.record r) ∧
      env.types.record? r = some shape ∧ env.MirrorsAll (shape.fields.map Field.type) items
  | .union items => ∃ ds t l alternatives, env.Unfolds ds source t ∧ env.types.node? t = some (.union l) ∧
      env.types.list? l = some alternatives ∧ env.MirrorsAll alternatives items

/-- Selectors stand over as many sources, place by place. -/
def MirrorsAll (env : Environment) : List TypeId → List Selector → Prop
  | [], [] => True
  | source :: sources, item :: items => env.Mirrors source item ∧ env.MirrorsAll sources items
  | _, _ => False

end

variable {env : Environment}

theorem mirrorsAll_iff {sources : List TypeId} {items : List Selector} :
    env.MirrorsAll sources items ↔ List.Forall₂ env.Mirrors sources items := by
  induction sources generalizing items with
  | nil => cases items <;> simp [MirrorsAll]
  | cons source sources ih => cases items <;> simp [MirrorsAll, ih]

theorem mirrors_ofBool (t : TypeId) (condition : Bool) : env.Mirrors t (.ofBool condition) := by
  cases condition <;> simp [Selector.ofBool, Mirrors]

section
variable {t : TypeId}

theorem mirrors_arrayOf {e : TypeId} (known : env.types.node? t = some (.array e)) {s : Selector}
    (mirrors : env.Mirrors e s) : env.Mirrors t (.arrayOf s) := by
  have layer : env.Mirrors t (.array s) := by
    rw [Mirrors]
    exact ⟨[], t, e, .here, known, mirrors⟩
  cases s with
  | top | bottom => simp [Selector.arrayOf, Mirrors]
  | _ => exact layer

theorem mirrors_recordOf {r : RecordId} {shape : RecordShape} (known : env.types.node? t = some (.record r))
    (found : env.types.record? r = some shape) {items : List Selector}
    (mirrors : List.Forall₂ (fun f s => env.Mirrors f.type s) shape.fields items) :
    env.Mirrors t (.recordOf items) := by
  have layer : env.Mirrors t (.record items) := by
    rw [Mirrors]
    refine ⟨[], t, r, shape, .here, known, found, ?_⟩
    rwa [mirrorsAll_iff, List.forall₂_map_left_iff]
  unfold Selector.recordOf
  split
  case isTrue => simp [Mirrors]
  case isFalse =>
    split
    case isTrue => simp [Mirrors]
    case isFalse => exact layer

theorem mirrors_unionOf {l : ListId} {alternatives : List TypeId} (known : env.types.node? t = some (.union l))
    (found : env.types.list? l = some alternatives) {items : List Selector}
    (mirrors : List.Forall₂ env.Mirrors alternatives items) : env.Mirrors t (.unionOf items) := by
  have layer : env.Mirrors t (.union items) := by
    rw [Mirrors]
    exact ⟨[], t, l, alternatives, .here, known, found, mirrorsAll_iff.mpr mirrors⟩
  unfold Selector.unionOf
  split
  case isTrue => simp [Mirrors]
  case isFalse =>
    split
    case isTrue => simp [Mirrors]
    case isFalse => exact layer

/-- What stands over the body of a declaration stands over the declaration. -/
theorem Mirrors.of_body {d : DeclId} {body : TypeId} (known : env.types.node? t = some (.nominal d))
    (found : env.declarations.body? d = some body) {s : Selector} (mirrors : env.Mirrors body s) : env.Mirrors t s := by
  cases s with
  | top | bottom => simp [Mirrors]
  | array item =>
    rw [Mirrors] at mirrors ⊢
    obtain ⟨ds, u, e, chain, rest⟩ := mirrors
    exact ⟨d :: ds, u, e, .link known found chain, rest⟩
  | record items =>
    rw [Mirrors] at mirrors ⊢
    obtain ⟨ds, u, r, shape, chain, rest⟩ := mirrors
    exact ⟨d :: ds, u, r, shape, .link known found chain, rest⟩
  | union items =>
    rw [Mirrors] at mirrors ⊢
    obtain ⟨ds, u, l, alternatives, chain, rest⟩ := mirrors
    exact ⟨d :: ds, u, l, alternatives, .link known found chain, rest⟩

end

/-! ### Computed selectors -/

/-- A selector mirrors its source and is canonical. -/
structure Shaped (env : Environment) (source : TypeId) (s : Selector) : Prop where
  mirrors : env.Mirrors source s
  canonical : s.Canonical

theorem shaped_ofBool (t : TypeId) (condition : Bool) : env.Shaped t (.ofBool condition) := by
  refine ⟨mirrors_ofBool t condition, ?_⟩
  cases condition with
  | true => exact .top
  | false => exact .bottom

theorem shaped_top (t : TypeId) : env.Shaped t .top := shaped_ofBool t true

theorem shaped_bottom (t : TypeId) : env.Shaped t .bottom := shaped_ofBool t false

private theorem forall_mem_of_forall₂ {α β : Type} {R : α → β → Prop} {P : β → Prop} (each : ∀ a b, R a b → P b)
    {as : List α} {bs : List β} (all : List.Forall₂ R as bs) : ∀ b ∈ bs, P b := by
  induction all with
  | nil => simp
  | cons first _ ih => exact List.forall_mem_cons.mpr ⟨each _ _ first, ih⟩

theorem compareShapes_ensures_shaped {lhs : TypeId} {l : TypeNode} (known : env.types.node? lhs = some l) (r : TypeNode) :
    (env.compareShapes l r).Ensures (fun a _ => env.Shaped a) (env.Shaped lhs) := by
  unfold compareShapes
  split
  case h_1 | h_8 => exact shaped_ofBool lhs _
  case h_2 => exact fun s shaped => ⟨mirrors_arrayOf known shaped.mirrors, Selector.canonical_arrayOf shaped.canonical⟩
  case h_3 =>
    refine Inquiry.ensures_require fun ls found => Inquiry.ensures_require fun rs _ => ?_
    split
    case isTrue fits =>
      refine Inquiry.ensures_fieldwise (shaped_bottom lhs) fun items shaped => ⟨?_, ?_⟩
      · have parts : (ls.fields.zip rs.fields).map Prod.fst = ls.fields := List.map_fst_zip (Nat.le_of_eq fits.2)
        refine mirrors_recordOf known found ?_
        rw [← parts, List.nil_append, List.forall₂_map_left_iff]
        exact shaped.imp fun p s all => all.2.2.mirrors
      · exact Selector.canonical_recordOf (forall_mem_of_forall₂ (fun p s all => all.2.1) shaped)
          (forall_mem_of_forall₂ (fun p s all => all.2.2.canonical) shaped)
    case isFalse => exact shaped_bottom lhs
  case h_4 | h_7 => exact Inquiry.ensures_every (shaped_bottom lhs) fun _ => shaped_top lhs
  case h_5 | h_6 =>
    refine Inquiry.ensures_require fun ls _ => Inquiry.ensures_require fun rs _ => ?_
    split
    · exact Inquiry.ensures_every (shaped_bottom lhs) fun _ => shaped_top lhs
    · exact shaped_bottom lhs
  case h_9 => exact shaped_top lhs
  case h_10 => exact shaped_bottom lhs

theorem rule_ensures_shaped (lhs rhs : TypeId) :
    (env.rule lhs rhs).Ensures (fun a _ => env.Shaped a) (env.Shaped lhs) := by
  refine Inquiry.ensures_require fun l known => Inquiry.ensures_require fun r _ => ?_
  have unfolded {d : DeclId} (link : l = .nominal d) {body : TypeId} (found : env.declarations.body? d = some body)
      {s : Selector} (shaped : env.Shaped body s) : env.Shaped lhs s :=
    ⟨shaped.mirrors.of_body (link ▸ known) found, shaped.canonical⟩
  split
  case h_1 | h_2 => trivial
  case h_3 =>
    split
    · exact shaped_top lhs
    · exact Inquiry.ensures_require fun left found => Inquiry.ensures_require fun right _ => fun s => unfolded rfl found
  case h_4 => exact Inquiry.ensures_require fun right _ => fun s shaped => shaped
  case h_5 =>
    refine Inquiry.ensures_require fun alternatives found => Inquiry.ensures_each fun items shaped => ⟨?_, ?_⟩
    · exact mirrors_unionOf known found (shaped.imp fun a s => Shaped.mirrors)
    · exact Selector.canonical_unionOf (forall_mem_of_forall₂ (fun a s each => each.canonical) shaped)
  case h_6 =>
    refine Inquiry.ensures_require fun alternatives _ => ?_
    exact Inquiry.ensures_oneOf (shaped_bottom lhs) fun r _ _ => shaped_top lhs
  case h_7 => exact Inquiry.ensures_require fun left found => fun s => unfolded rfl found
  case h_8 => exact compareShapes_ensures_shaped known _

/-- Every selector that is found has the form of its source. -/
theorem shaped_limitedSelector {limits : Limits} {l r : TypeId} {s : Selector}
    (answered : env.limitedSelector limits l r = .ok s) : env.Shaped l s := by
  refine answer_ensured (fun _ _ l _ => env.Shaped l) ?_ ?_ ?_ (g := .fresh limits) (Nat.le_refl _) answered
  · exact fun _ _ l _ => shaped_bottom l
  · exact fun _ _ l _ _ => shaped_top l
  · exact fun _ _ l r _ => rule_ensures_shaped l r

/-! ### Refinement -/

mutual

/-- Refining by a selector that mirrors the source remarks on nothing, in this store or a larger one. -/
theorem trace_refine : ∀ (s : Selector) {source : TypeId} {store : TypeStore}, env.types.Extends store →
    env.Mirrors source s → (Narrowing.refine env.declarations source s store).1.trace = []
  | .top, _, _, _, _ | .bottom, _, _, _, _ => by
    rw [Narrowing.refine]
    rfl
  | .array item, source, store, larger, mirrors => by
    rw [Mirrors] at mirrors
    obtain ⟨ds, t, e, chain, known, below⟩ := mirrors
    have shown : store.elementOf? env.declarations source = some e :=
      (extends_withStore larger).elementOf? (elementOf?_eq_some_iff.mpr ⟨ds, t, chain, known⟩)
    rw [refine_array shown]
    exact trace_refine item larger below
  | .record items, source, store, larger, mirrors => by
    rw [Mirrors] at mirrors
    obtain ⟨ds, t, r, shape, chain, known, found, below⟩ := mirrors
    have shown : store.recordOf? env.declarations source = some shape :=
      (extends_withStore larger).recordOf? (recordOf?_eq_some_iff.mpr ⟨ds, t, r, chain, known, found⟩)
    have fits : shape.fields.length = items.length := by simpa using (mirrorsAll_iff.mp below).length_eq
    rw [refine_record shown fits]
    exact List.flatMap_eq_nil_iff.mpr (trace_refineAll items larger below)
  | .union items, source, store, larger, mirrors => by
    rw [Mirrors] at mirrors
    obtain ⟨ds, t, l, alternatives, chain, known, found, below⟩ := mirrors
    have shown : store.alternativesOf? env.declarations source = some alternatives :=
      (extends_withStore larger).alternativesOf? (alternativesOf?_eq_some_iff.mpr ⟨ds, t, l, chain, known, found⟩)
    have fits : alternatives.length = items.length := (mirrorsAll_iff.mp below).length_eq
    rw [refine_union shown fits]
    exact List.flatMap_eq_nil_iff.mpr (trace_refineKept items larger below)

theorem trace_refineAll : ∀ (items : List Selector) {sources : List TypeId} {store : TypeStore},
    env.types.Extends store → env.MirrorsAll sources items →
      ∀ x ∈ (refineAll env.declarations sources items store).1, x.trace = []
  | [], sources, store, _, _ => by
    rw [refineAll_nil]
    simp
  | item :: items, [], store, _, mirrors => by simp [MirrorsAll] at mirrors
  | item :: items, source :: sources, store, larger, mirrors => by
    rw [MirrorsAll] at mirrors
    rw [refineAll_cons]
    refine List.forall_mem_cons.mpr ⟨trace_refine item larger mirrors.1, ?_⟩
    exact trace_refineAll items (larger.trans (growing_refine _ source item store).toExtends) mirrors.2

theorem trace_refineKept : ∀ (items : List Selector) {sources : List TypeId} {store : TypeStore},
    env.types.Extends store → env.MirrorsAll sources items →
      ∀ x ∈ (refineKept env.declarations sources items store).1, x.trace = []
  | [], sources, store, _, _ => by
    rw [refineKept_nil]
    simp
  | item :: items, [], store, _, mirrors => by simp [MirrorsAll] at mirrors
  | item :: items, source :: sources, store, larger, mirrors => by
    rw [MirrorsAll] at mirrors
    rw [refineKept_cons]
    split
    · exact trace_refineKept items larger mirrors.2
    · refine List.forall_mem_cons.mpr ⟨trace_refine item larger mirrors.1, ?_⟩
      exact trace_refineKept items (larger.trans (growing_refine _ source item store).toExtends) mirrors.2

end

/-- The selector of any query on a well-formed graph, under whatever limits, mirrors its source layer by layer and is
    canonical; refining the source by it never finds that it does not fit. -/
theorem limitedSelector_fits {l r : TypeId} (wellFormed : env.WellFormed l r) (limits : Limits) :
    ∃ s, env.limitedSelector limits l r = .ok s ∧ env.Mirrors l s ∧ s.Canonical ∧ (env.refine l s).1.trace = [] := by
  obtain ⟨s, answered⟩ := wellFormed.exists_limitedSelector limits
  have shaped := shaped_limitedSelector answered
  refine ⟨s, answered, shaped.mirrors, shaped.canonical, ?_⟩
  exact trace_refine s (.refl env.types) shaped.mirrors

/-- Two declarations of lists. Only the first allows its values to be null. -/
def nullableLists : Environment :=
  .ofBodies [.record false [("val", .union [.type .int, .type .null]),
      ("next", .union [.node (.nominal ⟨1⟩), .type .null])],
    .record false [("val", .type .int), ("next", .union [.node (.nominal ⟨2⟩), .type .null])]]

/-- With depth 4 null is not found in the union at the end of a list, so only lists that go on are let through. -/
theorem nullableLists_fits :
    nullableLists.WellFormed ⟨101⟩ ⟨104⟩ ∧
      nullableLists.limitedSelector ⟨4, 100⟩ ⟨101⟩ ⟨104⟩ =
        .ok (.record [.union [.top, .bottom], .union [.top, .bottom]]) ∧
      nullableLists.Mirrors ⟨101⟩ (.record [.union [.top, .bottom], .union [.top, .bottom]]) ∧
      (Selector.record [.union [.top, .bottom], .union [.top, .bottom]]).Canonical ∧
      (nullableLists.refine ⟨101⟩ (.record [.union [.top, .bottom], .union [.top, .bottom]])).1.trace = [] := by
  have wellFormed : nullableLists.WellFormed ⟨101⟩ ⟨104⟩ :=
    .of_list [⟨101⟩, ⟨104⟩, ⟨100⟩, ⟨102⟩, ⟨103⟩, ⟨105⟩, ⟨106⟩, .int, .null] (by decide) (by decide) (by decide +kernel)
  have answer : nullableLists.limitedSelector ⟨4, 100⟩ ⟨101⟩ ⟨104⟩ =
      .ok (.record [.union [.top, .bottom], .union [.top, .bottom]]) := by decide +kernel
  obtain ⟨s, answered, fits⟩ := limitedSelector_fits wellFormed ⟨4, 100⟩
  obtain rfl := Except.ok.inj (answer.symm.trans answered)
  exact ⟨wellFormed, answer, fits⟩

end Environment

end Narrowing
