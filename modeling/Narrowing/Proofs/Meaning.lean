import Narrowing.Proofs.Grounded

/-!
What types mean. An interpretation says which values the primitives and variables
have and how lists, references and records are made; a type of a graph without
circles then stands for a set of values, a declaration for those of its body
(`Grounded.meaning_eq`). The meaning of a type does not change while the store grows
(`Extends.meaning_eq`).

A selector lets some of the values of a type through (`selected`), by testing the
elements, fields and alternatives that the type shows behind its declarations.
-/

namespace Narrowing

universe u

/-- A world of values. Of the records no more is asked than that larger sets of values for the fields make a larger
    set of records; open and closed ones may differ in any way. -/
structure Interpretation (V : Type u) where
  primitive : Primitive → Set V
  void : primitive .void = ∅
  binder : VarId → Set V
  callable : CallableId → Set V
  list : List V → V
  reference : V → V
  record : Bool → List (Name × Set V) → Set V
  record_mono : ∀ isOpen {fs gs : List (Name × Set V)},
    List.Forall₂ (fun f g => f.1 = g.1 ∧ f.2 ⊆ g.2) fs gs → record isOpen fs ⊆ record isOpen gs

variable {V : Type u} (I : Interpretation V)

/-- The lists with elements from a set. -/
def Interpretation.lists (elements : Set V) : Set V := {v | ∃ vs, v = I.list vs ∧ ∀ w ∈ vs, w ∈ elements}

variable {I} in
theorem Interpretation.lists_mono {few many : Set V} (more : few ⊆ many) : I.lists few ⊆ I.lists many := by
  rintro v ⟨vs, rfl, inside⟩
  exact ⟨vs, rfl, fun w member => more (inside w member)⟩

namespace Environment

/-- The values of a node, given those of the types that it refers to. -/
def layer (env : Environment) (inner : TypeId → Set V) : TypeNode → Set V
  | .primitive k => I.primitive k
  | .array element => I.lists (inner element)
  | .record r =>
    match env.types.record? r with
    | some shape => I.record shape.isOpen (shape.fields.map fun f => (f.name, inner f.type))
    | none => ∅
  | .reference element _ => {v | ∃ w ∈ inner element, v = I.reference w}
  | .callable c => I.callable c
  | .union l => {v | ∃ m ∈ (env.types.list? l).getD [], v ∈ inner m}
  | .intersection l => {v | ∀ m ∈ (env.types.list? l).getD [], v ∈ inner m}
  | .negation operand => (inner operand)ᶜ
  | .nominal d => {v | ∃ body, env.declarations.body? d = some body ∧ v ∈ inner body}
  | .var v => I.binder v
  | .unresolved _ => ∅

/-- The values of a type, as far as they are seen within `depth` layers. -/
def meaningWithin (env : Environment) : (depth : Nat) → TypeId → Set V
  | 0, _ => ∅
  | depth + 1, t =>
    match env.types.node? t with
    | some n => env.layer I (env.meaningWithin depth) n
    | none => ∅

/-- The values of a type. Without circles no path from part to part has more layers than given here. -/
def meaning (env : Environment) (t : TypeId) : Set V := env.meaningWithin I (env.types.size + 1) t

variable {I} {env : Environment}

/-- Only the parts of a node matter. -/
theorem layer_congr {f g : TypeId → Set V} {n : TypeNode} (same : ∀ u ∈ env.partsOf n, f u = g u) :
    env.layer I f n = env.layer I g n := by
  cases n with
  | primitive | var | unresolved | callable => rfl
  | array e | reference e | negation e => simp only [layer, same e (by simp [partsOf])]
  | record r =>
    cases found : env.types.record? r with
    | none => simp only [layer, found]
    | some shape =>
      have fields : shape.fields.map (fun x => (x.name, f x.type)) = shape.fields.map fun x => (x.name, g x.type) := by
        refine List.map_congr_left fun x member => ?_
        rw [same x.type (by simpa [partsOf, found] using ⟨x, member, rfl⟩)]
      simp only [layer, found, fields]
  | union l =>
    ext v
    refine exists_congr fun m => and_congr_right fun member => ?_
    rw [same m member]
  | intersection l =>
    ext v
    refine forall₂_congr fun m member => ?_
    rw [same m member]
  | nominal d =>
    ext v
    refine exists_congr fun body => and_congr_right fun found => ?_
    rw [same body (by simp [partsOf, found])]

section
variable {t : TypeId} (grounded : env.Grounded t)
include grounded

theorem Grounded.rank_le_size : env.rank t ≤ env.types.size := by
  classical
  have known : {u | env.Reaches t u} ⊆ ((Finset.range env.types.size).image TypeId.mk : Finset TypeId) := by
    intro u path
    obtain ⟨n, here, -⟩ := (closed_grounded env).rests
      (reachable_subset grounded grounded (closed_grounded env).parts (.inl path))
    simpa using ⟨u.val, TypeStore.val_lt_size here, rfl⟩
  calc env.rank t ≤ ((Finset.range env.types.size).image TypeId.mk : Set TypeId).ncard :=
        Set.ncard_le_ncard known (Finset.finite_toSet _)
    _ = ((Finset.range env.types.size).image TypeId.mk).card := Set.ncard_coe_finset _
    _ ≤ (Finset.range env.types.size).card := Finset.card_image_le
    _ = env.types.size := Finset.card_range _

/-- Where there are no circles, enough layers show all values. -/
theorem Grounded.meaningWithin_eq {depth depth' : Nat} (enough : env.rank t < depth) (enough' : env.rank t < depth') :
    env.meaningWithin I depth t = env.meaningWithin I depth' t := by
  induction depth generalizing t depth' with
  | zero => omega
  | succ depth ih =>
    cases depth' with
    | zero => omega
    | succ depth' =>
      obtain ⟨n, known, -⟩ := (closed_grounded env).rests grounded
      simp only [meaningWithin, known]
      refine layer_congr fun u part => ?_
      have part' : u ∈ env.parts t := by rwa [parts_of_node known]
      have less := grounded.rank_lt part'
      exact ih (grounded.part part') (by omega) (by omega)

/-- A type has the values of its node, by the values of its parts. -/
theorem Grounded.meaning_eq {n : TypeNode} (known : env.types.node? t = some n) :
    env.meaning I t = env.layer I (env.meaning I) n := by
  rw [meaning, meaningWithin, known]
  refine layer_congr fun u part => ?_
  have part' : u ∈ env.parts t := by rwa [parts_of_node known]
  have less := grounded.rank_lt part'
  have most := grounded.rank_le_size
  exact (grounded.part part').meaningWithin_eq (by omega) (by omega)

theorem Grounded.meaning_nominal {d : DeclId} {body : TypeId} (known : env.types.node? t = some (.nominal d))
    (found : env.declarations.body? d = some body) : env.meaning I t = env.meaning I body := by
  rw [grounded.meaning_eq known]
  ext v
  simp [layer, found]

theorem Grounded.mem_meaning_union {l : ListId} {members : List TypeId} (known : env.types.node? t = some (.union l))
    (found : env.types.list? l = some members) {v : V} :
    v ∈ env.meaning I t ↔ ∃ m ∈ members, v ∈ env.meaning I m := by
  rw [grounded.meaning_eq known]
  simp [layer, found]

theorem Grounded.meaning_unfolds {ds : List DeclId} {u : TypeId} (chain : env.Unfolds ds t u) :
    env.meaning I t = env.meaning I u := by
  induction chain with
  | here => rfl
  | link known found _ ih =>
    rw [grounded.meaning_nominal known found]
    exact ih (grounded.part (by simp [parts_of_node known, partsOf, found]))

theorem Grounded.meaning_element {e : TypeId} (shown : env.types.elementOf? env.declarations t = some e) :
    env.meaning I t = I.lists (env.meaning I e) := by
  obtain ⟨ds, u, chain, known⟩ := elementOf?_eq_some_iff.mp shown
  rw [grounded.meaning_unfolds chain, ((closed_grounded env).of_unfolds grounded chain).meaning_eq known, layer]

theorem Grounded.meaning_fields {shape : RecordShape}
    (shown : env.types.recordOf? env.declarations t = some shape) :
    env.meaning I t = I.record shape.isOpen (shape.fields.map fun f => (f.name, env.meaning I f.type)) := by
  obtain ⟨ds, u, r, chain, known, found⟩ := recordOf?_eq_some_iff.mp shown
  rw [grounded.meaning_unfolds chain, ((closed_grounded env).of_unfolds grounded chain).meaning_eq known]
  simp only [layer, found]

theorem Grounded.mem_meaning_alternatives {alternatives : List TypeId}
    (shown : env.types.alternativesOf? env.declarations t = some alternatives) {v : V} :
    v ∈ env.meaning I t ↔ ∃ m ∈ alternatives, v ∈ env.meaning I m := by
  obtain ⟨ds, u, l, chain, known, found⟩ := alternativesOf?_eq_some_iff.mp shown
  rw [grounded.meaning_unfolds chain]
  exact ((closed_grounded env).of_unfolds grounded chain).mem_meaning_union known found

/-- Declarations without circles lead to a type of another kind. -/
theorem Grounded.exists_end : ∃ ds u, env.Unfolds ds t u ∧ env.IsConcrete u := by
  induction grounded with
  | @intro t resolved _ ih =>
    by_cases concrete : env.IsConcrete t
    · exact ⟨[], t, .here, concrete⟩
    · simp only [IsConcrete, not_forall, not_not] at concrete
      obtain ⟨d, known⟩ := concrete
      obtain ⟨n, known', resolves⟩ := isResolved_iff.mp resolved
      rw [known] at known'
      cases known'
      obtain ⟨body, found⟩ := Option.isSome_iff_exists.mp resolves
      obtain ⟨ds, u, chain, last⟩ := ih body (by simp [parts_of_node known, partsOf, found])
      exact ⟨d :: ds, u, .link known found chain, last⟩

end

/-! ### Growth of the store -/

section
variable {env' : Environment} (larger : env.Extends env')
include larger

theorem Grounded.of_extends {t : TypeId} (grounded : env.Grounded t) : env'.Grounded t := by
  induction grounded with
  | @intro t resolved _ ih =>
    obtain ⟨n, known, resolves⟩ := isResolved_iff.mp resolved
    refine .intro (isResolved_iff.mpr ⟨n, larger.types.node known, larger.resolves resolves⟩) fun u part => ?_
    rw [larger.parts_eq resolved] at part
    exact ih u part

theorem Extends.layer_eq {f : TypeId → Set V} {n : TypeNode} (resolved : env.resolves n) :
    env'.layer I f n = env.layer I f n := by
  cases n with
  | record r =>
    obtain ⟨shape, found⟩ := Option.isSome_iff_exists.mp resolved
    simp only [layer, found, larger.types.record found]
  | union l | intersection l =>
    obtain ⟨members, found⟩ := Option.isSome_iff_exists.mp resolved
    simp only [layer, found, larger.types.list found]
  | nominal d => simp only [layer, larger.body?_eq]
  | _ => rfl

theorem Extends.meaning_eq {t : TypeId} (grounded : env.Grounded t) : env'.meaning I t = env.meaning I t := by
  induction grounded with
  | @intro t resolved parts ih =>
    have grounded : env.Grounded t := .intro resolved parts
    obtain ⟨n, known, resolves⟩ := isResolved_iff.mp resolved
    rw [(grounded.of_extends larger).meaning_eq (larger.types.node known), grounded.meaning_eq known,
      larger.layer_eq resolves]
    exact layer_congr fun u part => ih u (by rwa [parts_of_node known])

/-- A type without circles shows the same node behind its declarations in a larger store. -/
theorem Extends.node?_concrete {t : TypeId} (grounded : env.Grounded t) :
    ∃ n, env.types.node? (env.types.concrete env.declarations t) = some n ∧ env.resolves n ∧
      env'.types.node? (env'.types.concrete env'.declarations t) = some n := by
  obtain ⟨ds, u, chain, last⟩ := grounded.exists_end
  obtain ⟨n, known, resolves⟩ := isResolved_iff.mp ((closed_grounded env).of_unfolds grounded chain).resolved
  have known' := larger.types.node known
  have last' : env'.IsConcrete u := isConcrete_of_node? known' fun d same => last d (same ▸ known)
  rw [chain.concrete_eq last, (chain.of_extends larger).concrete_eq last']
  exact ⟨n, known, resolves, known'⟩

theorem Extends.elementOf?_eq {t : TypeId} (grounded : env.Grounded t) :
    env'.types.elementOf? env'.declarations t = env.types.elementOf? env.declarations t := by
  obtain ⟨n, known, -, known'⟩ := larger.node?_concrete grounded
  rw [TypeStore.elementOf?, TypeStore.elementOf?, known, known']

theorem Extends.recordOf?_eq {t : TypeId} (grounded : env.Grounded t) :
    env'.types.recordOf? env'.declarations t = env.types.recordOf? env.declarations t := by
  obtain ⟨n, known, resolves, known'⟩ := larger.node?_concrete grounded
  rw [TypeStore.recordOf?, TypeStore.recordOf?, known, known']
  cases n with
  | record r =>
    obtain ⟨shape, found⟩ := Option.isSome_iff_exists.mp resolves
    simp only [found, larger.types.record found]
  | _ => rfl

theorem Extends.alternativesOf?_eq {t : TypeId} (grounded : env.Grounded t) :
    env'.types.alternativesOf? env'.declarations t = env.types.alternativesOf? env.declarations t := by
  obtain ⟨n, known, resolves, known'⟩ := larger.node?_concrete grounded
  rw [TypeStore.alternativesOf?, TypeStore.alternativesOf?, known, known']
  cases n with
  | union l =>
    obtain ⟨members, found⟩ := Option.isSome_iff_exists.mp resolves
    simp only [found, larger.types.list found]
  | _ => rfl

end

/-! ### What selectors let through -/

variable (I) in
mutual

/-- The values of a type that a selector lets through. One that does not fit the type tests nothing. -/
def selected (env : Environment) (t : TypeId) : Selector → Set V
  | .top => env.meaning I t
  | .bottom => ∅
  | .array item =>
    match env.types.elementOf? env.declarations t with
    | some element => I.lists (env.selected element item)
    | none => env.meaning I t
  | .record items =>
    match env.types.recordOf? env.declarations t with
    | some shape =>
      if shape.fields.length = items.length then I.record shape.isOpen (env.selectedFields shape.fields items)
      else env.meaning I t
    | none => env.meaning I t
  | .union items =>
    match env.types.alternativesOf? env.declarations t with
    | some alternatives =>
      if alternatives.length = items.length then env.selectedAny alternatives items else env.meaning I t
    | none => env.meaning I t

/-- The values for each field that the selector at its place lets through. -/
def selectedFields (env : Environment) : List Field → List Selector → List (Name × Set V)
  | f :: fields, item :: items => (f.name, env.selected f.type item) :: env.selectedFields fields items
  | _, _ => []

/-- The values of several types that the selectors at their places let through. -/
def selectedAny (env : Environment) : List TypeId → List Selector → Set V
  | t :: types, item :: items => env.selected t item ∪ env.selectedAny types items
  | _, _ => ∅

end

section
variable {t : TypeId} {items : List Selector}

theorem selected_record {shape : RecordShape} (shown : env.types.recordOf? env.declarations t = some shape)
    (fits : shape.fields.length = items.length) :
    env.selected I t (.record items) = I.record shape.isOpen (env.selectedFields I shape.fields items) := by
  rw [selected]
  simp only [shown, fits, if_true]

theorem selected_record_misfit
    (misfit : ¬ ∃ shape, env.types.recordOf? env.declarations t = some shape ∧ shape.fields.length = items.length) :
    env.selected I t (.record items) = env.meaning I t := by
  rw [selected]
  split
  case h_1 shape shown => exact if_neg fun fits => misfit ⟨shape, shown, fits⟩
  case h_2 => rfl

theorem selected_union {alternatives : List TypeId}
    (shown : env.types.alternativesOf? env.declarations t = some alternatives)
    (fits : alternatives.length = items.length) :
    env.selected I t (.union items) = env.selectedAny I alternatives items := by
  rw [selected]
  simp only [shown, fits, if_true]

theorem selected_union_misfit
    (misfit : ¬ ∃ alternatives, env.types.alternativesOf? env.declarations t = some alternatives ∧
      alternatives.length = items.length) : env.selected I t (.union items) = env.meaning I t := by
  rw [selected]
  split
  case h_1 alternatives shown => exact if_neg fun fits => misfit ⟨alternatives, shown, fits⟩
  case h_2 => rfl

end

mutual

/-- What is let through of a type are values of it. -/
theorem selected_subset (env : Environment) : ∀ (s : Selector) {t : TypeId}, env.Grounded t →
    env.selected I t s ⊆ env.meaning I t
  | .top, t, _ => by rw [selected]
  | .bottom, t, _ => by simp [selected]
  | .array item, t, grounded => by
    rw [selected]
    split
    case h_1 e shown =>
      rw [grounded.meaning_element shown]
      exact I.lists_mono (selected_subset env item ((closed_grounded env).element grounded shown))
    case h_2 => exact subset_rfl
  | .record items, t, grounded => by
    by_cases fitting : ∃ shape, env.types.recordOf? env.declarations t = some shape ∧ shape.fields.length = items.length
    · obtain ⟨shape, shown, fits⟩ := fitting
      rw [selected_record shown fits, grounded.meaning_fields shown]
      exact I.record_mono _ (selectedFields_subset env items fits ((closed_grounded env).fields grounded shown))
    · rw [selected_record_misfit fitting]
  | .union items, t, grounded => by
    by_cases fitting : ∃ alternatives, env.types.alternativesOf? env.declarations t = some alternatives ∧
        alternatives.length = items.length
    · obtain ⟨alternatives, shown, fits⟩ := fitting
      rw [selected_union shown fits]
      intro v passes
      rw [grounded.mem_meaning_alternatives shown]
      exact selectedAny_subset env items ((closed_grounded env).alternatives grounded shown) passes
    · rw [selected_union_misfit fitting]

theorem selectedFields_subset (env : Environment) : ∀ (items : List Selector) {fields : List Field},
    fields.length = items.length → (∀ f ∈ fields, env.Grounded f.type) →
      List.Forall₂ (fun f g => f.1 = g.1 ∧ f.2 ⊆ g.2) (env.selectedFields I fields items)
        (fields.map fun f => (f.name, env.meaning I f.type))
  | [], fields, fits, _ => by
    obtain rfl : fields = [] := List.eq_nil_of_length_eq_zero fits
    exact .nil
  | item :: items, [], fits, _ => by simp at fits
  | item :: items, f :: fields, fits, grounded => by
    rw [selectedFields, List.map_cons]
    refine .cons ⟨rfl, selected_subset env item (grounded f (by simp))⟩ ?_
    exact selectedFields_subset env items (by simpa using fits) fun g member => grounded g (by simp [member])

theorem selectedAny_subset (env : Environment) : ∀ (items : List Selector) {types : List TypeId} {v : V},
    (∀ t ∈ types, env.Grounded t) → v ∈ env.selectedAny I types items → ∃ t ∈ types, v ∈ env.meaning I t
  | [], types, v, _, passes => by cases types <;> simp [selectedAny] at passes
  | item :: items, [], v, _, passes => by simp [selectedAny] at passes
  | item :: items, t :: types, v, grounded, passes => by
    rw [selectedAny] at passes
    rcases passes with here | later
    · exact ⟨t, by simp, selected_subset env item (grounded t (by simp)) here⟩
    · obtain ⟨u, member, value⟩ := selectedAny_subset env items (fun u member => grounded u (by simp [member])) later
      exact ⟨u, by simp [member], value⟩

end

/-- A declaration lets the same values through as its body. -/
theorem Grounded.selected_body {t body : TypeId} {d : DeclId} (grounded : env.Grounded t)
    (known : env.types.node? t = some (.nominal d)) (found : env.declarations.body? d = some body) (s : Selector) :
    env.selected I t s = env.selected I body s := by
  have part : body ∈ env.parts t := by simp [parts_of_node known, partsOf, found]
  obtain ⟨ds, u, chain, last⟩ := (grounded.part part).exists_end
  have same : env.types.concrete env.declarations t = env.types.concrete env.declarations body := by
    rw [chain.concrete_eq last, (Unfolds.link known found chain).concrete_eq last]
  have values := grounded.meaning_nominal (I := I) known found
  cases s with
  | top => exact values
  | bottom => rfl
  | array item => simp only [selected, TypeStore.elementOf?, same, values]
  | record items => simp only [selected, TypeStore.recordOf?, same, values]
  | union items => simp only [selected, TypeStore.alternativesOf?, same, values]

/-! ### Selectors that collapse -/

theorem mem_selectedAny_map {types : List TypeId} {f : TypeId → Selector} {v : V} :
    v ∈ env.selectedAny I types (types.map f) ↔ ∃ t ∈ types, v ∈ env.selected I t (f t) := by
  induction types with
  | nil => simp [selectedAny]
  | cons t types ih => simp [selectedAny, ih]

theorem selectedFields_of_tops {fields : List Field} {items : List Selector} (count : fields.length = items.length)
    (tops : ∀ s ∈ items, s = .top) :
    env.selectedFields I fields items = fields.map fun f => (f.name, env.meaning I f.type) := by
  induction fields generalizing items with
  | nil => cases items <;> simp [selectedFields]
  | cons f fields ih =>
    cases items with
    | nil => simp at count
    | cons item items =>
      obtain ⟨rfl, rest⟩ := List.forall_mem_cons.mp tops
      rw [selectedFields, List.map_cons, ih (by simpa using count) rest, selected]

section
variable {t : TypeId} (grounded : env.Grounded t)
include grounded

theorem Grounded.selected_arrayOf {e : TypeId} (shown : env.types.elementOf? env.declarations t = some e)
    (item : Selector) : env.selected I t (.arrayOf item) ⊆ I.lists (env.selected I e item) := by
  cases item with
  | top => rw [Selector.arrayOf, selected, selected, grounded.meaning_element shown]
  | bottom => simp [Selector.arrayOf, selected]
  | _ => simp only [Selector.arrayOf, selected, shown, subset_rfl]

theorem Grounded.selected_recordOf {shape : RecordShape} {items : List Selector}
    (shown : env.types.recordOf? env.declarations t = some shape) (fits : shape.fields.length = items.length) :
    env.selected I t (.recordOf items) ⊆ I.record shape.isOpen (env.selectedFields I shape.fields items) := by
  unfold Selector.recordOf
  split
  case isTrue tops =>
    have all : ∀ s ∈ items, s = .top := by simpa [Selector.isTop_iff] using tops
    rw [selected, grounded.meaning_fields shown, selectedFields_of_tops fits all]
  case isFalse =>
    split
    · simp [selected]
    · rw [selected_record shown fits]

theorem Grounded.selected_unionOf {alternatives : List TypeId} {f : TypeId → Selector}
    (shown : env.types.alternativesOf? env.declarations t = some alternatives) {v : V}
    (passes : v ∈ env.selected I t (.unionOf (alternatives.map f))) : ∃ m ∈ alternatives, v ∈ env.selected I m (f m) := by
  unfold Selector.unionOf at passes
  split at passes
  · simp [selected] at passes
  · split at passes
    case isTrue tops =>
      rw [selected, grounded.mem_meaning_alternatives shown] at passes
      obtain ⟨m, member, value⟩ := passes
      have top : f m = .top := by
        simpa [Selector.isTop_iff] using List.all_eq_true.mp tops (f m) (List.mem_map_of_mem member)
      exact ⟨m, member, by rwa [top, selected]⟩
    case isFalse =>
      rw [selected_union shown (by simp)] at passes
      exact mem_selectedAny_map.mp passes

end

end Environment

end Narrowing
