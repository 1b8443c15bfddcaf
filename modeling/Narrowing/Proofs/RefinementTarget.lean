import Narrowing.Proofs.JustifiedLaws
import Narrowing.Proofs.RefinementRun
import Narrowing.Proofs.SelectorFit
import Narrowing.Proofs.Soundness

/-!
Where refinement lands. Refining a type by its selector against a target rebuilds
the layers that the selector tests and keeps the parts for which it is top
(`kept`). Each layer that is rebuilt is below the target exactly if its parts are
(`array_lands`, `record_lands`, `union_lands`), so the refined type is below the
target exactly if every part that is kept is justified below its own part of the
target (`refine_lands`).
-/

namespace Narrowing

namespace RecordShape

theorem length_eq_of_names {ls rs : RecordShape} (names : ls.fields.map Field.name = rs.fields.map Field.name) :
    ls.fields.length = rs.fields.length := by
  simpa using congrArg List.length names

theorem map_fst_pairs {ls rs : RecordShape} (enough : ls.fields.length ≤ rs.fields.length) :
    (ls.pairs rs).map Prod.fst = ls.fields.map Field.type := by
  calc (ls.pairs rs).map Prod.fst = ((ls.fields.zip rs.fields).map Prod.fst).map Field.type := by
        simp [pairs, Function.comp_def]
    _ = ls.fields.map Field.type := by rw [List.map_fst_zip enough]

/-- With other types, a record keeps its names and is related to another field by field as the types are. -/
theorem forall₂_withTypes {R : TypeId → TypeId → Prop} {ls rs : RecordShape} {types : List TypeId}
    (names : ls.fields.map Field.name = rs.fields.map Field.name) (count : types.length = ls.fields.length) :
    List.Forall₂ (fun f g => f.name = g.name ∧ R f.type g.type) (ls.withTypes types).fields rs.fields ↔
      List.Forall₂ (fun t p => R t p.2) types (ls.pairs rs) := by
  have alike := length_eq_of_names names
  have place : ∀ i (left : i < ls.fields.length) (right : i < rs.fields.length),
      ls.fields[i].name = rs.fields[i].name := by
    intro i left right
    simpa [left, right] using congrArg (fun ns => ns[i]?) names
  rw [List.forall₂_iff_get, List.forall₂_iff_get]
  constructor
  · rintro ⟨-, each⟩
    refine ⟨by simp [pairs, count, alike], fun i inside inside' => ?_⟩
    have right : i < rs.fields.length := by omega
    have type := (each i (by simp [withTypes]; omega) right).2
    simpa [withTypes, pairs, inside] using type
  · rintro ⟨-, each⟩
    refine ⟨by simp [withTypes, alike], fun i inside right => ?_⟩
    have left : i < ls.fields.length := by omega
    have insideT : i < types.length := by omega
    have type := each i insideT (by simpa [pairs, alike] using right)
    simpa [withTypes, pairs, insideT] using And.intro (place i left right) type

end RecordShape

namespace Environment

theorem Tidy.pairs {env : Environment} {a b : TypeId} {ls rs : RecordShape} (tidyA : env.Tidy a) (tidyB : env.Tidy b)
    (shownA : env.types.recordOf? env.declarations a = some ls)
    (shownB : env.types.recordOf? env.declarations b = some rs) :
    ∀ p ∈ ls.pairs rs, env.Tidy p.1 ∧ env.Tidy p.2 := by
  intro p member
  obtain ⟨⟨f, g⟩, listed, rfl⟩ := List.mem_map.mp member
  obtain ⟨left, right⟩ := List.of_mem_zip listed
  exact ⟨tidyA.fields shownA f left, tidyB.fields shownB g right⟩

/-- A type is tidy, and it is below a target exactly under the given condition. -/
structure Lands (env : Environment) (b t : TypeId) (condition : Prop) : Prop where
  tidy : env.Tidy t
  justified_iff : env.Justified t b ↔ condition

/-! ### One layer -/

section
variable {env env' : Environment} (larger : env.Extends env') {b t : TypeId} (tidyB : env.Tidy b)
include larger tidyB

/-- An array is below a target exactly if its element is below the element of the target. -/
theorem array_lands {x f : TypeId} (tidyX : env.Tidy x) (shown : env.types.elementOf? env.declarations b = some f)
    (built : env'.types.node? t = some (.array x)) : env'.Lands b t (env.Justified x f) := by
  obtain ⟨ds, u, chain, last⟩ := elementOf?_eq_some_iff.mp shown
  have tidyT := tidy_array built (tidyX.of_extends larger)
  have concrete := isConcrete_of_node? built (by simp)
  refine ⟨tidyT, ?_⟩
  rw [(chain.of_extends larger).justified_iff tidyT (tidyB.of_extends larger) (.inl concrete), justified_iff_follows,
    follows_shapes built (by simp [TypeNode.IsShape]) (larger.types.node last) (by simp [TypeNode.IsShape])]
  exact larger.justified_iff tidyX (tidyB.element shown)

/-- A record is below a target with the same names exactly if its fields are below the fields of the target. -/
theorem record_lands {r : RecordId} {ls rs : RecordShape} {types : List TypeId} (tidy : ∀ t ∈ types, env.Tidy t)
    (shown : env.types.recordOf? env.declarations b = some rs) (same : ls.isOpen = rs.isOpen)
    (names : ls.fields.map Field.name = rs.fields.map Field.name) (count : types.length = ls.fields.length)
    (built : env'.types.node? t = some (.record r)) (entered : env'.types.record? r = some (ls.withTypes types)) :
    env'.Lands b t (List.Forall₂ (fun t p => env.Justified t p.2) types (ls.pairs rs)) := by
  obtain ⟨ds, u, r', chain, last, found⟩ := recordOf?_eq_some_iff.mp shown
  have tidyFields : ∀ f ∈ (ls.withTypes types).fields, env.Tidy f.type := fun f member =>
    tidy f.type (RecordShape.withTypes_type_mem count f member)
  have tidyT := tidy_record built entered fun f member => (tidyFields f member).of_extends larger
  have concrete := isConcrete_of_node? built (by simp)
  have agree : List.Forall₂ (fun f g => f.name = g.name ∧ env'.Justified f.type g.type)
        (ls.withTypes types).fields rs.fields ↔
      List.Forall₂ (fun f g => f.name = g.name ∧ env.Justified f.type g.type) (ls.withTypes types).fields rs.fields := by
    simp only [List.forall₂_iff_zip]
    refine and_congr_right fun _ => forall₂_congr fun f g => imp_congr_right fun member => and_congr_right fun _ => ?_
    obtain ⟨left, right⟩ := List.of_mem_zip member
    exact larger.justified_iff (tidyFields f left) (tidyB.fields shown g right)
  refine ⟨tidyT, ?_⟩
  rw [(chain.of_extends larger).justified_iff tidyT (tidyB.of_extends larger) (.inl concrete), justified_iff_follows,
    follows_shapes built (by simp [TypeNode.IsShape]) (larger.types.node last) (by simp [TypeNode.IsShape]),
    ← RecordShape.forall₂_withTypes names count, ← agree]
  constructor
  · rintro ⟨ls', entered', rs', found', -, fields⟩
    obtain rfl : ls.withTypes types = ls' := Option.some.inj (entered.symm.trans entered')
    obtain rfl : rs = rs' := Option.some.inj ((larger.types.record found).symm.trans found')
    exact fields
  · exact fun fields => ⟨_, entered, rs, larger.types.record found, same, fields⟩

/-- A union of several members is below a target exactly if its members are below what is behind the target. -/
theorem several_land {l : ListId} {members : List TypeId} {ds : List DeclId} {y : TypeId} (chain : env.Unfolds ds b y)
    (last : env.IsConcrete y) (normal : env.NormalMembers members) (tidy : ∀ m ∈ members, env.Tidy m)
    (built : env'.types.node? t = some (.union l)) (entered : env'.types.list? l = some members) :
    env'.Lands b t (∀ m ∈ members, env.Justified m y) := by
  have tidyY := tidyB.of_unfolds chain
  have tidyT : env'.Tidy t :=
    tidy_union built entered (normal.of_extends larger fun m member => (tidy m member m .refl).1)
      fun m member => (tidy m member).of_extends larger
  have concrete := isConcrete_of_node? built (by simp)
  refine ⟨tidyT, ?_⟩
  rw [(chain.of_extends larger).justified_iff tidyT (tidyB.of_extends larger) (.inl concrete),
    justified_union_iff (tidyY.of_extends larger) (last.of_extends larger tidyY) tidyT built entered]
  exact forall₂_congr fun m member => larger.justified_iff (tidy m member) tidyY

end

/-- A union of tidy types is below a target exactly if the types are below what is behind the target. A single type
    takes the place of the union, and is compared with the target as it stands. -/
theorem union_lands {env : Environment} {ds : List DeclId} {b y : TypeId} {types : List TypeId}
    (tidyB : env.Tidy b) (chain : env.Unfolds ds b y) (last : env.IsConcrete y) (tidy : ∀ t ∈ types, env.Tidy t)
    (distinct : (∃ k, env.types.node? y = some (.union k)) →
      types.Nodup ∧ ∀ t ∈ types, t ≠ .void ∧ ∀ k, env.types.node? t ≠ some (.union k)) :
    env.types.Extends (Build.union types env.types).2 ∧
      (env.withStore (Build.union types env.types).2).Lands b (Build.union types env.types).1
        (∀ t ∈ types, env.Justified t (if types.length = 1 then b else y)) := by
  by_cases one : types.length = 1
  · obtain ⟨t, rfl⟩ := List.length_eq_one_iff.mp one
    have tidyT := tidy t (by simp)
    rw [tidyT.union_singleton]
    exact ⟨.refl env.types, tidyT, by simp [withStore]⟩
  have tidyY := tidyB.of_unfolds chain
  have members := tidy_unionMembers tidy
  obtain ⟨grown, result⟩ := Build.union_spec types env.types
  have larger := extends_withStore grown
  refine ⟨grown, ?_⟩
  rw [if_neg one, ← justified_unionMembers_iff tidyY last tidy]
  rcases result with ⟨none, void⟩ | single | ⟨several, l, built, entered⟩
  · rw [void, none]
    exact ⟨tidy_void _, iff_of_true (tidyB.of_extends larger).justified_void (by simp)⟩
  · have listed : (Build.union types env.types).1 ∈ Build.unionMembers types env.types := by
      rw [single]
      exact List.mem_singleton_self _
    have tidyM := (members _ listed).1
    -- Several types against a union would have left several members.
    have shape : ∃ n, env.types.node? y = some n ∧ n.IsShape := by
      rcases tidyY.kinds with ⟨d, _, known, -⟩ | ⟨k, _, known, -⟩ | here
      · exact absurd known (last d)
      · obtain ⟨nodup, plain⟩ := distinct ⟨k, known⟩
        have inside : types ⊆ [(Build.union types env.types).1] := by
          intro t here
          rw [← single, Build.mem_unionMembers]
          exact ⟨(plain t here).1, t, here, by simp [leaves_of_other (plain t here).2]⟩
        obtain ⟨-, t, here, -⟩ := Build.mem_unionMembers.mp listed
        have most : types.length ≤ 1 := nodup.length_le_of_subset inside
        have least := List.length_pos_of_mem here
        omega
      · exact here
    refine ⟨tidyM.of_extends larger, ?_⟩
    rw [larger.justified_iff tidyM tidyB, chain.justified_iff tidyM tidyB (.inr shape), single]
    simp
  · have normal := normalMembers_unionMembers tidy several
    exact several_land larger tidyB chain last normal (fun m member => (members m member).1) built entered

end Environment

/-! ### Alternatives that are kept -/

section
variable {ds : Declarations} {items : List Selector} {s : TypeStore}

theorem length_refineKept {sources : List TypeId} (fits : sources.length = items.length) :
    (refineKept ds sources items s).1.length = items.countP (!·.isBottom) := by
  induction sources generalizing items s with
  | nil =>
    obtain rfl : items = [] := List.eq_nil_of_length_eq_zero fits.symm
    rfl
  | cons source sources ih =>
    cases items with
    | nil => simp at fits
    | cons item items =>
      have rest : sources.length = items.length := by simpa using fits
      rw [refineKept_cons, List.countP_cons]
      split
      case isTrue bottom => simp [bottom, ih rest]
      case isFalse other => simp [other, ih rest]

/-- Selectors that let all through or nothing keep sources as they are. -/
theorem refineKept_sublist (ds : Declarations) (sources : List TypeId) (s : TypeStore)
    (verdicts : ∀ item ∈ items, item.IsVerdict) :
    ((refineKept ds sources items s).1.map Refined.type).Sublist sources := by
  induction sources generalizing items s with
  | nil => cases items <;> exact .slnil
  | cons source sources ih =>
    cases items with
    | nil => exact List.nil_sublist _
    | cons item items =>
      obtain ⟨here, rest⟩ := List.forall_mem_cons.mp verdicts
      rw [refineKept_cons]
      rcases here with rfl | rfl
      · exact (ih s rest).cons_cons source
      · exact (ih s rest).cons source

end

namespace Environment

/-- Of different alternatives that are no unions, selectors that let all through or nothing leave different ones. -/
theorem NormalMembers.distinct_refineKept {env : Environment} {alternatives : List TypeId} {items : List Selector}
    {store : TypeStore} (normal : env.NormalMembers alternatives) (tidy : ∀ l ∈ alternatives, env.Tidy l)
    (larger : env.Extends (env.withStore (refineKept env.declarations alternatives items store).2))
    (verdicts : ∀ item ∈ items, item.IsVerdict) :
    ((refineKept env.declarations alternatives items store).1.map Refined.type).Nodup ∧
      ∀ t ∈ (refineKept env.declarations alternatives items store).1.map Refined.type, t ≠ .void ∧
        ∀ k, (refineKept env.declarations alternatives items store).2.node? t ≠ some (.union k) := by
  have among := refineKept_sublist env.declarations alternatives store verdicts
  have plain := (normal.of_extends larger fun m member => (tidy m member m .refl).1).plain
  refine ⟨normal.nodup.sublist among, fun t member => ⟨fun void => ?_, plain t (among.subset member)⟩⟩
  exact normal.inhabited (void ▸ among.subset member)

mutual

/-- What is refined by a selector that fits is below the target exactly if the parts that are kept are. -/
theorem refine_lands (env : Environment) : ∀ (s : Selector) {a b : TypeId} {store : TypeStore}, env.Tidy a →
    env.Tidy b → env.Fits (fun _ _ => True) a b s → env.types.Extends store →
      let result := Narrowing.refine env.declarations a s store
      store.Extends result.2 ∧
        (env.withStore result.2).Lands b result.1.type (∀ p ∈ env.kept a b s, env.Justified p.1 p.2)
  | .top, a, b, store, tidyA, tidyB, _, larger => by
    have wider := extends_withStore larger
    rw [Narrowing.refine]
    exact ⟨.refl store, tidyA.of_extends wider, (wider.justified_iff tidyA tidyB).trans (by simp [kept])⟩
  | .bottom, _, b, store, _, tidyB, _, larger => by
    rw [Narrowing.refine]
    refine ⟨.refl store, tidy_void _, iff_of_true ?_ (by simp [kept])⟩
    exact (tidyB.of_extends (extends_withStore larger)).justified_void
  | .array item, a, b, store, tidyA, tidyB, fits, larger => by
    simp only [Fits] at fits
    obtain ⟨e, shownA, f, shownB, fitsItem⟩ := fits
    obtain ⟨grown, tidy, below⟩ := refine_lands env item (tidyA.element shownA) (tidyB.element shownB) fitsItem larger
    have wide := extends_withStore (larger.trans grown)
    have shown : store.elementOf? env.declarations a = some e := (extends_withStore larger).elementOf? shownA
    rw [refine_array shown]
    generalize Narrowing.refine env.declarations e item store = x at grown tidy below wide
    have grown' := Build.extends_intern (.array x.1.type) x.2
    have built := Build.node?_intern (.array x.1.type) x.2
    have layer := array_lands (env.withStore_extends grown') (tidyB.of_extends wide) tidy (wide.elementOf? shownB) built
    refine ⟨grown.trans grown', layer.tidy, (layer.justified_iff.trans below).trans ?_⟩
    simp only [kept, shownA, shownB]
  | .record items, a, b, store, tidyA, tidyB, fits, larger => by
    simp only [Fits] at fits
    obtain ⟨ls, shownA, rs, shownB, same, names, fitsItems⟩ := fits
    have alike := RecordShape.length_eq_of_names names
    have count : ls.fields.length = items.length := by simpa [RecordShape.pairs, alike] using fitsItems.length_eq
    have sources : (ls.pairs rs).map Prod.fst = ls.fields.map Field.type := RecordShape.map_fst_pairs (by omega)
    have tidyPairs := tidyA.pairs tidyB shownA shownB
    obtain ⟨grown, length, tidy, below⟩ := refineAll_lands env items sources tidyPairs fitsItems larger
    have filled := length.trans (show (ls.pairs rs).length = ls.fields.length by simp [RecordShape.pairs, alike])
    have wide := extends_withStore (larger.trans grown)
    have shown : store.recordOf? env.declarations a = some ls := (extends_withStore larger).recordOf? shownA
    rw [refine_record shown count]
    obtain ⟨grown', r, built, entered⟩ := Build.record_spec (ls.withTypes _) _
    have layer := record_lands (env.withStore_extends grown') (tidyB.of_extends wide) tidy (wide.recordOf? shownB) same
      names filled built entered
    refine ⟨grown.trans grown', layer.tidy, (layer.justified_iff.trans below).trans ?_⟩
    simp only [kept, shownA, shownB]
  | .union items, a, b, store, tidyA, tidyB, fits, larger => by
    simp only [Fits] at fits
    obtain ⟨alternatives, shown, last, verdicts, fitsItems⟩ := fits
    obtain ⟨normal, tidyAlternatives⟩ := tidyA.alternatives shown
    obtain ⟨ds, chain⟩ := env.exists_unfolds_concrete b
    have tidyY := tidyB.of_unfolds chain
    have count : alternatives.length = items.length := by simpa using fitsItems.length_eq
    -- The selectors were found against what is behind the target, and fit the target as well.
    have target : env.Tidy (env.unionTarget b items) ∧
        env.FitsAll (fun _ _ => True) (alternatives.map fun l => (l, env.unionTarget b items)) items := by
      unfold unionTarget
      split
      · exact ⟨tidyB, fitsItems.retarget fun l _ s fits => fits.of_unfolds chain fun _ => trivial⟩
      · exact ⟨tidyY, fitsItems⟩
    obtain ⟨grown, tidy, below⟩ := refineKept_lands env items tidyAlternatives target.1 target.2 larger
    have wide := extends_withStore (larger.trans grown)
    obtain ⟨grown', layer⟩ :=
      union_lands (tidyB.of_extends wide) (chain.of_extends wide) (last.of_extends wide tidyY) tidy fun union =>
        normal.distinct_refineKept tidyAlternatives wide (verdicts (by rwa [wide.node?_eq tidyY] at union))
    have shown' : store.alternativesOf? env.declarations a = some alternatives :=
      (extends_withStore larger).alternativesOf? shown
    rw [refine_union shown' count]
    rw [List.length_map, length_refineKept count] at layer
    refine ⟨grown.trans grown', layer.tidy, (layer.justified_iff.trans below).trans ?_⟩
    simp only [kept, shown]

theorem refineAll_lands (env : Environment) : ∀ (items : List Selector) {pairs : List (TypeId × TypeId)}
    {sources : List TypeId} {store : TypeStore}, pairs.map Prod.fst = sources →
    (∀ p ∈ pairs, env.Tidy p.1 ∧ env.Tidy p.2) → env.FitsAll (fun _ _ => True) pairs items →
    env.types.Extends store →
      let result := refineAll env.declarations sources items store
      store.Extends result.2 ∧ (result.1.map Refined.type).length = pairs.length ∧
        (∀ t ∈ result.1.map Refined.type, (env.withStore result.2).Tidy t) ∧
        (List.Forall₂ (fun t p => (env.withStore result.2).Justified t p.2) (result.1.map Refined.type) pairs ↔
          ∀ p ∈ env.keptAll pairs items, env.Justified p.1 p.2)
  | [], pairs, _, store, rfl, _, fits, _ => by
    obtain rfl : pairs = [] := by simpa using fits.length_eq
    simp only [List.map_nil, refineAll_nil]
    exact ⟨.refl store, rfl, by simp, by simp [keptAll]⟩
  | item :: items, [], _, _, _, _, fits, _ => by simp [FitsAll] at fits
  | item :: items, p :: pairs, _, store, rfl, tidyPairs, fits, larger => by
    simp only [FitsAll] at fits
    obtain ⟨tidyHere, tidyRest⟩ := List.forall_mem_cons.mp tidyPairs
    obtain ⟨grown, tidy, below⟩ := refine_lands env item tidyHere.1 tidyHere.2 fits.1 larger
    obtain ⟨grown', length, tidy', below'⟩ := refineAll_lands env items rfl tidyRest fits.2 (larger.trans grown)
    have wide := extends_withStore (larger.trans grown)
    have wider := env.withStore_extends grown'
    rw [List.map_cons, refineAll_cons]
    refine ⟨grown.trans grown', congrArg (· + 1) length, ?_, ?_⟩
    · exact List.forall_mem_cons.mpr ⟨tidy.of_extends wider, tidy'⟩
    · refine (List.forall₂_cons.trans (and_congr ?_ below')).trans List.forall_mem_append.symm
      exact (wider.justified_iff tidy (tidyHere.2.of_extends wide)).trans below

theorem refineKept_lands (env : Environment) : ∀ (items : List Selector) {alternatives : List TypeId} {z : TypeId}
    {store : TypeStore}, (∀ l ∈ alternatives, env.Tidy l) → env.Tidy z →
    env.FitsAll (fun _ _ => True) (alternatives.map fun l => (l, z)) items → env.types.Extends store →
      let result := refineKept env.declarations alternatives items store
      store.Extends result.2 ∧ (∀ t ∈ result.1.map Refined.type, (env.withStore result.2).Tidy t) ∧
        ((∀ t ∈ result.1.map Refined.type, (env.withStore result.2).Justified t z) ↔
          ∀ p ∈ env.keptAll (alternatives.map fun l => (l, z)) items, env.Justified p.1 p.2)
  | [], alternatives, z, store, _, _, fits, _ => by
    obtain rfl : alternatives = [] := by simpa using fits.length_eq
    simp only [refineKept_nil]
    exact ⟨.refl store, by simp, by simp [keptAll]⟩
  | item :: items, [], _, _, _, _, fits, _ => by simp [FitsAll] at fits
  | item :: items, l :: alternatives, z, store, tidyL, tidyZ, fits, larger => by
    simp only [List.map_cons, FitsAll] at fits
    obtain ⟨tidyHere, tidyRest⟩ := List.forall_mem_cons.mp tidyL
    simp only [List.map_cons, keptAll]
    rw [refineKept_cons]
    split
    case isTrue bottom =>
      rw [Selector.isBottom_iff] at bottom
      subst bottom
      exact refineKept_lands env items tidyRest tidyZ fits.2 larger
    case isFalse =>
      obtain ⟨grown, tidy, below⟩ := refine_lands env item tidyHere tidyZ fits.1 larger
      obtain ⟨grown', tidy', below'⟩ := refineKept_lands env items tidyRest tidyZ fits.2 (larger.trans grown)
      have wide := extends_withStore (larger.trans grown)
      have wider := env.withStore_extends grown'
      refine ⟨grown.trans grown', List.forall_mem_cons.mpr ⟨tidy.of_extends wider, tidy'⟩, ?_⟩
      refine (List.forall_mem_cons.trans (and_congr ?_ below')).trans List.forall_mem_append.symm
      exact (wider.justified_iff tidy (tidyZ.of_extends wide)).trans below

end

/-! ### Refinement by the selector of a comparison -/

variable {env : Environment}

mutual

/-- If the pairs where a selector is top are justified, so are the parts that it keeps. -/
theorem Fits.justified_kept : ∀ {s : Selector} {a b : TypeId}, env.Tidy a → env.Tidy b →
    env.Fits env.Justified a b s → ∀ p ∈ env.kept a b s, env.Justified p.1 p.2
  | .top, a, b, _, _, fits => by simpa [kept, Fits] using fits
  | .bottom, _, _, _, _, _ => by simp [kept]
  | .array item, a, b, tidyA, tidyB, fits => by
    simp only [Fits] at fits
    obtain ⟨e, shownA, f, shownB, fitsItem⟩ := fits
    simp only [kept, shownA, shownB]
    exact fitsItem.justified_kept (tidyA.element shownA) (tidyB.element shownB)
  | .record items, a, b, tidyA, tidyB, fits => by
    simp only [Fits] at fits
    obtain ⟨ls, shownA, rs, shownB, -, -, fitsItems⟩ := fits
    simp only [kept, shownA, shownB]
    exact fitsItems.justified_keptAll (tidyA.pairs tidyB shownA shownB)
  | .union items, a, b, tidyA, tidyB, fits => by
    simp only [Fits] at fits
    obtain ⟨alternatives, shown, -, -, fitsItems⟩ := fits
    obtain ⟨-, tidy⟩ := tidyA.alternatives shown
    obtain ⟨ds, chain⟩ := env.exists_unfolds_concrete b
    simp only [kept, shown, unionTarget]
    split
    · have lifted : env.FitsAll env.Justified (alternatives.map fun l => (l, b)) items := by
        refine fitsItems.retarget fun l member s fits => fits.of_unfolds chain ?_
        rintro rfl
        exact Justified.of_unfolds fits (tidy l member) tidyB chain
      exact lifted.justified_keptAll (by simpa using fun l member => ⟨tidy l member, tidyB⟩)
    · exact fitsItems.justified_keptAll (by simpa using fun l member => ⟨tidy l member, tidyB.of_unfolds chain⟩)

theorem FitsAll.justified_keptAll : ∀ {items : List Selector} {pairs : List (TypeId × TypeId)},
    (∀ p ∈ pairs, env.Tidy p.1 ∧ env.Tidy p.2) → env.FitsAll env.Justified pairs items →
      ∀ p ∈ env.keptAll pairs items, env.Justified p.1 p.2
  | [], pairs, _, _ => by cases pairs <;> simp [keptAll]
  | item :: items, [], _, _ => by simp [keptAll]
  | item :: items, p :: pairs, tidy, fits => by
    simp only [FitsAll] at fits
    obtain ⟨here, rest⟩ := List.forall_mem_cons.mp tidy
    simp only [keptAll]
    exact List.forall_mem_append.mpr ⟨fits.1.justified_kept here.1 here.2, fits.2.justified_keptAll rest⟩

end

theorem WellFormed.tidy {a b : TypeId} (wellFormed : env.WellFormed a b)
    (normal : ∀ t ∈ env.reachable a b, env.isNormal t) : env.Tidy a ∧ env.Tidy b :=
  ⟨fun t path => ⟨wellFormed t (.inl path), normal t (.inl path)⟩,
    fun t path => ⟨wellFormed t (.inr path), normal t (.inr path)⟩⟩

theorem Tidy.wellFormed {a b : TypeId} (tidyA : env.Tidy a) (tidyB : env.Tidy b) : env.WellFormed a b :=
  (closed_tidy env).wellFormed tidyA tidyB

theorem fits_selector {valid : TypeId → TypeId → Prop} (preserved : ∀ a b, env.Follows valid a b → valid a b)
    {a b : TypeId} (tidyA : env.Tidy a) (tidyB : env.Tidy b) {s : Selector} (answer : env.selector a b = .ok s)
    (assumed : ∀ t ∈ env.attempts .unbounded a b, t.entrance = .cycle → valid t.lhs t.rhs) :
    env.Fits valid a b s := by
  rw [selector_eq_outcome] at answer
  exact fits_outcome (g := .fresh .unbounded) preserved (Nat.le_refl _) rfl tidyA tidyB answer assumed

/-- Where the refinement of a type by its selector against a target lands. It is a subtype of the target if the
    selector is top, or every part that is kept whole is justified below its part of the target. Conversely, if it is
    a subtype, and by a sound comparison, then every part that is kept is justified. This is so if every pair that
    was assumed for the selector is justified. -/
theorem refinement_lands {a b : TypeId} {s : Selector} (wellFormed : env.WellFormed a b)
    (normal : ∀ t ∈ env.reachable a b, env.isNormal t) (answer : env.selector a b = .ok s) :
    (s = .top → (env.refine a s).2.isSubtype (env.refine a s).1.type b = .ok true) ∧
    ((∀ p ∈ env.kept a b s, env.Justified p.1 p.2) →
      (env.refine a s).2.Shallow .unbounded (env.refine a s).1.type b →
      (env.refine a s).2.isSubtype (env.refine a s).1.type b = .ok true) ∧
    ((env.refine a s).2.isSubtype (env.refine a s).1.type b = .ok true →
      (∀ t ∈ (env.refine a s).2.attempts .unbounded (env.refine a s).1.type b, t.entrance = .cycle →
        (t.lhs, t.rhs) ∈ t.path ∨ (env.refine a s).2.Justified t.lhs t.rhs) →
      ∀ p ∈ env.kept a b s, env.Justified p.1 p.2) ∧
    ((∀ t ∈ env.attempts .unbounded a b, t.entrance = .cycle → env.Justified t.lhs t.rhs) →
      ∀ p ∈ env.kept a b s, env.Justified p.1 p.2) := by
  obtain ⟨tidyA, tidyB⟩ := wellFormed.tidy normal
  have form := fits_selector (fun _ _ _ => trivial) tidyA tidyB answer fun _ _ _ => trivial
  obtain ⟨grown, tidy, below⟩ := refine_lands env s tidyA tidyB form (.refl env.types)
  have wellFormed' := tidy.wellFormed (tidyB.of_extends (extends_withStore grown))
  refine ⟨?_, fun justified shallow => ?_, fun subtype sound => ?_, fun assumed => ?_⟩
  · rintro rfl
    exact isSubtype_eq_true_iff.mpr answer
  · exact isSubtype_eq_true_iff.mpr (wellFormed'.selector_of_justified (below.mpr justified) shallow)
  · have derivable : (env.refine a s).2.Derivable (fun path l r => (l, r) ∈ path ∨ (env.refine a s).2.Justified l r) []
        (env.refine a s).1.type b := wellFormed'.derivable_of_isSubtype subtype sound
    exact below.mp (derivable.justified fun _ _ _ => id)
  · have fits := fits_selector (fun _ _ => Justified.of_follows) tidyA tidyB answer assumed
    exact fits.justified_kept tidyA tidyB

/-- The copied lists, with a record in front of each. Only the first record allows its value to be null. -/
def headedLists : Environment :=
  [TypeExpr.record false [("val", .union [.type .int, .type .null]), ("next", .node (.nominal ⟨1⟩))],
    .record false [("val", .type .int), ("next", .node (.nominal ⟨2⟩))]].foldl declaring copiedLists

/-- All types of `headedLists`. -/
def headedTypes : List TypeId :=
  [⟨107⟩, ⟨108⟩, ⟨106⟩, ⟨100⟩, ⟨101⟩, ⟨102⟩, ⟨103⟩, ⟨104⟩, ⟨105⟩, .int, .null]

/-- What is tested of a record for it to count as one whose value is not null. -/
def valueSelector : Selector := .record [.union [.top, .bottom], .top]

/-- Behind the first record the whole list is kept, and it is justified by the pairs of the copied lists. -/
theorem headedLists_lands :
    headedLists.WellFormed ⟨107⟩ ⟨108⟩ ∧ headedLists.selector ⟨107⟩ ⟨108⟩ = .ok valueSelector ∧
      (headedLists.refine ⟨107⟩ valueSelector).2.isSubtype (headedLists.refine ⟨107⟩ valueSelector).1.type ⟨108⟩ =
        .ok true := by
  have whole : ∀ t ∈ headedTypes, headedLists.isResolved t ∧ ∀ u ∈ headedLists.parts t, u ∈ headedTypes := by
    decide +kernel
  have wellFormed : headedLists.WellFormed ⟨107⟩ ⟨108⟩ := .of_list headedTypes (by decide) (by decide) whole
  have normalTypes : ∀ t ∈ headedTypes, headedLists.isNormal t := by decide +kernel
  have normal : ∀ t ∈ headedLists.reachable ⟨107⟩ ⟨108⟩, headedLists.isNormal t := fun t member =>
    normalTypes t (mem_of_reachable headedTypes (by decide) (by decide) (fun t listed => (whole t listed).2) t member)
  have answer : headedLists.selector ⟨107⟩ ⟨108⟩ = .ok valueSelector := by decide +kernel
  have consistent : headedLists.Consistent {p | p ∈ copiedPairs} := .of_list copiedPairs (by decide +kernel)
  have parts : ∀ p ∈ headedLists.kept ⟨107⟩ ⟨108⟩ valueSelector, p ∈ copiedPairs := by decide +kernel
  have justified : ∀ p ∈ headedLists.kept ⟨107⟩ ⟨108⟩ valueSelector, headedLists.Justified p.1 p.2 :=
    fun p member => ⟨_, consistent, parts p member⟩
  exact ⟨wellFormed, answer, (refinement_lands wellFormed normal answer).2.1 justified (by decide +kernel)⟩

/-- Two declared lists. Only the first allows its values to be null. -/
def widerLists : Environment :=
  .ofBodies [.record false [("val", .union [.type .int, .type .null]), ("next", .union [.node (.nominal ⟨1⟩), .type .null])],
    .record false [("val", .type .int), ("next", .union [.node (.nominal ⟨2⟩), .type .null])]]

/-- All types of `widerLists`. -/
def widerTypes : List TypeId := [⟨101⟩, ⟨104⟩, ⟨100⟩, ⟨102⟩, ⟨103⟩, ⟨105⟩, ⟨106⟩, .int, .null]

/-- The rest of the wider list is kept whole, because its comparison with the rest of the other was still in progress
    when it was met again; but it may hold null, so that the refined type is no subtype of the other list. -/
theorem widerLists_not_landed :
    widerLists.WellFormed ⟨101⟩ ⟨104⟩ ∧ (∀ t ∈ widerLists.reachable ⟨101⟩ ⟨104⟩, widerLists.isNormal t) ∧
      widerLists.selector ⟨101⟩ ⟨104⟩ = .ok valueSelector ∧
      (widerLists.refine ⟨101⟩ valueSelector).2.isSubtype (widerLists.refine ⟨101⟩ valueSelector).1.type ⟨104⟩ =
        .ok false := by
  have whole : ∀ t ∈ widerTypes, widerLists.isResolved t ∧ ∀ u ∈ widerLists.parts t, u ∈ widerTypes := by
    decide +kernel
  have normalTypes : ∀ t ∈ widerTypes, widerLists.isNormal t := by decide +kernel
  refine ⟨.of_list widerTypes (by decide) (by decide) whole, fun t member => ?_, by decide +kernel, by decide +kernel⟩
  exact normalTypes t (mem_of_reachable widerTypes (by decide) (by decide) (fun t listed => (whole t listed).2) t member)

end Environment

end Narrowing
