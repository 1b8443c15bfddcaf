import Narrowing.Proofs.Reading
import Narrowing.Environment

/-!
Legible types. Where every name is an identifier, no declaration or variable is called
like a keyword or like another one, and only methods have lifetimes, types built by
constructors are known by their texts (`text?_eq_iff`): a dictionary of the names that
occur gives back the layers, and with it the text can be read.
-/

namespace Narrowing

namespace Tree

mutual

/-- The layers of a tree. -/
def layers : Tree → List Layer
  | .node layer parts => layer :: layersOf parts

def layersOf : List Tree → List Layer
  | [] => []
  | x :: xs => layers x ++ layersOf xs

end

theorem mem_layersOf {x : Tree} {trees : List Tree} (member : x ∈ trees) {layer : Layer} (below : layer ∈ x.layers) :
    layer ∈ layersOf trees := by
  induction trees with
  | nil => simp at member
  | cons y trees ih =>
    rw [layersOf, List.mem_append]
    rcases List.mem_cons.mp member with rfl | later
    · exact .inl below
    · exact .inr (ih later)

end Tree

/-- The words that have a meaning of their own in types. -/
def keywords : List String :=
  [Primitive.void, .null, .bool, .byte, .int, .any].map Primitive.keyword ++
    [CallableKind.function, .method, .property].map CallableKind.keyword

theorem Primitive.keyword_mem (k : Primitive) : k.keyword ∈ keywords := by cases k <;> decide

theorem CallableKind.keyword_mem (kind : CallableKind) : kind.keyword ∈ keywords := by cases kind <;> decide

theorem Primitive.isIdentifier_keyword (k : Primitive) : isIdentifier k.keyword := by cases k <;> decide

theorem Primitive.keyword_ne (k : Primitive) (kind : CallableKind) : k.keyword ≠ kind.keyword := by
  cases k <;> cases kind <;> decide

theorem Primitive.keyword_inj {k m : Primitive} (same : k.keyword = m.keyword) : k = m := by
  cases k <;> cases m <;> first | rfl | exact absurd same (by decide)

/-- Whether some segments can be the name of a declaration or a variable. -/
def isProperName (path : List String) : Bool :=
  path ≠ [] && path.all isIdentifier && keywords.all fun word => path ≠ [word]

theorem isProperName_iff {path : List String} :
    isProperName path ↔ path ≠ [] ∧ (∀ name ∈ path, isIdentifier name) ∧ ∀ word ∈ keywords, path ≠ [word] := by
  simp [isProperName, and_assoc]

namespace Environment

/-- The segments of the name of a declaration or a variable. -/
def name? (env : Environment) : Layer → Option (List String)
  | .nominal d => (env.declarations.name? d).map fun name => name.path.map env.types.names.text
  | .var v => (env.types.binder? v).map fun name => [env.types.names.text name]
  | _ => none

/-- Whether the names of a layer are identifiers. Declarations and variables have names that are no keywords, and only
    methods have lifetimes. -/
def isLegible (env : Environment) : Layer → Bool
  | .record _ names => names.all isIdentifier
  | .reference lifetime => lifetime.all isIdentifier
  | .callable kind _ captured lifetimeParams =>
    (captured ++ lifetimeParams).all isIdentifier && (kind = .method || (captured ++ lifetimeParams).isEmpty)
  | .unresolved name => isIdentifier name
  | .nominal d => (env.name? (.nominal d)).any isProperName
  | .var v => (env.name? (.var v)).any isProperName
  | .primitive _ | .array | .union | .intersection | .negation => true

/-- What a layer is called that is only a name. -/
def path? (env : Environment) : Layer → Option (List String)
  | .primitive k => some [k.keyword]
  | layer => env.name? layer

/-- The layer with a name. -/
def dictionary (env : Environment) (layers : List Layer) (path : List String) : Option Layer :=
  layers.find? fun layer => env.path? layer = some path

section
variable {env : Environment} {layers : List Layer} {layer : Layer} {path : List String}

theorem path?_eq_some_iff :
    env.path? layer = some path ↔ (∃ k, layer = .primitive k ∧ path = [k.keyword]) ∨ env.name? layer = some path := by
  cases layer <;> simp [path?, name?, eq_comm]

theorem isProperName_of_name? (legible : env.isLegible layer) (named : env.name? layer = some path) :
    isProperName path := by
  cases layer with
  | nominal | var => simpa [isLegible, named] using legible
  | _ => simp [name?] at named

theorem ne_keyword (legible : env.isLegible layer) (named : env.name? layer = some path) {word : String}
    (reserved : word ∈ keywords) : path ≠ [word] :=
  (isProperName_iff.mp (isProperName_of_name? legible named)).2.2 word reserved

/-- A layer that is only a name is spelled by the segments of the name. -/
theorem spell_of_path? (named : env.path? layer = some path) :
    env.types.spell (env.label? .declared) layer = [':', ':'].intercalate (path.map String.toList) := by
  rcases path?_eq_some_iff.mp named with ⟨k, rfl, rfl⟩ | named
  · simp [TypeStore.spell]
  · cases layer with
    | nominal d =>
      obtain ⟨name, found, rfl⟩ := Option.map_eq_some_iff.mp named
      simp [TypeStore.spell, label?, found, QualifiedName.display]
    | var v =>
      obtain ⟨name, found, rfl⟩ := Option.map_eq_some_iff.mp named
      simp [TypeStore.spell, found, TypeStore.nameText]
    | _ => simp [name?] at named

variable (legible : ∀ layer ∈ layers, env.isLegible layer)
include legible

theorem dictionary_keyword (kind : CallableKind) : env.dictionary layers [kind.keyword] = none := by
  rw [dictionary, List.find?_eq_none]
  intro layer member same
  rcases path?_eq_some_iff.mp (of_decide_eq_true same) with ⟨k, -, same⟩ | named
  · exact k.keyword_ne kind (List.singleton_inj.mp same).symm
  · exact ne_keyword (legible layer member) named kind.keyword_mem rfl

variable (distinct : ∀ l ∈ layers, ∀ m ∈ layers, (env.name? l).isSome → env.name? l = env.name? m → l = m)
include distinct

theorem path?_inj {l m : Layer} (hl : l ∈ layers) (hm : m ∈ layers) (first : env.path? l = some path)
    (second : env.path? m = some path) : l = m := by
  rcases path?_eq_some_iff.mp first with ⟨k, rfl, rfl⟩ | named
  · rcases path?_eq_some_iff.mp second with ⟨k', rfl, same⟩ | named
    · rw [Primitive.keyword_inj (List.singleton_inj.mp same)]
    · exact absurd rfl (ne_keyword (legible m hm) named k.keyword_mem)
  · rcases path?_eq_some_iff.mp second with ⟨k, rfl, rfl⟩ | named'
    · exact absurd rfl (ne_keyword (legible l hl) named k.keyword_mem)
    · exact distinct l hl m hm (named ▸ rfl) (named.trans named'.symm)

theorem dictionary_path (member : layer ∈ layers) (named : env.path? layer = some path) :
    env.dictionary layers path = some layer := by
  unfold dictionary
  cases found : layers.find? fun layer => env.path? layer = some path with
  | none => exact absurd (decide_eq_true named) (List.find?_eq_none.mp found layer member)
  | some entry =>
    have same := List.find?_some found
    simp only [decide_eq_true_eq] at same
    rw [path?_inj legible distinct (List.mem_of_find?_eq_some found) member same named]

/-- A type that is only a name can be read if it has a proper one. -/
theorem readable_name (member : layer ∈ layers) (named : env.path? layer = some path) (filled : path ≠ [])
    (identifiers : ∀ name ∈ path, isIdentifier name) :
    ∃ path, path ≠ [] ∧ (∀ name ∈ path, isIdentifier name) ∧ env.dictionary layers path = some layer ∧
      env.types.spell (env.label? .declared) layer = [':', ':'].intercalate (path.map String.toList) :=
  ⟨path, filled, identifiers, dictionary_path legible distinct member named, spell_of_path? named⟩

/-- A tree in normal form that a type is drawn as can be read, if its layers are legible. -/
theorem readable_of_depicts {t : TypeId} {x : Tree} (depicts : env.types.Depicts t x) (normal : x.Normal)
    (inside : ∀ layer ∈ x.layers, layer ∈ layers) :
    x.Readable (env.dictionary layers) (env.types.spell (env.label? .declared)) := by
  induction x using Tree.induction generalizing t with
  | node layer parts ih =>
    obtain ⟨n, types, known, shows, below⟩ := TypeStore.depicts_node_iff.mp depicts
    rcases normal with ⟨each, joint⟩
    obtain ⟨here, others⟩ := List.forall_mem_cons.mp inside
    have count := below.length_eq
    refine .node ?_ fun x member => ?_
    · have readable := legible layer here
      cases shows with
      | primitive k =>
        exact ⟨count.symm, readable_name legible distinct here rfl (by simp) (by simpa using k.isIdentifier_keyword)⟩
      | nominal | var =>
        obtain ⟨path, named, proper⟩ := (Option.any_eq_true _ _).mp readable
        obtain ⟨filled, identifiers, -⟩ := isProperName_iff.mp proper
        exact ⟨count.symm, readable_name legible distinct here named filled identifiers⟩
      | array e | negation e => exact count.symm
      | record found spells =>
        have names := spells.length_eq
        rw [List.length_map] at count names
        exact ⟨count.symm.trans names, by simpa [isLegible] using readable⟩
      | static e => exact ⟨count.symm, by simp⟩
      | reference e named => exact ⟨count.symm, by simpa [isLegible] using readable⟩
      | callable found captured lifetimeParams =>
        rw [List.length_append] at count
        simp only [isLegible, Bool.and_eq_true, Bool.or_eq_true, decide_eq_true_eq, List.all_eq_true, List.isEmpty_iff,
          List.append_eq_nil_iff] at readable
        exact ⟨by omega, readable.1, readable.2⟩
      | union found => exact (joint (.inl rfl)).several
      | intersection found => exact (joint (.inr rfl)).several
      | unresolved named => exact ⟨count.symm, readable⟩
    · obtain ⟨-, u, drawn⟩ := depicts.exists_part member
      exact ih x member drawn (each x member) fun layer listed => others layer (Tree.mem_layersOf member listed)

end

/-- The texts of two types are the same exactly if the types are. -/
theorem text?_eq_iff (env : Environment) {t u : TypeId} {x y : Tree} (first : env.types.Built t x)
    (second : env.types.Built u y) (legible : ∀ layer ∈ x.layers ++ y.layers, env.isLegible layer)
    (distinct : ∀ l ∈ x.layers ++ y.layers, ∀ m ∈ x.layers ++ y.layers, (env.name? l).isSome →
      env.name? l = env.name? m → l = m) :
    ∃ a b, env.text? .declared t = some a ∧ env.text? .declared u = some b ∧ (a = b ↔ t = u) := by
  obtain ⟨drawn, normal⟩ := first.depicts
  obtain ⟨drawn', normal'⟩ := second.depicts
  have printed := TypeStore.print_of_depicts (env.label? .declared) drawn
  have printed' := TypeStore.print_of_depicts (env.label? .declared) drawn'
  refine ⟨_, _, congrArg (Option.map String.ofList) printed, congrArg (Option.map String.ofList) printed', ?_⟩
  have readable := readable_of_depicts legible distinct drawn normal fun _ => List.mem_append_left _
  have readable' := readable_of_depicts legible distinct drawn' normal' fun _ => List.mem_append_right _
  rw [drawn.eq_iff drawn']
  constructor
  · intro same
    exact readable.text_inj (dictionary_keyword legible) readable' (by simpa using congrArg String.toList same)
  · rintro rfl
    rfl

/-- An array of a union and a union with an array, both of a declaration and a variable. -/
def itemsHistory : List Operation :=
  [.nominal ⟨1⟩, .freshVariable "T", .union [⟨100⟩, ⟨101⟩], .array ⟨102⟩, .array ⟨101⟩, .union [⟨100⟩, ⟨104⟩]]

/-- The name of the declaration begins like the name of a primitive. -/
def items : Environment where
  types := TypeStore.empty.after itemsHistory
  declarations := ⟨#[⟨⟨[⟨Name.first + 4⟩, ⟨Name.first + 26⟩]⟩, none, []⟩]⟩

/-- The tree of the array. -/
def itemsArray : Tree := .node .array [.node .union [.node (.nominal ⟨1⟩) [], .node (.var ⟨0⟩) []]]

/-- The tree of the union with an array. -/
def itemsUnion : Tree := .node .union [.node (.nominal ⟨1⟩) [], .node .array [.node (.var ⟨0⟩) []]]

private theorem built_after (history : List Operation) {op : Operation} {t u : TypeId} {x y : Tree}
    (built : (op.run (TypeStore.empty.after history)).Built t x) (id : t = u) (tree : x = y) :
    (TypeStore.empty.after (history ++ [op])).Built u y := by
  rw [TypeStore.after_concat, ← id, ← tree]
  exact built

private theorem items_built : items.types.Built ⟨103⟩ itemsArray ∧ items.types.Built ⟨105⟩ itemsUnion := by
  have nominal : (TypeStore.empty.after (itemsHistory.take 1)).Built ⟨100⟩ (.node (.nominal ⟨1⟩) []) :=
    built_after [] (.nominal _ ⟨1⟩) (by decide +kernel) rfl
  have var : (TypeStore.empty.after (itemsHistory.take 2)).Built ⟨101⟩ (.node (.var ⟨0⟩) []) :=
    built_after (itemsHistory.take 1) (.freshVariable _ "T") (by decide +kernel) (by decide +kernel)
  have either : (TypeStore.empty.after (itemsHistory.take 3)).Built ⟨102⟩ _ :=
    built_after (itemsHistory.take 2) (@TypeStore.Built.union _ [(⟨100⟩, _), (⟨101⟩, _)]
      (by simpa using ⟨nominal.after [.freshVariable "T"], var⟩)) (by decide +kernel) rfl
  have array : (TypeStore.empty.after (itemsHistory.take 4)).Built ⟨103⟩ itemsArray :=
    built_after (itemsHistory.take 3) (.array either) (by decide +kernel) (by decide +kernel)
  have other : (TypeStore.empty.after (itemsHistory.take 5)).Built ⟨104⟩ _ :=
    built_after (itemsHistory.take 4) (.array (var.after ((itemsHistory.take 4).drop 2))) (by decide +kernel) rfl
  have union : (TypeStore.empty.after itemsHistory).Built ⟨105⟩ itemsUnion :=
    built_after (itemsHistory.take 5) (@TypeStore.Built.union _ [(⟨100⟩, _), (⟨104⟩, _)]
      (by simpa using ⟨nominal.after ((itemsHistory.take 5).drop 1), other⟩)) (by decide +kernel) (by decide +kernel)
  exact ⟨array.after (itemsHistory.drop 4), union⟩

theorem items_texts :
    items.types.Built ⟨103⟩ itemsArray ∧ items.types.Built ⟨105⟩ itemsUnion ∧
      items.text? .declared ⟨103⟩ = some "(int::items|T)[]" ∧ items.text? .declared ⟨105⟩ = some "int::items|T[]" ∧
      ∃ a b, items.text? .declared ⟨103⟩ = some a ∧ items.text? .declared ⟨105⟩ = some b ∧
        (a = b ↔ (⟨103⟩ : TypeId) = ⟨105⟩) := by
  obtain ⟨array, union⟩ := items_built
  exact ⟨array, union, by decide +kernel, by decide +kernel,
    text?_eq_iff items array union (by decide +kernel) (by decide +kernel)⟩

end Environment

end Narrowing
