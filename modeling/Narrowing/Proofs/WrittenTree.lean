import Narrowing.Proofs.Tree
import Narrowing.Type.Printer

/-!
The text of a tree. Each layer writes its own signs and names around the texts of its
parts, and stands in parentheses where it binds looser than its surroundings need. The
text of a type is the text of the tree that it is drawn as (`print_of_depicts`): along
a branch of a tree there are different types, so the depth that is given to the
printer is enough for every tree (`Depicts.height_le`).
-/

namespace Narrowing

/-- What binds as tightly as possible needs no parentheses. -/
@[simp] theorem Binding.enclose_postfixed (context : Binding) (text : List Char) :
    context.enclose .postfixed text = text := by
  cases context <;> rfl

namespace Layer

/-- How tightly the text of a layer binds. -/
def binding : Layer → Binding
  | .union => .union
  | .intersection => .intersection
  | .reference _ | .callable .. | .negation => .prefixed
  | _ => .postfixed

/-- How tightly the parts of a layer have to bind. -/
def partBinding : Layer → Binding
  | .array => .postfixed
  | .reference _ | .intersection | .negation => .prefixed
  | .union => .intersection
  | _ => .union

/-- Names between a pair of brackets, or nothing if there are none. -/
def bracketed (before after : Char) : List String → List Char
  | [] => []
  | names => before :: [','].intercalate (names.map String.toList) ++ [after]

/-- The text of a layer around the texts of its parts. What is only a name is spelled as given. -/
def body (spell : Layer → List Char) (texts : List (List Char)) : Layer → List Char
  | .array => texts.flatten ++ ['[', ']']
  | .record isOpen names =>
    let fields := texts.zipWith (fun text name => text ++ ' ' :: name.toList) names
    '\x7b' :: [',', ' '].intercalate (fields ++ if isOpen then [['.', '.', '.']] else []) ++ ['\x7d']
  | .reference lifetime => '&' :: lifetime.elim [] (fun name => name.toList ++ [':']) ++ texts.flatten
  | .callable kind params captured lifetimeParams =>
    kind.keyword.toList ++
      (if kind = .method then bracketed '<' '>' lifetimeParams ++ bracketed '[' ']' captured else []) ++
      '(' :: [','].intercalate (texts.take params) ++ [')', '-', '>', '('] ++
      [','].intercalate (texts.drop params) ++ [')']
  | .union => ['|'].intercalate texts
  | .intersection => ['&'].intercalate texts
  | .negation => '!' :: texts.flatten
  | .unresolved name => '?' :: name.toList
  | layer => spell layer

end Layer

namespace Tree

mutual

/-- The text of a tree where a type of strength `context` is needed. -/
def text (spell : Layer → List Char) (context : Binding) : Tree → List Char
  | .node layer parts => context.enclose layer.binding (layer.body spell (texts spell layer.partBinding parts))

def texts (spell : Layer → List Char) (context : Binding) : List Tree → List (List Char)
  | [] => []
  | x :: xs => text spell context x :: texts spell context xs

end

theorem texts_eq_map (spell : Layer → List Char) (context : Binding) (trees : List Tree) :
    texts spell context trees = trees.map (text spell context) := by
  induction trees with
  | nil => rfl
  | cons x trees ih => rw [texts, ih, List.map_cons]

theorem text_node (spell : Layer → List Char) (context : Binding) (layer : Layer) (parts : List Tree) :
    (node layer parts).text spell context =
      context.enclose layer.binding (layer.body spell (parts.map (text spell layer.partBinding))) := by
  rw [text, texts_eq_map]

mutual

/-- The number of layers on the longest branch of a tree. -/
def height : Tree → Nat
  | .node _ parts => heights parts + 1

/-- The greatest height of some trees. -/
def heights : List Tree → Nat
  | [] => 0
  | x :: xs => max (height x) (heights xs)

end

theorem height_le_heights {x : Tree} {trees : List Tree} (member : x ∈ trees) : x.height ≤ heights trees := by
  induction trees with
  | nil => simp at member
  | cons y trees ih =>
    rw [heights]
    rcases List.mem_cons.mp member with rfl | later
    · exact Nat.le_max_left ..
    · exact Nat.le_trans (ih later) (Nat.le_max_right ..)

theorem exists_height_eq_heights {trees : List Tree} (some : trees ≠ []) : ∃ x ∈ trees, x.height = heights trees := by
  induction trees with
  | nil => exact absurd rfl some
  | cons y trees ih =>
    rw [heights]
    by_cases greater : heights trees ≤ y.height
    · exact ⟨y, List.mem_cons_self, (Nat.max_eq_left greater).symm⟩
    · have others : trees ≠ [] := by
        rintro rfl
        exact greater (Nat.zero_le _)
      obtain ⟨x, member, highest⟩ := ih others
      refine ⟨x, List.mem_cons_of_mem _ member, ?_⟩
      omega

end Tree

namespace TypeStore

variable {s : TypeStore}

/-! ### How high trees are -/

/-- A type with parts is not given. -/
theorem Shows.eq_nil_of_primitive {k : Primitive} {layer : Layer} {types : List TypeId}
    (shows : s.Shows (.primitive k) layer types) : types = [] := by
  cases shows
  rfl

/-- The types of the parts that a type is drawn with. -/
theorem Depicts.exists_part {t : TypeId} {layer : Layer} {parts : List Tree} (depicts : s.Depicts t (.node layer parts))
    {x : Tree} (member : x ∈ parts) : (∃ i < s.nodes.size, t = ⟨TypeId.first + i⟩) ∧ ∃ u, s.Depicts u x := by
  obtain ⟨n, types, known, shows, below⟩ := depicts_node_iff.mp depicts
  obtain ⟨i, inside, rfl⟩ := List.getElem_of_mem member
  have there : i < types.length := below.length_eq ▸ inside
  refine ⟨?_, types[i], below.get there inside⟩
  rcases node?_eq_some_iff.mp known with ⟨k, -, rfl⟩ | ⟨i, rfl, held⟩
  · rw [shows.eq_nil_of_primitive] at there
    simp at there
  · exact ⟨i, Pool.lt_size_of_get? held, rfl⟩

/-- Down the longest branch there are different types, which were built. -/
theorem Depicts.exists_branch {t : TypeId} {x : Tree} (depicts : s.Depicts t x) :
    ∃ branch : List TypeId, branch.length + 1 = x.height ∧ branch.Nodup ∧
      ∀ u ∈ branch, (∃ i < s.nodes.size, u = ⟨TypeId.first + i⟩) ∧ ∃ y, s.Depicts u y ∧ y.height ≤ x.height := by
  induction x using Tree.induction generalizing t with
  | node layer parts ih =>
    by_cases leaf : parts = []
    · subst leaf
      exact ⟨[], rfl, .nil, by simp⟩
    · obtain ⟨x, member, highest⟩ := Tree.exists_height_eq_heights leaf
      obtain ⟨built, u, below⟩ := depicts.exists_part member
      obtain ⟨branch, long, different, each⟩ := ih x member below
      have fresh : t ∉ branch := by
        -- what is on the branch has a lower tree
        intro again
        obtain ⟨-, y, drawn, low⟩ := each t again
        obtain rfl := (depicts.eq_iff drawn).mp rfl
        rw [Tree.height] at low
        omega
      refine ⟨t :: branch, ?_, List.nodup_cons.mpr ⟨fresh, different⟩,
        List.forall_mem_cons.mpr ⟨⟨built, _, depicts, le_rfl⟩, ?_⟩⟩
      · rw [List.length_cons, long, highest, Tree.height]
      · intro v listed
        obtain ⟨built, y, drawn, low⟩ := each v listed
        refine ⟨built, y, drawn, low.trans ?_⟩
        rw [Tree.height, highest]
        exact Nat.le_succ _

/-- A tree is no higher than there are nodes, a primitive at its end apart. -/
theorem Depicts.height_le {t : TypeId} {x : Tree} (depicts : s.Depicts t x) : x.height ≤ s.nodes.size + 1 := by
  obtain ⟨branch, long, different, each⟩ := depicts.exists_branch
  have inside : branch ⊆ (List.range s.nodes.size).map fun i => ⟨TypeId.first + i⟩ := by
    intro u listed
    obtain ⟨⟨i, small, rfl⟩, -⟩ := each u listed
    exact List.mem_map.mpr ⟨i, List.mem_range.mpr small, rfl⟩
  have few := (List.subperm_of_subset different inside).length_le
  rw [List.length_map, List.length_range] at few
  omega

/-! ### The text of a type -/

/-- How a layer is spelled that is only a name. -/
def spell (s : TypeStore) (label? : DeclId → Option String) : Layer → List Char
  | .primitive k => k.keyword.toList
  | .nominal d => (label? d).elim (missingText "decl" d.val) String.toList
  | .var v => (s.binder? v).elim (missingText "var" v.val) s.nameText
  | _ => []

theorem nameText_of_text? {n : Name} {text : String} (named : s.names.text? n = some text) :
    s.nameText n = text.toList := by
  rw [nameText, NameTable.text, named, Option.getD_some]

theorem Spells.map_nameText {names : List Name} {texts : List String} (spells : s.Spells names texts) :
    names.map s.nameText = texts.map String.toList := by
  induction spells with
  | nil => rfl
  | cons named _ ih => rw [List.map_cons, List.map_cons, nameText_of_text? named, ih]

theorem Spells.bracketedNames {names : List Name} {texts : List String} (spells : s.Spells names texts)
    (before after : Char) : s.bracketedNames before after names = Layer.bracketed before after texts := by
  cases spells with
  | nil => rfl
  | cons named rest =>
    rw [TypeStore.bracketedNames, Layer.bracketed, Spells.map_nameText (.cons named rest)]
    · simp
    · simp

section
variable {print : TypeId → Option (List Char)} {write : Tree → List Char} {types : List TypeId} {trees : List Tree}

/-- Types that are printed as their trees are written, one by one. -/
theorem mapM_of_depicts (below : List.Forall₂ s.Depicts types trees)
    (each : ∀ x ∈ trees, ∀ t, s.Depicts t x → print t = some (write x)) :
    types.mapM print = some (trees.map write) := by
  induction below with
  | nil => rfl
  | cons here _ ih =>
    obtain ⟨head, tail⟩ := List.forall_mem_cons.mp each
    simp [head _ here, ih tail]

theorem mapM_fields_of_depicts {fields : List Field} {names : List String}
    (below : List.Forall₂ s.Depicts (fields.map Field.type) trees) (spells : s.Spells (fields.map Field.name) names)
    (each : ∀ x ∈ trees, ∀ t, s.Depicts t x → print t = some (write x)) :
    (fields.mapM fun f => do return (← print f.type) ++ ' ' :: s.nameText f.name) =
      some ((trees.map write).zipWith (fun text name => text ++ ' ' :: name.toList) names) := by
  induction fields generalizing trees names with
  | nil =>
    cases below
    rfl
  | cons f fields ih =>
    rcases below with _ | ⟨here, below⟩
    rcases spells with _ | ⟨named, spells⟩
    obtain ⟨head, tail⟩ := List.forall_mem_cons.mp each
    rw [List.mapM_cons, head _ here, nameText_of_text? named, ih below spells tail]
    rfl

end

private theorem forall₂_singleton {t : TypeId} {trees : List Tree} (below : List.Forall₂ s.Depicts [t] trees) :
    ∃ x, trees = [x] ∧ s.Depicts t x := by
  rcases below with _ | ⟨here, _ | _⟩
  exact ⟨_, rfl, here⟩

/-- A type is printed as the tree that it is drawn as, if this is not too high. -/
theorem printWithin_of_depicts (label? : DeclId → Option String) {t : TypeId} {x : Tree} (depicts : s.Depicts t x)
    {depth : Nat} (deep : x.height ≤ depth) (context : Binding) :
    s.printWithin label? depth context t = some (x.text (s.spell label?) context) := by
  induction x using Tree.induction generalizing t depth context with
  | node layer parts ih =>
    obtain ⟨n, types, known, shows, below⟩ := depicts_node_iff.mp depicts
    rw [Tree.height] at deep
    obtain ⟨depth, rfl⟩ := Nat.exists_eq_add_one.mpr (Nat.zero_lt_of_lt deep)
    have each (context : Binding) : ∀ x ∈ parts, ∀ t, s.Depicts t x →
        s.printWithin label? depth context t = some (x.text (s.spell label?) context) := by
      intro x member t drawn
      have low := Tree.height_le_heights member
      exact ih x member drawn (by omega) context
    have all (context : Binding) := mapM_of_depicts below (each context)
    rw [Tree.text_node]
    simp only [printWithin, known]
    cases shows with
    | primitive | nominal | var => simp [Layer.body, Layer.binding, spell]
    | unresolved named => simp [Layer.body, Layer.binding, nameText_of_text? named]
    | array e =>
      obtain ⟨x, rfl, drawn⟩ := forall₂_singleton below
      simp [Layer.body, Layer.binding, Layer.partBinding, each .postfixed x List.mem_cons_self e drawn]
    | negation e =>
      obtain ⟨x, rfl, drawn⟩ := forall₂_singleton below
      simp [Layer.body, Layer.binding, Layer.partBinding, each .prefixed x List.mem_cons_self e drawn]
    | static e =>
      obtain ⟨x, rfl, drawn⟩ := forall₂_singleton below
      simp [Layer.body, Layer.binding, Layer.partBinding, each .prefixed x List.mem_cons_self e drawn]
    | reference e named =>
      obtain ⟨x, rfl, drawn⟩ := forall₂_singleton below
      simp [Layer.body, Layer.binding, Layer.partBinding, each .prefixed x List.mem_cons_self e drawn,
        nameText_of_text? named]
    | union found | intersection found => simp [Layer.body, Layer.binding, Layer.partBinding, found, all]
    | @callable c shape _ _ found captured lifetimeParams =>
      have params := List.forall₂_take shape.params.length below
      have returns := List.forall₂_drop shape.params.length below
      rw [List.take_left] at params
      rw [List.drop_left] at returns
      have inputs := mapM_of_depicts params fun x member => each .union x (List.mem_of_mem_take member)
      have outputs := mapM_of_depicts returns fun x member => each .union x (List.mem_of_mem_drop member)
      simp [found, inputs, outputs, callableHead, lifetimeParams.bracketedNames, captured.bracketedNames, Layer.body,
        Layer.binding, Layer.partBinding]
    | record found spells =>
      simp only [found, mapM_fields_of_depicts below spells (each .union)]
      simp [Layer.body, Layer.binding, Layer.partBinding]

/-- The text of a type is the text of its tree. -/
theorem print_of_depicts (label? : DeclId → Option String) {t : TypeId} {x : Tree} (depicts : s.Depicts t x) :
    s.print label? t = some (x.text (s.spell label?) .union) :=
  printWithin_of_depicts label? depicts depicts.height_le .union

end TypeStore

end Narrowing
