import Narrowing.Proofs.Reader
import Narrowing.Proofs.HashConsing

/-!
Reading types. The reader goes through the strengths of binding, from the loosest to the
tightest, and at each of them takes off as much as it can. It finds every tree in its
text (`reads_of_readable`), whatever follows, if this begins with no sign that the reader
would go on with at this strength. So the parentheses that are written are enough: trees
with one text are the same (`Tree.Readable.text_inj`).
-/

namespace Narrowing

namespace Reader

/-- A type that is only a name, looked up in a dictionary. -/
def named (resolve : List String → Option Layer) : Reader Tree := fun cs => do
  let (names, cs) ← path cs
  let layer ← resolve names
  some (.node layer [], cs)

section
variable (type : Reader Tree)

def callable : Reader Tree := fun cs => do
  let (keyword, cs) ← word cs
  let kind ← [CallableKind.function, .method, .property].find? fun kind => kind.keyword = keyword
  let (lifetimeParams, cs) ← bracketed '<' '>' cs
  let (captured, cs) ← bracketed '[' ']' cs
  let cs ← cs.dropPrefix? ['(']
  let (params, cs) ← listing [','] ')' type cs
  let cs ← cs.dropPrefix? ['-', '>', '(']
  let (returns, cs) ← listing [','] ')' type cs
  some (.node (.callable kind params.length captured lifetimeParams) (params ++ returns), cs)

/-- A field of a record, or the dots of an open one. -/
def field : Reader (Option (Tree × String)) := fun cs =>
  match cs.dropPrefix? ['.', '.', '.'] with
  | some cs => some (none, cs)
  | none => do
    let (x, cs) ← type cs
    let cs ← cs.dropPrefix? [' ']
    let (name, cs) ← word cs
    some (some (x, name), cs)

/-- The record with some fields, open if there are dots among them. -/
def recordOf (fields : List (Option (Tree × String))) : Tree :=
  .node (.record (fields.any Option.isNone) (fields.filterMap (Option.map Prod.snd)))
    (fields.filterMap (Option.map Prod.fst))

/-- A type that needs no parentheses, or any type in parentheses. -/
def atom (resolve : List String → Option Layer) : Reader Tree
  | '(' :: cs => do
    let (x, cs) ← type cs
    let cs ← cs.dropPrefix? [')']
    some (x, cs)
  | '\x7b' :: cs => do
    let (fields, cs) ← listing [',', ' '] '\x7d' (field type) cs
    some (recordOf fields, cs)
  | '?' :: cs => do
    let (name, cs) ← word cs
    some (.node (.unresolved name) [], cs)
  | cs => named resolve cs

end

/-- The arrays that follow a type. -/
def arrays : Tree → List Char → Tree × List Char
  | x, '[' :: ']' :: cs => arrays (.node .array [x]) cs
  | x, cs => (x, cs)

/-- A type with a sign before it. -/
def operator (type operand : Reader Tree) : Reader Tree
  | '&' :: cs => do
    let (name, cs) := lifetime cs
    let (x, cs) ← operand cs
    some (.node (.reference name) [x], cs)
  | '!' :: cs => do
    let (x, cs) ← operand cs
    some (.node .negation [x], cs)
  | cs => callable type cs

/-- A type of a given strength. -/
def read (resolve : List String → Option Layer) : (depth : Nat) → Binding → Reader Tree
  | 0, _, _ => none
  | depth + 1, .union, cs => do
    let (members, cs) ← separated ['|'] (read resolve depth .intersection) cs
    some (Tree.joined .union (.primitive .void) members, cs)
  | depth + 1, .intersection, cs => do
    let (members, cs) ← separated ['&'] (read resolve depth .prefixed) cs
    some (Tree.joined .intersection (.primitive .any) members, cs)
  | depth + 1, .prefixed, cs =>
    (read resolve depth .postfixed cs).or (operator (read resolve depth .union) (read resolve depth .prefixed) cs)
  | depth + 1, .postfixed, cs => do
    let (x, cs) ← atom (read resolve depth .union) resolve cs
    some (arrays x cs)

end Reader

/-! ### What can follow a type -/

/-- The signs that a type of some strength is continued by. -/
def Binding.continuations : Binding → List Char
  | .postfixed => [':']
  | .prefixed => [':', '[']
  | .intersection => [':', '[', '&']
  | .union => [':', '[', '&', '|']

/-- A type of some strength ends before a text. -/
def Ends (context : Binding) (rest : List Char) : Prop := ∀ c ∈ rest.head?, isMark c ∧ c ∉ context.continuations

namespace Ends

variable {context tighter : Binding} {rest : List Char}

theorem cons {c : Char} (rest : List Char) (mark : isMark c) (other : c ∉ context.continuations) :
    Ends context (c :: rest) := by
  intro c' same
  obtain rfl := Option.some.inj same
  exact ⟨mark, other⟩

theorem atMark (ends : Ends context rest) : AtMark rest := fun c head => (ends c head).1

theorem tighten (ends : Ends context rest) (stronger : context.rank ≤ tighter.rank) : Ends tighter rest := by
  intro c head
  obtain ⟨mark, other⟩ := ends c head
  refine ⟨mark, fun member => other ?_⟩
  cases context <;> cases tighter <;> simp_all [Binding.continuations, Binding.rank]

theorem not_mem_head? (ends : Ends context rest) {c : Char} (continues : c ∈ context.continuations) : c ∉ rest.head? :=
  fun head => (ends c head).2 continues

end Ends

/-! ### Readable trees -/

/-- What a layer over some parts has to be like. Names are looked up in a dictionary. -/
def Layer.Readable (resolve : List String → Option Layer) (spell : Layer → List Char) (count : Nat) : Layer → Prop
  | .array | .negation => count = 1
  | .reference lifetime => count = 1 ∧ ∀ name ∈ lifetime, isIdentifier name
  | .record _ names => count = names.length ∧ ∀ name ∈ names, isIdentifier name
  | .callable kind params captured lifetimeParams =>
    params ≤ count ∧ (∀ name ∈ captured ++ lifetimeParams, isIdentifier name) ∧
      (kind = .method ∨ captured = [] ∧ lifetimeParams = [])
  | .union | .intersection => 2 ≤ count
  | .unresolved name => count = 0 ∧ isIdentifier name
  | layer => count = 0 ∧ ∃ path, path ≠ [] ∧ (∀ name ∈ path, isIdentifier name) ∧ resolve path = some layer ∧
      spell layer = [':', ':'].intercalate (path.map String.toList)

/-- All layers of a tree can be read. -/
inductive Tree.Readable (resolve : List String → Option Layer) (spell : Layer → List Char) : Tree → Prop where
  | node {layer : Layer} {parts : List Tree} : layer.Readable resolve spell parts.length →
      (∀ x ∈ parts, Readable resolve spell x) → Readable resolve spell (.node layer parts)

/-- The text of a tree begins with what opens a type. -/
theorem Tree.Readable.opens {resolve : List String → Option Layer} {spell : Layer → List Char} {x : Tree}
    (readable : x.Readable resolve spell) (context : Binding) : Opens (x.text spell context) := by
  induction readable generalizing context with
  | @node layer parts here below ih =>
    rw [text_node, Binding.enclose]
    split
    · exact Opens.cons rfl _
    have each (context : Binding) : ∀ text ∈ parts.map (Tree.text spell context), Opens text :=
      List.forall_mem_map.mpr fun x listed => ih x listed context
    cases layer with
    | array =>
      obtain ⟨x, rfl⟩ := List.length_eq_one_iff.mp here
      simpa [Layer.body] using (ih x List.mem_cons_self _).append ['[', ']']
    | record | reference | negation | unresolved => exact Opens.cons rfl _
    | callable kind =>
      simp only [Layer.body, List.append_assoc]
      cases kind <;> exact Opens.cons rfl _
    | union | intersection =>
      refine opens_intercalate ?_ (each _)
      rintro none
      simp [List.map_eq_nil_iff.mp none, Layer.Readable] at here
    | primitive | nominal | var =>
      obtain ⟨-, path, some, named, -, spelled⟩ := here
      rw [Layer.body, spelled]
      · refine opens_intercalate (by simpa using some) ?_
        exact List.forall_mem_map.mpr fun name member => opens_name (named name member)
      all_goals simp

namespace Reader

section
variable {resolve : List String → Option Layer} {spell : Layer → List Char}

/-- A tree is found in its text, in whatever surroundings, with the arrays that follow it. -/
def Reads (resolve : List String → Option Layer) (spell : Layer → List Char) (depth : Nat) (x : Tree) : Prop :=
  ∀ context rest, Ends context rest →
    read resolve depth context (x.text spell context ++ rest) = some (arrays x rest)

/-- Arrays are read up to another sign. -/
theorem arrays_of_ends {context : Binding} (looser : context.rank < Binding.postfixed.rank) {rest : List Char}
    (ends : Ends context rest) (x : Tree) : arrays x rest = (x, rest) := by
  have other : '[' ∉ rest.head? := by
    refine ends.not_mem_head? ?_
    cases context <;> simp_all [Binding.continuations, Binding.rank]
  rw [arrays]
  rintro cs rfl
  simp at other

/-! ### Names -/

theorem atom_of_plain {type : Reader Tree} {cs : List Char} (first : ∀ c ∈ cs.head?, c ∉ ['(', '\x7b', '?']) :
    atom type resolve cs = named resolve cs := by
  unfold atom
  split
  case h_1 | h_2 | h_3 => simp at first
  case h_4 => rfl

theorem read_postfixed_of_mark {c : Char} (mark : isMark c) (other : c ∉ ['(', '\x7b', '?']) (depth : Nat)
    (cs : List Char) : read resolve depth .postfixed (c :: cs) = none := by
  cases depth with
  | zero => rfl
  | succ depth =>
    rw [read, atom_of_plain (by simpa using other), named, path_of_mark mark]
    rfl

/-- A name is what the dictionary has for it. -/
theorem read_postfixed_names {names : List String} (some : names ≠ []) (each : ∀ name ∈ names, isIdentifier name)
    {rest : List Char} (ends : Ends .postfixed rest) (depth : Nat) :
    read resolve (depth + 1) .postfixed ([':', ':'].intercalate (names.map String.toList) ++ rest) =
      (resolve names).map fun layer => arrays (.node layer []) rest := by
  have found := path_intercalate some each ends.atMark (dropPrefix?_of_head (ends.not_mem_head? (by decide)))
  have first : ∀ c ∈ ([':', ':'].intercalate (names.map String.toList) ++ rest).head?, c ∉ ['(', '\x7b', '?'] := by
    intro c head member
    have mark : isMark c := by
      simp only [List.mem_cons, List.not_mem_nil, or_false] at member
      rcases member with rfl | rfl | rfl <;> rfl
    obtain ⟨cs, same⟩ := List.head?_eq_some_iff.mp head
    rw [same, path_of_mark mark] at found
    exact absurd found (by simp)
  rw [read, atom_of_plain first, named, found]
  cases entry : resolve names <;> simp [entry]

/-! ### Unions and intersections -/

section
variable {depth : Nat} {parts : List Tree}

/-- Parts are read one by one where no array can follow. -/
theorem forall₂_read (each : ∀ x ∈ parts, Reads resolve spell depth x) {context : Binding}
    (looser : context.rank < Binding.postfixed.rank) :
    List.Forall₂ (Finds (read resolve depth context) (Ends context)) (parts.map (Tree.text spell context)) parts := by
  rw [List.forall₂_map_left_iff, List.forall₂_same]
  intro x member rest ends
  rw [each x member context rest ends, arrays_of_ends looser ends]

/-- Several types with a sign between them that continues none of them. -/
theorem separated_types (each : ∀ x ∈ parts, Reads resolve spell depth x) (some : parts ≠ []) {context : Binding}
    (looser : context.rank < Binding.postfixed.rank) {sign : Char} (mark : isMark sign)
    (between : sign ∉ context.continuations) {rest : List Char} (ends : Ends context rest) (stop : sign ∉ rest.head?) :
    separated [sign] (read resolve depth context)
      ([sign].intercalate (parts.map (Tree.text spell context)) ++ rest) = .some (parts, rest) :=
  separated_intercalate (forall₂_read each looser) some (fun _ => Ends.cons _ mark between) ends
    (dropPrefix?_of_head stop) (by simp)

theorem joined_of_several (joint : Layer) (none : Tree) (several : 2 ≤ parts.length) :
    Tree.joined joint none parts = .node joint parts := by
  rcases parts with _ | ⟨x, _ | ⟨y, parts⟩⟩
  · simp at several
  · simp at several
  · rfl

section
variable (each : ∀ x ∈ parts, Reads resolve spell depth x) (several : 2 ≤ parts.length) {rest : List Char}
include each several

theorem read_union (ends : Ends .union rest) :
    read resolve (depth + 1) .union (['|'].intercalate (parts.map (Tree.text spell .intersection)) ++ rest) =
      some (.node .union parts, rest) := by
  have filled : parts ≠ [] := List.ne_nil_of_length_pos (Nat.zero_lt_of_lt several)
  rw [read, separated_types each filled (by decide) rfl (by decide) (ends.tighten (by decide))
    (ends.not_mem_head? (by decide))]
  simp [joined_of_several _ _ several]

theorem read_intersection (ends : Ends .intersection rest) :
    read resolve (depth + 1) .intersection (['&'].intercalate (parts.map (Tree.text spell .prefixed)) ++ rest) =
      some (.node .intersection parts, rest) := by
  have filled : parts ≠ [] := List.ne_nil_of_length_pos (Nat.zero_lt_of_lt several)
  rw [read, separated_types each filled (by decide) rfl (by decide) (ends.tighten (by decide))
    (ends.not_mem_head? (by decide))]
  simp [joined_of_several _ _ several]

end

section
variable {cs rest : List Char} {x : Tree}

theorem read_prefixed_of_postfixed (found : read resolve depth .postfixed cs = some (x, rest)) :
    read resolve (depth + 1) .prefixed cs = some (x, rest) := by
  rw [read, found, Option.some_or]

theorem read_intersection_of_prefixed (found : read resolve depth .prefixed cs = some (x, rest))
    (stop : '&' ∉ rest.head?) : read resolve (depth + 1) .intersection cs = some (x, rest) := by
  rw [read, separated_single found (dropPrefix?_of_head stop)]
  rfl

theorem read_union_of_intersection (found : read resolve depth .intersection cs = some (x, rest))
    (stop : '|' ∉ rest.head?) : read resolve (depth + 1) .union cs = some (x, rest) := by
  rw [read, separated_single found (dropPrefix?_of_head stop)]
  rfl

/-- What binds tightly is read where less is needed. -/
theorem read_looser {own context : Binding} (looser : context.rank ≤ own.rank) {least : Nat}
    (found : ∀ depth, least ≤ depth → read resolve depth own cs = some (arrays x rest)) (ends : Ends context rest)
    (deep : least + 3 ≤ depth) : read resolve depth context cs = some (arrays x rest) := by
  by_cases tightest : context = .postfixed
  · subst tightest
    obtain rfl : own = .postfixed := by cases own <;> simp_all [Binding.rank]
    exact found depth (by omega)
  rw [arrays_of_ends (by cases context <;> simp_all [Binding.rank]) ends] at found ⊢
  have prefixed (strong : Binding.prefixed.rank ≤ own.rank) (depth : Nat) (deep : least + 1 ≤ depth) :
      read resolve depth .prefixed cs = some (x, rest) := by
    by_cases same : own = .prefixed
    · exact same ▸ found depth (by omega)
    · obtain rfl : own = .postfixed := by cases own <;> simp_all [Binding.rank]
      obtain ⟨depth, rfl⟩ := Nat.exists_eq_add_one.mpr (Nat.zero_lt_of_lt deep)
      exact read_prefixed_of_postfixed (found depth (by omega))
  have intersection (strong : Binding.intersection.rank ≤ own.rank) (stop : '&' ∉ rest.head?) (depth : Nat)
      (deep : least + 2 ≤ depth) : read resolve depth .intersection cs = some (x, rest) := by
    by_cases same : own = .intersection
    · exact same ▸ found depth (by omega)
    · have stronger : Binding.prefixed.rank ≤ own.rank := by cases own <;> simp_all [Binding.rank]
      obtain ⟨depth, rfl⟩ := Nat.exists_eq_add_one.mpr (Nat.zero_lt_of_lt deep)
      exact read_intersection_of_prefixed (prefixed stronger depth (by omega)) stop
  cases context with
  | postfixed => exact absurd rfl tightest
  | prefixed => exact prefixed looser depth (by omega)
  | intersection => exact intersection looser (ends.not_mem_head? (by decide)) depth (by omega)
  | union =>
    by_cases same : own = .union
    · exact same ▸ found depth (by omega)
    · have stronger : Binding.intersection.rank ≤ own.rank := by cases own <;> simp_all [Binding.rank]
      obtain ⟨depth, rfl⟩ := Nat.exists_eq_add_one.mpr (Nat.zero_lt_of_lt deep)
      have below := intersection stronger (ends.not_mem_head? (by decide)) depth (by omega)
      exact read_union_of_intersection below (ends.not_mem_head? (by decide))

end

/-! ### Signs before a type -/

theorem read_prefixed_of_mark {c : Char} (mark : isMark c) (other : c ∉ ['(', '\x7b', '?']) (cs : List Char) :
    read resolve (depth + 1) .prefixed (c :: cs) =
      operator (read resolve depth .union) (read resolve depth .prefixed) (c :: cs) := by
  rw [read, read_postfixed_of_mark mark other, Option.none_or]

section
variable {x : Tree} (reads : Reads resolve spell depth x) {rest : List Char} (ends : Ends .prefixed rest)
include reads ends

theorem read_negation :
    read resolve (depth + 1) .prefixed ('!' :: (x.text spell .prefixed ++ rest)) =
      some (.node .negation [x], rest) := by
  rw [read_prefixed_of_mark rfl (by decide), operator, reads .prefixed rest ends, arrays_of_ends (by decide) ends]
  rfl

theorem read_reference {lifetime : Option String} (each : ∀ name ∈ lifetime, isIdentifier name)
    (opens : Opens (x.text spell .prefixed))
    (bare : Reader.lifetime (x.text spell .prefixed ++ rest) = (none, x.text spell .prefixed ++ rest)) :
    read resolve (depth + 1) .prefixed
        ('&' :: (lifetime.elim [] (fun name => name.toList ++ [':']) ++ (x.text spell .prefixed ++ rest))) =
      some (.node (.reference lifetime) [x], rest) := by
  have told :
      Reader.lifetime (lifetime.elim [] (fun name => name.toList ++ [':']) ++ (x.text spell .prefixed ++ rest)) =
        (lifetime, x.text spell .prefixed ++ rest) := by
    cases lifetime with
    | none => exact bare
    | some name =>
      rw [Option.elim_some, List.append_assoc]
      exact lifetime_name (each name rfl) ((opens.append rest).not_mem_head? rfl)
  rw [read_prefixed_of_mark rfl (by decide), operator, told]
  dsimp only
  rw [reads .prefixed rest ends, arrays_of_ends (by decide) ends]
  rfl

end

/-! ### Callables -/

theorem isIdentifier_keyword (kind : CallableKind) : isIdentifier kind.keyword := by cases kind <;> decide

theorem head?_bracketed {before after : Char} {names : List String} {c : Char} {rest : List Char}
    (head : c ∈ (Layer.bracketed before after names ++ rest).head?) : c = before ∨ c ∈ rest.head? := by
  cases names with
  | nil => exact .inr head
  | cons name names => exact .inl (Option.some.inj head).symm

/-- After the keyword of a callable no name goes on. -/
theorem ends_keyword (captured lifetimeParams : List String) (cs : List Char) :
    Ends .postfixed (Layer.bracketed '<' '>' lifetimeParams ++ (Layer.bracketed '[' ']' captured ++ '(' :: cs)) := by
  intro c head
  rcases head?_bracketed head with rfl | later
  · decide
  · rcases head?_bracketed later with rfl | last
    · decide
    · obtain rfl := Option.some.inj last
      decide

theorem read_postfixed_keyword {kind : CallableKind} (reserved : resolve [kind.keyword] = none) {cs : List Char}
    (ends : Ends .postfixed cs) (depth : Nat) : read resolve depth .postfixed (kind.keyword.toList ++ cs) = none := by
  cases depth with
  | zero => rfl
  | succ depth =>
    have found : read resolve (depth + 1) .postfixed _ = _ :=
      read_postfixed_names (List.cons_ne_nil kind.keyword []) (by simpa using isIdentifier_keyword kind) ends depth
    rw [List.map_singleton, List.intercalate_singleton] at found
    rw [found, reserved, Option.map_none]

theorem find?_keyword (kind : CallableKind) :
    [CallableKind.function, .method, .property].find? (fun other => other.keyword = kind.keyword) = some kind := by
  cases kind <;> decide

theorem operator_keyword (type operand : Reader Tree) (kind : CallableKind) (cs : List Char) :
    operator type operand (kind.keyword.toList ++ cs) = callable type (kind.keyword.toList ++ cs) := by
  cases kind <;> rfl

theorem body_callable {kind : CallableKind} {captured lifetimeParams : List String}
    (only : kind = .method ∨ captured = [] ∧ lifetimeParams = []) (params : Nat) (texts : List (List Char)) :
    (Layer.callable kind params captured lifetimeParams).body spell texts =
      kind.keyword.toList ++ (Layer.bracketed '<' '>' lifetimeParams ++ (Layer.bracketed '[' ']' captured ++
        '(' :: ([','].intercalate (texts.take params) ++ ')' :: '-' :: '>' :: '(' ::
          ([','].intercalate (texts.drop params) ++ [')'])))) := by
  have shown :
      (if kind = .method then Layer.bracketed '<' '>' lifetimeParams ++ Layer.bracketed '[' ']' captured else []) =
        Layer.bracketed '<' '>' lifetimeParams ++ Layer.bracketed '[' ']' captured := by
    rcases only with rfl | ⟨rfl, rfl⟩
    · rfl
    · simp [Layer.bracketed]
  simp only [Layer.body, shown, List.append_assoc, List.cons_append, List.nil_append]

section
variable (each : ∀ x ∈ parts, Reads resolve spell depth x) (opens : ∀ x ∈ parts, Opens (x.text spell .union))
include each opens

/-- Types in parentheses, with commas between them. -/
theorem listing_types (rest : List Char) :
    listing [','] ')' (read resolve depth .union)
      ([','].intercalate (parts.map (Tree.text spell .union)) ++ ')' :: rest) = some (parts, rest) := by
  refine listing_intercalate (by simp) (forall₂_read each (by decide)) (fun _ => Ends.cons _ rfl (by decide))
    (fun _ => Ends.cons _ rfl (by decide)) (fun _ => dropPrefix?_of_head (by simp)) ?_ rest
  exact List.forall_mem_map.mpr fun x member => (opens x member).exists_ne rfl

theorem read_callable {kind : CallableKind} {params : Nat} (few : params ≤ parts.length)
    {captured lifetimeParams : List String} (identifiers : ∀ name ∈ captured ++ lifetimeParams, isIdentifier name)
    (only : kind = .method ∨ captured = [] ∧ lifetimeParams = []) (reserved : resolve [kind.keyword] = none)
    (rest : List Char) :
    read resolve (depth + 1) .prefixed
        ((Layer.callable kind params captured lifetimeParams).body spell (parts.map (Tree.text spell .union)) ++ rest) =
      some (.node (.callable kind params captured lifetimeParams) parts, rest) := by
  have ends := ends_keyword captured lifetimeParams
  obtain ⟨captures, lifetimes⟩ := List.forall_mem_append.mp identifiers
  have first (cs : List Char) :
      bracketed '<' '>' (Layer.bracketed '<' '>' lifetimeParams ++ (Layer.bracketed '[' ']' captured ++ '(' :: cs)) =
        some (lifetimeParams, Layer.bracketed '[' ']' captured ++ '(' :: cs) := by
    refine bracketed_names lifetimes rfl rfl (by decide) fun head => ?_
    rcases head?_bracketed head with same | same
    · exact absurd same (by decide)
    · exact absurd same (by simp)
  have second (cs : List Char) :
      bracketed '[' ']' (Layer.bracketed '[' ']' captured ++ '(' :: cs) = some (captured, '(' :: cs) :=
    bracketed_names captures rfl rfl (by decide) (by simp)
  have inputs (rest : List Char) := listing_types (fun x member => each x (List.mem_of_mem_take member))
    (fun x member => opens x (List.mem_of_mem_take (i := params) member)) rest
  have outputs := listing_types (fun x member => each x (List.mem_of_mem_drop member))
    (fun x member => opens x (List.mem_of_mem_drop (i := params) member)) rest
  simp only [List.map_take] at inputs
  rw [List.map_drop] at outputs
  simp only [body_callable only, List.append_assoc, List.cons_append, List.nil_append]
  rw [read, read_postfixed_keyword reserved (ends _), Option.none_or, operator_keyword, callable,
    word_append (isIdentifier_keyword kind) (ends _).atMark]
  simp [find?_keyword, first, second, inputs, outputs, List.dropPrefix?, few]

end

/-! ### Records -/

theorem finds_field {x : Tree} (reads : Reads resolve spell depth x) (opens : Opens (x.text spell .union))
    {name : String} (named : isIdentifier name) :
    Finds (field (read resolve depth .union)) AtMark (x.text spell .union ++ ' ' :: name.toList) (some (x, name)) := by
  intro rest ends
  have closed : Ends .union (' ' :: (name.toList ++ rest)) := Ends.cons _ rfl (by decide)
  have found := reads .union _ closed
  rw [arrays_of_ends (by decide) closed] at found
  rw [List.append_assoc, List.cons_append, field, dropPrefix?_of_head ((opens.append _).not_mem_head? rfl)]
  simp [found, List.dropPrefix?, word_append named ends]

theorem recordOf_fields {names : List String} (count : parts.length = names.length) (isOpen : Bool) :
    recordOf ((parts.zip names).map some ++ if isOpen then [none] else []) = .node (.record isOpen names) parts := by
  have trees : (parts.zip names).map Prod.fst = parts := List.map_fst_zip (Nat.le_of_eq count)
  have texts : (parts.zip names).map Prod.snd = names := List.map_snd_zip (Nat.le_of_eq count.symm)
  cases isOpen <;> simp [recordOf, List.filterMap_map, trees, texts]

theorem finds_dots (type : Reader Tree) (isOpen : Bool) :
    List.Forall₂ (Finds (field type) AtMark) (if isOpen then [['.', '.', '.']] else [])
      (if isOpen then [none] else []) := by
  cases isOpen with
  | true =>
    refine .cons (fun rest _ => ?_) .nil
    simp [field, List.dropPrefix?]
  | false => exact .nil

section
variable (each : ∀ x ∈ parts, Reads resolve spell depth x) (opens : ∀ x ∈ parts, Opens (x.text spell .union))
include each opens

theorem forall₂_field {names : List String} (count : parts.length = names.length)
    (named : ∀ name ∈ names, isIdentifier name) :
    List.Forall₂ (Finds (field (read resolve depth .union)) AtMark)
      ((parts.map (Tree.text spell .union)).zipWith (fun text name => text ++ ' ' :: name.toList) names)
      ((parts.zip names).map some) := by
  induction parts generalizing names with
  | nil => exact .nil
  | cons x parts ih =>
    cases names with
    | nil => simp at count
    | cons name names =>
      obtain ⟨reads, each⟩ := List.forall_mem_cons.mp each
      obtain ⟨begins, opens⟩ := List.forall_mem_cons.mp opens
      obtain ⟨here, named⟩ := List.forall_mem_cons.mp named
      exact .cons (finds_field reads begins here) (ih each opens (by simpa using count) named)

theorem read_record {isOpen : Bool} {names : List String} (count : parts.length = names.length)
    (named : ∀ name ∈ names, isIdentifier name) (rest : List Char) :
    read resolve (depth + 1) .postfixed
        ((Layer.record isOpen names).body spell (parts.map (Tree.text spell .union)) ++ rest) =
      some (arrays (.node (.record isOpen names) parts) rest) := by
  have fields := List.rel_append (forall₂_field each opens count named) (finds_dots _ isOpen)
  have filled : ∀ text ∈ (parts.map (Tree.text spell .union)).zipWith (fun text name => text ++ ' ' :: name.toList)
      names ++ (if isOpen then [['.', '.', '.']] else []), ∃ c ∈ text.head?, c ≠ '\x7d' := by
    refine List.forall_mem_append.mpr ⟨fun text member => ?_, ?_⟩
    · obtain ⟨i, inside, rfl⟩ := List.getElem_of_mem member
      rw [List.getElem_zipWith, List.getElem_map]
      exact ((opens _ (List.getElem_mem _)).append _).exists_ne rfl
    · cases isOpen <;> simp
  have all := listing_intercalate (List.cons_ne_nil ',' [' ']) fields (fun _ => AtMark.cons _ rfl)
    (fun _ => AtMark.cons _ rfl) (fun _ => dropPrefix?_of_head (by simp)) filled rest
  simp only [Layer.body, List.cons_append, List.append_assoc, List.nil_append]
  rw [read, atom, all]
  simp only [Option.bind_eq_bind, Option.bind_some, recordOf_fields count]

end

/-! ### All layers -/

/-- Parentheses make a type of any strength the tightest. -/
theorem read_enclosed {x : Tree} {text rest : List Char} {least : Nat}
    (found : ∀ depth, least ≤ depth → read resolve depth .union (text ++ ')' :: rest) = some (x, ')' :: rest))
    (depth : Nat) (deep : least + 1 ≤ depth) :
    read resolve depth .postfixed ('(' :: (text ++ ')' :: rest)) = some (arrays x rest) := by
  obtain ⟨depth, rfl⟩ := Nat.exists_eq_add_one.mpr (Nat.zero_lt_of_lt deep)
  simp [read, atom, found depth (by omega), List.dropPrefix?]

/-- The text of an operand does not look like a lifetime. -/
theorem lifetime_text {x : Tree} (readable : x.Readable resolve spell) {context : Binding}
    (strong : Binding.prefixed.rank ≤ context.rank) {rest : List Char} (ends : Ends .postfixed rest) :
    lifetime (x.text spell context ++ rest) = (none, x.text spell context ++ rest) := by
  induction readable generalizing context rest with
  | @node layer parts here below ih =>
    have bare : ':' ∉ rest.head? := ends.not_mem_head? (by decide)
    rw [Tree.text_node, Binding.enclose]
    split
    case isTrue => exact lifetime_of_mark rfl _
    case isFalse plain =>
    cases layer with
    | union | intersection =>
      simp only [Layer.binding, Binding.rank] at plain strong
      omega
    | array =>
      obtain ⟨x, rfl⟩ := List.length_eq_one_iff.mp here
      have follows : Ends .postfixed ('[' :: ']' :: rest) := Ends.cons _ rfl (by decide)
      simpa [Layer.body, Layer.partBinding] using ih x List.mem_cons_self (Nat.le_succ _) follows
    | record | reference | negation | unresolved => exact lifetime_of_mark rfl _
    | callable kind params captured lifetimeParams =>
      have follows (cs : List Char) := ends_keyword captured lifetimeParams cs
      have found (cs : List Char) := path_intercalate (List.cons_ne_nil kind.keyword [])
        (by simpa using isIdentifier_keyword kind) (follows cs).atMark
        (dropPrefix?_of_head ((follows cs).not_mem_head? (by decide)))
      simp only [List.map_singleton, List.intercalate_singleton] at found
      simp only [body_callable here.2.2, List.append_assoc, List.cons_append]
      exact lifetime_of_path (found _) ((follows _).not_mem_head? (by decide))
    | primitive | nominal | var =>
      obtain ⟨-, path, some, named, -, spelled⟩ := here
      have found := path_intercalate some named ends.atMark (dropPrefix?_of_head bare)
      rw [Layer.body, spelled]
      · exact lifetime_of_path found bare
      all_goals simp

/-- A layer is read where its own strength is needed, if its parts are. -/
theorem read_body {layer : Layer} (readable : (Tree.node layer parts).Readable resolve spell)
    (reserved : ∀ kind : CallableKind, resolve [kind.keyword] = none) {least : Nat}
    (each : ∀ x ∈ parts, ∀ depth, least ≤ depth → Reads resolve spell depth x) (deep : least + 1 ≤ depth)
    {rest : List Char} (ends : Ends layer.binding rest) :
    read resolve depth layer.binding (layer.body spell (parts.map (Tree.text spell layer.partBinding)) ++ rest) =
      some (arrays (.node layer parts) rest) := by
  obtain ⟨depth, rfl⟩ := Nat.exists_eq_add_one.mpr (Nat.zero_lt_of_lt deep)
  have reads : ∀ x ∈ parts, Reads resolve spell depth x := fun x member => each x member depth (by omega)
  rcases readable with ⟨here, below⟩
  have opens : ∀ x ∈ parts, Opens (x.text spell .union) := fun x member => (below x member).opens .union
  cases layer with
  | union => rw [arrays_of_ends (by decide) ends, ← read_union reads here ends]; rfl
  | intersection => rw [arrays_of_ends (by decide) ends, ← read_intersection reads here ends]; rfl
  | negation =>
    obtain ⟨x, rfl⟩ := List.length_eq_one_iff.mp here
    rw [arrays_of_ends (by decide) ends, ← read_negation (reads x List.mem_cons_self) ends]
    simp [Layer.body, Layer.partBinding, Layer.binding]
  | reference lifetime =>
    obtain ⟨x, rfl⟩ := List.length_eq_one_iff.mp here.1
    have ends : Ends .prefixed rest := ends
    have operand := below x List.mem_cons_self
    have bare := lifetime_text operand (Nat.le_refl _) (ends.tighten (by decide))
    rw [arrays_of_ends (by decide) ends,
      ← read_reference (reads x List.mem_cons_self) ends here.2 (operand.opens _) bare]
    simp [Layer.body, Layer.partBinding, Layer.binding]
  | callable kind params captured lifetimeParams =>
    have ends : Ends .prefixed rest := ends
    rw [arrays_of_ends (by decide) ends]
    exact read_callable reads opens here.1 here.2.1 here.2.2 (reserved kind) rest
  | record isOpen names => exact read_record reads opens here.1 here.2 rest
  | array =>
    obtain ⟨x, rfl⟩ := List.length_eq_one_iff.mp here
    have follows : Ends .postfixed ('[' :: ']' :: rest) := Ends.cons _ rfl (by decide)
    have inner := each x List.mem_cons_self (depth + 1) (by omega) .postfixed _ follows
    rw [arrays] at inner
    simpa [Layer.body, Layer.partBinding, Layer.binding] using inner
  | unresolved name =>
    obtain ⟨none, named⟩ := here
    obtain rfl := List.length_eq_zero_iff.mp none
    simp [Layer.body, Layer.binding, read, atom, word_append named ends.atMark]
  | primitive | nominal | var =>
    obtain ⟨none, path, some, named, entry, spelled⟩ := here
    obtain rfl := List.length_eq_zero_iff.mp none
    have found : read resolve (depth + 1) .postfixed _ = _ := read_postfixed_names some named ends depth
    rw [Layer.body, spelled]
    · rw [entry] at found
      exact found
    all_goals simp

/-- Every readable tree is found in its text, whatever follows that does not continue it. -/
theorem reads_of_readable (reserved : ∀ kind : CallableKind, resolve [kind.keyword] = none) {x : Tree}
    (readable : x.Readable resolve spell) (deep : 8 * x.height ≤ depth) : Reads resolve spell depth x := by
  induction x using Tree.induction generalizing depth with
  | node layer parts ih =>
    rw [Tree.height] at deep
    have below : ∀ x ∈ parts, x.Readable resolve spell := by
      rcases readable with ⟨-, below⟩
      exact below
    have each : ∀ x ∈ parts, ∀ depth, 8 * Tree.heights parts ≤ depth → Reads resolve spell depth x := by
      intro x member depth deep
      have low := Tree.height_le_heights member
      exact ih x member (below x member) (by omega)
    have body {depth : Nat} (deep : 8 * Tree.heights parts + 1 ≤ depth) {rest : List Char}
        (ends : Ends layer.binding rest) := read_body readable reserved each deep ends
    intro context rest ends
    rw [Tree.text_node, Binding.enclose]
    split
    case isTrue weak =>
      -- up to its parenthesis the body may be of any strength, and in parentheses it is of the greatest
      have closed : Ends .union (')' :: rest) := Ends.cons _ rfl (by decide)
      have inside (depth : Nat) (deep : 8 * Tree.heights parts + 4 ≤ depth) :=
        read_looser (Nat.zero_le _) (fun _ deep => body deep (closed.tighten (Nat.zero_le _))) closed deep
      rw [arrays_of_ends (by decide) closed] at inside
      have outside := read_enclosed inside
      simp only [List.cons_append, List.append_assoc, List.nil_append]
      exact read_looser (by cases context <;> decide) outside ends (by omega)
    case isFalse strong =>
      have looser := Nat.le_of_not_lt strong
      exact read_looser looser (fun _ deep => body deep (ends.tighten looser)) ends (by omega)

end

end

end Reader

/-- A tree is known by its text. -/
theorem Tree.Readable.text_inj {resolve : List String → Option Layer} {spell : Layer → List Char}
    (reserved : ∀ kind : CallableKind, resolve [kind.keyword] = none) {x y : Tree} (first : x.Readable resolve spell)
    (second : y.Readable resolve spell) (same : x.text spell .union = y.text spell .union) : x = y := by
  have ends : Ends .union [] := by
    intro c head
    simp at head
  have left := Reader.reads_of_readable reserved first (Nat.le_add_right _ (8 * y.height)) .union [] ends
  have right := Reader.reads_of_readable reserved second (Nat.le_add_left _ (8 * x.height)) .union [] ends
  rw [same, right] at left
  exact (Prod.mk.inj (Option.some.inj left)).1.symm

end Narrowing
