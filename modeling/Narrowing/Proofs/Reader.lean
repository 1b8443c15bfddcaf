import Narrowing.Proofs.WrittenTree

/-!
Readers. A reader takes something off the front of a text and leaves the rest. Here are
those that types are read with: words up to the next sign, items with a sign between
them, lists in brackets and names of several segments. Each of them finds again what was
written, whatever follows it, if this cannot be taken for more of the same.
-/

namespace Narrowing

/-! ### Names -/

/-- The signs that are used to write types. -/
def isMark (c : Char) : Bool :=
  c ∈ [' ', '!', '&', '(', ')', ',', '-', '.', ':', '<', '>', '?', '[', ']', '\x7b', '|', '\x7d']

/-- Whether a text can stand as a name: it is not empty and has no signs in it. -/
def isIdentifier (text : String) : Bool := text ≠ "" && text.toList.all fun c => !isMark c

/-- Letters, digits and underscores are no signs, so what is made of them can stand as a name. -/
theorem isIdentifier_of_alphanum {text : String} (filled : text ≠ "")
    (plain : ∀ c ∈ text.toList, c.isAlphanum ∨ c = '_') : isIdentifier text := by
  have other : ∀ c, isMark c → ¬ (c.isAlphanum ∨ c = '_') := by
    intro c mark
    simp only [isMark, List.mem_cons, List.not_mem_nil, or_false, decide_eq_true_eq] at mark
    rcases mark with rfl | rfl | rfl | rfl | rfl | rfl | rfl | rfl | rfl | rfl | rfl | rfl | rfl | rfl | rfl |
      rfl | rfl <;> decide
  simp only [isIdentifier, Bool.and_eq_true, decide_eq_true_eq, List.all_eq_true, Bool.not_eq_true']
  refine ⟨filled, fun c member => ?_⟩
  by_contra mark
  exact other c (by simpa using mark) (plain c member)

/-- A text begins with a sign, or is at its end. -/
def AtMark (cs : List Char) : Prop := ∀ c ∈ cs.head?, isMark c

theorem AtMark.cons {c : Char} (rest : List Char) (mark : isMark c) : AtMark (c :: rest) := by
  intro c' same
  obtain rfl := Option.some.inj same
  exact mark

/-- What the text of a type can begin with. -/
def isOpening (c : Char) : Bool := !isMark c || c ∈ ['(', '\x7b', '?', '&', '!']

/-- A text begins with what opens a type. -/
def Opens (cs : List Char) : Prop := ∃ c ∈ cs.head?, isOpening c

namespace Opens

theorem cons {c : Char} (opening : isOpening c) (cs : List Char) : Opens (c :: cs) := ⟨c, rfl, opening⟩

theorem append {cs : List Char} (opens : Opens cs) (more : List Char) : Opens (cs ++ more) := by
  obtain ⟨c, head, opening⟩ := opens
  obtain ⟨cs, rfl⟩ := List.head?_eq_some_iff.mp head
  exact cons opening (cs ++ more)

theorem exists_ne {cs : List Char} (opens : Opens cs) {c : Char} (other : isOpening c = false) :
    ∃ a ∈ cs.head?, a ≠ c := by
  obtain ⟨a, head, opening⟩ := opens
  refine ⟨a, head, ?_⟩
  rintro rfl
  simp [other] at opening

theorem not_mem_head? {cs : List Char} (opens : Opens cs) {c : Char} (other : isOpening c = false) : c ∉ cs.head? := by
  obtain ⟨a, head, different⟩ := opens.exists_ne other
  rintro same
  exact different (Option.some.inj (head.symm.trans same))

end Opens

theorem opens_name {name : String} (named : isIdentifier name) : Opens name.toList := by
  simp only [isIdentifier, Bool.and_eq_true, decide_eq_true_eq, List.all_eq_true] at named
  have filled : name.toList ≠ [] := by simpa using named.1
  obtain ⟨c, cs, same⟩ := List.exists_cons_of_ne_nil filled
  have plain := named.2 c (same ▸ List.mem_cons_self)
  rw [same]
  exact Opens.cons (by simp [isOpening, plain]) cs

/-- What takes something off the front of a text. -/
abbrev Reader (α : Type) := List Char → Option (α × List Char)

namespace Reader

/-- A reader finds an item in a text, before whatever can follow it. -/
def Finds {α : Type} (item : Reader α) (follows : List Char → Prop) (text : List Char) (a : α) : Prop :=
  ∀ rest, follows rest → item (text ++ rest) = some (a, rest)

/-- The text up to the next sign. -/
def word : Reader String := fun cs =>
  let name := cs.takeWhile fun c => !isMark c
  if name = [] then none else some (String.ofList name, cs.drop name.length)

/-- Items with a sign between them, no more than given. -/
def chain {α : Type} (sign : List Char) (item : Reader α) : Nat → Reader (List α)
  | 0, _ => none
  | n + 1, cs => do
    let (a, cs) ← item cs
    match cs.dropPrefix? sign with
    | none => some ([a], cs)
    | some cs =>
      let (as, cs) ← chain sign item n cs
      some (a :: as, cs)

/-- Items with a sign between them, as many as there are. -/
def separated {α : Type} (sign : List Char) (item : Reader α) : Reader (List α) := fun cs =>
  chain sign item (cs.length + 1) cs

/-- Items with a sign between them, up to a closing bracket. -/
def listing {α : Type} (sign : List Char) (close : Char) (item : Reader α) : Reader (List α) := fun cs =>
  match cs.dropPrefix? [close] with
  | some cs => some ([], cs)
  | none => do
    let (as, cs) ← separated sign item cs
    let cs ← cs.dropPrefix? [close]
    some (as, cs)

/-- The segments of a name. -/
def path : Reader (List String) := separated [':', ':'] word

/-- Names in brackets; none if the bracket is not there. -/
def bracketed (before after : Char) : Reader (List String) := fun cs =>
  match cs.dropPrefix? [before] with
  | none => some ([], cs)
  | some cs => listing [','] after word cs

/-- The lifetime of a reference, told from a segment of a name by what follows its colon. -/
def lifetime (cs : List Char) : Option String × List Char :=
  match path cs with
  | some ([name], ':' :: rest) => (some name, rest)
  | _ => (none, cs)

/-! ### Words and lists -/

theorem dropPrefix?_append (sign cs : List Char) : (sign ++ cs).dropPrefix? sign = some cs :=
  List.dropPrefix?_eq_some_iff.mpr ⟨sign, rfl, beq_self_eq_true _⟩

theorem dropPrefix?_of_head {c : Char} {more cs : List Char} (other : c ∉ cs.head?) :
    cs.dropPrefix? (c :: more) = none := by
  cases cs with
  | nil => rfl
  | cons a cs =>
    have different : a ≠ c := by simpa [eq_comm] using other
    simp [List.dropPrefix?, different]

theorem word_append {name : String} (named : isIdentifier name) {rest : List Char} (ends : AtMark rest) :
    word (name.toList ++ rest) = some (name, rest) := by
  simp only [isIdentifier, Bool.and_eq_true, decide_eq_true_eq, List.all_eq_true] at named
  have stop : rest.takeWhile (fun c => !isMark c) = [] := by
    cases rest with
    | nil => rfl
    | cons c rest => simp [ends c rfl]
  have taken : (name.toList ++ rest).takeWhile (fun c => !isMark c) = name.toList := by
    rw [List.takeWhile_append_of_pos named.2, stop, List.append_nil]
  have filled : name.toList ≠ [] := by simpa using named.1
  simp only [word, taken, if_neg filled, List.drop_left, String.ofList_toList]

theorem word_of_mark {c : Char} (mark : isMark c) (cs : List Char) : word (c :: cs) = none := by
  simp [word, mark]

section
variable {α : Type} {sign : List Char} {item : Reader α} {follows : List Char → Prop} {texts : List (List Char)}
  {items : List α}

/-- Items that are read one by one are read together, if the sign and what follows the last end each of them. -/
theorem chain_intercalate (each : List.Forall₂ (Finds item follows) texts items) (some : items ≠ [])
    (between : ∀ rest, follows (sign ++ rest)) {rest : List Char} (last : follows rest)
    (stop : rest.dropPrefix? sign = none) {n : Nat} (enough : items.length ≤ n) :
    chain sign item n (sign.intercalate texts ++ rest) = .some (items, rest) := by
  induction each generalizing n with
  | nil => exact absurd rfl some
  | @cons text a texts items first others ih =>
    obtain ⟨n, rfl⟩ := Nat.exists_eq_add_one.mpr (Nat.zero_lt_of_lt enough)
    cases others with
    | nil => simp [chain, first rest last, stop]
    | @cons text' a' texts items first' others =>
      have more := ih (by simp) (by simpa using enough)
      rw [List.intercalate_cons_cons, List.append_assoc, List.append_assoc, chain, first _ (between _)]
      simp [dropPrefix?_append, more]

theorem exists_intercalate_cons (sign text : List Char) (texts : List (List Char)) :
    ∃ more, sign.intercalate (text :: texts) = text ++ more := by
  cases texts with
  | nil => exact ⟨[], by simp⟩
  | cons text' texts => exact ⟨_, by rw [List.intercalate_cons_cons, List.append_assoc]⟩

theorem length_le_intercalate (sign : List Char) (sign_ne : sign ≠ []) (texts : List (List Char)) :
    texts.length ≤ (sign.intercalate texts).length + 1 := by
  induction texts with
  | nil => simp
  | cons text texts ih =>
    cases texts with
    | nil => simp
    | cons text' texts =>
      have long := List.length_pos_iff.mpr sign_ne
      rw [List.intercalate_cons_cons]
      simp only [List.length_cons, List.length_append] at ih ⊢
      omega

theorem separated_intercalate (each : List.Forall₂ (Finds item follows) texts items) (some : items ≠ [])
    (between : ∀ rest, follows (sign ++ rest)) {rest : List Char} (last : follows rest)
    (stop : rest.dropPrefix? sign = none) (sign_ne : sign ≠ []) :
    separated sign item (sign.intercalate texts ++ rest) = .some (items, rest) := by
  refine chain_intercalate each some between last stop ?_
  have few := length_le_intercalate sign sign_ne texts
  rw [each.length_eq] at few
  rw [List.length_append]
  omega

/-- Items between brackets are read if none of them begins with the closing bracket. -/
theorem listing_intercalate {close : Char} (sign_ne : sign ≠ [])
    (each : List.Forall₂ (Finds item follows) texts items) (between : ∀ rest, follows (sign ++ rest))
    (last : ∀ rest, follows (close :: rest)) (stop : ∀ rest, (close :: rest).dropPrefix? sign = none)
    (filled : ∀ text ∈ texts, ∃ c ∈ text.head?, c ≠ close) (rest : List Char) :
    listing sign close item (sign.intercalate texts ++ close :: rest) = some (items, rest) := by
  cases each with
  | nil => simp [listing, List.dropPrefix?]
  | @cons text a texts items first others =>
    obtain ⟨c, head, other⟩ := filled text List.mem_cons_self
    have further : close ∉ (sign.intercalate (text :: texts) ++ close :: rest).head? := by
      obtain ⟨more, begins⟩ := exists_intercalate_cons sign text texts
      obtain ⟨cs, rfl⟩ := List.head?_eq_some_iff.mp head
      simpa [begins] using other
    have all := separated_intercalate (.cons first others) (by simp) between (last rest) (stop rest) sign_ne
    rw [listing, dropPrefix?_of_head further, all]
    simp [List.dropPrefix?]

end

theorem separated_single {α : Type} {sign cs rest : List Char} {item : Reader α} {a : α}
    (found : item cs = some (a, rest)) (stop : rest.dropPrefix? sign = none) :
    separated sign item cs = some ([a], rest) := by
  simp [separated, chain, found, stop]

/-- Names with a sign between them are the names that are written. -/
theorem forall₂_word {names : List String} (named : ∀ name ∈ names, isIdentifier name) :
    List.Forall₂ (Finds word AtMark) (names.map String.toList) names := by
  rw [List.forall₂_map_left_iff, List.forall₂_same]
  exact fun name member rest ends => word_append (named name member) ends

/-! ### Names of several segments -/

/-- A name is read to its end. -/
theorem path_intercalate {names : List String} (some : names ≠ []) (named : ∀ name ∈ names, isIdentifier name)
    {rest : List Char} (ends : AtMark rest) (stop : rest.dropPrefix? [':', ':'] = none) :
    path ([':', ':'].intercalate (names.map String.toList) ++ rest) = .some (names, rest) :=
  separated_intercalate (forall₂_word named) some (fun _ => AtMark.cons _ rfl) ends stop (by simp)

theorem path_of_mark {c : Char} (mark : isMark c) (cs : List Char) : path (c :: cs) = none := by
  simp [path, separated, chain, word_of_mark mark]

/-! ### Names of lifetimes -/

theorem lifetime_of_mark {c : Char} (mark : isMark c) (cs : List Char) : lifetime (c :: cs) = (none, c :: cs) := by
  rw [lifetime, path_of_mark mark]

theorem lifetime_of_path {cs rest : List Char} {names : List String} (found : path cs = some (names, rest))
    (ends : ':' ∉ rest.head?) : lifetime cs = (none, cs) := by
  unfold lifetime
  split
  case h_1 same =>
    obtain ⟨-, rfl⟩ := Prod.mk.inj (Option.some.inj (found.symm.trans same))
    simp at ends
  case h_2 => rfl

theorem lifetime_name {name : String} (named : isIdentifier name) {rest : List Char} (ends : ':' ∉ rest.head?) :
    lifetime (name.toList ++ ':' :: rest) = (some name, rest) := by
  have stop : (':' :: rest).dropPrefix? [':', ':'] = none := by
    rw [List.dropPrefix?, if_pos (beq_self_eq_true _)]
    exact dropPrefix?_of_head ends
  have found := path_intercalate (List.cons_ne_nil name []) (by simpa using named) (AtMark.cons rest rfl) stop
  rw [List.map_singleton, List.intercalate_singleton] at found
  simp only [lifetime, found]

theorem bracketed_names {before after : Char} {names : List String} (named : ∀ name ∈ names, isIdentifier name)
    (mark : isMark after) (other : isOpening after = false) (close : after ≠ ',') {rest : List Char}
    (ends : before ∉ rest.head?) :
    bracketed before after (Layer.bracketed before after names ++ rest) = some (names, rest) := by
  cases names with
  | nil => rw [Layer.bracketed, List.nil_append, bracketed, dropPrefix?_of_head ends]
  | cons name names =>
    have filled : ∀ text ∈ (name :: names).map String.toList, ∃ c ∈ text.head?, c ≠ after :=
      List.forall_mem_map.mpr fun name member => (opens_name (named name member)).exists_ne other
    have all := listing_intercalate (List.cons_ne_nil ',' []) (forall₂_word named) (fun _ => AtMark.cons _ rfl)
      (fun _ => AtMark.cons _ mark) (fun rest => dropPrefix?_of_head (by simpa using close)) filled rest
    simpa [Layer.bracketed, bracketed, List.dropPrefix?] using all

end Reader

theorem opens_intercalate {sign : List Char} {texts : List (List Char)} (some : texts ≠ [])
    (each : ∀ text ∈ texts, Opens text) : Opens (sign.intercalate texts) := by
  obtain ⟨text, texts, rfl⟩ := List.exists_cons_of_ne_nil some
  obtain ⟨more, begins⟩ := Reader.exists_intercalate_cons sign text texts
  rw [begins]
  exact (each text List.mem_cons_self).append more

end Narrowing
