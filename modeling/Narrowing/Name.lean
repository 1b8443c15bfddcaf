import Narrowing.Pool

/-!
Names: texts exchanged for tokens that compare by number. The blank name 0
stands for the empty text and is known to every table; other texts are numbered
from 2³² in the order of their first entry, so the only 32-bit number that is a
name is the blank. A text and its name determine each other (`text?_intern`,
`intern_of_text?`), and a name keeps its text (`text?_intern_of_text?`).
-/

namespace Narrowing

/-- A token for a text. -/
structure Name where
  val : Nat
deriving DecidableEq, Repr, Inhabited

namespace Name

/-- The name of the empty text. -/
def blank : Name := ⟨0⟩

/-- The least number of a name that is not blank. -/
def first : Nat := 0x100000000

end Name

/-- The texts that have names. -/
structure NameTable where
  texts : Pool String
  filled : ∀ i, texts.get? i ≠ some ""

namespace NameTable

/-- The table that knows the blank name only. -/
def empty : NameTable := ⟨.empty, by simp [Pool.get?, Pool.empty]⟩

instance : Inhabited NameTable := ⟨empty⟩

/-- How many names are known, the blank one included. -/
def size (t : NameTable) : Nat := t.texts.size + 1

/-- No name but the blank one is known. -/
def isEmpty (t : NameTable) : Bool := t.size ≤ 1

/-- The text of a known name. -/
def text? (t : NameTable) (n : Name) : Option String :=
  if n = .blank then some ""
  else if n.val < Name.first then none
  else t.texts.get? (n.val - Name.first)

/-- The text of a name, empty for an unknown one. -/
def text (t : NameTable) (n : Name) : String := (t.text? n).getD ""

/-- The name of a text, which is entered if it is new. -/
def intern (t : NameTable) (s : String) : Name × NameTable :=
  if blank : s = "" then (.blank, t)
  else
    let entry := t.texts.intern s
    (⟨Name.first + entry.1⟩, ⟨entry.2, fun i held =>
      (Pool.get?_intern_eq_some held).elim (t.filled i) (fun same => blank same.symm)⟩)

theorem text?_eq_get? (t : NameTable) (i : Nat) : t.text? ⟨Name.first + i⟩ = t.texts.get? i := by
  have far : Name.first ≠ 0 := by decide
  have named : (⟨Name.first + i⟩ : Name) ≠ .blank := by
    intro same
    have := congrArg Name.val same
    simp only [Name.blank] at this
    omega
  have outside : ¬ Name.first + i < Name.first := by omega
  simp [text?, named, outside]

theorem text?_intern (t : NameTable) (s : String) : (t.intern s).2.text? (t.intern s).1 = some s := by
  unfold intern
  split
  case isTrue blank => simp [text?, blank]
  case isFalse => rw [text?_eq_get?, Pool.get?_intern]

theorem intern_of_text? {t : NameTable} {n : Name} {s : String} (known : t.text? n = some s) :
    t.intern s = (n, t) := by
  unfold text? at known
  split at known
  case isTrue blank =>
    obtain rfl := Option.some.inj known
    simp [intern, blank]
  case isFalse named =>
    split at known
    · exact absurd known (by simp)
    · rename_i far
      have filled : s ≠ "" := fun blank => t.filled _ (blank ▸ known)
      obtain ⟨val⟩ := n
      simp only [intern, filled, ↓reduceDIte, Pool.intern_of_get? known]
      simp only [Nat.not_lt] at far
      simp [Nat.add_sub_cancel' far]

/-- Different names have different texts. -/
theorem text?_inj {t : NameTable} {m n : Name} {s : String} (hm : t.text? m = some s) (hn : t.text? n = some s) :
    m = n :=
  congrArg Prod.fst ((intern_of_text? hm).symm.trans (intern_of_text? hn))

theorem text?_intern_of_text? {t : NameTable} {n : Name} {s : String} (r : String) (known : t.text? n = some s) :
    (t.intern r).2.text? n = some s := by
  unfold intern
  split
  case isTrue => exact known
  case isFalse =>
    unfold text? at known ⊢
    split
    case isTrue blank => simpa [blank] using known
    case isFalse named =>
      split
      case isTrue near => simp [named, near] at known
      case isFalse far =>
        simp only [named, far, if_false] at known
        exact Pool.get?_intern_of_get? r known

/-- The names of several texts, entered from left to right. -/
def internAll (t : NameTable) : List String → List Name × NameTable
  | [] => ([], t)
  | s :: rest =>
    let (n, t) := t.intern s
    let (ns, t) := t.internAll rest
    (n :: ns, t)

/-- Keywords and frequent identifiers. -/
def frequent : List String :=
  ["void", "null", "bool", "byte", "int", "any", "function", "method", "property", "*", "this",
    "type", "where", "is", "import", "export", "public", "private", "native", "x", "y", "z", "val",
    "value", "next", "data", "items", "length", "head", "tail", "left", "right", "key", "T", "S", "U"]

/-- The table with the frequent texts entered. -/
def internFrequent (t : NameTable) : NameTable := (t.internAll frequent).2

end NameTable

end Narrowing
