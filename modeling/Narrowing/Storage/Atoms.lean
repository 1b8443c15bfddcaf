import Narrowing.Name
import Narrowing.Storage.Ledger

/-!
Names as they are stored. Texts are kept in lanes, and the name of a text is the word
for its place, its atom. The empty text has the first place of the first lane, so that
its atom is 0; it is found without looking. A text for which its lane has no place is
given that atom, too.
-/

namespace Narrowing

/-- The texts that have atoms. -/
structure AtomTable where
  lanes : Lanes String UInt32

namespace AtomTable

/-- The atom of the empty text. -/
def blank : UInt32 := 0

/-- The table that knows the empty text only. -/
def empty : AtomTable := ⟨fun j => if j = 0 then Ledger.empty.append "" blank else .empty⟩

instance : Inhabited AtomTable := ⟨empty⟩

/-- How many texts are known, the empty one included. -/
def size (t : AtomTable) : Nat := t.lanes.size

/-- No text but the empty one is known. -/
def isEmpty (t : AtomTable) : Bool := t.size ≤ 1

/-- The text of a known atom. -/
def text? (t : AtomTable) (atom : UInt32) : Option String := t.lanes.get? atom

/-- The text of an atom, empty for an unknown one. -/
def text (t : AtomTable) (atom : UInt32) : String := (t.text? atom).getD ""

section
variable (hash : String → UInt64)

/-- The atom of a text, which is entered if it is new and there is a place for it. -/
def intern (t : AtomTable) (text : String) : UInt32 × AtomTable :=
  if text = "" then (blank, t)
  else
    match t.lanes.enter Lanes.pack (Lanes.assigned (hash text)) text with
    | .ok (atom, lanes) => (atom, ⟨lanes⟩)
    | .error _ => (blank, t)

/-- The atoms of several texts, entered from left to right. -/
def internAll (t : AtomTable) : List String → List UInt32 × AtomTable
  | [] => ([], t)
  | text :: rest =>
    let (atom, t) := t.intern hash text
    let (atoms, t) := t.internAll rest
    (atom :: atoms, t)

/-- The table with the frequent texts entered. -/
def internFrequent (t : AtomTable) : AtomTable := (t.internAll hash NameTable.frequent).2

end

end AtomTable

end Narrowing
