/-!
Selectors: what is left to test of a value of one type before it counts as a
value of another. The smart constructors collapse a node whose children agree.
-/

namespace Narrowing

/-- Which values of a source type belong to a target. -/
inductive Selector where
  /-- All of them. -/
  | top
  /-- None of them. -/
  | bottom
  /-- Those whose elements pass. -/
  | array (element : Selector)
  /-- Those whose fields pass, in order. -/
  | record (items : List Selector)
  /-- Those that pass for their alternative of the source. -/
  | union (items : List Selector)
deriving Repr, Inhabited

namespace Selector

mutual

/-- Whether two selectors are the same tree. -/
def same : Selector → Selector → Bool
  | .top, .top => true
  | .bottom, .bottom => true
  | .array a, .array b => same a b
  | .record as, .record bs => sameAll as bs
  | .union as, .union bs => sameAll as bs
  | _, _ => false

def sameAll : List Selector → List Selector → Bool
  | [], [] => true
  | a :: as, b :: bs => same a b && sameAll as bs
  | _, _ => false

end

mutual

theorem same_iff : ∀ s t : Selector, same s t = true ↔ s = t
  | .top, t => by cases t <;> simp [same]
  | .bottom, t => by cases t <;> simp [same]
  | .array a, t => by cases t <;> simp [same, same_iff a]
  | .record as, t => by cases t <;> simp [same, sameAll_iff as]
  | .union as, t => by cases t <;> simp [same, sameAll_iff as]

theorem sameAll_iff : ∀ as bs : List Selector, sameAll as bs = true ↔ as = bs
  | [], bs => by cases bs <;> simp [sameAll]
  | a :: as, bs => by cases bs <;> simp [sameAll, same_iff a, sameAll_iff as]

end

instance : DecidableEq Selector := fun s t => decidable_of_iff _ (same_iff s t)

def isTop : Selector → Bool
  | .top => true
  | _ => false

def isBottom : Selector → Bool
  | .bottom => true
  | _ => false

/-- Neither top nor bottom, so that a value must be tested when the program runs. -/
def isStructured (s : Selector) : Bool := !s.isTop && !s.isBottom

def children : Selector → List Selector
  | .top | .bottom => []
  | .array element => [element]
  | .record items | .union items => items

/-- The selector of an array from that of its elements. -/
def arrayOf : Selector → Selector
  | .top => .top
  | .bottom => .bottom
  | element => .array element

/-- The selector of a union from those of its alternatives; of no alternatives it is bottom. -/
def unionOf (items : List Selector) : Selector :=
  if items.all isBottom then .bottom else if items.all isTop then .top else .union items

/-- The selector of a record from those of its fields; of no fields it is top. -/
def recordOf (items : List Selector) : Selector :=
  if items.all isTop then .top else if items.all isBottom then .bottom else .record items

/-- Top or bottom as a condition holds. -/
def ofBool : Bool → Selector
  | true => .top
  | false => .bottom

end Selector

end Narrowing
