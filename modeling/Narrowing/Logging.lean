import Narrowing.Text.Blank

/-!
Whether the events of a trace are written out, and in what layout. What a filter lets
through is left to the outer layer, which reads it; without a filter nothing is written.
-/

namespace Narrowing.Logging

/-- How events are laid out. -/
inductive Layout where
  | text
  | tree
  | json
deriving DecidableEq, Repr, Inhabited

namespace Layout

def keyword : Layout → String
  | .text => "text"
  | .tree => "tree"
  | .json => "json"

/-- The layout with a name, in any case and between blanks; every other name means plain text. -/
def ofName (name : String) : Layout :=
  let name := String.ofList ((Text.trim name.toList).map Char.toLower)
  if name = "tree" then .tree else if name = "json" then .json else .text

end Layout

/-- The settings that a program is started with. -/
structure Settings where
  /-- The program's own filter. -/
  filter : Option String
  /-- The filter shared with other programs, used in place of a missing one of its own. -/
  sharedFilter : Option String
  layout : Option String
deriving DecidableEq, Repr, Inhabited

namespace Settings

/-- The filter in force. -/
def filter? (s : Settings) : Option String := s.filter <|> s.sharedFilter

/-- The layout of the events that some filters let through, if they are written. -/
def layout? (s : Settings) (passes : (filter : String) → Bool) : Option Layout :=
  if s.filter?.any passes then some (.ofName (s.layout.getD "")) else none

end Settings

end Narrowing.Logging
