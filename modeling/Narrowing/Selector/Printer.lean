import Narrowing.Selector.Basic

/-!
The two written forms of a selector: the bracketed text, `{top, [(top|bottom)]}`,
and the tagged one, `{"Array":{"Union":["Top","Bottom"]}}`.
-/

namespace Narrowing.Selector

mutual

/-- The characters of the bracketed text. -/
def chars : Selector → List Char
  | .top => ['t', 'o', 'p']
  | .bottom => ['b', 'o', 't', 't', 'o', 'm']
  | .array element => '[' :: chars element ++ [']']
  | .record items => '\x7b' :: charsJoined [',', ' '] items ++ ['\x7d']
  | .union items => '(' :: charsJoined ['|'] items ++ [')']

/-- The characters of several selectors with a separator between them. -/
def charsJoined (separator : List Char) : List Selector → List Char
  | [] => []
  | [s] => chars s
  | s :: rest => chars s ++ separator ++ charsJoined separator rest

end

/-- The bracketed text. -/
def text (s : Selector) : String := String.ofList s.chars

mutual

/-- The tagged text. -/
def tagged : Selector → String
  | .top => "\"Top\""
  | .bottom => "\"Bottom\""
  | .array element => "\x7b\"Array\":" ++ tagged element ++ "\x7d"
  | .record items => "\x7b\"Record\":[" ++ taggedJoined items ++ "]\x7d"
  | .union items => "\x7b\"Union\":[" ++ taggedJoined items ++ "]\x7d"

/-- Tagged texts with commas between them. -/
def taggedJoined : List Selector → String
  | [] => ""
  | [s] => tagged s
  | s :: rest => tagged s ++ "," ++ taggedJoined rest

end

end Narrowing.Selector
