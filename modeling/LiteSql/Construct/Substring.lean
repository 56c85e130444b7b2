import LiteSql.Arguments
import LiteSql.Pattern.Match

/-! Substrings, with their arguments in a list or after the words FROM and FOR. -/

namespace LiteSql.Substring

def fromFor : Pattern :=
  .all [.capture "text" (.few fun _ => true), .gap, "FROM", .gap,
    .capture "position" (.seq (.one fun _ => true) (.few fun _ => true)),
    .optional (.all [.gap, "FOR", .gap, .capture "length" (.someOf fun _ => true)]),
    .atEnd]

def arguments? : List Text → Option (List Text)
  | [argument] =>
    (fromFor.matchStart? argument).map fun m =>
      [m.captured? "text", m.captured? "position", m.captured? "length"].filterMap id
  | arguments => some arguments

def convert (arguments : List Text) : Option Text := do
  let arguments ← arguments? arguments
  if arguments.length = 2 ∨ arguments.length = 3 then
    some ("SUBSTR(" ++ joinArguments arguments ++ ")")
  else none

end LiteSql.Substring
