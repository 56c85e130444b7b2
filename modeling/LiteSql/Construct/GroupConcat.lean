import LiteSql.Arguments
import LiteSql.Comment
import LiteSql.Pattern.Match

/-! Group concatenation. MySQL names the text between the values in a SEPARATOR clause at the end,
SQLite in a second argument before the ordering. -/

namespace LiteSql.GroupConcat

def function : Text := "GROUP_CONCAT"

def separator : Pattern := .all [.boundary, "SEPARATOR", .boundary]

def orderBy : Pattern := .all [.boundary, "ORDER", .gap, "BY", .boundary]

def distinct : Pattern := .all ["DISTINCT", .boundary]

/-- The values and the text between them, if the arguments end in a SEPARATOR clause with something
on either side. -/
def splitSeparator? (arguments : List Text) : Option (Text × Text) := do
  let body := joinArguments arguments
  let clause ← separator.topLevel? body
  let values := trimEnd (body.take clause.start)
  let delimiter := trim (body.drop clause.stop)
  if values.isEmpty || delimiter.isEmpty then none else some (values, delimiter)

/-- Moves a SEPARATOR clause into a second argument. Distinct values cannot have a second argument
in SQLite, so such a call has no answer. -/
def convert (arguments : List Text) : Option Text := do
  let (values, delimiter) ← splitSeparator? arguments
  if (distinct.matchStart? values).isSome then none
  else match orderBy.topLevel? values with
    | none => some ("GROUP_CONCAT(" ++ values ++ ", " ++ delimiter ++ ")")
    | some order =>
      some ("GROUP_CONCAT(" ++ trimEnd (values.take order.start) ++ ", " ++ delimiter ++ " " ++
        values.drop order.start ++ ")")

def qualifiedName : Pattern :=
  .all [.capture "owner" (.one isWordChar), .blanks, ".", .blanks,
    .capture "member" (.one isWordChar)]

def tightenNames (s : Text) : Text :=
  qualifiedName.replaceCode
    (fun m => (m.captured? "owner").getD [] ++ '.' :: (m.captured? "member").getD []) s

def normalize (arguments : List Text) : Text :=
  "GROUP_CONCAT(" ++ joinArguments (arguments.map fun s => tightenNames (onOneLine s)) ++ ")"

end LiteSql.GroupConcat
