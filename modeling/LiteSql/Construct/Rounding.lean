import LiteSql.Pattern.Match

/-! Rounding to an integer. SQLite truncates toward zero, so the value is compared with its
truncation. The comparison repeats the value; a random value is therefore drawn once in a subquery,
whose OFFSET keeps SQLite from putting the draw back in each place. -/

namespace LiteSql.Rounding

inductive Direction
  | up
  | down
  deriving DecidableEq, Repr

def randomCall : Pattern := .all [.boundary, "RAND", .optional "OM", .blanks, "("]

def isRandom (expression : Text) : Bool := randomCall.startsInCode expression

def round (direction : Direction) (value : Text) : Text :=
  let truncated : Text := "CAST(" ++ value ++ " AS INTEGER)"
  match direction with
  | .up => "(" ++ truncated ++ " + (" ++ value ++ " > " ++ truncated ++ "))"
  | .down => "(" ++ truncated ++ " - (" ++ value ++ " < " ++ truncated ++ "))"

theorem round_up (value : Text) : round .up value = "(" ++ ("CAST(" ++ value ++ " AS INTEGER)") ++
    " + (" ++ value ++
    " > " ++ ("CAST(" ++ value ++ " AS INTEGER)") ++ "))" := rfl

theorem round_down (value : Text) : round .down value =
    "(" ++ ("CAST(" ++ value ++ " AS INTEGER)") ++ " - (" ++ value ++
    " < " ++ ("CAST(" ++ value ++ " AS INTEGER)") ++ "))" := rfl

def convert (direction : Direction) : List Text → Option Text
  | [value] =>
    if isRandom value then
      some ("(SELECT " ++ round direction "v" ++ " FROM (SELECT " ++ value ++
        " AS v LIMIT 1 OFFSET 0))")
    else some (round direction value)
  | _ => none

end LiteSql.Rounding
