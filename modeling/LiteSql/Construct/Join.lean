import LiteSql.Pattern.Match

/-! Joins. Every outer join becomes a left join, which keeps other rows for right and full joins,
and a join with no kind becomes an inner join. -/

namespace LiteSql.Join

open Pattern

def outer : Pattern :=
  all [boundary, anyOf ["LEFT", "RIGHT", "FULL"], gap, optional (all ["OUTER", gap]), "JOIN",
    boundary]

/-- The word JOIN with the word before it, if only blanks stand between. -/
def join : Pattern :=
  all [optional (all [boundary, capture "word" word, capture "gap" gap]), boundary, "JOIN",
    boundary]

def qualifiers : List Text := ["LEFT", "RIGHT", "FULL", "OUTER", "CROSS", "NATURAL"]

def convert (m : Match) : Text :=
  match m.captured? "word" with
  | none => "INNER JOIN"
  | some word =>
    if upperText word = "INNER" then "INNER JOIN"
    else if upperText word ∈ qualifiers then m.text
    else word ++ (m.captured? "gap").getD [] ++ "INNER JOIN"

end LiteSql.Join
