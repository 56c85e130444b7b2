import LiteSql.Fault
import LiteSql.Pattern.Match

/-! Dates moved by a number of days. -/

namespace LiteSql.DayInterval

def interval : Pattern :=
  .all ["INTERVAL", .gap, .capture "sign" (.optional (.one fun c => c == '+' || c == '-')),
    .blanks, .capture "days" .digits, .gap, "DAY", .atEnd]

def days (m : Match) : Except Fault Int :=
  let digits := (m.captured? "days").getD []
  if digitLimit < digits.length then .error (.tooManyDigits digits.length)
  else
    let count : Int := numberValue digits
    .ok (if m.captured? "sign" = some ['-'] then -count else count)

/-- A date moved by an interval of days, which counts `direction` times. Other arguments have no
answer. -/
def move (direction : Int) : List Text → Except Fault (Option Text)
  | [date, amount] =>
    match interval.matchStart? amount with
    | none => .ok none
    | some m => do
      let offset := direction * (← days m)
      return some ("DATETIME(" ++ date ++ ", '" ++ signedDecimal offset ++ " days')")
  | _ => .ok none

end LiteSql.DayInterval
