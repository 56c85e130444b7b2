import LiteSql.Text.Digit
import LiteSql.Text.Quoted

/-! What can go wrong, as causes, and the wording of each cause. -/

namespace LiteSql

inductive Fault
  /-- A position lies outside the text. -/
  | outsideText
  | notAnOpening (pos : Int) (found : Char)
  | unclosed (pos : Int)
  | unknownShape (name : Text)
  /-- A number has more digits than are read. -/
  | tooManyDigits (count : Nat)
  /-- A rule has a name and nothing to apply. -/
  | undefinedRule
  | loneOpenBrace
  | loneCloseBrace
  | openField
  | braceInField
  | indexTooLarge
  | manualAfterAutomatic
  | automaticAfterManual
  | missingArgument (index : Nat)
  | namedArgument (name : Text)
  deriving DecidableEq, Repr

def digitLimit : Nat := 4300

def Fault.message : Fault → Text
  | outsideText => "string index out of range"
  | notAnOpening pos found =>
    "Character at position " ++ integerDecimal pos ++ " is " ++ quoted [found] ++ ", not '('"
  | unclosed pos => "No matching closing paren for '(' at position " ++ integerDecimal pos
  | unknownShape name => quoted name ++ " is not a valid Shape"
  | tooManyDigits count =>
    "Exceeds the limit (" ++ decimal digitLimit ++
      " digits) for integer string conversion: value has " ++ decimal count ++
      " digits; use sys.set_int_max_str_digits() to increase the limit"
  | undefinedRule => []
  | loneOpenBrace => "Single '\x7b' encountered in format string"
  | loneCloseBrace => "Single '\x7d' encountered in format string"
  | openField => "expected '\x7d' before end of string"
  | braceInField => "unexpected '\x7b' in field name"
  | indexTooLarge => "Too many decimal digits in format string"
  | manualAfterAutomatic =>
    "cannot switch from automatic field numbering to manual field specification"
  | automaticAfterManual =>
    "cannot switch from manual field specification to automatic field numbering"
  | missingArgument index =>
    "Replacement index " ++ decimal index ++ " out of range for positional args tuple"
  | namedArgument name => quoted name

end LiteSql
