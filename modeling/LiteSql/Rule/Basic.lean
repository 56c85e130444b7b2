import LiteSql.Call
import LiteSql.Pattern.Match
import LiteSql.Template

/-! Rules, which change a statement text as a whole, and runs of several rules. -/

namespace LiteSql

inductive Rule
  /-- A name without a meaning; it cannot be applied. -/
  | undefined (name : Text)
  /-- Writes the calls of a function with `arity` arguments by a template. -/
  | template (name function : Text) (arity : Int) (parts : Template)
  /-- Replaces the calls of a function by what `action` makes of their arguments. -/
  | call (name function : Text) (action : List Text → Except Fault (Option Text))
  /-- Replaces the matches of a pattern in code. -/
  | pattern (name : Text) (wanted : Pattern) (replacement : Match → Text)

namespace Rule

def name : Rule → Text
  | undefined name => name
  | template name _ _ _ => name
  | call name _ _ => name
  | pattern name _ _ => name

def function? : Rule → Option Text
  | template _ function _ _ => some function
  | call _ function _ => some function
  | undefined _ | pattern _ _ _ => none

def apply : Rule → Text → Except Fault Text
  | undefined _, _ => .error .undefinedRule
  | template _ function arity parts, s => replaceCallsM function (parts.fillExactly arity) s
  | call _ function action, s => replaceCallsM function action s
  | pattern _ wanted replacement, s => .ok (wanted.replaceCode replacement s)

def total (name function : Text) (action : List Text → Option Text) : Rule :=
  call name function fun arguments => .ok (action arguments)

def constant (name : Text) (wanted : Pattern) (replacement : Text) : Rule :=
  pattern name wanted fun _ => replacement

structure Step where
  rule : Text
  text : Text
  deriving DecidableEq, Repr

/-- Applies rules in order, each to the text that the ones before it left. Gives the steps that
changed the text and the text at the end. -/
def run : List Rule → Text → Except Fault (List Step × Text)
  | [], s => .ok ([], s)
  | rule :: rules, s => do
    let changed ← rule.apply s
    let (steps, last) ← run rules changed
    return (if changed = s then steps else ⟨rule.name, changed⟩ :: steps, last)

end Rule

end LiteSql
