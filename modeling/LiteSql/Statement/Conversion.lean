import LiteSql.Rule.Table
import LiteSql.Statement.Cleanup
import LiteSql.Statement.Layout
import LiteSql.Statement.Unsupported

/-! The conversion of a MySQL statement into SQLite: the rules, cleanup, comments for what is
unsupported, and last the layout, since the shape is read off the converted text. -/

namespace LiteSql

inductive Event
  | changed (rule : Text)
  | unsupported (fragment : Text)
  | laidOut (shape : Shape)
  deriving DecidableEq, Repr

def Event.message : Event → Text
  | changed rule => "Rule " ++ quoted rule ++ " rewrote statement"
  | unsupported fragment => "Unsupported construct: " ++ fragment
  | laidOut shape => "Formatting statement as " ++ shape.name

structure Conversion where
  text : Text
  unsupported : List Unsupported
  events : List Event
  deriving DecidableEq, Repr

def Conversion.mark (s : Text) : Conversion :=
  let (text, unsupported) := markUnsupported s
  ⟨text, unsupported, unsupported.map fun construct => .unsupported construct.fragment⟩

/-- Applies rules, cleans the statement and marks what is unsupported. -/
def adapt (rules : List Rule) (s : Text) : Except Fault Conversion := do
  let (steps, converted) ← Rule.run rules s
  let marked := Conversion.mark (Cleanup.clean converted)
  return { marked with events := steps.map (.changed ·.rule) ++ marked.events }

/-- Adapts a statement and lays it out by its shape. -/
def convert (rules : List Rule) (s : Text) : Except Fault Conversion := do
  let adapted ← adapt rules s
  let shape := Shape.detect adapted.text
  return { adapted with
    text := shape.layout adapted.text
    events := adapted.events ++ [.laidOut shape] }

end LiteSql
