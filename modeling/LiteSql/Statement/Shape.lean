import LiteSql.Fault
import LiteSql.Text.Case

/-! The shape of a statement, which decides its layout. -/

namespace LiteSql

inductive Shape
  | definition
  | aggregateQuery
  | plainQuery
  deriving DecidableEq, Repr

namespace Shape

def name : Shape → Text
  | definition => "definition"
  | aggregateQuery => "aggregate-query"
  | plainQuery => "plain-query"

def all : List Shape := [definition, aggregateQuery, plainQuery]

def ofName (name : Text) : Except Fault Shape :=
  match all.find? (·.name == name) with
  | some shape => .ok shape
  | none => .error (.unknownShape name)

/-- The shape as its words tell it. The statement is not taken apart, so words in a literal count
too. -/
def detect (s : Text) : Shape :=
  let lower := lowerAscii s
  if "create table".toList.isPrefixOf lower then definition
  else if includes "group_concat" lower then aggregateQuery
  else plainQuery

theorem ofName_name (shape : Shape) : ofName shape.name = .ok shape := by
  cases shape <;> rfl

end Shape

end LiteSql
