import LiteSql.Call
import LiteSql.Comment
import LiteSql.Construct.GroupConcat
import LiteSql.Statement.Shape

/-! The layout of a statement by its shape. -/

namespace LiteSql

namespace Layout

def indent : Text := "    "

def header : Pattern :=
  .all ["CREATE", .gap, "TABLE", .gap,
    .optional (.capture "unless" (.all ["IF", .gap, "NOT", .gap, "EXISTS", .gap])),
    .capture "table" (.someOf fun c => !isBlank c && c != '('), .blanks]

structure Definition where
  unlessExists : Bool
  table : Text
  /-- Columns and constraints, none of them blank. -/
  columns : List Text
  /-- What follows the column list. -/
  tail : Text
  deriving DecidableEq, Repr

namespace Definition

def read? (s : Text) : Option Definition := do
  let head ← header.matchStart? s
  if s[head.stop]? ≠ some '(' then none
  let body := s.drop (head.stop + 1)
  let close ← closing? body
  let columns := ((splitArguments (body.take close)).map onOneLine).filter (!·.isEmpty)
  if columns.isEmpty then none
  return {
    unlessExists := (head.captured? "unless").isSome
    table := (head.captured? "table").getD []
    columns := columns
    tail := trim (dropEndWhile (· == ';') (onOneLine (body.drop (close + 1)))) }

def columnLines : List Text → List Text
  | [] => []
  | [column] => [indent ++ column]
  | column :: next :: rest => (indent ++ column ++ ",") :: columnLines (next :: rest)

def firstLine (d : Definition) : Text :=
  "CREATE TABLE " ++ (if d.unlessExists then "IF NOT EXISTS " else "").toList ++ d.table ++ " ("

def lastLine (d : Definition) : Text :=
  if d.tail.isEmpty then ");" else ") " ++ d.tail ++ ";"

def write (d : Definition) : Text :=
  joinWith "\n" (d.firstLine :: (columnLines d.columns ++ [d.lastLine]))

end Definition

/-- A table definition with one line for each column or constraint. Anything else stays. -/
def definition (s : Text) : Text := ((Definition.read? s).map Definition.write).getD s

/-- Normal form for the calls of group concatenation; all else stays. -/
def aggregateQuery (s : Text) : Text :=
  replaceCalls GroupConcat.function (fun arguments => some (GroupConcat.normalize arguments)) s

def clauses : List Text := ["FROM", "WHERE", "GROUP BY", "HAVING", "ORDER BY", "LIMIT"]

def startsClause (line : Text) : Bool := clauses.any (·.isPrefixOf (upperText line))

def startsSelect (line : Text) : Bool := "SELECT".toList.isPrefixOf (upperText line)

/-- Indents the lines after a SELECT up to the next clause. `inSelect` tells whether the first line
stands there. -/
def indentLines (inSelect : Bool) : List Text → List Text
  | [] => []
  | line :: rest =>
    let inSelect := inSelect && !startsClause line
    (if inSelect then indent ++ line else line) :: indentLines (inSelect || startsSelect line) rest

/-- Whether a query has one line and neither a condition nor a grouping. -/
def isSimple (s : Text) : Bool :=
  let lower := lowerAscii s
  !s.contains '\n' && !includes "case when" lower && !includes "group by" lower

/-- A simple query on one line; otherwise its lines, trimmed and indented again. -/
def plainQuery (s : Text) : Text :=
  if isSimple s then collapseBlanks s
  else joinWith "\n" (indentLines false (((lines s).map trim).filter (!·.isEmpty)))

end Layout

def Shape.layout : Shape → Text → Text
  | definition => Layout.definition
  | aggregateQuery => Layout.aggregateQuery
  | plainQuery => Layout.plainQuery

end LiteSql
